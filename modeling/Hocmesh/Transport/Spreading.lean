/-
Which peer is asked for which missing chunk: `plan_seeding` (`hocmesh-transport/src/lib.rs`).

Chunks are planned in the order of their rarity, so that the choice is made while it is still a choice, and each goes to the
healthiest peer that has it with the fewest requests so far. The plan is an instance of `Base.LeastLoaded`.
-/
import Mathlib.Data.List.MinMax
import Mathlib.Data.Prod.Lex
import Mathlib.Order.Lex
import Hocmesh.Base.Balance
import Hocmesh.Base.Table
import Hocmesh.Model.Store

namespace Hocmesh.Transport

open Hocmesh.Base Hocmesh.Model

structure PeerInventory where
  peer : String
  chunks : List String
  latencyMs : ℕ
  failures : ℕ
deriving DecidableEq

structure SeedAssignment where
  chunk : ChunkRef
  peer : String
deriving DecidableEq

/-- the peers that have a chunk -/
def holding (peers : List PeerInventory) (chunk : ChunkRef) : List PeerInventory :=
  peers.filter fun peer => chunk.sha256 ∈ peer.chunks

/-- the chunks that are not here yet, rarest first and otherwise in their order -/
def missingChunks (manifest : ModelManifest) (here : List String) (peers : List PeerInventory) : List ChunkRef :=
  (manifest.chunks.filter fun chunk => chunk.sha256 ∉ here).insertionSort fun a b =>
    (holding peers a).length ≤ (holding peers b).length

/-- what the loop keeps: how many requests each name has, and the plan so far -/
structure Planned where
  peerLoad : Table String ℕ
  assignments : List SeedAssignment

/-- what peers are compared by: failures, then requests, then latency -/
def Planned.key (p : Planned) (peer : PeerInventory) : ℕ ×ₗ ℕ ×ₗ ℕ :=
  toLex (peer.failures, toLex (p.peerLoad[peer.peer]?.getD 0, peer.latencyMs))

/-- one round of the loop; `argmin` stays with the first of several, as `min_by_key` does -/
def Planned.assign (peers : List PeerInventory) (p : Planned) (chunk : ChunkRef) : Check Planned := do
  let peer ← orBail ((holding peers chunk).argmin p.key) s!"no peer has chunk {chunk.sha256}"
  pure { peerLoad := p.peerLoad.insert peer.peer (p.peerLoad[peer.peer]?.getD 0 + 1)
         assignments := p.assignments ++ [⟨chunk, peer.peer⟩] }

def planSeeding (manifest : ModelManifest) (here : List String) (peers : List PeerInventory) : Check (List SeedAssignment) := do
  manifest.validate
  let planned ← (missingChunks manifest here peers).foldlM (Planned.assign peers) ⟨∅, []⟩
  pure planned.assignments

/-! ## One chunk after another -/

/-- the requests behind a plan, each with the peer that was chosen -/
structure Requests (peers : List PeerInventory) (chunks : List ChunkRef) (p : Planned)
    (given : List (ChunkRef × PeerInventory)) : Prop where
  assignments : p.assignments = given.map fun g => ⟨g.1, g.2.peer⟩
  chunks : given.map (·.1) = chunks
  healthiest : ∀ g ∈ given, g.2 ∈ holding peers g.1 ∧ ∀ other ∈ holding peers g.1, g.2.failures ≤ other.failures
  counted : ∀ name, p.peerLoad[name]?.getD 0 = given.countP fun g => g.2.peer = name
  /-- a name is a peer, if no two peers have one name -/
  fair : (peers.map (·.peer)).Nodup →
    LeastLoaded (fun chunk peer => peer ∈ holding peers chunk) (fun peer : PeerInventory => peer.failures) given

section

variable {peers : List PeerInventory} {chunks : List ChunkRef} {p p' : Planned} {given : List (ChunkRef × PeerInventory)}

theorem requests_start (peers : List PeerInventory) : Requests peers [] ⟨∅, []⟩ [] where
  assignments := rfl
  chunks := rfl
  healthiest := fun g hg => nomatch hg
  counted := fun name => by simp
  fair := fun _ => .nil

theorem assign_ok {chunk : ChunkRef} (h : p.assign peers chunk = .ok p') :
    ∃ peer, (holding peers chunk).argmin p.key = some peer ∧
      p' = ⟨p.peerLoad.insert peer.peer (p.peerLoad[peer.peer]?.getD 0 + 1), p.assignments ++ [⟨chunk, peer.peer⟩]⟩ := by
  simp only [Planned.assign, bind_ok, orBail_ok, pure_ok] at h
  obtain ⟨peer, hpeer, rfl⟩ := h
  exact ⟨peer, hpeer, rfl⟩

/-- a peer is chunk's healthiest, and the least busy among those -/
theorem key_le_iff (p : Planned) (peer other : PeerInventory) (h : p.key peer ≤ p.key other) :
    peer.failures < other.failures ∨ peer.failures = other.failures ∧
      p.peerLoad[peer.peer]?.getD 0 ≤ p.peerLoad[other.peer]?.getD 0 := by
  rw [Planned.key, Planned.key, Prod.Lex.toLex_le_toLex] at h
  refine h.imp_right fun heq => ⟨heq.1, ?_⟩
  rcases Prod.Lex.toLex_le_toLex.1 heq.2 with hlt | hle
  · exact hlt.le
  · exact hle.1.le

/-- with one peer to a name, the requests of a name are those of its peer -/
theorem countP_name (hnames : (peers.map (·.peer)).Nodup) (hgiven : ∀ g ∈ given, g.2 ∈ peers) {peer : PeerInventory}
    (hpeer : peer ∈ peers) : (given.countP fun g => g.2.peer = peer.peer) = loadOf given peer := by
  refine List.countP_congr fun g hg => ?_
  rw [decide_eq_true_eq, decide_eq_true_eq]
  exact ⟨fun heq => List.inj_on_of_nodup_map hnames (hgiven g hg) hpeer heq, congrArg PeerInventory.peer⟩

theorem mem_of_holding {chunk : ChunkRef} {peer : PeerInventory} (h : peer ∈ holding peers chunk) : peer ∈ peers :=
  (List.mem_filter.1 h).1

/-- **Step.** One more chunk is planned. -/
theorem Requests.assign (h : Requests peers chunks p given) {chunk : ChunkRef} (hassign : p.assign peers chunk = .ok p') :
    ∃ peer, Requests peers (chunks ++ [chunk]) p' (given ++ [(chunk, peer)]) := by
  obtain ⟨peer, hpeer, rfl⟩ := assign_ok hassign
  have hholds : peer ∈ holding peers chunk := List.argmin_mem hpeer
  have hleast : ∀ other ∈ holding peers chunk, p.key peer ≤ p.key other := fun other hother =>
    List.le_of_mem_argmin hother hpeer
  refine ⟨peer, ?_⟩
  constructor
  case assignments => rw [h.assignments, List.map_append, List.map_singleton]
  case chunks => rw [List.map_append, List.map_singleton, h.chunks]
  case healthiest =>
    intro g hg
    rcases List.mem_append.1 hg with hold | hnew
    · exact h.healthiest g hold
    · rw [List.mem_singleton.1 hnew]
      refine ⟨hholds, fun other hother => ?_⟩
      exact (key_le_iff p peer other (hleast other hother)).elim le_of_lt fun heq => heq.1.le
  case counted =>
    intro name
    rw [Table.get_insert, List.countP_append, List.countP_singleton]
    by_cases hname : peer.peer = name
    · subst hname
      rw [if_pos rfl, Option.getD_some, h.counted]
      simp
    · rw [if_neg hname, h.counted]
      simp [hname]
  case fair =>
    intro hnames
    have hin : ∀ g ∈ given, g.2 ∈ peers := fun g hg => mem_of_holding (h.healthiest g hg).1
    refine .give (h.fair hnames) hholds fun other hother => ?_
    refine (key_le_iff p peer other (hleast other hother)).imp_right fun heq => ⟨heq.1, ?_⟩
    calc loadOf given peer = given.countP fun g => g.2.peer = peer.peer := (countP_name hnames hin (mem_of_holding hholds)).symm
      _ = p.peerLoad[peer.peer]?.getD 0 := (h.counted _).symm
      _ ≤ p.peerLoad[other.peer]?.getD 0 := heq.2
      _ = given.countP fun g => g.2.peer = other.peer := h.counted _
      _ = loadOf given other := countP_name hnames hin (mem_of_holding hother)

/-- **Run.** The whole loop. -/
theorem Requests.assignAll (more : List ChunkRef) : ∀ {chunks : List ChunkRef} {p p' : Planned}
    {given : List (ChunkRef × PeerInventory)}, Requests peers chunks p given →
    more.foldlM (Planned.assign peers) p = .ok p' → ∃ given', Requests peers (chunks ++ more) p' given' := by
  induction more with
  | nil =>
    intro chunks p p' given h hrun
    cases hrun
    exact ⟨given, by rwa [List.append_nil]⟩
  | cons chunk more ih =>
    intro chunks p p' given h hrun
    rw [List.foldlM_cons, bind_ok] at hrun
    obtain ⟨p₁, hone, hrest⟩ := hrun
    obtain ⟨peer, hstep⟩ := h.assign hone
    obtain ⟨given', hall⟩ := ih hstep hrest
    rw [List.append_assoc, List.singleton_append] at hall
    exact ⟨given', hall⟩

/-- the loop goes through exactly when every chunk has a peer -/
theorem assignAll_iff (peers : List PeerInventory) (chunks : List ChunkRef) : ∀ p : Planned,
    (∃ p', chunks.foldlM (Planned.assign peers) p = .ok p') ↔ ∀ chunk ∈ chunks, holding peers chunk ≠ [] := by
  induction chunks with
  | nil => exact fun p => iff_of_true ⟨p, rfl⟩ (fun chunk hchunk => nomatch hchunk)
  | cons chunk chunks ih =>
    intro p
    rw [List.forall_mem_cons]
    constructor
    · rintro ⟨p', hrun⟩
      rw [List.foldlM_cons, bind_ok] at hrun
      obtain ⟨p₁, hone, hrest⟩ := hrun
      obtain ⟨peer, hpeer, -⟩ := assign_ok hone
      exact ⟨List.ne_nil_of_mem (List.argmin_mem hpeer), (ih p₁).1 ⟨p', hrest⟩⟩
    · rintro ⟨hchunk, hmore⟩
      obtain ⟨peer, hpeer⟩ := Option.ne_none_iff_exists'.1 (fun hnone => hchunk (List.argmin_eq_none.1 hnone) :
        (holding peers chunk).argmin p.key ≠ none)
      have hone : p.assign peers chunk = .ok ⟨p.peerLoad.insert peer.peer (p.peerLoad[peer.peer]?.getD 0 + 1),
          p.assignments ++ [⟨chunk, peer.peer⟩]⟩ := by
        rw [Planned.assign, hpeer]
        rfl
      obtain ⟨p', hrest⟩ := (ih _).2 hmore
      exact ⟨p', by rw [List.foldlM_cons, hone]; exact hrest⟩

/-! ## The order of the plan -/

theorem missingChunks_perm (manifest : ModelManifest) (here : List String) (peers : List PeerInventory) :
    (missingChunks manifest here peers).Perm (manifest.chunks.filter fun chunk => chunk.sha256 ∉ here) :=
  List.perm_insertionSort _ _

/-- chunks of one rarity keep their order -/
theorem missingChunks_stable (manifest : ModelManifest) (here : List String) (peers : List PeerInventory) (n : ℕ) :
    (missingChunks manifest here peers).filter (fun chunk => (holding peers chunk).length = n) =
      (manifest.chunks.filter fun chunk => chunk.sha256 ∉ here).filter fun chunk => (holding peers chunk).length = n := by
  have hperm := (missingChunks_perm manifest here peers).filter fun chunk => (holding peers chunk).length = n
  set alike := (manifest.chunks.filter fun chunk => chunk.sha256 ∉ here).filter
    fun chunk => (holding peers chunk).length = n with halike
  have hsame : ∀ chunk ∈ alike, (holding peers chunk).length = n := fun chunk hchunk =>
    of_decide_eq_true (List.mem_filter.1 hchunk).2
  have hpair : alike.Pairwise fun a b => (holding peers a).length ≤ (holding peers b).length :=
    List.pairwise_of_forall_mem_list fun a ha b hb => by rw [hsame a ha, hsame b hb]
  have hsub : alike.Sublist (missingChunks manifest here peers) :=
    List.sublist_insertionSort hpair List.filter_sublist
  have hfilter := hsub.filter fun chunk => decide ((holding peers chunk).length = n)
  rw [List.filter_eq_self.2 fun chunk hchunk => decide_eq_true (hsame chunk hchunk)] at hfilter
  exact (hfilter.eq_of_length hperm.length_eq.symm).symm

end

/-- **A seeding plan.** There is one exactly when the manifest is valid and every chunk that is not here has a peer. It asks
once for every such chunk, rarest first and otherwise in the order of the manifest, and asks a peer that has it, none that has
it having failed less. With one peer to a name, no peer is asked for more than one chunk more than another that failed as
often and has everything the first is asked for. -/
theorem seeding_spread (manifest : ModelManifest) (here : List String) (peers : List PeerInventory) :
    ((∃ plan, planSeeding manifest here peers = .ok plan) ↔ manifest.validate = .ok () ∧
      ∀ chunk ∈ manifest.chunks, chunk.sha256 ∉ here → ∃ peer ∈ peers, chunk.sha256 ∈ peer.chunks) ∧
    ∀ plan, planSeeding manifest here peers = .ok plan →
      (plan.map (·.chunk)).Perm (manifest.chunks.filter fun chunk => chunk.sha256 ∉ here) ∧
      (plan.map (·.chunk)).Pairwise (fun a b => (holding peers a).length ≤ (holding peers b).length) ∧
      (∀ n, (plan.map (·.chunk)).filter (fun chunk => (holding peers chunk).length = n) =
        (manifest.chunks.filter fun chunk => chunk.sha256 ∉ here).filter fun chunk => (holding peers chunk).length = n) ∧
      (∀ a ∈ plan, ∃ peer ∈ holding peers a.chunk, peer.peer = a.peer ∧
        ∀ other ∈ holding peers a.chunk, peer.failures ≤ other.failures) ∧
      ((peers.map (·.peer)).Nodup → ∀ peer ∈ peers, ∀ other ∈ peers, peer.failures = other.failures →
        (∀ a ∈ plan, a.peer = peer.peer → a.chunk.sha256 ∈ other.chunks) →
        (plan.countP fun a => a.peer = peer.peer) ≤ (plan.countP fun a => a.peer = other.peer) + 1) := by
  refine ⟨?_, ?_⟩
  · have hplan : (∃ plan, planSeeding manifest here peers = .ok plan) ↔ manifest.validate = .ok () ∧
        ∃ p', (missingChunks manifest here peers).foldlM (Planned.assign peers) ⟨∅, []⟩ = .ok p' := by
      simp only [planSeeding, bind_ok, exists_ok_unit_and, pure_ok]
      constructor
      · rintro ⟨_, hvalid, p', hrun, _⟩
        exact ⟨hvalid, p', hrun⟩
      · rintro ⟨hvalid, p', hrun⟩
        exact ⟨_, hvalid, p', hrun, rfl⟩
    rw [hplan, assignAll_iff]
    refine and_congr_right fun _ => ?_
    simp only [(missingChunks_perm manifest here peers).mem_iff, List.mem_filter, decide_eq_true_eq, and_imp]
    refine forall₃_congr fun chunk _ _ => ?_
    simp [holding, List.filter_eq_nil_iff]
  · intro plan hplan
    simp only [planSeeding, bind_ok, exists_ok_unit_and, pure_ok] at hplan
    obtain ⟨-, p, hrun, rfl⟩ := hplan
    obtain ⟨given, h⟩ := (requests_start peers).assignAll _ hrun
    rw [List.nil_append] at h
    have hchunks : p.assignments.map (·.chunk) = missingChunks manifest here peers := by
      rw [h.assignments, List.map_map, ← h.chunks]
      rfl
    have hin : ∀ g ∈ given, g.2 ∈ peers := fun g hg => mem_of_holding (h.healthiest g hg).1
    rw [hchunks]
    refine ⟨missingChunks_perm manifest here peers, List.pairwise_insertionSort _ _, missingChunks_stable manifest here peers,
      ?_, ?_⟩
    · intro a ha
      rw [h.assignments] at ha
      obtain ⟨g, hg, rfl⟩ := List.mem_map.1 ha
      obtain ⟨hholds, hleast⟩ := h.healthiest g hg
      exact ⟨g.2, hholds, rfl, hleast⟩
    · intro hnames peer hpeer other hother hfail hhas
      have hcount : ∀ x ∈ peers, (p.assignments.countP fun a => a.peer = x.peer) = loadOf given x := by
        intro x hx
        rw [h.assignments, List.countP_map, ← countP_name hnames hin hx]
        rfl
      rw [hcount peer hpeer, hcount other hother]
      refine (h.fair hnames).balanced hfail fun g hg heq => ?_
      refine List.mem_filter.2 ⟨hother, decide_eq_true ?_⟩
      refine hhas ⟨g.1, g.2.peer⟩ ?_ (congrArg (·.peer) heq)
      rw [h.assignments]
      exact List.mem_map.2 ⟨g, hg, rfl⟩

end Hocmesh.Transport
