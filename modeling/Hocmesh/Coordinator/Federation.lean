/-
Which coordinator hands out which job (`hocmesh-coordinator/src/federation.rs`).

A coordinator ranks the members it believes alive by a hash of their name and the job, and the highest rank owns the job.
`Federation` carries what `Federation::new` checks: every peer is kept under its own name, and none has this
coordinator's. Who is alive changes by probes alone; the owner is a function of who is alive.
-/
import Hocmesh.Base.Choice
import Hocmesh.Base.Table
import Hocmesh.Network.Client
import Mathlib.Data.Prod.Lex
import Mathlib.Data.String.Basic

namespace Hocmesh.Coordinator

open Hocmesh.Base Hocmesh.Protocol Hocmesh.Ledger

/-! ## The federation as one coordinator sees it -/

structure PeerConfig where
  coordinatorId : String
  region : String
  url : String
deriving DecidableEq

/-- the file an operator hands to `--federation` -/
structure FederationConfig where
  coordinatorId : String
  region : String
  advertise : String
  peers : List PeerConfig
  probeIntervalSecs : ℕ
  missesBeforeDown : ℕ

/-- what is currently believed about one peer -/
structure PeerHealth where
  coordinatorId : String
  region : String
  url : String
  up : Bool
  consecutiveMisses : ℕ
  lastOkUnix : Option ℤ
  lastError : Option String

inductive Transition where
  | cameUp
  | wentDown
deriving DecidableEq

structure Federation where
  me : PeerConfig
  advertise : String
  probeIntervalSecs : ℕ
  missesBeforeDown : ℕ
  health : Table String PeerHealth
  named : ∀ (id : String) (peer : PeerHealth), health[id]? = some peer → peer.coordinatorId = id
  others : me.coordinatorId ∉ health

namespace Federation

/-- `trim().is_empty()` -/
def blank (s : String) : Prop := s.toList.all isWhitespace = true

instance (s : String) : Decidable (blank s) := by unfold blank; infer_instance

/-- `trim_end_matches('/')` -/
def trimSlashes (url : String) : String := String.ofList (url.toList.reverse.dropWhile (· = '/')).reverse

/-- a peer before its first probe: gone, with every miss used up -/
def unseen (misses : ℕ) (peer : PeerConfig) : PeerHealth :=
  { coordinatorId := peer.coordinatorId, region := peer.region, url := trimSlashes peer.url, up := false,
    consecutiveMisses := misses, lastOkUnix := none, lastError := none }

/-- the peers of a config, each under its own name -/
structure Peers (me : String) where
  health : Table String PeerHealth
  named : ∀ (id : String) (peer : PeerHealth), health[id]? = some peer → peer.coordinatorId = id
  others : me ∉ health

/-- one peer of the config -/
def Peers.add {me : String} (misses : ℕ) (ps : Peers me) (peer : PeerConfig) : Check (Peers me) := do
  bailIf (blank peer.coordinatorId) "every federation peer needs a coordinator_id"
  if hnew : peer.coordinatorId = me ∨ peer.coordinatorId ∈ ps.health then
    .error s!"coordinator id {peer.coordinatorId} appears twice in the federation; ownership would be ambiguous"
  else do
    bailIf (blank peer.url) s!"federation peer {peer.coordinatorId} needs a url"
    pure { health := ps.health.insert peer.coordinatorId (unseen misses peer)
           named := by
            intro id held hheld
            rw [Table.get_insert] at hheld
            split_ifs at hheld with heq
            · rw [← Option.some.inj hheld]
              exact heq
            · exact ps.named id held hheld
           others := by
            rw [Std.ExtTreeMap.mem_insert, Std.LawfulEqOrd.compare_eq_iff_eq]
            exact not_or.2 ⟨fun heq => hnew (Or.inl heq), ps.others⟩ }

/-- `Federation::new` -/
def new (config : FederationConfig) : Check Federation := do
  bailIf (blank config.coordinatorId) "federation config needs a coordinator_id"
  bailIf (config.missesBeforeDown = 0) "misses_before_down must be at least 1, or a single dropped probe evicts a peer"
  bailIf (config.probeIntervalSecs = 0) "probe_interval_secs must be at least 1"
  let ps ← config.peers.foldlM (Peers.add config.missesBeforeDown)
    (⟨∅, by simp, by simp⟩ : Peers config.coordinatorId)
  pure { me := ⟨config.coordinatorId, config.region, trimSlashes config.advertise⟩
         advertise := config.advertise, probeIntervalSecs := config.probeIntervalSecs
         missesBeforeDown := config.missesBeforeDown, health := ps.health, named := ps.named, others := ps.others }

/-- what one probe leaves of a peer -/
def probed (misses : ℕ) (peer : PeerHealth) (outcome : Except String Unit) (now : ℤ) : PeerHealth :=
  match outcome with
  | .ok () => { peer with consecutiveMisses := 0, lastOkUnix := some now, lastError := none, up := true }
  | .error e =>
    let missed := min (peer.consecutiveMisses + 1) (2 ^ 32 - 1)
    { peer with consecutiveMisses := missed, lastError := some e, up := decide (missed < misses) }

theorem probed_id (misses : ℕ) (peer : PeerHealth) (outcome : Except String Unit) (now : ℤ) :
    (probed misses peer outcome now).coordinatorId = peer.coordinatorId := by
  cases outcome with
  | ok u => rfl
  | error e => rfl

/-- fold one probe result into a peer's health -/
def recordProbe (f : Federation) (id : String) (outcome : Except String Unit) (now : ℤ) :
    Federation × Option Transition :=
  match h : f.health[id]? with
  | none => (f, none)
  | some peer =>
    let after := probed f.missesBeforeDown peer outcome now
    let health := f.health.insert id after
    ({ f with
        health := health
        named := by
          intro other held hheld
          rw [Table.get_insert] at hheld
          split_ifs at hheld with heq
          · rw [← Option.some.inj hheld, probed_id, f.named id peer h, heq]
          · exact f.named other held hheld
        others := by
          rw [Std.ExtTreeMap.mem_insert, Std.LawfulEqOrd.compare_eq_iff_eq]
          refine not_or.2 ⟨fun heq => f.others ?_, f.others⟩
          rw [← heq, Std.ExtTreeMap.mem_iff_isSome_getElem?, h]
          rfl },
      match peer.up, after.up with
      | false, true => some .cameUp
      | true, false => some .wentDown
      | _, _ => none)

/-- coordinators believed alive, this one always included -/
def live (f : Federation) : List String :=
  (f.me.coordinatorId :: ((f.health.toList.map (·.2)).filter (·.up)).map (·.coordinatorId)).insertionSort (· ≤ ·)

end Federation

/-! ## The owner of a job -/

/-- `char::to_digit(16)` -/
def hexValue (ch : Char) : Option ℕ :=
  let n := ch.toNat
  if 48 ≤ n ∧ n ≤ 57 then some (n - 48)
  else if 97 ≤ n ∧ n ≤ 102 then some (n - 87)
  else if 65 ≤ n ∧ n ≤ 70 then some (n - 55)
  else none

/-- `u64::from_str_radix(text, 16).ok()` -/
def fromStrRadix16 (text : String) : Option ℕ :=
  let digits := match text.toList with
    | '+' :: rest => rest
    | digits => digits
  if digits = [] then none
  else digits.foldlM (fun value ch => (hexValue ch).bind fun d =>
    if value * 16 + d < 2 ^ 64 then some (value * 16 + d) else none) 0

section

variable (c : Crypto)

/-- a coordinator's rendezvous weight for a job: the leading 64 bits of a hash of both names -/
def weight (coordinatorId jobId : String) : ℕ :=
  (fromStrRadix16 (firstChars 16 (hashBytes c (bytesOf (coordinatorId ++ "\x00" ++ jobId))))).getD 0

/-- whether `max_by` stays with the first of two members -/
def outweighs (jobId a b : String) : Bool :=
  decide (weight c b jobId < weight c a jobId ∨ weight c b jobId = weight c a jobId ∧ b < a)

/-- the highest-weighted member of `live` for this job -/
def owner (jobId : String) (live : List String) : Option String := Network.maxBy (outweighs c jobId) live

/-- which coordinator should be handing out this job's shards -/
def Federation.ownerOf (f : Federation) (jobId : String) : String :=
  (owner c jobId f.live).getD f.me.coordinatorId

/-- whether this coordinator should be handing out this job's shards -/
def Federation.owns (f : Federation) (jobId : String) : Prop := f.ownerOf c jobId = f.me.coordinatorId

instance (f : Federation) (jobId : String) : Decidable (f.owns c jobId) := by unfold Federation.owns; infer_instance

end

/-! ## One owner -/

section

variable {c : Crypto} {jobId : String}

/-- what members are ranked by: the weight, and the name where weights collide -/
def rank (c : Crypto) (jobId id : String) : ℕ ×ₗ String := toLex (weight c id jobId, id)

theorem rank_injective (c : Crypto) (jobId : String) : Function.Injective (rank c jobId) := by
  intro a b h
  exact congrArg (fun r => (ofLex r).2) h

theorem outweighs_iff (a b : String) : outweighs c jobId a b = true ↔ rank c jobId b < rank c jobId a := by
  rw [outweighs, decide_eq_true_eq, rank, rank, Prod.Lex.toLex_lt_toLex]

/-- the owner is the member at the top -/
theorem owner_iff {live : List String} {o : String} :
    owner c jobId live = some o ↔ AtTop (rank c jobId) live o := by
  cases live with
  | nil =>
    constructor
    · intro h
      cases h
    · intro h
      cases h.mem
  | cons first rest =>
    have hscan : AtTop (rank c jobId) (first :: rest) (rest.foldl (keepBest (outweighs c jobId)) first) :=
      atTop_scan outweighs_iff rest first
    constructor
    · intro h
      rw [← Option.some.inj h]
      exact hscan
    · intro h
      rw [h.unique (rank_injective c jobId) hscan]
      rfl

variable (c jobId) in
theorem exists_owner {live : List String} (h : live ≠ []) : ∃ o ∈ live, owner c jobId live = some o := by
  obtain ⟨first, rest, rfl⟩ := List.exists_cons_of_ne_nil h
  have htop := owner_iff.1 (rfl : owner c jobId (first :: rest) = some _)
  exact ⟨_, htop.mem, rfl⟩

/-- the owner depends on who is in the list alone -/
theorem owner_congr {live live' : List String} (h : ∀ id, id ∈ live ↔ id ∈ live') :
    owner c jobId live = owner c jobId live' := by
  apply Option.ext
  intro o
  rw [owner_iff, owner_iff]
  exact ⟨fun htop => htop.congr h, fun htop => htop.congr fun id => (h id).symm⟩

/-- with one member more, the owner is that member or who it was -/
theorem owner_cons (member : String) (rest : List String) :
    owner c jobId (member :: rest) = some member ∨ owner c jobId (member :: rest) = owner c jobId rest := by
  obtain ⟨o, -, ho⟩ := exists_owner c jobId (List.cons_ne_nil member rest)
  rw [ho]
  cases (owner_iff.1 ho).of_cons with
  | inl heq => exact Or.inl (congrArg some heq)
  | inr htop => exact Or.inr (owner_iff.2 htop).symm

variable (c jobId) in
/-- the owner of a job is the member asked about or the owner among the others -/
theorem owner_without (live : List String) (id : String) :
    owner c jobId live = some id ∨ owner c jobId live = owner c jobId (live.filter (· ≠ id)) := by
  by_cases hid : id ∈ live
  · have hsame : ∀ x, x ∈ live ↔ x ∈ id :: live.filter (· ≠ id) := by
      intro x
      by_cases hx : x = id
      · simp [hx, hid]
      · simp [hx]
    rw [owner_congr hsame]
    exact owner_cons id _
  · refine Or.inr (owner_congr fun x => ?_)
    simp only [List.mem_filter, decide_eq_true_eq]
    exact ⟨fun hx => ⟨hx, fun heq => hid (heq ▸ hx)⟩, And.left⟩

namespace Federation

variable (f : Federation)

theorem mem_live (id : String) :
    id ∈ f.live ↔ id = f.me.coordinatorId ∨ ∃ peer, f.health[id]? = some peer ∧ peer.up = true := by
  simp only [live, List.mem_insertionSort, List.mem_cons, List.mem_map, List.mem_filter]
  refine or_congr_right ⟨?_, ?_⟩
  · intro h
    obtain ⟨peer, ⟨⟨⟨name, held⟩, hrow, rfl⟩, hup⟩, rfl⟩ := h
    rw [Std.ExtTreeMap.mem_toList_iff_getElem?_eq_some] at hrow
    rw [f.named name held hrow]
    exact ⟨held, hrow, hup⟩
  · intro h
    obtain ⟨peer, hrow, hup⟩ := h
    exact ⟨peer, ⟨⟨(id, peer), Std.ExtTreeMap.mem_toList_iff_getElem?_eq_some.2 hrow, rfl⟩, hup⟩, f.named id peer hrow⟩

theorem owner_live (jobId : String) : owner c jobId f.live = some (f.ownerOf c jobId) := by
  have hne : f.live ≠ [] := List.ne_nil_of_mem ((f.mem_live _).2 (Or.inl rfl))
  obtain ⟨o, -, ho⟩ := exists_owner c jobId hne
  rw [ownerOf, ho, Option.getD_some]

/-- a probe says nothing about the other members -/
theorem mem_live_recordProbe (id : String) (outcome : Except String Unit) (now : ℤ) {x : String} (hx : x ≠ id) :
    x ∈ (f.recordProbe id outcome now).1.live ↔ x ∈ f.live := by
  rw [mem_live, mem_live]
  unfold recordProbe
  split
  · exact Iff.rfl
  · simp only [Table.get_insert, if_neg (Ne.symm hx)]

/-- **Failover.** Whatever a probe reports, only jobs that the probed member owned before or owns now change hands. -/
theorem recordProbe_moves (c : Crypto) (jobId id : String) (outcome : Except String Unit) (now : ℤ) :
    let after := (f.recordProbe id outcome now).1
    after.ownerOf c jobId = f.ownerOf c jobId ∨ f.ownerOf c jobId = id ∨ after.ownerOf c jobId = id := by
  intro after
  have hothers : owner c jobId (after.live.filter (· ≠ id)) = owner c jobId (f.live.filter (· ≠ id)) := by
    refine owner_congr fun x => ?_
    simp only [List.mem_filter, decide_eq_true_eq]
    exact and_congr_left fun hx => f.mem_live_recordProbe id outcome now hx
  have hbefore := owner_without c jobId f.live id
  have hafter := owner_without c jobId after.live id
  rw [owner_live, Option.some.injEq] at hbefore hafter
  cases hbefore with
  | inl h => exact Or.inr (Or.inl h)
  | inr hb =>
    cases hafter with
    | inl h => exact Or.inr (Or.inr h)
    | inr ha => exact Or.inl (Option.some.inj (ha.trans (hothers.trans hb.symm)))

end Federation

end

/-- **One owner for every job.** The owner is one of the live coordinators, whatever order they are listed in; with one
more or one fewer, a job that changes hands was or becomes that member's; and of the coordinators that see the same live
set exactly the one of a certain name owns the job. -/
theorem one_owner (c : Crypto) (jobId : String) :
    (∀ live ≠ [], ∃ o ∈ live, owner c jobId live = some o) ∧
    (∀ live live' : List String, live.Perm live' → owner c jobId live = owner c jobId live') ∧
    (∀ live rest member, live.Perm (member :: rest) →
      owner c jobId live = some member ∨ owner c jobId live = owner c jobId rest) ∧
    ∀ f : Federation, ∃ id ∈ f.live, ∀ g : Federation, (∀ x, x ∈ g.live ↔ x ∈ f.live) →
      (g.owns c jobId ↔ g.me.coordinatorId = id) := by
  refine ⟨fun live hne => exists_owner c jobId hne, fun live live' hperm => owner_congr fun id => hperm.mem_iff,
    fun live rest member hperm => ?_, fun f => ⟨f.ownerOf c jobId, ?_, fun g hsame => ?_⟩⟩
  · rw [owner_congr fun id => hperm.mem_iff]
    exact owner_cons member rest
  · exact (owner_iff.1 (f.owner_live jobId)).mem
  · have hof : g.ownerOf c jobId = f.ownerOf c jobId := by
      apply Option.some.inj
      rw [← g.owner_live, ← f.owner_live]
      exact owner_congr hsame
    rw [Federation.owns, hof]
    exact eq_comm

end Hocmesh.Coordinator
