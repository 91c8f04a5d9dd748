/-
Who a coordinator believes alive, over any run of probes (`hocmesh-coordinator/src/federation.rs`).

A peer is judged by its last answers alone: it is up exactly when one of its last `misses_before_down` probes was answered,
which is also why it starts down. `Judged` is what a history of probes leaves of a peer; the transitions reported on the way
are the changes of that judgement, each once.
-/
import Mathlib.Data.List.DropRight
import Mathlib.Data.List.Chain
import Hocmesh.Coordinator.Federation

namespace Hocmesh.Coordinator

open Hocmesh.Base

/-- one probe of one peer: what came back, and when -/
structure Probe where
  peer : String
  outcome : Except String Unit
  now : ℤ

namespace Federation

/-- the federation after some probes -/
def probes (f : Federation) (ps : List Probe) : Federation := ps.foldl (fun f p => (f.recordProbe p.peer p.outcome p.now).1) f

/-- the transitions some probes report, in order -/
def transitions (f : Federation) : List Probe → List (String × Transition)
  | [] => []
  | p :: ps =>
    let (f', t) := f.recordProbe p.peer p.outcome p.now
    (t.map fun t => (p.peer, t)).toList ++ transitions f' ps

/-- `peers()`: in the order of their names -/
def peers (f : Federation) : List PeerHealth := f.health.toList.map (·.2)

/-- the probes of one round: every peer's health url is asked once -/
def round (f : Federation) (answers : String → Except String Unit) (now : ℤ) : List Probe :=
  f.peers.map fun peer => ⟨peer.coordinatorId, answers (peer.url ++ "/health"), now⟩

/-- probe every peer once and record what came back -/
def probeAll (f : Federation) (answers : String → Except String Unit) (now : ℤ) : Federation × List (String × Transition) :=
  (f.probes (f.round answers now), f.transitions (f.round answers now))

end Federation

/-- the probes of one peer -/
def history (id : String) (ps : List Probe) : List Probe := ps.filter fun p => p.peer = id

/-- whether one of the last `n` probes was answered -/
def AnsweredIn (n : ℕ) (seen : List Probe) : Prop := ∃ p ∈ seen.rtake n, p.outcome = .ok ()

/-- what a transition leaves a peer as -/
def Transition.up : Transition → Bool
  | .cameUp => true
  | .wentDown => false

section

variable {misses : ℕ} {seen : List Probe} {peer : PeerHealth}

theorem answeredIn_nil (n : ℕ) : ¬ AnsweredIn n [] := by
  rintro ⟨p, hp, -⟩
  rw [List.rtake_nil] at hp
  cases hp

theorem answeredIn_concat (n : ℕ) (seen : List Probe) (p : Probe) :
    AnsweredIn (n + 1) (seen ++ [p]) ↔ AnsweredIn n seen ∨ p.outcome = .ok () := by
  simp only [AnsweredIn, List.rtake_concat_succ, List.mem_append, List.mem_singleton, or_and_right, exists_or, exists_eq_left]

/-- what a history of probes leaves of a peer. The misses are counted to the point where every window up to the one that
decides can be read off them. -/
structure Judged (misses : ℕ) (seen : List Probe) (peer : PeerHealth) : Prop where
  counted : ∀ n ≤ misses, peer.consecutiveMisses < n ↔ AnsweredIn n seen
  up_eq : peer.up = decide (peer.consecutiveMisses < misses)
  lastOk : peer.lastOkUnix = (seen.filter fun p => p.outcome.isOk).getLast?.map (·.now)
  lastError : peer.lastError = seen.getLast?.bind fun p => match p.outcome with
    | .ok () => none
    | .error e => some e

theorem Judged.up_iff (h : Judged misses seen peer) : peer.up = true ↔ AnsweredIn misses seen := by
  rw [h.up_eq, decide_eq_true_eq]
  exact h.counted misses le_rfl

theorem judged_unseen (misses : ℕ) (config : PeerConfig) : Judged misses [] (Federation.unseen misses config) where
  counted := by
    intro n hn
    exact iff_of_false (not_lt.2 hn) (answeredIn_nil n)
  up_eq := (decide_eq_false (lt_irrefl misses)).symm
  lastOk := rfl
  lastError := rfl

/-- **Step.** One more probe. -/
theorem Judged.probed (h : Judged misses seen peer) (hpos : 0 < misses) (hbound : misses < 2 ^ 32) (p : Probe) :
    Judged misses (seen ++ [p]) (Federation.probed misses peer p.outcome p.now) := by
  cases hp : p.outcome with
  | ok u =>
    constructor
    case counted =>
      intro n hn
      cases n with
      | zero =>
        refine iff_of_false (Nat.not_lt_zero _) ?_
        rintro ⟨q, hq, -⟩
        rw [List.rtake_zero] at hq
        cases hq
      | succ n =>
        rw [answeredIn_concat]
        exact iff_of_true (Nat.succ_pos n) (Or.inr hp)
    case up_eq => exact (decide_eq_true hpos).symm
    case lastOk => simp [Federation.probed, hp, List.filter_append, Except.isOk, Except.toBool]
    case lastError => simp [Federation.probed, hp]
  | error e =>
    constructor
    case counted =>
      intro n hn
      cases n with
      | zero =>
        refine iff_of_false (Nat.not_lt_zero _) ?_
        rintro ⟨q, hq, -⟩
        rw [List.rtake_zero] at hq
        cases hq
      | succ n =>
        rw [answeredIn_concat, ← h.counted n (Nat.le_of_succ_le hn), hp]
        simp only [Federation.probed, reduceCtorEq, or_false]
        omega
    case up_eq => rfl
    case lastOk => simp [Federation.probed, hp, List.filter_append, Except.isOk, Except.toBool, h.lastOk]
    case lastError => simp [Federation.probed, hp]

end

/-! ## One federation -/

/-- the transition between two beliefs -/
def edge : Bool → Bool → Option Transition
  | false, true => some .cameUp
  | true, false => some .wentDown
  | _, _ => none

section

variable {f f' : Federation} {config : FederationConfig}

theorem recordProbe_health (f : Federation) (id : String) (outcome : Except String Unit) (now : ℤ) (other : String) :
    (f.recordProbe id outcome now).1.health[other]? = if id = other
      then f.health[id]?.map fun peer => Federation.probed f.missesBeforeDown peer outcome now else f.health[other]? := by
  unfold Federation.recordProbe
  split
  · rename_i hnone
    split_ifs with heq
    · rw [← heq, hnone]
      rfl
    · rfl
  · rename_i peer hpeer
    rw [Table.get_insert, hpeer]
    rfl

theorem recordProbe_transition (f : Federation) (id : String) (outcome : Except String Unit) (now : ℤ) :
    (f.recordProbe id outcome now).2 = f.health[id]?.bind fun peer =>
      edge peer.up (Federation.probed f.missesBeforeDown peer outcome now).up := by
  unfold Federation.recordProbe
  split
  · rename_i hnone
    rw [hnone]
    rfl
  · rename_i peer hpeer
    dsimp only
    rw [hpeer, Option.bind_some]
    cases peer.up <;> cases (Federation.probed f.missesBeforeDown peer outcome now).up <;> rfl

theorem recordProbe_same (f : Federation) (id : String) (outcome : Except String Unit) (now : ℤ) :
    (f.recordProbe id outcome now).1.me = f.me ∧
      (f.recordProbe id outcome now).1.missesBeforeDown = f.missesBeforeDown := by
  unfold Federation.recordProbe
  split
  · exact ⟨rfl, rfl⟩
  · exact ⟨rfl, rfl⟩

/-- a peer that was added had no row, and has one now -/
theorem add_ok {me : String} {misses : ℕ} {ps ps' : Federation.Peers me} {peer : PeerConfig}
    (h : Federation.Peers.add misses ps peer = .ok ps') :
    peer.coordinatorId ∉ ps.health ∧ ps'.health = ps.health.insert peer.coordinatorId (Federation.unseen misses peer) := by
  simp only [Federation.Peers.add, bind_ok, bailIf_ok, exists_const] at h
  obtain ⟨-, h⟩ := h
  split_ifs at h with hnew
  simp only [bind_ok, bailIf_ok, exists_const, pure_ok] at h
  obtain ⟨-, rfl⟩ := h
  exact ⟨(not_or.1 hnew).2, rfl⟩

/-- the peers of a config, each as it is before its first probe -/
theorem addAll_ok {me : String} {misses : ℕ} (peers : List PeerConfig) {ps ps' : Federation.Peers me}
    (h : peers.foldlM (Federation.Peers.add misses) ps = .ok ps') (id : String) :
    ps'.health[id]? = ps.health[id]?.or ((peers.find? fun peer => peer.coordinatorId = id).map (Federation.unseen misses)) := by
  induction peers generalizing ps with
  | nil =>
    cases h
    rw [List.find?_nil, Option.map_none, Option.or_none]
  | cons peer peers ih =>
    rw [List.foldlM_cons, bind_ok] at h
    obtain ⟨ps₁, hadd, hrest⟩ := h
    obtain ⟨hnew, hhealth⟩ := add_ok hadd
    rw [ih hrest, hhealth, Table.get_insert]
    split_ifs with heq
    · have hnone : ps.health[id]? = none := by
        rw [← heq]
        exact Std.ExtTreeMap.getElem?_eq_none hnew
      rw [hnone, List.find?_cons_of_pos (by simpa using heq)]
      rfl
    · rw [List.find?_cons_of_neg (by simpa using heq)]

/-- everything `Federation::new` promises about health -/
theorem new_ok (h : Federation.new config = .ok f) :
    f.me.coordinatorId = config.coordinatorId ∧ f.missesBeforeDown = config.missesBeforeDown ∧ 0 < config.missesBeforeDown ∧
      ∀ id, f.health[id]? = (config.peers.find? fun peer => peer.coordinatorId = id).map
        (Federation.unseen config.missesBeforeDown) := by
  simp only [Federation.new, bind_ok, bailIf_ok, exists_const, pure_ok] at h
  obtain ⟨-, hmisses, -, ps, hall, rfl⟩ := h
  refine ⟨rfl, rfl, Nat.pos_of_ne_zero hmisses, fun id => ?_⟩
  rw [addAll_ok config.peers hall id]
  simp

/-- a federation that has seen some probes of a config's peers -/
structure Tracks (config : FederationConfig) (seen : List Probe) (f : Federation) : Prop where
  me : f.me.coordinatorId = config.coordinatorId
  misses : f.missesBeforeDown = config.missesBeforeDown
  peers : ∀ id, f.health[id]?.isSome = true ↔ ∃ peer ∈ config.peers, peer.coordinatorId = id
  judged : ∀ id peer, f.health[id]? = some peer → Judged config.missesBeforeDown (history id seen) peer

theorem tracks_new (h : Federation.new config = .ok f) : Tracks config [] f := by
  obtain ⟨hme, hmisses, -, hhealth⟩ := new_ok h
  refine ⟨hme, hmisses, fun id => ?_, fun id peer hpeer => ?_⟩
  · rw [hhealth, Option.isSome_map, List.find?_isSome]
    simp
  · rw [hhealth, Option.map_eq_some_iff] at hpeer
    obtain ⟨peer, -, rfl⟩ := hpeer
    exact judged_unseen _ _

theorem history_concat (id : String) (seen : List Probe) (p : Probe) :
    history id (seen ++ [p]) = if p.peer = id then history id seen ++ [p] else history id seen := by
  unfold history
  rw [List.filter_append, List.filter_singleton]
  by_cases hp : p.peer = id
  · simp [hp]
  · simp [hp]

theorem Tracks.recordProbe {seen : List Probe} (h : Tracks config seen f) (hpos : 0 < config.missesBeforeDown)
    (hbound : config.missesBeforeDown < 2 ^ 32) (p : Probe) :
    Tracks config (seen ++ [p]) (f.recordProbe p.peer p.outcome p.now).1 := by
  obtain ⟨hme, hmisses⟩ := recordProbe_same f p.peer p.outcome p.now
  refine ⟨?_, ?_, fun id => ?_, fun id peer hpeer => ?_⟩
  · rw [hme]
    exact h.me
  · rw [hmisses]
    exact h.misses
  · rw [recordProbe_health, ← h.peers id]
    split_ifs with heq
    · rw [Option.isSome_map, heq]
    · exact Iff.rfl
  · rw [recordProbe_health] at hpeer
    rw [history_concat]
    split_ifs at hpeer ⊢ with heq
    · obtain ⟨before, hbefore, rfl⟩ := Option.map_eq_some_iff.1 hpeer
      rw [heq] at hbefore
      rw [h.misses]
      exact (h.judged id before hbefore).probed hpos hbound p
    · exact h.judged id peer hpeer

theorem Tracks.probes (hpos : 0 < config.missesBeforeDown) (hbound : config.missesBeforeDown < 2 ^ 32) (ps : List Probe) :
    ∀ {seen : List Probe} {f : Federation}, Tracks config seen f → Tracks config (seen ++ ps) (f.probes ps) := by
  induction ps with
  | nil =>
    intro seen f h
    rw [List.append_nil]
    exact h
  | cons p ps ih =>
    intro seen f h
    have hrest := ih (h.recordProbe hpos hbound p)
    rwa [List.append_assoc, List.singleton_append] at hrest

/-! ## What is reported -/

/-- whether a name is a peer that is believed alive -/
def Federation.believes (f : Federation) (id : String) : Bool := f.health[id]?.any (·.up)

/-- transitions that lead from one belief to another, each a change -/
def Alternates : Bool → List Transition → Bool → Prop
  | before, [], after => before = after
  | before, t :: ts, after => before ≠ t.up ∧ Alternates t.up ts after

/-- the transitions reported of one peer -/
def reported (id : String) (ts : List (String × Transition)) : List Transition :=
  (ts.filter fun t => t.1 = id).map (·.2)

theorem edge_cases (before after : Bool) :
    (edge before after = none ∧ before = after) ∨ ∃ t, edge before after = some t ∧ before ≠ t.up ∧ t.up = after := by
  cases before with
  | false =>
    cases after with
    | false => exact Or.inl ⟨rfl, rfl⟩
    | true => exact Or.inr ⟨.cameUp, rfl, by decide, rfl⟩
  | true =>
    cases after with
    | false => exact Or.inr ⟨.wentDown, rfl, by decide, rfl⟩
    | true => exact Or.inl ⟨rfl, rfl⟩

/-- a probe reports exactly the change of belief in the peer it is about -/
theorem recordProbe_believes (f : Federation) (p : Probe) (id : String) :
    (p.peer ≠ id → (f.recordProbe p.peer p.outcome p.now).1.believes id = f.believes id) ∧
      (p.peer = id → (f.recordProbe p.peer p.outcome p.now).2 =
        edge (f.believes id) ((f.recordProbe p.peer p.outcome p.now).1.believes id)) := by
  refine ⟨fun hne => ?_, ?_⟩
  · rw [Federation.believes, recordProbe_health, if_neg hne]
    rfl
  · rintro rfl
    rw [Federation.believes, Federation.believes, recordProbe_health, if_pos rfl, recordProbe_transition]
    cases f.health[p.peer]? with
    | none => rfl
    | some peer => rfl

/-- **The reports of a peer alternate**, and add up to what is believed of it. -/
theorem alternates_transitions (id : String) (ps : List Probe) :
    ∀ f : Federation, Alternates (f.believes id) (reported id (f.transitions ps)) ((f.probes ps).believes id) := by
  induction ps with
  | nil => exact fun f => rfl
  | cons p ps ih =>
    intro f
    have hrest := ih (f.recordProbe p.peer p.outcome p.now).1
    obtain ⟨hother, hsame⟩ := recordProbe_believes f p id
    have hsplit : reported id (f.transitions (p :: ps)) =
        (if p.peer = id then (f.recordProbe p.peer p.outcome p.now).2.toList else []) ++
          reported id ((f.recordProbe p.peer p.outcome p.now).1.transitions ps) := by
      unfold reported
      rw [Federation.transitions]
      dsimp only
      rw [List.filter_append, List.map_append]
      congr 1
      cases (f.recordProbe p.peer p.outcome p.now).2 with
      | none => simp
      | some t =>
        by_cases hp : p.peer = id
        · simp [hp]
        · simp [hp]
    rw [hsplit]
    by_cases hp : p.peer = id
    · rw [if_pos hp, hsame hp]
      rcases edge_cases (f.believes id) ((f.recordProbe p.peer p.outcome p.now).1.believes id) with
        ⟨hnone, heq⟩ | ⟨t, hsome, hne, hup⟩
      · rw [hnone, heq]
        exact hrest
      · rw [hsome, Option.toList_some, List.singleton_append]
        refine ⟨hne, ?_⟩
        rw [hup]
        exact hrest
    · rw [if_neg hp, List.nil_append, ← hother hp]
      exact hrest

/-! ## When a peer is given up -/

/-- a window that loses its last answer: the answer is its oldest probe, and everything after it failed -/
theorem lost_answer {n : ℕ} {seen : List Probe} {p : Probe} (hpos : 0 < n) :
    (AnsweredIn n seen ∧ ¬ AnsweredIn n (seen ++ [p])) ↔
      p.outcome ≠ .ok () ∧ ∃ earlier answered failed, seen = earlier ++ answered :: failed ∧ answered.outcome = .ok () ∧
        failed.length + 1 = n ∧ ∀ q ∈ failed, q.outcome ≠ .ok () := by
  obtain ⟨k, rfl⟩ := Nat.exists_eq_succ_of_ne_zero hpos.ne'
  rw [answeredIn_concat, not_or]
  constructor
  · rintro ⟨⟨q, hq, hok⟩, hnone, hp⟩
    refine ⟨hp, ?_⟩
    have hlong : k < seen.length := by
      by_contra hle
      rw [not_lt] at hle
      refine hnone ⟨q, ?_, hok⟩
      rw [List.rtake, Nat.sub_eq_zero_of_le hle, List.drop_zero]
      exact List.mem_of_mem_drop hq
    have hcut : seen.rtake (k + 1) = seen[seen.length - (k + 1)] :: seen.rtake k := by
      rw [List.rtake, List.rtake, List.drop_eq_getElem_cons (by omega)]
      congr 2
      omega
    refine ⟨seen.take (seen.length - (k + 1)), seen[seen.length - (k + 1)], seen.rtake k, ?_, ?_, ?_, ?_⟩
    · rw [← hcut, List.rtake, List.take_append_drop]
    · rw [hcut] at hq
      rcases List.mem_cons.1 hq with rfl | hin
      · exact hok
      · exact absurd ⟨q, hin, hok⟩ hnone
    · rw [List.rtake, List.length_drop]
      omega
    · exact fun q hq hok => hnone ⟨q, hq, hok⟩
  · rintro ⟨hp, earlier, answered, failed, rfl, hok, hlen, hfail⟩
    obtain rfl : failed.length = k := Nat.succ.inj hlen
    have htail : (earlier ++ answered :: failed).rtake failed.length = failed := by
      have hcut : earlier ++ answered :: failed = (earlier ++ [answered]) ++ failed := by simp
      rw [hcut, List.rtake, List.length_append, Nat.add_sub_cancel, List.drop_left]
    have hwhole : (earlier ++ answered :: failed).rtake (failed.length + 1) = answered :: failed := by
      rw [List.rtake, List.length_append, List.length_cons, Nat.add_sub_cancel, List.drop_left]
    refine ⟨⟨answered, ?_, hok⟩, ?_, hp⟩
    · rw [hwhole]
      exact List.mem_cons_self
    · rintro ⟨q, hq, hqok⟩
      rw [htail] at hq
      exact hfail q hq hqok

end

/-- **Belief follows the last answers.** After any probes, of whatever peers in whatever order: this coordinator is live, and
another is exactly when it is a peer of the config and one of its last `misses_before_down` probes was answered. Of each peer
the reported transitions alternate, the first being that it came up, and end with what is believed. And a probe reports that
a peer went down exactly when the peer's last answer was that many probes ago, this one included. -/
theorem belief_follows_probes (config : FederationConfig) (f : Federation) (hnew : Federation.new config = .ok f)
    (hbound : config.missesBeforeDown < 2 ^ 32) (ps : List Probe) :
    (∀ id, id ∈ (f.probes ps).live ↔ id = config.coordinatorId ∨
      (∃ peer ∈ config.peers, peer.coordinatorId = id) ∧ AnsweredIn config.missesBeforeDown (history id ps)) ∧
    (∀ id, Alternates false (reported id (f.transitions ps)) ((f.probes ps).believes id)) ∧
    ∀ p : Probe, ((f.probes ps).recordProbe p.peer p.outcome p.now).2 = some .wentDown ↔
      (∃ peer ∈ config.peers, peer.coordinatorId = p.peer) ∧ p.outcome ≠ .ok () ∧
      ∃ earlier answered failed, history p.peer ps = earlier ++ answered :: failed ∧ answered.outcome = .ok () ∧
        failed.length + 1 = config.missesBeforeDown ∧ ∀ q ∈ failed, q.outcome ≠ .ok () := by
  obtain ⟨-, -, hpos, hhealth⟩ := new_ok hnew
  have htracks : Tracks config ps (f.probes ps) := (tracks_new hnew).probes hpos hbound ps
  refine ⟨fun id => ?_, fun id => ?_, fun p => ?_⟩
  · rw [Federation.mem_live, htracks.me, ← htracks.peers id]
    refine or_congr_right ?_
    cases hpeer : (f.probes ps).health[id]? with
    | none => simp
    | some peer => simp [(htracks.judged id peer hpeer).up_iff]
  · have hstart : f.believes id = false := by
      rw [Federation.believes, hhealth]
      cases config.peers.find? fun peer => peer.coordinatorId = id with
      | none => rfl
      | some peer => rfl
    rw [← hstart]
    exact alternates_transitions id ps f
  · rw [recordProbe_transition, ← htracks.peers p.peer]
    cases hpeer : (f.probes ps).health[p.peer]? with
    | none => simp
    | some peer =>
      have hbefore := htracks.judged p.peer peer hpeer
      have hafter := hbefore.probed hpos hbound p
      have hup : edge peer.up (Federation.probed config.missesBeforeDown peer p.outcome p.now).up = some .wentDown ↔
          peer.up = true ∧ ¬ (Federation.probed config.missesBeforeDown peer p.outcome p.now).up = true := by
        cases peer.up <;> cases (Federation.probed config.missesBeforeDown peer p.outcome p.now).up <;> decide
      rw [Option.bind_some, Option.isSome_some, htracks.misses, hup, hbefore.up_iff, hafter.up_iff, lost_answer hpos]
      exact (and_iff_right rfl).symm

/-- two coordinators, of which one is given up after two probes without an answer -/
def pairConfig : FederationConfig :=
  { coordinatorId := "here", region := "", advertise := "http://here", peers := [⟨"there", "", "http://there"⟩]
    probeIntervalSecs := 5, missesBeforeDown := 2 }

theorem there_given_up : ∃ f, Federation.new pairConfig = .ok f ∧
    "there" ∉ (f.probes [⟨"there", .ok (), 0⟩, ⟨"there", .error "timeout", 5⟩, ⟨"there", .error "timeout", 10⟩]).live := by
  have hok : (Federation.new pairConfig).okWith (fun _ => true) = true := by decide +kernel
  obtain ⟨f, hf, -⟩ := (okWith_iff _ _).1 hok
  refine ⟨f, hf, fun hlive => ?_⟩
  rcases ((belief_follows_probes pairConfig f hf (by decide) _).1 "there").1 hlive with heq | ⟨-, q, hq, hanswer⟩
  · exact absurd heq (by decide)
  · simp [history, List.rtake, pairConfig] at hq
    rcases hq with rfl | rfl
    · cases hanswer
    · cases hanswer

end Hocmesh.Coordinator
