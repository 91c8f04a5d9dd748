/-
A node's standing (`hocmesh-coordinator/src/api.rs`, `hocmesh-core/src/reputation.rs`): `record_reputation` called from any
number of handlers at once.

A call reads the row on one connection, folds its outcome in memory and writes the whole row on another. `Statement` is one
of these two statements of one call, or the call failing with nothing written. A call that writes over a row that has
changed since it read it takes back whatever was recorded in between; `reputation_exact_iff` says that nothing else loses an
outcome, short of the limit of `i64`.
-/
import Hocmesh.Base.Along
import Hocmesh.Base.MachineInt
import Hocmesh.Base.Table

namespace Hocmesh.Coordinator

open Hocmesh.Base

/-- one node's standing: two `u64` and a `u32` -/
structure Reputation where
  accepted : ℕ
  rejected : ℕ
  streak : ℕ
deriving DecidableEq

/-- a row of `reputation`: three `i64` -/
structure ReputationRow where
  accepted : ℤ
  rejected : ℤ
  streak : ℤ
  accepted_fits : FitsI64 accepted
  rejected_fits : FitsI64 rejected

namespace Reputation

def new : Reputation := ⟨0, 0, 0⟩

def recordAccepted (r : Reputation) : Reputation :=
  { r with accepted := min (r.accepted + 1) (2 ^ 64 - 1), streak := min (r.streak + 1) (2 ^ 32 - 1) }

/-- a rejection resets the streak -/
def recordRejected (r : Reputation) : Reputation := { r with rejected := min (r.rejected + 1) (2 ^ 64 - 1), streak := 0 }

def record (r : Reputation) (accepted : Bool) : Reputation := if accepted then r.recordAccepted else r.recordRejected

/-- the counter an outcome is added to -/
def counter (r : Reputation) (accepted : Bool) : ℕ := if accepted then r.accepted else r.rejected

/-- how it is written: `as i64` -/
def row (r : Reputation) : ReputationRow where
  accepted := wrap64 r.accepted
  rejected := wrap64 r.rejected
  streak := r.streak
  accepted_fits := fits_wrap64 _
  rejected_fits := fits_wrap64 _

end Reputation

namespace ReputationRow

/-- how it is read -/
def reputation (r : ReputationRow) : Reputation :=
  ⟨(max r.accepted 0).toNat, (max r.rejected 0).toNat, (max 0 (min r.streak (2 ^ 32 - 1))).toNat⟩

def counter (r : ReputationRow) (accepted : Bool) : ℤ := if accepted then r.accepted else r.rejected

theorem counter_fits (r : ReputationRow) (accepted : Bool) : FitsI64 (r.counter accepted) := by
  cases accepted
  · exact r.rejected_fits
  · exact r.accepted_fits

end ReputationRow

/-! ## Calls between their statements -/

/-- a call of `record_reputation` that has read the row -/
structure Recording where
  nodeId : String
  accepted : Bool
  current : Reputation

inductive Statement where
  | load (call : ℕ) (nodeId : String) (accepted : Bool)
  | store (call : ℕ)
  | fail (call : ℕ)

/-- the table, the calls under way, and the outcomes whose calls have returned -/
structure Standing where
  rows : Table String ReputationRow
  calls : ℕ → Option Recording
  recorded : List (String × Bool)

namespace Standing

def start : Standing := ⟨∅, fun _ => none, []⟩

variable (s : Standing)

def loadReputation (nodeId : String) : Reputation := (s.rows[nodeId]?.map ReputationRow.reputation).getD .new

/-- the statements of one call, any other call's between them -/
def step : Statement → Standing
  | .load call nodeId accepted =>
    match s.calls call with
    | some _ => s
    | none => { s with calls := Function.update s.calls call (some ⟨nodeId, accepted, s.loadReputation nodeId⟩) }
  | .store call =>
    match s.calls call with
    | none => s
    | some c =>
      { rows := s.rows.insert c.nodeId (c.current.record c.accepted).row
        calls := Function.update s.calls call none
        recorded := (c.nodeId, c.accepted) :: s.recorded }
  | .fail call => { s with calls := Function.update s.calls call none }

/-- a stored counter -/
def stored (nodeId : String) (accepted : Bool) : ℤ := (s.rows[nodeId]?.map fun r => r.counter accepted).getD 0

/-- the stored counters are the numbers of outcomes recorded -/
def Exact : Prop := ∀ nodeId accepted, s.stored nodeId accepted = s.recorded.count (nodeId, accepted)

/-- a call that writes now finds the row as it read it, and its counter below the limit -/
def Undisturbed : Statement → Prop
  | .store call => ∀ c, s.calls call = some c →
      s.loadReputation c.nodeId = c.current ∧ c.current.counter c.accepted + 1 < 2 ^ 63
  | _ => True

end Standing

/-! ## What is read and what is written -/

section

variable {s : Standing} {nodeId : String}

theorem fits_of_lt {n : ℕ} (h : n < 2 ^ 63) : FitsI64 n := by
  unfold FitsI64 i64Min i64Max
  omega

theorem counter_loadReputation (h : s.Exact) (nodeId : String) (accepted : Bool) :
    (s.loadReputation nodeId).counter accepted = s.recorded.count (nodeId, accepted) := by
  have hcount := h nodeId accepted
  unfold Standing.stored at hcount
  unfold Standing.loadReputation
  cases hrow : s.rows[nodeId]? with
  | none =>
    rw [hrow] at hcount
    have hzero : s.recorded.count (nodeId, accepted) = 0 := Int.natCast_eq_zero.1 hcount.symm
    rw [hzero]
    cases accepted <;> rfl
  | some r =>
    rw [hrow] at hcount
    change r.counter accepted = _ at hcount
    change r.reputation.counter accepted = _
    have hread : (r.reputation.counter accepted : ℤ) = max (r.counter accepted) 0 := by
      cases accepted <;> exact Int.toNat_of_nonneg (le_max_right _ _)
    rw [hcount, max_eq_left (Int.natCast_nonneg _)] at hread
    exact_mod_cast hread

/-- an outcome adds to its own counter and leaves the other one -/
theorem counter_record (r : Reputation) (accepted : Bool) (other : Bool) :
    (r.record accepted).counter other =
      if other = accepted then min (r.counter accepted + 1) (2 ^ 64 - 1) else r.counter other := by
  cases accepted <;> cases other <;> rfl

theorem counter_row (r : Reputation) (accepted : Bool) : r.row.counter accepted = wrap64 (r.counter accepted) := by
  cases accepted <;> simp only [ReputationRow.counter, Reputation.counter, Reputation.row, if_true, Bool.false_eq_true, if_false]

theorem row_counter_record {r : Reputation} {accepted : Bool} (hroom : r.counter accepted + 1 < 2 ^ 63) :
    (r.record accepted).row.counter accepted = r.counter accepted + 1 := by
  have hle : r.counter accepted + 1 ≤ 2 ^ 64 - 1 := by omega
  rw [counter_row, counter_record, if_pos rfl, Nat.min_eq_left hle, wrap64_of_fits (fits_of_lt hroom), Nat.cast_add,
    Nat.cast_one]

theorem row_counter_other {r : Reputation} {accepted other : Bool} (hne : other ≠ accepted)
    (hfits : r.counter other < 2 ^ 63) : (r.record accepted).row.counter other = r.counter other := by
  rw [counter_row, counter_record, if_neg hne, wrap64_of_fits (fits_of_lt hfits)]

theorem stored_insert (rows : Table String ReputationRow) (calls : ℕ → Option Recording) (recorded : List (String × Bool))
    (nodeId other : String) (r : ReputationRow) (accepted : Bool) :
    Standing.stored ⟨rows.insert nodeId r, calls, recorded⟩ other accepted =
      if nodeId = other then r.counter accepted else Standing.stored ⟨rows, calls, recorded⟩ other accepted := by
  unfold Standing.stored
  rw [Table.get_insert]
  split_ifs <;> rfl

theorem Standing.Exact.count_lt (h : s.Exact) (nodeId : String) (accepted : Bool) :
    s.recorded.count (nodeId, accepted) < 2 ^ 63 := by
  have hcount := h nodeId accepted
  unfold Standing.stored at hcount
  cases hrow : s.rows[nodeId]? with
  | none =>
    rw [hrow] at hcount
    change (0 : ℤ) = _ at hcount
    omega
  | some r =>
    rw [hrow] at hcount
    change r.counter accepted = _ at hcount
    have hfits := (r.counter_fits accepted).2
    unfold i64Max at hfits
    omega

/-! ## What a statement does to the counters -/

theorem exact_start : Standing.start.Exact := by
  intro nodeId accepted
  simp [Standing.stored, Standing.start]

/-- the counters after a write -/
theorem stored_store {call : ℕ} {c : Recording} (hc : s.calls call = some c) (other : String) (accepted : Bool) :
    (s.step (.store call)).stored other accepted =
      if c.nodeId = other then (c.current.record c.accepted).row.counter accepted else s.stored other accepted := by
  simp only [Standing.step, hc]
  rw [stored_insert]
  rfl

theorem recorded_store {call : ℕ} {c : Recording} (hc : s.calls call = some c) :
    (s.step (.store call)).recorded = (c.nodeId, c.accepted) :: s.recorded := by
  simp only [Standing.step, hc]

theorem load_same (call : ℕ) (nodeId : String) (accepted : Bool) :
    (s.step (.load call nodeId accepted)).rows = s.rows ∧ (s.step (.load call nodeId accepted)).recorded = s.recorded := by
  cases hc : s.calls call with
  | some c => simp only [Standing.step, hc, and_self]
  | none => simp only [Standing.step, hc, and_self]

theorem Standing.Exact.of_same {t : Standing} (h : s.Exact) (hrows : t.rows = s.rows) (hrec : t.recorded = s.recorded) :
    t.Exact := by
  intro nodeId accepted
  have hstored : t.stored nodeId accepted = s.stored nodeId accepted := by unfold Standing.stored; rw [hrows]
  rw [hstored, hrec]
  exact h nodeId accepted

/-- a call that finds the row as it read it records its outcome and loses none -/
theorem Standing.Exact.step (h : s.Exact) {statement : Statement} (hu : s.Undisturbed statement) :
    (s.step statement).Exact := by
  cases statement with
  | load call nodeId accepted => exact h.of_same (load_same call nodeId accepted).1 (load_same call nodeId accepted).2
  | fail call => exact h.of_same rfl rfl
  | store call =>
    cases hc : s.calls call with
    | none => exact h.of_same (by simp only [Standing.step, hc]) (by simp only [Standing.step, hc])
    | some c =>
      obtain ⟨hsame, hroom⟩ := hu c hc
      intro other accepted
      rw [stored_store hc, recorded_store hc]
      split_ifs with hnode
      · subst hnode
        have hcount : c.current.counter accepted = s.recorded.count (c.nodeId, accepted) :=
          hsame ▸ counter_loadReputation h c.nodeId accepted
        by_cases hacc : accepted = c.accepted
        · subst hacc
          rw [row_counter_record hroom, hcount, List.count_cons_self, Nat.cast_add, Nat.cast_one]
        · rw [row_counter_other hacc (hcount ▸ h.count_lt c.nodeId accepted), hcount, List.count_cons_of_ne]
          exact fun heq => hacc (Prod.mk.inj heq).2.symm
      · rw [h other accepted, List.count_cons_of_ne]
        exact fun heq => hnode (Prod.mk.inj heq).1

/-! ## Steps that lose an outcome -/

/-- a call under way has read counters no later than the recorded ones, and the row itself if none is later -/
def Standing.Behind (s : Standing) : Prop :=
  ∀ call c, s.calls call = some c → (∀ accepted, c.current.counter accepted ≤ s.recorded.count (c.nodeId, accepted)) ∧
    ((∀ accepted, c.current.counter accepted = s.recorded.count (c.nodeId, accepted)) →
      s.loadReputation c.nodeId = c.current)

theorem behind_start : Standing.start.Behind := fun _ _ h => nomatch h

theorem Standing.Behind.step (h : s.Behind) (hexact : s.Exact) (statement : Statement) : (s.step statement).Behind := by
  intro other d hd
  cases statement with
  | load call nodeId accepted =>
    cases hc : s.calls call with
    | some c =>
      simp only [Standing.step, hc] at hd ⊢
      exact h other d hd
    | none =>
      simp only [Standing.step, hc] at hd ⊢
      by_cases heq : other = call
      · rw [heq, Function.update_self] at hd
        rw [← Option.some.inj hd]
        exact ⟨fun _ => (counter_loadReputation hexact _ _).le, fun _ => rfl⟩
      · rw [Function.update_of_ne heq] at hd
        exact h other d hd
  | fail call =>
    simp only [Standing.step] at hd ⊢
    by_cases heq : other = call
    · rw [heq, Function.update_self] at hd
      cases hd
    · rw [Function.update_of_ne heq] at hd
      exact h other d hd
  | store call =>
    cases hc : s.calls call with
    | none =>
      simp only [Standing.step, hc] at hd ⊢
      exact h other d hd
    | some c =>
      simp only [Standing.step, hc] at hd ⊢
      by_cases heq : other = call
      · rw [heq, Function.update_self] at hd
        cases hd
      · rw [Function.update_of_ne heq] at hd
        obtain ⟨hle, hrow⟩ := h other d hd
        refine ⟨fun accepted => (hle accepted).trans List.count_le_count_cons, fun hall => ?_⟩
        by_cases hnode : c.nodeId = d.nodeId
        · -- the node's own counter has moved on, so this call read an older row
          have hmoved := hall c.accepted
          rw [← hnode, List.count_cons_self] at hmoved
          have hold := hle c.accepted
          rw [← hnode] at hold
          omega
        · have hcounts : ∀ accepted, d.current.counter accepted = s.recorded.count (d.nodeId, accepted) := by
            intro accepted
            rw [hall accepted, List.count_cons_of_ne]
            exact fun heq => hnode (Prod.mk.inj heq).1
          rw [← hrow hcounts]
          unfold Standing.loadReputation
          rw [Table.get_insert, if_neg hnode]

/-- a write after which every outcome is counted found the row as it was read -/
theorem undisturbed_of_exact (hexact : s.Exact) (hbehind : s.Behind) {statement : Statement}
    (hafter : (s.step statement).Exact) : s.Undisturbed statement := by
  cases statement with
  | load call nodeId accepted => trivial
  | fail call => trivial
  | store call =>
    intro c hc
    obtain ⟨hle, hrow⟩ := hbehind call c hc
    have hwritten : ∀ accepted, (c.current.record c.accepted).row.counter accepted =
        ((c.nodeId, c.accepted) :: s.recorded).count (c.nodeId, accepted) := by
      intro accepted
      have := hafter c.nodeId accepted
      rwa [stored_store hc, recorded_store hc, if_pos rfl] at this
    have hown := hwritten c.accepted
    rw [List.count_cons_self] at hown
    have hroom : c.current.counter c.accepted + 1 < 2 ^ 63 := by
      have hfits := ((c.current.record c.accepted).row.counter_fits c.accepted).2
      have hcount := hle c.accepted
      rw [hown] at hfits
      unfold i64Max at hfits
      omega
    refine ⟨hrow fun accepted => ?_, hroom⟩
    by_cases hacc : accepted = c.accepted
    · subst hacc
      rw [row_counter_record hroom] at hown
      omega
    · have hother := hwritten accepted
      have hlt := (hle accepted).trans_lt (hexact.count_lt c.nodeId accepted)
      rw [row_counter_other hacc hlt, List.count_cons_of_ne fun heq => hacc (Prod.mk.inj heq).2.symm] at hother
      exact_mod_cast hother

theorem along_exact {statements : List Statement} : ∀ {s : Standing}, s.Exact → Along Standing.step Standing.Undisturbed s statements →
    Along Standing.step (fun s statement => (s.step statement).Exact) s statements :=
  fun {s} => Along.strengthen Standing.Exact (fun _ _ h hu => h.step hu) (fun _ _ h hu => h.step hu) statements s

theorem along_undisturbed {statements : List Statement} : ∀ {s : Standing}, s.Exact → s.Behind →
    Along Standing.step (fun s statement => (s.step statement).Exact) s statements →
      Along Standing.step Standing.Undisturbed s statements := by
  induction statements with
  | nil => intro s _ _ _; trivial
  | cons statement rest ih =>
    intro s hexact hbehind h
    exact ⟨undisturbed_of_exact hexact hbehind h.1, ih h.1 (hbehind.step hexact statement) h.2⟩

end

/-- **No outcome is lost.** Whatever statements of whatever calls interleave, the stored counters stay the numbers of outcomes
recorded exactly when every call that writes finds the row as it read it and its counter below the limit of `i64`. -/
theorem reputation_exact_iff (statements : List Statement) :
    Along Standing.step (fun s statement => (s.step statement).Exact) Standing.start statements ↔
      Along Standing.step Standing.Undisturbed Standing.start statements :=
  ⟨along_undisturbed exact_start behind_start, along_exact exact_start⟩

/-- two handlers read the same row and write it one after the other: one of the two outcomes is gone -/
theorem outcome_lost : ¬ ∀ statements : List Statement, (statements.foldl Standing.step Standing.start).Exact := by
  intro h
  have := h [.load 0 "node" true, .load 1 "node" true, .store 0, .store 1] "node" true
  exact absurd this (by decide +kernel)

end Hocmesh.Coordinator
