/-
What `promise` and `accept_ballot` demand, and what they write.

Both leave every table but `ballots` alone. A promise keeps what was accepted under it; an accept replaces the row.
-/
import Hocmesh.Ledger.Store

namespace Hocmesh.Ledger.LedgerStore

open Hocmesh.Base Hocmesh.Protocol

variable {st st' : LedgerStore} {sequence : ℕ} {ballot : Ballot}

/-- what a validator has put its name behind at a height -/
def acceptedAt (st : LedgerStore) (sequence : ℕ) : Option AcceptedProposal := st.ballots[sequence]?.bind (·.accepted)

theorem promise_ok {accepted : Option AcceptedProposal} :
    st.promise sequence ballot = .ok (st', accepted) ↔
      (sequence : ℤ) ≤ i64Max ∧ (∀ held, st.promisedBallot sequence = some held → ¬ held.outranks ballot) ∧
        accepted = st.acceptedAt sequence ∧
        st' = { st with ballots := st.ballots.insert sequence ⟨ballot, st.acceptedAt sequence⟩ } := by
  unfold promise promisedBallot acceptedAt sqliteSequence
  cases h : st.ballots[sequence]? with
  | none =>
    simp only [bind_ok, bailIf_ok, exists_const, pure_ok, Prod.mk.injEq, not_lt, gt_iff_lt, Option.map_none,
      Option.bind_none, reduceCtorEq, false_implies, implies_true, true_and]
    constructor
    · rintro ⟨h1, rfl, rfl⟩
      exact ⟨h1, rfl, rfl⟩
    · rintro ⟨h1, rfl, rfl⟩
      exact ⟨h1, rfl, rfl⟩
  | some row =>
    simp only [bind_ok, bailIf_ok, exists_const, pure_ok, Prod.mk.injEq, not_lt, gt_iff_lt, Option.map_some,
      Option.bind_some, Option.some.injEq, forall_eq']
    constructor
    · rintro ⟨h1, h2, rfl, rfl⟩
      exact ⟨h1, h2, rfl, rfl⟩
    · rintro ⟨h1, h2, rfl, rfl⟩
      exact ⟨h1, h2, rfl, rfl⟩

theorem acceptBallot_ok {entryHash : String} {transactions : List LedgerTransaction} :
    st.acceptBallot sequence ballot entryHash transactions = .ok st' ↔
      (sequence : ℤ) ≤ i64Max ∧ (∀ held, st.promisedBallot sequence = some held → ¬ held.outranks ballot) ∧
        (∀ h, st.votes[sequence]? = some h → h = entryHash) ∧
        st' = { st with ballots := st.ballots.insert sequence ⟨ballot, some ⟨ballot, entryHash, transactions⟩⟩ } := by
  unfold acceptBallot sqliteSequence
  cases h : st.promisedBallot sequence with
  | none =>
    simp only [bind_ok, bailIf_ok, exists_const, pure_ok, not_lt, gt_iff_lt, not_exists, not_and, not_not,
      reduceCtorEq, false_implies, implies_true, true_and]
    constructor
    · rintro ⟨h1, h2, rfl⟩
      exact ⟨h1, h2, rfl⟩
    · rintro ⟨h1, h2, rfl⟩
      exact ⟨h1, h2, rfl⟩
  | some held =>
    simp only [bind_ok, bailIf_ok, exists_const, pure_ok, not_lt, gt_iff_lt, not_exists, not_and, not_not,
      Option.some.injEq, forall_eq']
    constructor
    · rintro ⟨h1, h2, h3, rfl⟩
      exact ⟨h1, h2, h3, rfl⟩
    · rintro ⟨h1, h2, h3, rfl⟩
      exact ⟨h1, h2, h3, rfl⟩

end Hocmesh.Ledger.LedgerStore
