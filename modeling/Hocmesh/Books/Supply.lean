/-
The CU supply over whole runs.

Every reachable store sums to zero, owes only through issuance and never beyond the limit genesis fixed, and whatever
`validate_batch` accepts next, the balance pass of `apply` goes through.
-/
import Hocmesh.Books.Sample

namespace Hocmesh.Books

open Hocmesh.Base Hocmesh.Protocol Hocmesh.Compute Hocmesh.Ledger Hocmesh.Validator

/-- **Conservation over whole runs.** In every reachable store the balances sum to zero, every account but issuance is
nonnegative, issuance stays within the limit, and the balance pass of `apply` takes every batch `validate_batch` takes. -/
theorem supply_conserved {c : Crypto} {genesis : ValidatorSet} {st : LedgerStore}
    (hg : validateValidatorSet genesis = .ok ()) (h : Reachable c genesis st) :
    st.balances.total = 0 ∧
    (∀ a, a ≠ communityIssuanceAccount → 0 ≤ st.balance a) ∧
    (-genesis.communityIssuanceLimitMcu ≤ st.balance communityIssuanceAccount ∧
      st.balance communityIssuanceAccount ≤ 0) ∧
    ∀ txs prev, validateBatch c txs prev st.balance st.inferenceReservation (sittingSet genesis st) = .ok () →
      ∃ balances, LedgerStore.applyBalances st.balances txs = .ok balances := by
  have hs := (h.sound hg).conserved
  exact ⟨hs.total, hs.nonneg, ⟨hs.floor, (Table.total_zero_bound _ _ hs.total hs.nonneg).1⟩,
    fun _ _ hbatch => h.balance_pass hg hbatch⟩

/-- a one-validator chain that has minted one unit, now waiting in a holding account -/
theorem supply_conserved_after_mint :
    ∃ st, Reachable Sample.crypto (Sample.committee 1) st ∧ st.balance communityIssuanceAccount = -1 ∧
      st.balance (inferenceHoldingAccount Sample.smallAssignment) = 1 ∧ st.balances.total = 0 := by
  obtain ⟨st, hr, _, hiss, hheld, _⟩ := Sample.small_run
  exact ⟨st, hr, hiss, hheld, (supply_conserved (by decide +kernel) hr).1⟩

end Hocmesh.Books
