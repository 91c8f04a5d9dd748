/-
How many vectors a matrix that is not zero sends to zero.

Over a finite field a matrix with an entry that is not zero leaves every other coordinate of such a vector free, and
fixes that one (`card_mulVec_eq_zero_le`). It is what makes a product checkable by a random vector. Nothing in this file
is about a workload.
-/
import Mathlib.Tactic
import Mathlib.Data.Matrix.Mul
import Mathlib.Algebra.Field.Basic

namespace Hocmesh.Base

variable {K m n : Type*} [Field K] [Fintype n] [DecidableEq n]

/-- two vectors that a matrix sends to zero, and that agree but for one coordinate, are the same if the matrix sees it -/
theorem eq_of_mulVec_eq_zero {D : Matrix m n K} {i : m} {j : n} (hentry : D i j ≠ 0) {r r' : n → K}
    (hr : D.mulVec r = 0) (hr' : D.mulVec r' = 0) (hagree : ∀ k, k ≠ j → r k = r' k) : r = r' := by
  have hdiff : ∑ k, D i k * (r k - r' k) = 0 := by
    have h1 : ∑ k, D i k * r k = 0 := congrFun hr i
    have h2 : ∑ k, D i k * r' k = 0 := congrFun hr' i
    simp only [mul_sub, Finset.sum_sub_distrib, h1, h2, sub_zero]
  have hsingle : ∑ k, D i k * (r k - r' k) = D i j * (r j - r' j) :=
    Finset.sum_eq_single j (fun k _ hk => by rw [hagree k hk, sub_self, mul_zero])
      (fun hj => absurd (Finset.mem_univ j) hj)
  have hj : r j = r' j := by
    rw [hsingle] at hdiff
    exact sub_eq_zero.1 ((mul_eq_zero.1 hdiff).resolve_left hentry)
  funext k
  by_cases hk : k = j
  · rw [hk, hj]
  · exact hagree k hk

/-- **One coordinate is not free.** -/
theorem card_mulVec_eq_zero_le [Fintype K] {D : Matrix m n K} (hD : D ≠ 0) :
    Nat.card {r : n → K // D.mulVec r = 0} ≤ Fintype.card K ^ (Fintype.card n - 1) := by
  obtain ⟨i, j, hentry⟩ : ∃ i j, D i j ≠ 0 := by
    by_contra hall
    push Not at hall
    exact hD (Matrix.ext hall)
  have hinj : Function.Injective
      (fun (r : {r : n → K // D.mulVec r = 0}) (k : {k : n // k ≠ j}) => r.val k.val) := by
    intro r r' heq
    refine Subtype.ext (eq_of_mulVec_eq_zero hentry r.property r'.property fun k hk => ?_)
    exact congrFun heq ⟨k, hk⟩
  calc Nat.card {r : n → K // D.mulVec r = 0}
      ≤ Nat.card ({k : n // k ≠ j} → K) := Nat.card_le_card_of_injective _ hinj
    _ = Fintype.card K ^ (Fintype.card n - 1) := by
      rw [Nat.card_eq_fintype_card, Fintype.card_fun, Fintype.card_subtype_compl, Fintype.card_subtype_eq]

end Hocmesh.Base
