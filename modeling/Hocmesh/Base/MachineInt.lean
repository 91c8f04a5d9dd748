/-
Fixed-width integers as Int and Nat with the width written out.

`wrap64` is two's complement `i64` arithmetic as an optimised build computes it, `checkedAdd64` is `checked_add`, the
`sat` operations are the saturating ones of `u64`. A value that fits is its own wrap, and the wrap of a sum does not
depend on where the intermediate wraps happened; these two facts are all that overflow arguments need.
-/
import Mathlib.Tactic

namespace Hocmesh.Base

def i64Min : ℤ := -9223372036854775808

def i64Max : ℤ := 9223372036854775807

def u64Max : ℕ := 18446744073709551615

def u32Max : ℕ := 4294967295

/-- `x` is a value of type `i64` -/
def FitsI64 (x : ℤ) : Prop := i64Min ≤ x ∧ x ≤ i64Max

instance (x : ℤ) : Decidable (FitsI64 x) := by unfold FitsI64; infer_instance

/-- two's complement wrapping to 64 bits -/
def wrap64 (x : ℤ) : ℤ := x.bmod 18446744073709551616

/-- `i64::checked_add` -/
def checkedAdd64 (x y : ℤ) : Option ℤ := if FitsI64 (x + y) then some (x + y) else none

/-- wrapping `u64` -/
def wrapU64 (n : ℕ) : ℕ := n % 18446744073709551616

/-- wrapping `u32`, and the cast to it -/
def wrapU32 (n : ℕ) : ℕ := n % 4294967296

/-- `u64::saturating_add` -/
def satAdd (a b : ℕ) : ℕ := min (a + b) u64Max

/-- `u64::saturating_mul` -/
def satMul (a b : ℕ) : ℕ := min (a * b) u64Max

/-- `u64::div_ceil` -/
def divCeil (a b : ℕ) : ℕ := (a + (b - 1)) / b

theorem wrapU32_of_le {x : ℕ} (h : x ≤ u32Max) : wrapU32 x = x := Nat.mod_eq_of_lt (by unfold u32Max at h; omega)

theorem wrapU64_of_le {x : ℕ} (h : x ≤ u64Max) : wrapU64 x = x := Nat.mod_eq_of_lt (by unfold u64Max at h; omega)

theorem wrap64_of_fits {x : ℤ} (h : FitsI64 x) : wrap64 x = x := by
  unfold FitsI64 i64Min i64Max at h
  unfold wrap64
  apply Int.bmod_eq_of_le <;> omega

theorem fits_wrap64 (x : ℤ) : FitsI64 (wrap64 x) := by
  unfold FitsI64 i64Min i64Max wrap64
  have hlo := Int.le_bmod (x := x) (m := 18446744073709551616) (by decide)
  have hhi := Int.bmod_lt (x := x) (m := 18446744073709551616) (by decide)
  omega

theorem wrap64_add_wrap64 (x y : ℤ) : wrap64 (x + wrap64 y) = wrap64 (x + y) := by
  unfold wrap64
  exact Int.add_bmod_bmod

theorem wrap64_wrap64_add (x y : ℤ) : wrap64 (wrap64 x + y) = wrap64 (x + y) := by
  unfold wrap64
  exact Int.bmod_add_bmod

theorem wrap64_wrap64 (x : ℤ) : wrap64 (wrap64 x) = wrap64 x := by
  have := wrap64_wrap64_add x 0
  rwa [add_zero, add_zero] at this

theorem checkedAdd64_some {x y z : ℤ} : checkedAdd64 x y = some z ↔ z = x + y ∧ FitsI64 (x + y) := by
  unfold checkedAdd64
  split_ifs with h
  · simp [h, eq_comm]
  · simp [h]

theorem divCeil_le_iff {a b k : ℕ} (hb : 0 < b) : divCeil a b ≤ k ↔ a ≤ k * b := by
  unfold divCeil
  rw [Nat.div_le_iff_le_mul hb]
  constructor <;> intro h <;> omega

end Hocmesh.Base
