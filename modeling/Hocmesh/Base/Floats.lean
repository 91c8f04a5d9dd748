/-
Binary floating-point formats, and rounding to the nearest, ties to even.

`roundEven` rounds a natural number to a multiple of a power of two the way integer code does it: add just under a half,
and the last bit kept, and shift. A grid is a strictly increasing sequence of values up to a last one; `Rounds` says that
a point of the grid is on the right side of the two midpoints next to it, and `Rounds.nearest` that it is then the nearest
of all points, and even where another is as near.

The non-negative values of a format are such a grid, in the order of their bit patterns (`units_strictMono`).
-/
import Mathlib.Tactic

namespace Hocmesh.Base

/-- `n` over `2 ^ k`, rounded to the nearest, ties to even -/
def roundEven (n k : ℕ) : ℕ := (n + 2 ^ (k - 1) - 1 + n / 2 ^ k % 2) / 2 ^ k

/-- the quotient is the one below or the one above, by where the remainder stands -/
theorem roundEven_cases {k : ℕ} (hk : 0 < k) (n : ℕ) :
    (roundEven n k = n / 2 ^ k ∧ n % 2 ^ k + n / 2 ^ k % 2 ≤ 2 ^ (k - 1)) ∨
      (roundEven n k = n / 2 ^ k + 1 ∧ 2 ^ (k - 1) < n % 2 ^ k + n / 2 ^ k % 2) := by
  have hp : 2 ^ k = 2 * 2 ^ (k - 1) := by
    rw [← pow_succ', Nat.sub_add_cancel hk]
  have hpos : 0 < 2 ^ (k - 1) := Nat.two_pow_pos _
  have hn := Nat.div_add_mod n (2 ^ k)
  have hr : n % 2 ^ k < 2 ^ k := Nat.mod_lt _ (Nat.two_pow_pos k)
  have hsum : n + 2 ^ (k - 1) - 1 + n / 2 ^ k % 2 =
      (n % 2 ^ k + 2 ^ (k - 1) - 1 + n / 2 ^ k % 2) + 2 ^ k * (n / 2 ^ k) := by omega
  have hround : roundEven n k = (n % 2 ^ k + 2 ^ (k - 1) - 1 + n / 2 ^ k % 2) / 2 ^ k + n / 2 ^ k := by
    rw [roundEven, hsum, Nat.add_mul_div_left _ _ (Nat.two_pow_pos k)]
  rw [hround]
  rcases Nat.lt_or_ge (n % 2 ^ k + 2 ^ (k - 1) - 1 + n / 2 ^ k % 2) (2 ^ k) with hlt | hge
  · left
    rw [Nat.div_eq_of_lt hlt]
    omega
  · right
    have hone : (n % 2 ^ k + 2 ^ (k - 1) - 1 + n / 2 ^ k % 2) / 2 ^ k = 1 := by
      rw [Nat.div_eq_of_lt_le] <;> omega
    rw [hone]
    omega

/-- not above the midpoint to the next multiple, and on it only when even -/
theorem le_roundEven {k : ℕ} (hk : 0 < k) (n : ℕ) :
    2 * n ≤ 2 ^ k * (2 * roundEven n k + 1) ∧ (2 * n = 2 ^ k * (2 * roundEven n k + 1) → roundEven n k % 2 = 0) := by
  have hp : 2 ^ k = 2 * 2 ^ (k - 1) := by
    rw [← pow_succ', Nat.sub_add_cancel hk]
  have hn := Nat.div_add_mod n (2 ^ k)
  have hr : n % 2 ^ k < 2 ^ k := Nat.mod_lt _ (Nat.two_pow_pos k)
  rcases roundEven_cases hk n with ⟨h, hside⟩ | ⟨h, hside⟩ <;> rw [h]
  · have hmul : 2 ^ k * (2 * (n / 2 ^ k) + 1) = 2 * (2 ^ k * (n / 2 ^ k)) + 2 ^ k := by ring
    omega
  · have hmul : 2 ^ k * (2 * (n / 2 ^ k + 1) + 1) = 2 * (2 ^ k * (n / 2 ^ k)) + 3 * 2 ^ k := by ring
    omega

/-- not below the midpoint to the multiple before, and on it only when even -/
theorem roundEven_le {k : ℕ} (hk : 0 < k) (n : ℕ) :
    2 ^ k * (2 * roundEven n k) ≤ 2 * n + 2 ^ k ∧
      (2 ^ k * (2 * roundEven n k) = 2 * n + 2 ^ k → roundEven n k % 2 = 0) := by
  have hp : 2 ^ k = 2 * 2 ^ (k - 1) := by
    rw [← pow_succ', Nat.sub_add_cancel hk]
  have hpos : 0 < 2 ^ (k - 1) := Nat.two_pow_pos _
  have hn := Nat.div_add_mod n (2 ^ k)
  rcases roundEven_cases hk n with ⟨h, hside⟩ | ⟨h, hside⟩ <;> rw [h]
  · have hmul : 2 ^ k * (2 * (n / 2 ^ k)) = 2 * (2 ^ k * (n / 2 ^ k)) := by ring
    omega
  · have hmul : 2 ^ k * (2 * (n / 2 ^ k + 1)) = 2 * (2 ^ k * (n / 2 ^ k)) + 2 * 2 ^ k := by ring
    omega

/-- what is at most a multiple rounds to at most it -/
theorem roundEven_le_of_le {k : ℕ} (hk : 0 < k) {n q : ℕ} (h : n ≤ 2 ^ k * q) : roundEven n k ≤ q := by
  have hle := (roundEven_le hk n).1
  have hpos : 0 < 2 ^ k := Nat.two_pow_pos k
  by_contra hlt
  have hmul : 2 ^ k * (2 * (q + 1)) ≤ 2 ^ k * (2 * roundEven n k) := Nat.mul_le_mul_left _ (by omega)
  have hexp : 2 ^ k * (2 * (q + 1)) = 2 * (2 ^ k * q) + 2 * 2 ^ k := by ring
  omega

/-! ## A grid -/

section

variable {grid : ℕ → ℚ} {top h : ℕ} {x : ℚ}

/-- `x` is not past the midpoints between a point of the grid and its neighbours, and on one only if the point is even -/
structure Rounds (grid : ℕ → ℚ) (top : ℕ) (x : ℚ) (h : ℕ) : Prop where
  le_top : h ≤ top
  above : h < top → 2 * x ≤ grid h + grid (h + 1) ∧ (2 * x = grid h + grid (h + 1) → h % 2 = 0)
  below : 0 < h → grid (h - 1) + grid h ≤ 2 * x ∧ (grid (h - 1) + grid h = 2 * x → h % 2 = 0)

theorem Rounds.nearest (hgrid : StrictMono grid) (hr : Rounds grid top x h) {g : ℕ} (hg : g ≤ top) :
    |x - grid h| ≤ |x - grid g| ∧ (g ≠ h → |x - grid h| = |x - grid g| → h % 2 = 0) := by
  rcases lt_trichotomy g h with hlt | rfl | hlt
  · -- the point before is at least as far below as `g`
    obtain ⟨hle, htie⟩ := hr.below (by omega)
    have hstep : grid g ≤ grid (h - 1) := hgrid.monotone (by omega)
    have hless : grid g < grid h := hgrid hlt
    rw [abs_of_nonneg (show (0 : ℚ) ≤ x - grid g by linarith)]
    refine ⟨abs_le.2 ⟨by linarith, by linarith⟩, fun _ heq => ?_⟩
    rcases abs_choice (x - grid h) with habs | habs <;> rw [habs] at heq
    · linarith
    · exact htie (by linarith)
  · exact ⟨le_rfl, fun hne => absurd rfl hne⟩
  · obtain ⟨hle, htie⟩ := hr.above (by omega)
    have hstep : grid (h + 1) ≤ grid g := hgrid.monotone (by omega)
    have hless : grid h < grid g := hgrid hlt
    rw [abs_of_nonpos (show x - grid g ≤ 0 by linarith)]
    refine ⟨abs_le.2 ⟨by linarith, by linarith⟩, fun _ heq => ?_⟩
    rcases abs_choice (x - grid h) with habs | habs <;> rw [habs] at heq
    · exact htie (by linarith)
    · linarith

/-- the last point is taken from the midpoint before it on, if it is even -/
theorem Rounds.eq_top_iff (hgrid : StrictMono grid) (hr : Rounds grid top x h) (htop : 0 < top) (heven : top % 2 = 0) :
    h = top ↔ grid (top - 1) + grid top ≤ 2 * x := by
  constructor
  · rintro rfl
    exact (hr.below htop).1
  · intro hle
    by_contra hne
    obtain ⟨habove, htie⟩ := hr.above (lt_of_le_of_ne hr.le_top hne)
    have hlt : h < top := lt_of_le_of_ne hr.le_top hne
    have h1 : grid h ≤ grid (top - 1) := hgrid.monotone (by omega)
    have h2 : grid (h + 1) ≤ grid top := hgrid.monotone (by omega)
    have heq : grid h = grid (top - 1) := by linarith
    have hlast := hgrid.injective heq
    have := htie (by linarith)
    omega

end

/-! ## Formats -/

/-- the magnitude of a pattern without its sign, in units of the least positive value: with `m` mantissa bits, what is above
them is the exponent -/
def units (m h : ℕ) : ℕ := if h / 2 ^ m = 0 then h else (2 ^ m + h % 2 ^ m) * 2 ^ (h / 2 ^ m - 1)

/-- up to twice the least normal value, patterns are their own magnitude -/
theorem units_low {m h : ℕ} (hh : h ≤ 2 * 2 ^ m) : units m h = h := by
  have hpos : 0 < 2 ^ m := Nat.two_pow_pos m
  unfold units
  split_ifs with h0
  · rfl
  · rcases Nat.lt_or_ge h (2 * 2 ^ m) with hlt | hge
    · have hle : 2 ^ m ≤ h := not_lt.1 fun hlt' => h0 (Nat.div_eq_of_lt hlt')
      have hone : h / 2 ^ m = 1 := Nat.div_eq_of_lt_le (by omega) (by omega)
      have hn := Nat.div_add_mod h (2 ^ m)
      rw [hone] at hn ⊢
      simp only [Nat.sub_self, pow_zero, mul_one]
      omega
    · obtain rfl : h = 2 * 2 ^ m := le_antisymm hh hge
      rw [Nat.mul_div_cancel _ hpos, Nat.mul_mod_left]
      ring

/-- the patterns of one exponent, and the one after them -/
theorem units_block {m e j : ℕ} (he : 0 < e) (hj : j ≤ 2 ^ m) : units m (2 ^ m * e + j) = (2 ^ m + j) * 2 ^ (e - 1) := by
  have hpos : 0 < 2 ^ m := Nat.two_pow_pos m
  unfold units
  rcases Nat.lt_or_ge j (2 ^ m) with hlt | hge
  · have hdiv : (2 ^ m * e + j) / 2 ^ m = e := by
      rw [Nat.mul_add_div hpos, Nat.div_eq_of_lt hlt, Nat.add_zero]
    rw [hdiv, if_neg (by omega), Nat.mul_add_mod, Nat.mod_eq_of_lt hlt]
  · obtain rfl : j = 2 ^ m := le_antisymm hj hge
    have hnext : 2 ^ m * e + 2 ^ m = 2 ^ m * (e + 1) := by ring
    rw [hnext, Nat.mul_div_cancel_left _ hpos, if_neg (by omega), Nat.mul_mod_right, Nat.add_zero, Nat.add_sub_cancel]
    obtain ⟨k, rfl⟩ : ∃ k, e = k + 1 := ⟨e - 1, by omega⟩
    rw [Nat.add_sub_cancel]
    ring

theorem units_strictMono (m : ℕ) : StrictMono (units m) := by
  refine strictMono_nat_of_lt_succ fun h => ?_
  have hpos : 0 < 2 ^ m := Nat.two_pow_pos m
  have hn := Nat.div_add_mod h (2 ^ m)
  have hr : h % 2 ^ m < 2 ^ m := Nat.mod_lt _ hpos
  rcases Nat.eq_zero_or_pos (h / 2 ^ m) with he | he
  · rw [he] at hn
    rw [units_low (by omega), units_low (by omega)]
    exact Nat.lt_succ_self h
  · have hsucc : h + 1 = 2 ^ m * (h / 2 ^ m) + (h % 2 ^ m + 1) := by omega
    calc units m h = (2 ^ m + h % 2 ^ m) * 2 ^ (h / 2 ^ m - 1) := by
          rw [← units_block he hr.le, hn]
      _ < (2 ^ m + (h % 2 ^ m + 1)) * 2 ^ (h / 2 ^ m - 1) :=
          Nat.mul_lt_mul_of_pos_right (by omega) (Nat.two_pow_pos _)
      _ = units m (h + 1) := by rw [hsucc, units_block he hr]

/-- a binary format: its mantissa and its exponent bits -/
structure FloatFormat where
  mantissaBits : ℕ
  exponentBits : ℕ

namespace FloatFormat

variable (f : FloatFormat) (bits : ℕ)

/-- the sign bit stands above the others -/
def signBit : ℕ := bits / 2 ^ (f.mantissaBits + f.exponentBits) % 2

/-- the pattern without its sign -/
def magnitude : ℕ := bits % 2 ^ (f.mantissaBits + f.exponentBits)

/-- the pattern of infinity: all bits of the exponent, and none of the mantissa -/
def infinity : ℕ := 2 ^ (f.mantissaBits + f.exponentBits) - 2 ^ f.mantissaBits

def IsNaN : Prop := f.infinity < f.magnitude bits

def IsInfinite : Prop := f.magnitude bits = f.infinity

def IsFinite : Prop := f.magnitude bits < f.infinity

/-- the least positive value is a half to this power -/
def scale : ℕ := 2 ^ (f.exponentBits - 1) - 2 + f.mantissaBits

/-- the exact value of a pattern; infinity stands where the value after the largest one would -/
def value : ℚ := (-1) ^ f.signBit bits * (units f.mantissaBits (f.magnitude bits) / 2 ^ f.scale)

/-- the values without sign -/
def grid (h : ℕ) : ℚ := units f.mantissaBits h / 2 ^ f.scale

theorem grid_strictMono : StrictMono f.grid := by
  intro a b hab
  have hlt : (units f.mantissaBits a : ℚ) < units f.mantissaBits b := by exact_mod_cast units_strictMono _ hab
  exact div_lt_div_of_pos_right hlt (by positivity)

theorem grid_nonneg (h : ℕ) : 0 ≤ f.grid h := by
  unfold grid
  positivity

theorem abs_value : |f.value bits| = f.grid (f.magnitude bits) := by
  rw [value, abs_mul, abs_pow, abs_neg, abs_one, one_pow, one_mul]
  exact abs_of_nonneg (f.grid_nonneg _)

variable {f bits}

/-- **Rounding with a sign.** What is nearest among the values without sign is nearest among all. -/
theorem nearest_of_rounds {x : ℚ} {s h g : ℕ} (hr : Rounds f.grid f.infinity x (f.magnitude h)) (hx : 0 ≤ x)
    (hs : f.signBit h = s) (hg : ¬ f.IsNaN g) :
    |(-1) ^ s * x - f.value h| ≤ |(-1) ^ s * x - f.value g| ∧
      (f.value g ≠ f.value h → |(-1) ^ s * x - f.value h| = |(-1) ^ s * x - f.value g| → f.magnitude h % 2 = 0) := by
  have hgtop : f.magnitude g ≤ f.infinity := not_lt.1 hg
  have hsign : ∀ y : ℚ, |(-1) ^ s * x - (-1) ^ s * y| = |x - y| := fun y => by
    rw [← mul_sub, abs_mul, abs_pow, abs_neg, abs_one, one_pow, one_mul]
  have hvalue : f.value h = (-1) ^ s * f.grid (f.magnitude h) := by
    rw [value, hs, grid]
  obtain ⟨hle, htie⟩ := hr.nearest f.grid_strictMono hgtop
  have hgrid := f.grid_nonneg (f.magnitude g)
  -- a value of the other sign is at least as far as its magnitude
  have hfar : |x - f.grid (f.magnitude g)| ≤ |(-1) ^ s * x - f.value g| := by
    have habs := abs_abs_sub_abs_le ((-1) ^ s * x) (f.value g)
    rwa [f.abs_value, abs_mul, abs_pow, abs_neg, abs_one, one_pow, one_mul, abs_of_nonneg hx] at habs
  rw [hvalue, hsign]
  refine ⟨hle.trans hfar, fun hne heq => ?_⟩
  by_cases hmag : f.magnitude g = f.magnitude h
  · -- the same magnitude with the other sign: the distances are equal only at zero
    rw [hmag] at hfar hle
    rcases Nat.eq_zero_or_pos (f.magnitude h) with h0 | hpos
    · omega
    · exfalso
      have hopp : f.value g = -((-1) ^ s * f.grid (f.magnitude h)) := by
        have habs : |f.value g| = |(-1) ^ s * f.grid (f.magnitude h)| := by
          rw [f.abs_value, hmag, abs_mul, abs_pow, abs_neg, abs_one, one_pow, one_mul, abs_of_nonneg (f.grid_nonneg _)]
        exact (abs_eq_abs.1 habs).resolve_left (hvalue ▸ hne)
      have hlt : f.grid 0 < f.grid (f.magnitude h) := f.grid_strictMono hpos
      have hzero := f.grid_nonneg 0
      rw [hopp, sub_neg_eq_add, ← mul_add, abs_mul, abs_pow, abs_neg, abs_one, one_pow, one_mul,
        abs_of_nonneg (show 0 ≤ x + f.grid (f.magnitude h) by linarith)] at heq
      rcases abs_choice (x - f.grid (f.magnitude h)) with habs | habs <;> rw [habs] at heq
      · linarith
      · -- then `x` is zero, and zero would be nearer
        have hx0 : x = 0 := by linarith
        obtain ⟨hnear, -⟩ := hr.nearest f.grid_strictMono (Nat.zero_le f.infinity)
        have hgrid0 : f.grid 0 = 0 := by simp [grid, units]
        rw [hx0, hgrid0, sub_zero, abs_zero, zero_sub, abs_neg, abs_of_pos (by linarith)] at hnear
        linarith
  · exact htie hmag (le_antisymm hle (hfar.trans heq.ge))

end FloatFormat

end Hocmesh.Base
