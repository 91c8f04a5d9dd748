/-
Half precision (`f16_to_f32`, `f32_to_f16`, `bf16_to_f32`).

Both directions are bit arithmetic on the patterns. `widen_spec` and `narrow_spec` say what the bits of the result are as
numbers; `half_precision_rounds` says what they denote: a half widens to its own value, and a single narrows to the nearest
half, ties to even, with infinity in the place of the value after the largest half.
-/
import Hocmesh.Base.Bits
import Hocmesh.Base.Floats
import Hocmesh.Engine.Kernels

namespace Hocmesh.Engine

open Hocmesh.Base

/-- a half-precision float, as its bit pattern -/
abbrev F16 := UInt16

/-- `u32::leading_zeros` -/
def leadingZeros (x : UInt32) : UInt32 := if x = 0 then 32 else UInt32.ofNat (31 - x.toNat.log2)

/-- `f16_to_f32` -/
def f16ToF32 (bits : F16) : F32 :=
  let sign := (bits &&& 0x8000).toUInt32 <<< 16
  let exponent := ((bits >>> 10) &&& 0x1f).toUInt32
  let mantissa := (bits &&& 0x03ff).toUInt32
  if exponent = 0 then
    if mantissa = 0 then sign
    else
      -- a subnormal half: its highest set bit becomes the implicit one
      let leading := leadingZeros mantissa
      let exponent := 134 - leading
      let significand := (mantissa <<< (leading - 8)) &&& 0x007fffff
      sign ||| (exponent <<< 23) ||| significand
  else if exponent = 0x1f then sign ||| (0x7f800000 : UInt32) ||| (mantissa <<< 13)
  else sign ||| ((exponent + 127 - 15) <<< 23) ||| (mantissa <<< 13)

/-- `bf16_to_f32` -/
def bf16ToF32 (bits : UInt16) : F32 := bits.toUInt32 <<< 16

/-- `f32_to_f16` -/
def f32ToF16 (bits : F32) : F16 :=
  let sign := ((bits >>> 16) &&& 0x8000).toUInt16
  let exponent : ℤ := ((bits >>> 23) &&& 0xff).toNat
  let mantissa : UInt32 := bits &&& 0x007fffff
  if exponent = 0xff then
    -- a mantissa that cannot round down to zero and turn NaN into infinity
    let payload : UInt16 := if mantissa = 0 then 0 else 0x0200
    sign ||| 0x7c00 ||| payload
  else
    let unbiased := exponent - 127 + 15
    if 0x1f ≤ unbiased then sign ||| 0x7c00
    else if unbiased ≤ 0 then
      if unbiased < -10 then sign
      else
        let mantissa := mantissa ||| 0x00800000
        let shift := UInt32.ofInt (14 - unbiased)
        let rounded := (mantissa + ((1 : UInt32) <<< (shift - 1)) - 1 + ((mantissa >>> shift) &&& 1)) >>> shift
        sign ||| rounded.toUInt16
    else
      let rounded := mantissa + (0x0fff : UInt32) + ((mantissa >>> 13) &&& 1)
      -- rounding can carry into the exponent
      sign ||| ((UInt32.ofInt unbiased <<< 10).toUInt16 + (rounded >>> 13).toUInt16)

def half : FloatFormat := ⟨10, 5⟩

def single : FloatFormat := ⟨23, 8⟩

/-! ## Fields -/

theorem exponent_field (x : UInt32) : ((x >>> 23) &&& 0xff).toNat = x.toNat / 2 ^ 23 % 2 ^ 8 := by
  rw [UInt32.toNat_and, UInt32.toNat_shiftRight]
  exact (and_mask _ 8 _ rfl).trans (congrArg (· % 2 ^ 8) (Nat.shiftRight_eq_div_pow _ _))

theorem mantissa_field (x : UInt32) : (x &&& 0x007fffff).toNat = x.toNat % 2 ^ 23 := by
  rw [UInt32.toNat_and]
  exact and_mask _ 23 _ rfl

theorem sign_field (x : UInt32) : ((x >>> 16) &&& 0x8000).toUInt16.toNat = x.toNat / 2 ^ 31 * 2 ^ 15 := by
  have hx := x.toNat_lt
  have hbit : x.toNat >>> 16 &&& 2 ^ 15 = x.toNat / 2 ^ 31 * 2 ^ 15 := by
    rw [and_bit, Nat.shiftRight_eq_div_pow, Nat.div_div_eq_div_mul, Nat.mod_eq_of_lt (by omega), ← pow_add]
  rw [UInt32.toNat_toUInt16, UInt32.toNat_and, UInt32.toNat_shiftRight]
  have hsame : (x.toNat >>> ((16 : UInt32).toNat % 32) &&& (0x8000 : UInt32).toNat) = x.toNat / 2 ^ 31 * 2 ^ 15 := hbit
  rw [hsame]
  omega

/-! ## What the bits are -/

/-- the shift that rounds, on words -/
theorem toNat_round {x shift : UInt32} {k : ℕ} (hshift : shift.toNat = k) (hk : 0 < k) (hk' : k < 31)
    (hx : x.toNat < 2 ^ 30) :
    ((x + ((1 : UInt32) <<< (shift - 1)) - 1 + ((x >>> shift) &&& 1)) >>> shift).toNat = roundEven x.toNat k := by
  have hone : (1 : UInt32).toNat = 1 := rfl
  have hless : (shift - 1).toNat = k - 1 := by
    rw [UInt32.toNat_sub, hshift, hone]
    omega
  have hhalf : ((1 : UInt32) <<< (shift - 1)).toNat = 2 ^ (k - 1) := by
    rw [UInt32.toNat_shiftLeft, hless, hone, Nat.mod_eq_of_lt (show k - 1 < 32 by omega), Nat.shiftLeft_eq, one_mul]
    exact Nat.mod_eq_of_lt (Nat.pow_lt_pow_right (by norm_num) (by omega))
  have hbit : ((x >>> shift) &&& 1).toNat = x.toNat / 2 ^ k % 2 := by
    rw [UInt32.toNat_and, UInt32.toNat_shiftRight, hshift, Nat.mod_eq_of_lt (show k < 32 by omega),
      Nat.shiftRight_eq_div_pow, hone, Nat.and_one_is_mod]
  have hpow : 2 ^ (k - 1) ≤ 2 ^ 29 := Nat.pow_le_pow_right (by norm_num) (by omega)
  have hpos : 0 < 2 ^ (k - 1) := Nat.two_pow_pos _
  rw [UInt32.toNat_shiftRight, hshift, Nat.mod_eq_of_lt (show k < 32 by omega), Nat.shiftRight_eq_div_pow, roundEven]
  congr 1
  rw [UInt32.toNat_add, UInt32.toNat_sub, UInt32.toNat_add, hbit, hhalf, hone]
  omega

/-- the magnitude a single narrows to, from its exponent and its mantissa -/
def narrowMagnitude (e m : ℕ) : ℕ :=
  if e = 255 then if m = 0 then 0x7c00 else 0x7e00
  else if 143 ≤ e then 0x7c00
  else if e ≤ 112 then if e < 102 then 0 else roundEven (2 ^ 23 + m) (126 - e)
  else (e - 112) * 2 ^ 10 + roundEven m 13

theorem roundEven_subnormal {e m : ℕ} (h1 : 102 ≤ e) (h2 : e ≤ 112) (hm : m < 2 ^ 23) :
    roundEven (2 ^ 23 + m) (126 - e) ≤ 2 ^ 10 := by
  have hpow : 2 ^ 14 ≤ 2 ^ (126 - e) := Nat.pow_le_pow_right (by norm_num) (by omega)
  refine roundEven_le_of_le (by omega) ?_
  omega

theorem roundEven_mantissa {m : ℕ} (hm : m < 2 ^ 23) : roundEven m 13 ≤ 2 ^ 10 :=
  roundEven_le_of_le (by norm_num) (by omega)

/-- **What a single narrows to**, as a number -/
theorem narrow_spec (bits : F32) : (f32ToF16 bits).toNat =
    bits.toNat / 2 ^ 31 * 2 ^ 15 + narrowMagnitude (bits.toNat / 2 ^ 23 % 2 ^ 8) (bits.toNat % 2 ^ 23) := by
  have hsign := sign_field bits
  have hexp := exponent_field bits
  have hman := mantissa_field bits
  have he : bits.toNat / 2 ^ 23 % 2 ^ 8 < 2 ^ 8 := Nat.mod_lt _ (by norm_num)
  have hm : bits.toNat % 2 ^ 23 < 2 ^ 23 := Nat.mod_lt _ (by norm_num)
  unfold f32ToF16 narrowMagnitude
  generalize ((bits >>> 16) &&& 0x8000).toUInt16 = sign at *
  generalize ((bits >>> 23) &&& 0xff).toNat = exponent at *
  generalize (bits &&& 0x007fffff : UInt32) = mantissa at *
  generalize bits.toNat / 2 ^ 31 = s at *
  generalize bits.toNat / 2 ^ 23 % 2 ^ 8 = e at *
  generalize bits.toNat % 2 ^ 23 = m at *
  subst hexp
  have hzero : mantissa = 0 ↔ m = 0 := by
    rw [← hman, ← UInt32.toNat_inj]
    rfl
  have hor : ∀ x : UInt16, x.toNat < 2 ^ 15 → (sign ||| x).toNat = s * 2 ^ 15 + x.toNat := by
    intro x hx
    rw [UInt16.toNat_or, hsign, or_above hx]
  dsimp only
  by_cases h255 : exponent = 255
  · rw [if_pos (by omega), if_pos h255]
    simp only [hzero]
    split_ifs
    · rw [UInt16.or_assoc, hor _ (by decide)]
      rfl
    · rw [UInt16.or_assoc, hor _ (by decide)]
      rfl
  rw [if_neg (by omega), if_neg h255]
  by_cases hbig : 143 ≤ exponent
  · rw [if_pos (by omega), if_pos hbig, hor _ (by decide)]
    rfl
  rw [if_neg (by omega), if_neg hbig]
  by_cases hlow : exponent ≤ 112
  · rw [if_pos (by omega), if_pos hlow]
    by_cases htiny : exponent < 102
    · rw [if_pos (by omega), if_pos htiny, hsign, Nat.add_zero]
    · rw [if_neg (by omega), if_neg htiny]
      have hshift : (UInt32.ofInt (14 - ((exponent : ℤ) - 127 + 15))).toNat = 126 - exponent := by
        rw [UInt32.ofInt, UInt32.toNat_ofNat']
        omega
      have himplicit : (mantissa ||| 0x00800000).toNat = 2 ^ 23 + m := by
        rw [UInt32.toNat_or, Nat.or_comm, hman]
        exact @or_above 1 m 23 hm
      have hround := toNat_round hshift (by omega) (by omega) (show (mantissa ||| 0x00800000).toNat < 2 ^ 30 by omega)
      rw [himplicit] at hround
      have hle := roundEven_subnormal (not_lt.1 htiny) hlow hm
      rw [hor _ (by rw [UInt32.toNat_toUInt16, hround]; omega), UInt32.toNat_toUInt16, hround]
      omega
  · rw [if_neg (by omega), if_neg hlow]
    have hround : ((mantissa + (0x0fff : UInt32) + ((mantissa >>> 13) &&& 1)) >>> 13).toNat = roundEven m 13 := by
      have hsame : mantissa + (0x0fff : UInt32) = mantissa + ((1 : UInt32) <<< ((13 : UInt32) - 1)) - 1 := by
        have hhalf : ((1 : UInt32) <<< ((13 : UInt32) - 1)).toNat = 0x1000 := rfl
        have hone : (1 : UInt32).toNat = 1 := rfl
        have hrest : (0x0fff : UInt32).toNat = 0x0fff := rfl
        apply UInt32.toNat_inj.1
        rw [UInt32.toNat_sub, UInt32.toNat_add, UInt32.toNat_add, hhalf, hone, hrest]
        omega
      rw [hsame, ← hman]
      exact @toNat_round mantissa 13 13 rfl (by norm_num) (by norm_num) (by omega)
    have hle := roundEven_mantissa hm
    have hexponent : (UInt32.ofInt ((exponent : ℤ) - 127 + 15) <<< 10).toUInt16.toNat = (exponent - 112) * 2 ^ 10 := by
      have hunbiased : (UInt32.ofInt ((exponent : ℤ) - 127 + 15)).toNat = exponent - 112 := by
        rw [UInt32.ofInt, UInt32.toNat_ofNat']
        omega
      have hten : (10 : UInt32).toNat % 32 = 10 := rfl
      rw [UInt32.toNat_toUInt16, UInt32.toNat_shiftLeft, hunbiased, hten, Nat.shiftLeft_eq]
      omega
    have hsum : ((UInt32.ofInt ((exponent : ℤ) - 127 + 15) <<< 10).toUInt16 +
        ((mantissa + (0x0fff : UInt32) + ((mantissa >>> 13) &&& 1)) >>> 13).toUInt16).toNat =
          (exponent - 112) * 2 ^ 10 + roundEven m 13 := by
      rw [UInt16.toNat_add, hexponent, UInt32.toNat_toUInt16, hround]
      omega
    rw [hor _ (by rw [hsum]; omega), hsum]

/-! ## What they denote -/

/-- the midpoints compared in units of the least single -/
theorem rounds_of_units {x h : ℕ} (htop : h ≤ 0x7c00)
    (habove : h < 0x7c00 → 2 * x ≤ (units 10 h + units 10 (h + 1)) * 2 ^ 125 ∧
      (2 * x = (units 10 h + units 10 (h + 1)) * 2 ^ 125 → h % 2 = 0))
    (hbelow : 0 < h → (units 10 (h - 1) + units 10 h) * 2 ^ 125 ≤ 2 * x ∧
      ((units 10 (h - 1) + units 10 h) * 2 ^ 125 = 2 * x → h % 2 = 0)) :
    Rounds half.grid half.infinity (x / 2 ^ single.scale) h := by
  have hhalf : half.scale = 24 := rfl
  have hbits : half.mantissaBits = 10 := rfl
  have hsingle : single.scale = 149 := rfl
  have hgrid : ∀ a b : ℕ, half.grid a + half.grid b = (((units 10 a + units 10 b) * 2 ^ 125 : ℕ) : ℚ) / 2 ^ 149 := by
    intro a b
    have hscale : (2 : ℚ) ^ 149 = 2 ^ 24 * 2 ^ 125 := by rw [← pow_add]
    simp only [FloatFormat.grid, hhalf, hbits]
    rw [hscale, ← add_div, ← mul_div_mul_right _ _ (show (2 : ℚ) ^ 125 ≠ 0 by positivity)]
    push_cast
    rfl
  have htwice : 2 * ((x : ℚ) / 2 ^ single.scale) = ((2 * x : ℕ) : ℚ) / 2 ^ 149 := by
    rw [hsingle]
    push_cast
    ring
  have hpos : (0 : ℚ) < 2 ^ 149 := by positivity
  refine ⟨htop, fun hlt => ?_, fun hlt => ?_⟩
  · obtain ⟨hle, htie⟩ := habove hlt
    rw [htwice, hgrid, div_le_div_iff_of_pos_right hpos, div_left_inj' hpos.ne']
    exact ⟨by exact_mod_cast hle, fun heq => htie (by exact_mod_cast heq)⟩
  · obtain ⟨hle, htie⟩ := hbelow hlt
    rw [htwice, hgrid, div_le_div_iff_of_pos_right hpos, div_left_inj' hpos.ne']
    exact ⟨by exact_mod_cast hle, fun heq => htie (by exact_mod_cast heq)⟩

/-- the magnitude of a single, from its fields -/
theorem units_single {e m : ℕ} (hm : m < 2 ^ 23) :
    units 23 (2 ^ 23 * e + m) = if e = 0 then m else (2 ^ 23 + m) * 2 ^ (e - 1) := by
  split_ifs with h
  · subst h
    rw [Nat.mul_zero, Nat.zero_add, units_low (by omega)]
  · exact units_block (by omega) hm.le

theorem rounds_subnormal {e m : ℕ} (h1 : 102 ≤ e) (h2 : e ≤ 112) (hm : m < 2 ^ 23) :
    Rounds half.grid half.infinity (((2 ^ 23 + m) * 2 ^ (e - 1) : ℕ) / 2 ^ single.scale)
      (roundEven (2 ^ 23 + m) (126 - e)) := by
  have hle := roundEven_subnormal h1 h2 hm
  obtain ⟨ha, hatie⟩ := le_roundEven (show 0 < 126 - e by omega) (2 ^ 23 + m)
  obtain ⟨hb, hbtie⟩ := roundEven_le (show 0 < 126 - e by omega) (2 ^ 23 + m)
  generalize roundEven (2 ^ 23 + m) (126 - e) = q at *
  have hscale : 2 ^ 125 = 2 ^ (126 - e) * 2 ^ (e - 1) := by
    rw [← pow_add]
    congr 1
    omega
  have hpos : 0 < 2 ^ (e - 1) := Nat.two_pow_pos _
  refine rounds_of_units (by omega) (fun _ => ?_) (fun hq => ?_)
  · rw [units_low (by omega), units_low (by omega), hscale]
    have hl : 2 * ((2 ^ 23 + m) * 2 ^ (e - 1)) = 2 * (2 ^ 23 + m) * 2 ^ (e - 1) := by ring
    have hr : (q + (q + 1)) * (2 ^ (126 - e) * 2 ^ (e - 1)) = 2 ^ (126 - e) * (2 * q + 1) * 2 ^ (e - 1) := by ring
    rw [hl, hr]
    exact ⟨Nat.mul_le_mul_right _ ha, fun heq => hatie (Nat.eq_of_mul_eq_mul_right hpos heq)⟩
  · obtain ⟨p, rfl⟩ : ∃ p, q = p + 1 := ⟨q - 1, by omega⟩
    rw [units_low (by omega), units_low (by omega), hscale, Nat.add_sub_cancel]
    have hl : (p + (p + 1)) * (2 ^ (126 - e) * 2 ^ (e - 1)) = 2 ^ (126 - e) * (2 * p + 1) * 2 ^ (e - 1) := by ring
    have hr : 2 * ((2 ^ 23 + m) * 2 ^ (e - 1)) = 2 * (2 ^ 23 + m) * 2 ^ (e - 1) := by ring
    have hsplit : 2 ^ (126 - e) * (2 * (p + 1)) = 2 ^ (126 - e) * (2 * p + 1) + 2 ^ (126 - e) := by ring
    rw [hl, hr]
    refine ⟨Nat.mul_le_mul_right _ (by omega), fun heq => hbtie ?_⟩
    have := Nat.eq_of_mul_eq_mul_right hpos heq
    omega

theorem rounds_normal {e m : ℕ} (h1 : 112 < e) (h2 : e < 143) (hm : m < 2 ^ 23) :
    Rounds half.grid half.infinity (((2 ^ 23 + m) * 2 ^ (e - 1) : ℕ) / 2 ^ single.scale)
      ((e - 112) * 2 ^ 10 + roundEven m 13) := by
  have hle := roundEven_mantissa hm
  obtain ⟨ha, hatie⟩ := le_roundEven (show 0 < 13 by norm_num) m
  obtain ⟨hb, hbtie⟩ := roundEven_le (show 0 < 13 by norm_num) m
  generalize roundEven m 13 = q at *
  obtain ⟨k, rfl⟩ : ∃ k, e = 113 + k := ⟨e - 113, by omega⟩
  have hexp : 113 + k - 112 = k + 1 := by omega
  have hpow : 2 ^ (113 + k - 1) = 2 ^ 112 * 2 ^ k := by
    rw [← pow_add]
    congr 1
    omega
  have hpos : 0 < 2 ^ 112 * 2 ^ k := by positivity
  rw [hexp, hpow]
  have hunits : ∀ j ≤ 2 ^ 10, units 10 ((k + 1) * 2 ^ 10 + j) = (2 ^ 10 + j) * 2 ^ k := by
    intro j hj
    rw [Nat.mul_comm (k + 1), units_block (show 0 < k + 1 by omega) hj, Nat.add_sub_cancel]
  have hnext : (2 ^ 10 + (q + 1)) * 2 ^ k ≤ units 10 ((k + 1) * 2 ^ 10 + q + 1) := by
    rcases Nat.lt_or_ge q (2 ^ 10) with hlt | hge
    · rw [Nat.add_assoc _ q 1]
      exact (hunits (q + 1) hlt).ge
    · -- the next value is the second one of the next exponent
      obtain rfl : q = 2 ^ 10 := le_antisymm hle hge
      have hblock : (k + 1) * 2 ^ 10 + 2 ^ 10 + 1 = 2 ^ 10 * (k + 2) + 1 := by ring
      rw [hblock, units_block (by omega) (by norm_num), show k + 2 - 1 = k + 1 from rfl, pow_succ]
      omega
  have hdouble : 2 * ((2 ^ 23 + m) * (2 ^ 112 * 2 ^ k)) = 2 * (2 ^ 23 + m) * (2 ^ 112 * 2 ^ k) := by ring
  have hunit : ∀ a, a * 2 ^ k * 2 ^ 125 = a * 2 ^ 13 * (2 ^ 112 * 2 ^ k) := fun a => by ring
  refine rounds_of_units (by omega) (fun _ => ?_) (fun hpos' => ?_)
  · have hsum : 2 * (2 ^ 23 + m) * (2 ^ 112 * 2 ^ k) ≤
        ((2 ^ 10 + q) * 2 ^ k + (2 ^ 10 + (q + 1)) * 2 ^ k) * 2 ^ 125 := by
      rw [← Nat.add_mul, hunit]
      exact Nat.mul_le_mul_right _ (by omega)
    have hmid : ((2 ^ 10 + q) * 2 ^ k + (2 ^ 10 + (q + 1)) * 2 ^ k) * 2 ^ 125 ≤
        (units 10 ((k + 1) * 2 ^ 10 + q) + units 10 ((k + 1) * 2 ^ 10 + q + 1)) * 2 ^ 125 := by
      rw [hunits q hle]
      exact Nat.mul_le_mul_right _ (Nat.add_le_add_left hnext _)
    rw [hdouble]
    refine ⟨hsum.trans hmid, fun heq => ?_⟩
    have hexact := le_antisymm hsum (hmid.trans heq.ge)
    rw [← Nat.add_mul, hunit] at hexact
    have := Nat.eq_of_mul_eq_mul_right hpos hexact
    have hq := hatie (by omega)
    omega
  · rw [hdouble]
    rcases Nat.eq_zero_or_pos q with rfl | hq
    · -- at the first value of an exponent the one before may be nearer, but nothing rounds down to the first
      have hless : units 10 ((k + 1) * 2 ^ 10 + 0 - 1) < units 10 ((k + 1) * 2 ^ 10 + 0) :=
        units_strictMono 10 (by omega)
      rw [hunits 0 (by norm_num)] at hless ⊢
      have hlt : (units 10 ((k + 1) * 2 ^ 10 + 0 - 1) + (2 ^ 10 + 0) * 2 ^ k) * 2 ^ 125 <
          2 * (2 ^ 23 + m) * (2 ^ 112 * 2 ^ k) := by
        calc (units 10 ((k + 1) * 2 ^ 10 + 0 - 1) + (2 ^ 10 + 0) * 2 ^ k) * 2 ^ 125
            < ((2 ^ 10 + 0) * 2 ^ k + (2 ^ 10 + 0) * 2 ^ k) * 2 ^ 125 :=
              Nat.mul_lt_mul_of_pos_right (Nat.add_lt_add_right hless _) (by norm_num)
          _ = 2 * 2 ^ 23 * (2 ^ 112 * 2 ^ k) := by ring
          _ ≤ 2 * (2 ^ 23 + m) * (2 ^ 112 * 2 ^ k) := Nat.mul_le_mul_right _ (by omega)
      exact ⟨hlt.le, fun heq => absurd heq hlt.ne⟩
    · have hprev : (k + 1) * 2 ^ 10 + q - 1 = (k + 1) * 2 ^ 10 + (q - 1) := by omega
      rw [hprev, hunits (q - 1) (by omega), hunits q hle, ← Nat.add_mul, hunit]
      refine ⟨Nat.mul_le_mul_right _ (by omega), fun heq => ?_⟩
      have := Nat.eq_of_mul_eq_mul_right hpos heq
      have hq' := hbtie (by omega)
      omega

/-- **A finite single narrows to the nearest half.** -/
theorem narrow_rounds {e m : ℕ} (he : e < 255) (hm : m < 2 ^ 23) :
    Rounds half.grid half.infinity (units 23 (2 ^ 23 * e + m) / 2 ^ single.scale) (narrowMagnitude e m) := by
  rw [units_single hm]
  unfold narrowMagnitude
  rw [if_neg (show ¬ e = 255 by omega)]
  by_cases hbig : 143 ≤ e
  · rw [if_pos hbig, if_neg (show ¬ e = 0 by omega)]
    have hpow : 2 ^ 142 ≤ 2 ^ (e - 1) := Nat.pow_le_pow_right (by norm_num) (by omega)
    have hx : 2 ^ 23 * 2 ^ 142 ≤ (2 ^ 23 + m) * 2 ^ (e - 1) := Nat.mul_le_mul (by omega) hpow
    have htop : units 10 0x7c00 = 2 ^ 40 := by decide
    have hless : units 10 (0x7c00 - 1) < units 10 0x7c00 := units_strictMono 10 (by norm_num)
    refine rounds_of_units le_rfl (fun hlt => absurd hlt (lt_irrefl _)) (fun _ => ?_)
    rw [htop] at hless ⊢
    have hlt : (units 10 (0x7c00 - 1) + 2 ^ 40) * 2 ^ 125 < 2 * ((2 ^ 23 + m) * 2 ^ (e - 1)) := by
      calc (units 10 (0x7c00 - 1) + 2 ^ 40) * 2 ^ 125 < (2 ^ 40 + 2 ^ 40) * 2 ^ 125 :=
            Nat.mul_lt_mul_of_pos_right (Nat.add_lt_add_right hless _) (by norm_num)
        _ = 2 * (2 ^ 23 * 2 ^ 142) := by norm_num
        _ ≤ 2 * ((2 ^ 23 + m) * 2 ^ (e - 1)) := Nat.mul_le_mul_left _ hx
    exact ⟨hlt.le, fun heq => absurd heq hlt.ne⟩
  rw [if_neg hbig]
  by_cases hlow : e ≤ 112
  · rw [if_pos hlow]
    by_cases htiny : e < 102
    · rw [if_pos htiny]
      have hx : (if e = 0 then m else (2 ^ 23 + m) * 2 ^ (e - 1)) < 2 ^ 124 := by
        split_ifs
        · omega
        · have hpow : 2 ^ (e - 1) ≤ 2 ^ 100 := Nat.pow_le_pow_right (by norm_num) (by omega)
          calc (2 ^ 23 + m) * 2 ^ (e - 1) ≤ (2 ^ 23 + m) * 2 ^ 100 := Nat.mul_le_mul_left _ hpow
            _ < 2 ^ 24 * 2 ^ 100 := Nat.mul_lt_mul_of_pos_right (by omega) (by norm_num)
            _ = 2 ^ 124 := by norm_num
      have hzero : units 10 0 = 0 := by decide
      have hone : units 10 (0 + 1) = 1 := by decide
      refine rounds_of_units (by norm_num) (fun _ => ⟨?_, fun _ => rfl⟩) (fun hlt => absurd hlt (lt_irrefl _))
      rw [hzero, hone]
      omega
    · rw [if_neg htiny, if_neg (show ¬ e = 0 by omega)]
      exact rounds_subnormal (by omega) hlow hm
  · rw [if_neg hlow, if_neg (show ¬ e = 0 by omega)]
    exact rounds_normal (by omega) (by omega) hm

/-! ## Widening -/

/-- the magnitude a half widens to, from its exponent and its mantissa -/
def widenMagnitude (e m : ℕ) : ℕ :=
  if e = 0 then if m = 0 then 0 else 2 ^ 23 * (103 + m.log2) + (m * 2 ^ (23 - m.log2) - 2 ^ 23)
  else if e = 31 then 2 ^ 23 * 255 + m * 2 ^ 13
  else 2 ^ 23 * (e + 112) + m * 2 ^ 13

/-- a mantissa shifted up to the implicit one -/
theorem normalised {m : ℕ} (h0 : m ≠ 0) (hm : m < 2 ^ 10) :
    m.log2 ≤ 9 ∧ 2 ^ 23 ≤ m * 2 ^ (23 - m.log2) ∧ m * 2 ^ (23 - m.log2) < 2 ^ 24 := by
  have hlow : 2 ^ m.log2 ≤ m := Nat.log2_self_le h0
  have hhigh : m < 2 ^ (m.log2 + 1) := Nat.lt_log2_self
  have hlog : m.log2 ≤ 9 := Nat.lt_succ_iff.1 ((Nat.log2_lt h0).2 hm)
  have hpos : 0 < 2 ^ (23 - m.log2) := Nat.two_pow_pos _
  have hsum : 2 ^ m.log2 * 2 ^ (23 - m.log2) = 2 ^ 23 := by
    rw [← pow_add]
    congr 1
    omega
  refine ⟨hlog, hsum ▸ Nat.mul_le_mul_right _ hlow, ?_⟩
  calc m * 2 ^ (23 - m.log2) < 2 ^ (m.log2 + 1) * 2 ^ (23 - m.log2) := Nat.mul_lt_mul_of_pos_right hhigh hpos
    _ = 2 ^ 24 := by rw [pow_succ, Nat.mul_right_comm, hsum]; norm_num

theorem widenMagnitude_lt {e m : ℕ} (he : e < 32) (hm : m < 2 ^ 10) : widenMagnitude e m < 2 ^ 31 := by
  unfold widenMagnitude
  split_ifs with h1 h2
  · norm_num
  · obtain ⟨hlog, hlow, hhigh⟩ := normalised h2 hm
    omega
  · omega
  · omega

/-- the fields of a half, as words -/
theorem half_fields (bits : F16) :
    ((bits &&& 0x8000).toUInt32 <<< 16).toNat = bits.toNat / 2 ^ 15 * 2 ^ 31 ∧
      ((bits >>> 10) &&& 0x1f).toUInt32.toNat = bits.toNat / 2 ^ 10 % 2 ^ 5 ∧
      (bits &&& 0x03ff).toUInt32.toNat = bits.toNat % 2 ^ 10 := by
  have hbits := bits.toNat_lt
  refine ⟨?_, ?_, ?_⟩
  · have hbit : (bits &&& 0x8000).toNat = bits.toNat / 2 ^ 15 * 2 ^ 15 := by
      rw [UInt16.toNat_and]
      exact (and_bit _ 15).trans (by rw [Nat.mod_eq_of_lt (by omega)])
    have hshift : (16 : UInt32).toNat % 32 = 16 := rfl
    rw [UInt32.toNat_shiftLeft, UInt16.toNat_toUInt32, hbit, hshift, Nat.shiftLeft_eq]
    omega
  · rw [UInt16.toNat_toUInt32, UInt16.toNat_and, UInt16.toNat_shiftRight]
    exact (and_mask _ 5 _ rfl).trans (congrArg (· % 2 ^ 5) (Nat.shiftRight_eq_div_pow _ _))
  · rw [UInt16.toNat_toUInt32, UInt16.toNat_and]
    exact and_mask _ 10 _ rfl

/-- a sign, an exponent and a mantissa put together -/
theorem assemble {sign x y : UInt32} {s e m : ℕ} (hs : sign.toNat = s * 2 ^ 31) (hx : x.toNat = e * 2 ^ 23)
    (he : e < 2 ^ 8) (hy : y.toNat = m) (hm : m < 2 ^ 23) :
    (sign ||| x ||| y).toNat = s * 2 ^ 31 + (2 ^ 23 * e + m) := by
  have hsplit : s * 2 ^ 31 + e * 2 ^ 23 = (s * 2 ^ 8 + e) * 2 ^ 23 := by ring
  rw [UInt32.toNat_or, UInt32.toNat_or, hs, hx, or_above (show e * 2 ^ 23 < 2 ^ 31 by omega), hsplit, hy, or_above hm]
  ring

/-- **What a half widens to**, as a number -/
theorem widen_spec (bits : F16) : (f16ToF32 bits).toNat =
    bits.toNat / 2 ^ 15 * 2 ^ 31 + widenMagnitude (bits.toNat / 2 ^ 10 % 2 ^ 5) (bits.toNat % 2 ^ 10) := by
  obtain ⟨hsign, hexp, hman⟩ := half_fields bits
  have he : bits.toNat / 2 ^ 10 % 2 ^ 5 < 2 ^ 5 := Nat.mod_lt _ (by norm_num)
  have hm : bits.toNat % 2 ^ 10 < 2 ^ 10 := Nat.mod_lt _ (by norm_num)
  unfold f16ToF32 widenMagnitude
  generalize (bits &&& 0x8000).toUInt32 <<< 16 = sign at *
  generalize ((bits >>> 10) &&& 0x1f).toUInt32 = exponent at *
  generalize (bits &&& 0x03ff).toUInt32 = mantissa at *
  generalize bits.toNat / 2 ^ 15 = s at *
  generalize bits.toNat / 2 ^ 10 % 2 ^ 5 = e at *
  generalize bits.toNat % 2 ^ 10 = m at *
  have hthirteen : (13 : UInt32).toNat % 32 = 13 := rfl
  have htwentythree : (23 : UInt32).toNat % 32 = 23 := rfl
  have hshift : (mantissa <<< 13).toNat = m * 2 ^ 13 := by
    rw [UInt32.toNat_shiftLeft, hman, hthirteen, Nat.shiftLeft_eq]
    omega
  have he0 : exponent = 0 ↔ e = 0 := by
    rw [← hexp, ← UInt32.toNat_inj]
    rfl
  have he31 : exponent = 0x1f ↔ e = 31 := by
    rw [← hexp, ← UInt32.toNat_inj]
    rfl
  have hm0 : mantissa = 0 ↔ m = 0 := by
    rw [← hman, ← UInt32.toNat_inj]
    rfl
  dsimp only
  simp only [he0, he31, hm0]
  split_ifs with h0 h1 h31
  · rw [hsign, Nat.add_zero]
  · obtain ⟨hlog, hlow, hhigh⟩ := normalised h1 hm
    have hleading : (leadingZeros mantissa).toNat = 31 - m.log2 := by
      rw [leadingZeros, if_neg (hm0.not.2 h1), UInt32.toNat_ofNat', hman]
      omega
    have hless : (leadingZeros mantissa - 8).toNat = 23 - m.log2 := by
      have height : (8 : UInt32).toNat = 8 := rfl
      rw [UInt32.toNat_sub, hleading, height]
      omega
    have hexponent : ((134 - leadingZeros mantissa) <<< 23).toNat = (103 + m.log2) * 2 ^ 23 := by
      have hbias : (134 : UInt32).toNat = 134 := rfl
      rw [UInt32.toNat_shiftLeft, UInt32.toNat_sub, hleading, hbias, htwentythree, Nat.shiftLeft_eq]
      omega
    have hsignificand : ((mantissa <<< (leadingZeros mantissa - 8)) &&& 0x007fffff).toNat =
        m * 2 ^ (23 - m.log2) - 2 ^ 23 := by
      rw [mantissa_field, UInt32.toNat_shiftLeft, hless, hman, Nat.mod_eq_of_lt (show 23 - m.log2 < 32 by omega),
        Nat.shiftLeft_eq]
      omega
    exact assemble hsign hexponent (by omega) hsignificand (by omega)
  · exact assemble hsign (show (0x7f800000 : UInt32).toNat = 255 * 2 ^ 23 from rfl) (by norm_num) hshift (by omega)
  · have hexponent : ((exponent + 127 - 15) <<< 23).toNat = (e + 112) * 2 ^ 23 := by
      have hbias : (127 : UInt32).toNat = 127 := rfl
      have hhalfbias : (15 : UInt32).toNat = 15 := rfl
      rw [UInt32.toNat_shiftLeft, UInt32.toNat_sub, UInt32.toNat_add, hexp, hbias, hhalfbias, htwentythree, Nat.shiftLeft_eq]
      omega
    exact assemble hsign hexponent (by omega) hshift (by omega)

/-- a finite half keeps its magnitude -/
theorem units_widen {e m : ℕ} (he : e < 31) (hm : m < 2 ^ 10) :
    units 23 (widenMagnitude e m) = units 10 (2 ^ 10 * e + m) * 2 ^ 125 := by
  unfold widenMagnitude
  split_ifs with h0 h1 h31
  · subst h0 h1
    decide
  · subst h0
    obtain ⟨hlog, hlow, hhigh⟩ := normalised h1 hm
    have hpow : 2 ^ (23 - m.log2) * 2 ^ (103 + m.log2 - 1) = 2 ^ 125 := by
      rw [← pow_add]
      congr 1
      omega
    rw [units_block (by omega) (by omega), Nat.add_sub_cancel' hlow, Nat.mul_zero, Nat.zero_add, units_low (by omega),
      Nat.mul_assoc, hpow]
  · omega
  · obtain ⟨k, rfl⟩ : ∃ k, e = k + 1 := ⟨e - 1, by omega⟩
    rw [units_block (by omega) (by omega), units_block (by omega) hm.le, show k + 1 + 112 - 1 = k + 112 from rfl,
      Nat.add_sub_cancel]
    ring

/-! ## Both directions -/

theorem single_parts (bits : ℕ) (hbits : bits < 2 ^ 32) : single.signBit bits = bits / 2 ^ 31 ∧
    single.magnitude bits = 2 ^ 23 * (bits / 2 ^ 23 % 2 ^ 8) + bits % 2 ^ 23 ∧ single.infinity = 2 ^ 23 * 255 := by
  refine ⟨?_, ?_, rfl⟩
  · show bits / 2 ^ 31 % 2 = bits / 2 ^ 31
    omega
  · show bits % 2 ^ 31 = _
    omega

theorem half_parts (bits : ℕ) (hbits : bits < 2 ^ 16) : half.signBit bits = bits / 2 ^ 15 ∧
    half.magnitude bits = 2 ^ 10 * (bits / 2 ^ 10 % 2 ^ 5) + bits % 2 ^ 10 ∧ half.infinity = 2 ^ 10 * 31 := by
  refine ⟨?_, ?_, rfl⟩
  · show bits / 2 ^ 15 % 2 = bits / 2 ^ 15
    omega
  · show bits % 2 ^ 15 = _
    omega

theorem narrowMagnitude_lt {e m : ℕ} (hm : m < 2 ^ 23) : narrowMagnitude e m < 2 ^ 15 := by
  unfold narrowMagnitude
  split_ifs with h1 h2 h3 h4 h5
  · norm_num
  · norm_num
  · norm_num
  · norm_num
  · have := roundEven_subnormal (not_lt.1 h5) h4 hm
    omega
  · have := roundEven_mantissa hm
    omega

theorem narrow_parts (bits : F32) : half.signBit (f32ToF16 bits).toNat = single.signBit bits.toNat ∧
    half.magnitude (f32ToF16 bits).toNat = narrowMagnitude (bits.toNat / 2 ^ 23 % 2 ^ 8) (bits.toNat % 2 ^ 23) := by
  have hm : bits.toNat % 2 ^ 23 < 2 ^ 23 := Nat.mod_lt _ (by norm_num)
  have hbits := bits.toNat_lt
  have hlt := @narrowMagnitude_lt (bits.toNat / 2 ^ 23 % 2 ^ 8) _ hm
  have hspec := narrow_spec bits
  generalize narrowMagnitude (bits.toNat / 2 ^ 23 % 2 ^ 8) (bits.toNat % 2 ^ 23) = n at *
  constructor
  · rw [(single_parts _ hbits).1]
    show (f32ToF16 bits).toNat / 2 ^ 15 % 2 = _
    omega
  · show (f32ToF16 bits).toNat % 2 ^ 15 = _
    omega

theorem widen_parts (bits : F16) : single.signBit (f16ToF32 bits).toNat = half.signBit bits.toNat ∧
    single.magnitude (f16ToF32 bits).toNat = widenMagnitude (bits.toNat / 2 ^ 10 % 2 ^ 5) (bits.toNat % 2 ^ 10) := by
  have he : bits.toNat / 2 ^ 10 % 2 ^ 5 < 2 ^ 5 := Nat.mod_lt _ (by norm_num)
  have hm : bits.toNat % 2 ^ 10 < 2 ^ 10 := Nat.mod_lt _ (by norm_num)
  have hbits := bits.toNat_lt
  have hlt := widenMagnitude_lt he hm
  have hspec := widen_spec bits
  generalize widenMagnitude (bits.toNat / 2 ^ 10 % 2 ^ 5) (bits.toNat % 2 ^ 10) = n at *
  constructor
  · rw [(half_parts _ hbits).1]
    show (f16ToF32 bits).toNat / 2 ^ 31 % 2 = _
    omega
  · show (f16ToF32 bits).toNat % 2 ^ 31 = _
    omega

theorem narrow_nan {bits : F32} (h : single.IsNaN bits.toNat) : half.IsNaN (f32ToF16 bits).toNat := by
  obtain ⟨-, hmag, htop⟩ := single_parts bits.toNat bits.toNat_lt
  have hm : bits.toNat % 2 ^ 23 < 2 ^ 23 := Nat.mod_lt _ (by norm_num)
  have he : bits.toNat / 2 ^ 23 % 2 ^ 8 < 2 ^ 8 := Nat.mod_lt _ (by norm_num)
  unfold FloatFormat.IsNaN at h ⊢
  rw [hmag, htop] at h
  rw [(narrow_parts bits).2, narrowMagnitude, if_pos (by omega), if_neg (by omega)]
  decide

theorem narrow_infinite {bits : F32} (h : single.IsInfinite bits.toNat) : half.IsInfinite (f32ToF16 bits).toNat := by
  obtain ⟨-, hmag, htop⟩ := single_parts bits.toNat bits.toNat_lt
  have hm : bits.toNat % 2 ^ 23 < 2 ^ 23 := Nat.mod_lt _ (by norm_num)
  unfold FloatFormat.IsInfinite at h ⊢
  rw [hmag, htop] at h
  rw [(narrow_parts bits).2, narrowMagnitude, if_pos (by omega), if_pos (by omega)]
  decide

/-- a finite single is nearest to the half it narrows to -/
theorem narrow_finite {bits : F32} (h : single.IsFinite bits.toNat) :
    Rounds half.grid half.infinity |single.value bits.toNat| (half.magnitude (f32ToF16 bits).toNat) := by
  obtain ⟨-, hmag, htop⟩ := single_parts bits.toNat bits.toNat_lt
  have hm : bits.toNat % 2 ^ 23 < 2 ^ 23 := Nat.mod_lt _ (by norm_num)
  unfold FloatFormat.IsFinite at h
  rw [hmag, htop] at h
  rw [single.abs_value, FloatFormat.grid, hmag, (narrow_parts bits).2]
  exact narrow_rounds (by omega) hm

theorem widen_nan {bits : F16} (h : half.IsNaN bits.toNat) : single.IsNaN (f16ToF32 bits).toNat := by
  obtain ⟨-, hmag, htop⟩ := half_parts bits.toNat bits.toNat_lt
  have hm : bits.toNat % 2 ^ 10 < 2 ^ 10 := Nat.mod_lt _ (by norm_num)
  have he : bits.toNat / 2 ^ 10 % 2 ^ 5 < 2 ^ 5 := Nat.mod_lt _ (by norm_num)
  unfold FloatFormat.IsNaN at h ⊢
  rw [hmag, htop] at h
  have htop' : single.infinity = 2 ^ 23 * 255 := rfl
  rw [(widen_parts bits).2, widenMagnitude, if_neg (by omega), if_pos (by omega), htop']
  omega

theorem widen_infinite {bits : F16} (h : half.IsInfinite bits.toNat) : single.IsInfinite (f16ToF32 bits).toNat := by
  obtain ⟨-, hmag, htop⟩ := half_parts bits.toNat bits.toNat_lt
  have hm : bits.toNat % 2 ^ 10 < 2 ^ 10 := Nat.mod_lt _ (by norm_num)
  unfold FloatFormat.IsInfinite at h ⊢
  rw [hmag, htop] at h
  have htop' : single.infinity = 2 ^ 23 * 255 := rfl
  rw [(widen_parts bits).2, widenMagnitude, if_neg (by omega), if_pos (by omega), htop']
  omega

theorem widen_finite {bits : F16} (h : half.IsFinite bits.toNat) : single.IsFinite (f16ToF32 bits).toNat ∧
    single.value (f16ToF32 bits).toNat = half.value bits.toNat := by
  obtain ⟨-, hmag, htop⟩ := half_parts bits.toNat bits.toNat_lt
  have hm : bits.toNat % 2 ^ 10 < 2 ^ 10 := Nat.mod_lt _ (by norm_num)
  have he : bits.toNat / 2 ^ 10 % 2 ^ 5 < 31 := by
    unfold FloatFormat.IsFinite at h
    rw [hmag, htop] at h
    omega
  obtain ⟨hsign, hmagnitude⟩ := widen_parts bits
  constructor
  · have htop' : single.infinity = 2 ^ 23 * 255 := rfl
    unfold FloatFormat.IsFinite
    rw [hmagnitude, htop', widenMagnitude]
    split_ifs with h0 h1 h31
    · norm_num
    · obtain ⟨hlog, hlow, hhigh⟩ := normalised h1 hm
      omega
    · omega
    · omega
  · have hscale : (2 : ℚ) ^ single.scale = 2 ^ half.scale * 2 ^ 125 := by
      rw [← pow_add]
      rfl
    have hbits : single.mantissaBits = 23 ∧ half.mantissaBits = 10 := ⟨rfl, rfl⟩
    rw [FloatFormat.value, FloatFormat.value, hsign, hmagnitude, hmag, hbits.1, hbits.2, units_widen he hm, hscale,
      Nat.cast_mul, Nat.cast_pow, Nat.cast_ofNat, mul_div_mul_right _ _ (show (2 : ℚ) ^ 125 ≠ 0 by positivity)]

/-- **Half precision rounds correctly.** A half widens to its own value, with its sign, infinity to infinity and NaN to NaN.
A single narrows with its sign to the nearest half, ties to even, where infinity stands for the value after the largest
half; so to infinity from 65520 on, and to a signed zero up to half the least positive half. Infinity narrows to infinity
and NaN to NaN. -/
theorem half_precision_rounds :
    (∀ bits : F32, half.signBit (f32ToF16 bits).toNat = single.signBit bits.toNat ∧
      (single.IsNaN bits.toNat → half.IsNaN (f32ToF16 bits).toNat) ∧
      (single.IsInfinite bits.toNat → half.IsInfinite (f32ToF16 bits).toNat) ∧
      (single.IsFinite bits.toNat → ¬ half.IsNaN (f32ToF16 bits).toNat ∧
        (half.IsInfinite (f32ToF16 bits).toNat ↔ 65520 ≤ |single.value bits.toNat|) ∧
        (|single.value bits.toNat| ≤ 1 / 2 ^ 25 → half.magnitude (f32ToF16 bits).toNat = 0) ∧
        ∀ g : F16, ¬ half.IsNaN g.toNat →
          |single.value bits.toNat - half.value (f32ToF16 bits).toNat| ≤ |single.value bits.toNat - half.value g.toNat| ∧
          (half.value g.toNat ≠ half.value (f32ToF16 bits).toNat →
            |single.value bits.toNat - half.value (f32ToF16 bits).toNat| =
              |single.value bits.toNat - half.value g.toNat| → (f32ToF16 bits).toNat % 2 = 0))) ∧
    ∀ bits : F16, single.signBit (f16ToF32 bits).toNat = half.signBit bits.toNat ∧
      (half.IsNaN bits.toNat → single.IsNaN (f16ToF32 bits).toNat) ∧
      (half.IsInfinite bits.toNat → single.IsInfinite (f16ToF32 bits).toNat) ∧
      (half.IsFinite bits.toNat → single.IsFinite (f16ToF32 bits).toNat ∧
        single.value (f16ToF32 bits).toNat = half.value bits.toNat) := by
  refine ⟨fun bits => ?_, fun bits => ⟨(widen_parts bits).1, widen_nan, widen_infinite, widen_finite⟩⟩
  have hsign := (narrow_parts bits).1
  refine ⟨hsign, narrow_nan, narrow_infinite, fun hfinite => ?_⟩
  have hrounds := narrow_finite hfinite
  have hvalue : (-1) ^ single.signBit bits.toNat * |single.value bits.toNat| = single.value bits.toNat := by
    rw [single.abs_value]
    rfl
  refine ⟨not_lt.2 hrounds.le_top, ?_, fun hsmall => ?_, fun g hg => ?_⟩
  · have hmid : half.grid (half.infinity - 1) + half.grid half.infinity = 2 * 65520 := by
      norm_num [FloatFormat.grid, FloatFormat.infinity, FloatFormat.scale, half, units]
    have htop := hrounds.eq_top_iff half.grid_strictMono (by decide) (by decide)
    rw [hmid] at htop
    exact htop.trans (mul_le_mul_iff_of_pos_left two_pos)
  · by_contra hne
    have hzero : half.grid 0 = 0 := by norm_num [FloatFormat.grid, units]
    have hone : half.grid 1 = 1 / 2 ^ 24 := by norm_num [FloatFormat.grid, FloatFormat.scale, half, units]
    obtain ⟨hbelow, htie⟩ := hrounds.below (Nat.pos_of_ne_zero hne)
    have hlow : half.grid 0 ≤ half.grid (half.magnitude (f32ToF16 bits).toNat - 1) :=
      half.grid_strictMono.monotone (Nat.zero_le _)
    have hhigh : half.grid 1 ≤ half.grid (half.magnitude (f32ToF16 bits).toNat) :=
      half.grid_strictMono.monotone (Nat.pos_of_ne_zero hne)
    rw [hzero] at hlow
    rw [hone] at hhigh
    have hhalf : (1 : ℚ) / 2 ^ 24 = 2 * (1 / 2 ^ 25) := by norm_num
    -- only the least positive half is as near, and it is odd
    have heven := htie (by linarith)
    have heq : half.grid (half.magnitude (f32ToF16 bits).toNat) = half.grid 1 := by
      rw [hone]
      linarith
    have := half.grid_strictMono.injective heq
    omega
  · obtain ⟨hle, htie⟩ := FloatFormat.nearest_of_rounds hrounds (abs_nonneg _) hsign hg
    rw [hvalue] at hle htie
    refine ⟨hle, fun hne heq => ?_⟩
    have heven := htie hne heq
    have hmod : half.magnitude (f32ToF16 bits).toNat = (f32ToF16 bits).toNat % 2 ^ 15 := rfl
    omega

end Hocmesh.Engine
