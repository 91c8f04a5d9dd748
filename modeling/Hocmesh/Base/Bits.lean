/-
Bits of words.

Masks and shifts of numbers and of words, as division and remainder; how many words there are; and that a word is its bits.
-/
import Hocmesh.Base.Words

namespace Hocmesh.Base

/-! ## Numbers -/

/-- the low bits of a number -/
theorem and_mask (x k mask : ℕ) (h : mask + 1 = 2 ^ k) : x &&& mask = x % 2 ^ k := by
  obtain rfl : mask = 2 ^ k - 1 := by omega
  exact Nat.and_two_pow_sub_one_eq_mod x k

/-- one bit of a number -/
theorem and_bit (x i : ℕ) : x &&& 2 ^ i = x / 2 ^ i % 2 * 2 ^ i := by
  apply Nat.eq_of_testBit_eq
  intro j
  rw [Nat.testBit_and, Nat.testBit_two_pow, Nat.testBit_mul_two_pow]
  rcases lt_trichotomy i j with hij | rfl | hij
  · have hsmall : (x / 2 ^ i % 2).testBit (j - i) = false :=
      Nat.testBit_lt_two_pow ((Nat.mod_lt _ two_pos).trans_le (Nat.le_self_pow (by omega) 2))
    rw [hsmall, decide_eq_false hij.ne, Bool.and_false, Bool.and_false]
  · rw [Nat.sub_self, Nat.testBit_zero, Nat.mod_mod, Nat.testBit_eq_decide_div_mod_eq]
    simp
  · rw [decide_eq_false hij.ne', decide_eq_false (not_le.2 hij), Bool.and_false, Bool.false_and]

/-- a word that stands above another -/
theorem or_above {a b i : ℕ} (h : b < 2 ^ i) : a * 2 ^ i ||| b = a * 2 ^ i + b := by
  rw [Nat.mul_comm, ← Nat.two_pow_add_eq_or_of_lt h]

/-- two numbers with the same bits below a power of two they are both below -/
theorem eq_of_bits {a b k : ℕ} (ha : a < 2 ^ k) (hb : b < 2 ^ k) (h : ∀ i < k, a / 2 ^ i % 2 = b / 2 ^ i % 2) : a = b := by
  apply Nat.eq_of_testBit_eq
  intro i
  by_cases hi : i < k
  · rw [Nat.testBit_eq_decide_div_mod_eq, Nat.testBit_eq_decide_div_mod_eq, h i hi]
  · have hpow : 2 ^ k ≤ 2 ^ i := Nat.pow_le_pow_right (by norm_num) (by omega)
    rw [Nat.testBit_lt_two_pow (by omega), Nat.testBit_lt_two_pow (by omega)]

/-! ## Bytes -/

theorem toNat_mask (x mask : UInt8) {k : ℕ} (h : mask.toNat + 1 = 2 ^ k) : (x &&& mask).toNat = x.toNat % 2 ^ k := by
  rw [UInt8.toNat_and]
  exact and_mask _ _ _ h

theorem toNat_shiftRight (x shift : UInt8) {k : ℕ} (h : shift.toNat = k) (hk : k < 8) :
    (x >>> shift).toNat = x.toNat / 2 ^ k := by
  rw [UInt8.toNat_shiftRight, h, Nat.mod_eq_of_lt hk, Nat.shiftRight_eq_div_pow]

/-- one nibble above another -/
theorem toNat_nibbles {low high : UInt8} (hlow : low.toNat < 16) (hhigh : high.toNat < 16) :
    (low ||| (high <<< 4)).toNat = high.toNat * 16 + low.toNat := by
  have hfour : (4 : UInt8).toNat % 8 = 4 := rfl
  have hshift : (high <<< 4).toNat = high.toNat * 2 ^ 4 := by
    rw [UInt8.toNat_shiftLeft, hfour, Nat.shiftLeft_eq]
    omega
  rw [UInt8.toNat_or, hshift, Nat.or_comm, or_above (by omega)]
  norm_num

/-- whether a bit is set -/
theorem and_bit_ne_zero (x : UInt8) {bit : UInt8} {k : ℕ} (h : bit.toNat = 2 ^ k) :
    x &&& bit ≠ 0 ↔ x.toNat / 2 ^ k % 2 = 1 := by
  have hzero : (0 : UInt8).toNat = 0 := rfl
  have hpos : 0 < 2 ^ k := Nat.two_pow_pos k
  rw [ne_eq, ← UInt8.toNat_inj, UInt8.toNat_and, h, and_bit, hzero]
  rcases Nat.mod_two_eq_zero_or_one (x.toNat / 2 ^ k) with hbit | hbit
  · simp [hbit]
  · simp [hbit]

/-- four bytes as a number -/
theorem toNat_ofLe (a b c d : UInt8) :
    (ofLe a b c d).toNat = a.toNat + b.toNat * 2 ^ 8 + c.toNat * 2 ^ 16 + d.toNat * 2 ^ 24 := by
  have ha := a.toNat_lt
  have hb := b.toNat_lt
  have hc := c.toNat_lt
  have hd := d.toNat_lt
  rw [ofLe, UInt32.toNat_ofNat']
  omega

/-- a word is its bytes -/
theorem ofLe_inj {a b c d a' b' c' d' : UInt8} (h : ofLe a b c d = ofLe a' b' c' d') : a = a' ∧ b = b' ∧ c = c' ∧ d = d' := by
  have hnat := congrArg UInt32.toNat h
  rw [toNat_ofLe, toNat_ofLe] at hnat
  have := a.toNat_lt
  have := b.toNat_lt
  have := c.toNat_lt
  have := d.toNat_lt
  have := a'.toNat_lt
  have := b'.toNat_lt
  have := c'.toNat_lt
  have := d'.toNat_lt
  refine ⟨UInt8.toNat_inj.1 ?_, UInt8.toNat_inj.1 ?_, UInt8.toNat_inj.1 ?_, UInt8.toNat_inj.1 ?_⟩ <;> omega

/-- two bytes as a number -/
def ofLe16 (a b : UInt8) : UInt16 := UInt16.ofNat (a.toNat + b.toNat * 2 ^ 8)

theorem toNat_ofLe16 (a b : UInt8) : (ofLe16 a b).toNat = a.toNat + b.toNat * 2 ^ 8 := by
  have ha := a.toNat_lt
  have hb := b.toNat_lt
  rw [ofLe16, UInt16.toNat_ofNat']
  omega

theorem ofLe16_inj {a b a' b' : UInt8} (h : ofLe16 a b = ofLe16 a' b') : a = a' ∧ b = b' := by
  have hnat := congrArg UInt16.toNat h
  rw [toNat_ofLe16, toNat_ofLe16] at hnat
  have := a.toNat_lt
  have := b.toNat_lt
  have := a'.toNat_lt
  have := b'.toNat_lt
  exact ⟨UInt8.toNat_inj.1 (by omega), UInt8.toNat_inj.1 (by omega)⟩

def leBytes16 (v : UInt16) : List UInt8 := [UInt8.ofNat v.toNat, UInt8.ofNat (v.toNat / 2 ^ 8)]

/-! ## How many there are -/

def byteEquiv : UInt8 ≃ Fin 256 where
  toFun x := x.toFin
  invFun x := UInt8.ofFin x
  left_inv _ := rfl
  right_inv _ := rfl

def signedEquiv : Int8 ≃ UInt8 where
  toFun x := x.toUInt8
  invFun x := x.toInt8
  left_inv _ := rfl
  right_inv _ := rfl

def vectorEquiv (α : Type) (n : ℕ) : Vector α n ≃ (Fin n → α) where
  toFun v i := v[i]
  invFun f := Vector.ofFn f
  left_inv v := by
    apply Vector.ext
    intro i hi
    simp
  right_inv f := by
    funext i
    simp

def wordEquiv : UInt16 ≃ Fin 65536 where
  toFun x := x.toFin
  invFun x := UInt16.ofFin x
  left_inv _ := rfl
  right_inv _ := rfl

instance finiteUInt8 : Finite UInt8 := Finite.of_equiv _ byteEquiv.symm

instance finiteInt8 : Finite Int8 := Finite.of_equiv _ signedEquiv.symm

instance finiteUInt16 : Finite UInt16 := Finite.of_equiv _ wordEquiv.symm

instance finiteBytes {n : ℕ} : Finite (Vector UInt8 n) := Finite.of_equiv _ (vectorEquiv UInt8 n).symm

@[simp] theorem card_uint8 : Nat.card UInt8 = 256 := by
  rw [Nat.card_congr byteEquiv, Nat.card_fin]

@[simp] theorem card_int8 : Nat.card Int8 = 256 := by
  rw [Nat.card_congr signedEquiv, card_uint8]

@[simp] theorem card_uint16 : Nat.card UInt16 = 65536 := by
  rw [Nat.card_congr wordEquiv, Nat.card_fin]

theorem card_bytes (n : ℕ) : Nat.card (Vector UInt8 n) = 256 ^ n := by
  rw [Nat.card_congr (vectorEquiv UInt8 n), Nat.card_fun, card_uint8, Nat.card_fin]

end Hocmesh.Base
