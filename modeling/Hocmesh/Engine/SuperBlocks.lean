/-
Super-blocks: the types that keep a scale for every sub-block (`Q2_K` to `Q6_K`).

Two hundred and fifty-six elements share a block. The scales of their sub-blocks are packed six bits at a time across
bytes (`scaleMinK4`) or across words (`q3KScales`), and the high bits of the levels stand apart from the low ones. For each
part there is a lemma that says where a place of it stands in the bytes, which the loop uses, and one that it determines
its bytes, which bijectivity does.
-/
import Hocmesh.Engine.Blocks

namespace Hocmesh.Engine

open Hocmesh.Base

/-! ## Six-bit scales and minimums -/

section

variable {n : ℕ} (x y : Bytes n) (start : ℕ) (hstart : start + 12 ≤ n)

/-- `scale_min_k4` -/
def scaleMinK4 (j : Fin 8) : UInt8 × UInt8 :=
  if h : j.val < 4 then (x[start + j.val] &&& (63 : UInt8), x[start + j.val + 4] &&& (63 : UInt8))
  else ((x[start + j.val + 4] &&& (0x0f : UInt8)) ||| ((x[start + j.val - 4] >>> 6) <<< 4),
    (x[start + j.val + 4] >>> 4) ||| ((x[start + j.val] >>> 6) <<< 4))

/-- the first four pairs are the low bits of their bytes -/
theorem scaleMinK4_near {j : Fin 8} (h : j.val < 4) :
    (scaleMinK4 x start hstart j).1.toNat = x[start + j.val].toNat % 64 ∧
      (scaleMinK4 x start hstart j).2.toNat = x[start + j.val + 4].toNat % 64 := by
  have hmask : (63 : UInt8).toNat + 1 = 2 ^ 6 := rfl
  rw [scaleMinK4, dif_pos h]
  exact ⟨toNat_mask _ _ hmask, toNat_mask _ _ hmask⟩

/-- the last four take their high bits from the tops of the first eight bytes -/
theorem scaleMinK4_far {j : Fin 8} (h : ¬ j.val < 4) :
    (scaleMinK4 x start hstart j).1.toNat = x[start + j.val - 4].toNat / 64 * 16 + x[start + j.val + 4].toNat % 16 ∧
      (scaleMinK4 x start hstart j).2.toNat = x[start + j.val].toNat / 64 * 16 + x[start + j.val + 4].toNat / 16 := by
  have hlow : ∀ v : UInt8, (v &&& 0x0f).toNat = v.toNat % 16 := val_lowNibble
  have hhigh : ∀ v : UInt8, (v >>> 4).toNat = v.toNat / 16 := val_highNibble
  have htop : ∀ v : UInt8, (v >>> 6).toNat = v.toNat / 64 := fun v => toNat_shiftRight v 6 (k := 6) rfl (by omega)
  have hbyte : ∀ v : UInt8, v.toNat < 256 := UInt8.toNat_lt
  rw [scaleMinK4, dif_neg h]
  have h1 := hbyte x[start + j.val - 4]
  have h2 := hbyte x[start + j.val]
  have h3 := hbyte x[start + j.val + 4]
  have hn1 : (x[start + j.val + 4] &&& 0x0f).toNat < 16 := by
    rw [hlow]
    omega
  have hn2 : (x[start + j.val + 4] >>> 4).toNat < 16 := by
    rw [hhigh]
    omega
  have ht1 : (x[start + j.val - 4] >>> 6).toNat < 16 := by
    rw [htop]
    omega
  have ht2 : (x[start + j.val] >>> 6).toNat < 16 := by
    rw [htop]
    omega
  constructor
  · rw [toNat_nibbles hn1 ht1, htop, hlow]
  · rw [toNat_nibbles hn2 ht2, htop, hhigh]

theorem scaleMinK4_lt (j : Fin 8) :
    (scaleMinK4 x start hstart j).1.toNat < 64 ∧ (scaleMinK4 x start hstart j).2.toNat < 64 := by
  have hbyte : ∀ v : UInt8, v.toNat < 256 := UInt8.toNat_lt
  by_cases h : j.val < 4
  · obtain ⟨h1, h2⟩ := scaleMinK4_near x start hstart h
    omega
  · obtain ⟨h1, h2⟩ := scaleMinK4_far x start hstart h
    have := hbyte x[start + j.val - 4]
    have := hbyte x[start + j.val]
    have := hbyte x[start + j.val + 4]
    omega

/-- the pair as six-bit numbers -/
def scaleMin (j : Fin 8) : Fin 64 × Fin 64 :=
  (⟨(scaleMinK4 x start hstart j).1.toNat, (scaleMinK4_lt x start hstart j).1⟩,
    ⟨(scaleMinK4 x start hstart j).2.toNat, (scaleMinK4_lt x start hstart j).2⟩)

variable {x y}

theorem scaleMin_inj (h : ∀ j, scaleMin x start hstart j = scaleMin y start hstart j) {k : ℕ} (hk : k < n)
    (hlow : start ≤ k) (hhigh : k < start + 12) : x[k] = y[k] := by
  have hscale : ∀ j, (scaleMinK4 x start hstart j).1.toNat = (scaleMinK4 y start hstart j).1.toNat := fun j =>
    congrArg (fun t => t.1.val) (h j)
  have hmin : ∀ j, (scaleMinK4 x start hstart j).2.toNat = (scaleMinK4 y start hstart j).2.toNat := fun j =>
    congrArg (fun t => t.2.val) (h j)
  have hbyte : ∀ v : UInt8, v.toNat < 256 := UInt8.toNat_lt
  obtain ⟨i, rfl⟩ : ∃ i, k = start + i := ⟨k - start, by omega⟩
  apply UInt8.toNat_inj.1
  by_cases h4 : i < 4
  · -- the low bits are a scale, the top ones are on the scale four further
    have hnear : (⟨i, by omega⟩ : Fin 8).val < 4 := h4
    have hfar : ¬ (⟨i + 4, by omega⟩ : Fin 8).val < 4 := by simp
    have h1 := hscale ⟨i, by omega⟩
    have h2 := hscale ⟨i + 4, by omega⟩
    rw [(scaleMinK4_near x start hstart hnear).1, (scaleMinK4_near y start hstart hnear).1] at h1
    rw [(scaleMinK4_far x start hstart hfar).1, (scaleMinK4_far y start hstart hfar).1] at h2
    have hindex : start + (i + 4) - 4 = start + i := by omega
    simp only [hindex] at h1 h2
    omega
  · by_cases h8 : i < 8
    · -- the low bits are a minimum, the top ones are on the minimum four further
      obtain ⟨i, rfl⟩ : ∃ i', i = i' + 4 := ⟨i - 4, by omega⟩
      have hnear : (⟨i, by omega⟩ : Fin 8).val < 4 := by
        simp only
        omega
      have hfar : ¬ (⟨i + 4, by omega⟩ : Fin 8).val < 4 := by simp
      have h1 := hmin ⟨i, by omega⟩
      have h2 := hmin ⟨i + 4, by omega⟩
      rw [(scaleMinK4_near x start hstart hnear).2, (scaleMinK4_near y start hstart hnear).2] at h1
      rw [(scaleMinK4_far x start hstart hfar).2, (scaleMinK4_far y start hstart hfar).2] at h2
      simp only [← Nat.add_assoc] at h1 h2 ⊢
      have := hbyte x[start + i + 4 + 4]
      have := hbyte y[start + i + 4 + 4]
      omega
    · -- the nibbles are the low bits of a scale and of a minimum
      obtain ⟨i, rfl⟩ : ∃ i', i = i' + 4 := ⟨i - 4, by omega⟩
      have hfar : ¬ (⟨i, by omega⟩ : Fin 8).val < 4 := by
        simp only
        omega
      have h1 := hscale ⟨i, by omega⟩
      have h2 := hmin ⟨i, by omega⟩
      rw [(scaleMinK4_far x start hstart hfar).1, (scaleMinK4_far y start hstart hfar).1] at h1
      rw [(scaleMinK4_far x start hstart hfar).2, (scaleMinK4_far y start hstart hfar).2] at h2
      simp only [← Nat.add_assoc] at h1 h2 ⊢
      have := hbyte x[start + i + 4]
      have := hbyte y[start + i + 4]
      omega

end

/-! ## Pairs of sub-blocks -/

/-- the element a low nibble of a pair of sub-blocks holds -/
def pairLow (pair : Fin 4) (i : Fin 32) : Fin 256 := ⟨pair * 64 + i, by omega⟩

/-- the element a high nibble of a pair of sub-blocks holds -/
def pairHigh (pair : Fin 4) (i : Fin 32) : Fin 256 := ⟨pair * 64 + i + 32, by omega⟩

/-- the sub-block of thirty-two an element is of -/
def subBlock (p : Fin 256) : Fin 8 := ⟨p / 32, by omega⟩

theorem subBlock_low (pair : Fin 4) (i : Fin 32) : subBlock (pairLow pair i) = ⟨pair * 2, by omega⟩ := by
  simp only [subBlock, pairLow, Fin.mk.injEq]
  omega

theorem subBlock_high (pair : Fin 4) (i : Fin 32) : subBlock (pairHigh pair i) = ⟨pair * 2 + 1, by omega⟩ := by
  simp only [subBlock, pairHigh, Fin.mk.injEq]
  omega

def pairOrder : List (Fin 256) :=
  (List.finRange 4).flatMap fun pair => (List.finRange 32).flatMap fun i => [pairLow pair i, pairHigh pair i]

theorem pairOrder_complete : pairOrder.Perm (List.finRange 256) := by
  refine perm_finRange (by simp [pairOrder]) fun p => ?_
  simp only [pairOrder, List.mem_flatMap, List.mem_finRange, true_and, List.mem_cons, List.not_mem_nil, or_false]
  refine ⟨⟨p / 64, by omega⟩, ⟨p % 32, by omega⟩, ?_⟩
  simp only [pairLow, pairHigh, Fin.ext_iff]
  omega

section

variable {n : ℕ} (x y : Bytes n) (start : ℕ) (hstart : start + 128 ≤ n)

/-- the four low bits of an element, from 128 bytes -/
def pairNibble (p : Fin 256) : Fin 16 :=
  if p.val % 64 < 32 then lowNibble x[start + (p.val / 64 * 32 + p.val % 32)]
  else highNibble x[start + (p.val / 64 * 32 + p.val % 32)]

theorem pairNibble_low (pair : Fin 4) (i : Fin 32) :
    pairNibble x start hstart (pairLow pair i) = lowNibble x[start + (pair.val * 32 + i.val)] := by
  have hlow : (pairLow pair i).val % 64 < 32 := by
    simp only [pairLow]
    omega
  have hindex : (pairLow pair i).val / 64 * 32 + (pairLow pair i).val % 32 = pair.val * 32 + i.val := by
    simp only [pairLow]
    omega
  rw [pairNibble, if_pos hlow]
  simp only [hindex]

theorem pairNibble_high (pair : Fin 4) (i : Fin 32) :
    pairNibble x start hstart (pairHigh pair i) = highNibble x[start + (pair.val * 32 + i.val)] := by
  have hhigh : ¬ (pairHigh pair i).val % 64 < 32 := by
    simp only [pairHigh]
    omega
  have hindex : (pairHigh pair i).val / 64 * 32 + (pairHigh pair i).val % 32 = pair.val * 32 + i.val := by
    simp only [pairHigh]
    omega
  rw [pairNibble, if_neg hhigh]
  simp only [hindex]

variable {x y}

theorem pairNibble_inj (h : ∀ p, pairNibble x start hstart p = pairNibble y start hstart p) {k : ℕ} (hk : k < n)
    (hlow : start ≤ k) (hhigh : k < start + 128) : x[k] = y[k] := by
  obtain ⟨pair, i, rfl⟩ : ∃ pair : Fin 4, ∃ i : Fin 32, k = start + (pair.val * 32 + i.val) :=
    ⟨⟨(k - start) / 32, by omega⟩, ⟨(k - start) % 32, by omega⟩, by
      dsimp only
      omega⟩
  have hl := h (pairLow pair i)
  have hh := h (pairHigh pair i)
  rw [pairNibble_low, pairNibble_low] at hl
  rw [pairNibble_high, pairNibble_high] at hh
  exact nibbles_inj hl hh

end

/-! ## `Q4_K` and `Q5_K` -/

section

variable (ar : Arith)

def unpackQ4_K (x : Bytes 144) : Fields F16 (Fin 64 × Fin 64) (Fin 16) 8 256 :=
  ⟨ofLe16 x[0] x[1], ofLe16 x[2] x[3], scaleMin x 4 (by omega), pairNibble x 16 (by omega)⟩

theorem unpackQ4_K_injective : Function.Injective unpackQ4_K := by
  intro x y h
  obtain ⟨h0, h1⟩ := ofLe16_inj (congrArg Fields.d h)
  obtain ⟨h2, h3⟩ := ofLe16_inj (congrArg Fields.min h)
  have hscales := congrFun (congrArg Fields.scales h)
  have hlevels := congrFun (congrArg Fields.levels h)
  apply Vector.ext
  intro k hk
  by_cases hd : k < 4
  · interval_cases k
    · exact h0
    · exact h1
    · exact h2
    · exact h3
  · by_cases hs : k < 16
    · exact scaleMin_inj 4 (by omega) hscales hk (by omega) (by omega)
    · exact pairNibble_inj 16 (by omega) hlevels hk (by omega) (by omega)

/-- an element that is scaled and taken off by its sub-block's minimum -/
def offsetValue {levels : ℕ} (u : Fields F16 (Fin 64 × Fin 64) (Fin levels) 8 256) (p : Fin 256) : F32 :=
  ar.sub (ar.mul (ar.mul (f16ToF32 u.d) (ar.ofNat (u.scales (subBlock p)).1.val)) (ar.ofNat (u.levels p).val))
    (ar.mul (f16ToF32 u.min) (ar.ofNat (u.scales (subBlock p)).2.val))

def q4_K : BlockFormat where
  bytes := 144
  elements := 256
  Unpacked := Fields F16 (Fin 64 × Fin 64) (Fin 16) 8 256
  unpack := unpackQ4_K
  value := offsetValue ar
  loop x :=
    let d := f16ToF32 (ofLe16 x[0] x[1])
    let dmin := f16ToF32 (ofLe16 x[2] x[3])
    (List.finRange 4).flatMap fun (pair : Fin 4) =>
      let sc := scaleMinK4 x 4 (by omega) ⟨pair * 2, by omega⟩
      let d1 := ar.mul d (ar.ofNat sc.1.toNat)
      let m1 := ar.mul dmin (ar.ofNat sc.2.toNat)
      let sc := scaleMinK4 x 4 (by omega) ⟨pair * 2 + 1, by omega⟩
      let d2 := ar.mul d (ar.ofNat sc.1.toNat)
      let m2 := ar.mul dmin (ar.ofNat sc.2.toNat)
      (List.finRange 32).flatMap fun i =>
        let byte := x[16 + (pair.val * 32 + i.val)]
        [(pairLow pair i, ar.sub (ar.mul d1 (ar.ofNat (byte &&& 0x0f).toNat)) m1),
          (pairHigh pair i, ar.sub (ar.mul d2 (ar.ofNat (byte >>> 4).toNat)) m2)]
  order := pairOrder
  bijective := bijective_of_injective unpackQ4_K_injective (by
    rw [card_uint16, Nat.card_prod, Nat.card_fin, Nat.card_fin]
    norm_num)
  complete := pairOrder_complete
  loop_eq x := map_rounds fun pair _ => map_rounds fun i _ => by
    simp [unpackQ4_K, offsetValue, subBlock_low, subBlock_high, pairNibble_low, pairNibble_high, scaleMin, lowNibble,
      highNibble]

theorem withBit_lt (byte bit : UInt8) (level : Fin 16) : (level.val + if byte &&& bit ≠ 0 then 16 else 0) < 32 := by
  split_ifs
  · omega
  · omega

/-- a nibble, and sixteen if a bit is set -/
def withBit (byte bit : UInt8) (level : Fin 16) : Fin 32 :=
  ⟨level.val + if byte &&& bit ≠ 0 then 16 else 0, withBit_lt byte bit level⟩

/-- the bit of a place among eight -/
def bitOf (k : Fin 8) : UInt8 := (1 : UInt8) <<< UInt8.ofNat k.val

theorem toNat_bitOf : ∀ k : Fin 8, (bitOf k).toNat = 2 ^ k.val := by decide

theorem bitOf_ne_zero (x : UInt8) (k : Fin 8) : x &&& bitOf k ≠ 0 ↔ x.toNat / 2 ^ k.val % 2 = 1 :=
  and_bit_ne_zero x (toNat_bitOf k)

/-- bytes with the same bits -/
theorem eq_of_bitOf {x y : UInt8} (h : ∀ k, x &&& bitOf k ≠ 0 ↔ y &&& bitOf k ≠ 0) : x = y := by
  refine UInt8.toNat_inj.1 (eq_of_bits x.toNat_lt y.toNat_lt fun k hk => ?_)
  have hbit := h ⟨k, hk⟩
  rw [bitOf_ne_zero, bitOf_ne_zero] at hbit
  dsimp only at hbit
  omega

theorem withBit_inj {x y bit : UInt8} {a b : Fin 16} (h : withBit x bit a = withBit y bit b) :
    a = b ∧ (x &&& bit ≠ 0 ↔ y &&& bit ≠ 0) := by
  have hval := congrArg Fin.val h
  simp only [withBit] at hval
  split_ifs at hval with hx hy hy
  · exact ⟨Fin.ext (by omega), iff_of_true hx hy⟩
  · omega
  · omega
  · exact ⟨Fin.ext (by omega), iff_of_false hx hy⟩

def unpackQ5_K (x : Bytes 176) : Fields F16 (Fin 64 × Fin 64) (Fin 32) 8 256 :=
  ⟨ofLe16 x[0] x[1], ofLe16 x[2] x[3], scaleMin x 4 (by omega), fun p =>
    withBit x[16 + p.val % 32] (bitOf (subBlock p)) (pairNibble x 48 (by omega) p)⟩

theorem unpackQ5_K_injective : Function.Injective unpackQ5_K := by
  intro x y h
  obtain ⟨h0, h1⟩ := ofLe16_inj (congrArg Fields.d h)
  obtain ⟨h2, h3⟩ := ofLe16_inj (congrArg Fields.min h)
  have hscales := congrFun (congrArg Fields.scales h)
  have hlevels := fun p => withBit_inj (congrFun (congrArg Fields.levels h) p)
  apply Vector.ext
  intro k hk
  by_cases hd : k < 4
  · interval_cases k
    · exact h0
    · exact h1
    · exact h2
    · exact h3
  · by_cases hs : k < 16
    · exact scaleMin_inj 4 (by omega) hscales hk (by omega) (by omega)
    · by_cases hq : k < 48
      · -- bit `j` of the byte is on the element of sub-block `j` that it is for
        obtain ⟨i, rfl⟩ : ∃ i, k = 16 + i := ⟨k - 16, by omega⟩
        refine eq_of_bitOf fun j => ?_
        have hbit := (hlevels ⟨j * 32 + i, by omega⟩).2
        have hindex : (j.val * 32 + i) % 32 = i := by omega
        have hsub : subBlock ⟨j * 32 + i, by omega⟩ = j := by
          simp only [subBlock, Fin.ext_iff]
          omega
        simpa only [hindex, hsub] using hbit
      · exact pairNibble_inj 48 (by omega) (fun p => (hlevels p).1) hk (by omega) (by omega)

theorem low_bit (pair : Fin 4) : bitOf ⟨pair * 2, by omega⟩ = (1 : UInt8) <<< UInt8.ofNat (pair.val * 2) := rfl

/-- the mask of the high nibbles is the next bit of the one of the low -/
theorem high_bit (pair : Fin 4) :
    bitOf ⟨pair * 2 + 1, by omega⟩ = (2 : UInt8) <<< UInt8.ofNat (pair.val * 2) := by
  revert pair
  decide

def q5_K : BlockFormat where
  bytes := 176
  elements := 256
  Unpacked := Fields F16 (Fin 64 × Fin 64) (Fin 32) 8 256
  unpack := unpackQ5_K
  value := offsetValue ar
  loop x :=
    let d := f16ToF32 (ofLe16 x[0] x[1])
    let dmin := f16ToF32 (ofLe16 x[2] x[3])
    (List.finRange 4).flatMap fun (pair : Fin 4) =>
      let sc := scaleMinK4 x 4 (by omega) ⟨pair * 2, by omega⟩
      let d1 := ar.mul d (ar.ofNat sc.1.toNat)
      let m1 := ar.mul dmin (ar.ofNat sc.2.toNat)
      let sc := scaleMinK4 x 4 (by omega) ⟨pair * 2 + 1, by omega⟩
      let d2 := ar.mul d (ar.ofNat sc.1.toNat)
      let m2 := ar.mul dmin (ar.ofNat sc.2.toNat)
      let lowBit := (1 : UInt8) <<< UInt8.ofNat (pair.val * 2)
      let highBit := (2 : UInt8) <<< UInt8.ofNat (pair.val * 2)
      (List.finRange 32).flatMap fun i =>
        let byte := x[48 + (pair.val * 32 + i.val)]
        let low := withBit x[16 + i.val] lowBit (lowNibble byte)
        let high := withBit x[16 + i.val] highBit (highNibble byte)
        [(pairLow pair i, ar.sub (ar.mul d1 (ar.ofNat low.val)) m1),
          (pairHigh pair i, ar.sub (ar.mul d2 (ar.ofNat high.val)) m2)]
  order := pairOrder
  bijective := bijective_of_injective unpackQ5_K_injective (by
    rw [card_uint16, Nat.card_prod, Nat.card_fin, Nat.card_fin]
    norm_num)
  complete := pairOrder_complete
  loop_eq x := map_rounds fun pair _ => map_rounds fun i _ => by
    have hlow : (pairLow pair i).val % 32 = i.val := by
      simp only [pairLow]
      omega
    have hhigh : (pairHigh pair i).val % 32 = i.val := by
      simp only [pairHigh]
      omega
    simp only [List.map_cons, List.map_nil, unpackQ5_K, offsetValue, subBlock_low, subBlock_high, pairNibble_low,
      pairNibble_high, scaleMin, hlow, hhigh, low_bit, high_bit]

end

/-! ## Two bits of a byte -/

/-- the two bits of a byte above `2 * c` others -/
def twoBits (x : UInt8) (c : Fin 4) : Fin 4 :=
  ⟨((x >>> UInt8.ofNat (2 * c.val)) &&& 3).toNat, by
    rw [toNat_mask _ _ (show (3 : UInt8).toNat + 1 = 2 ^ 2 from rfl)]
    omega⟩

theorem val_twoBits (x : UInt8) (c : Fin 4) : (twoBits x c).val = x.toNat / 2 ^ (2 * c.val) % 4 := by
  have hshift : (UInt8.ofNat (2 * c.val)).toNat = 2 * c.val := by
    rw [UInt8.toNat_ofNat']
    omega
  have hmask : (twoBits x c).val = (x >>> UInt8.ofNat (2 * c.val)).toNat % 2 ^ 2 := toNat_mask _ _ rfl
  rw [hmask, toNat_shiftRight x _ hshift (by omega)]
  norm_num

theorem twoBits_inj {x y : UInt8} (h : ∀ c, twoBits x c = twoBits y c) : x = y := by
  have hval : ∀ c : Fin 4, x.toNat / 2 ^ (2 * c.val) % 4 = y.toNat / 2 ^ (2 * c.val) % 4 := by
    intro c
    rw [← val_twoBits, ← val_twoBits, h c]
  have h0 := hval 0
  have h1 := hval 1
  have h2 := hval 2
  have h3 := hval 3
  norm_num at h0 h1 h2 h3
  have := x.toNat_lt
  have := y.toNat_lt
  exact UInt8.toNat_inj.1 (by omega)

/-- the top two bits, which nothing stands above -/
def topBits (x : UInt8) : Fin 4 :=
  ⟨(x >>> 6).toNat, by
    have hx := x.toNat_lt
    rw [toNat_shiftRight x 6 (k := 6) rfl (by omega)]
    omega⟩

theorem topBits_eq (x : UInt8) : topBits x = twoBits x 3 := by
  have hx := x.toNat_lt
  have htop : (topBits x).val = x.toNat / 2 ^ 6 := toNat_shiftRight x 6 (k := 6) rfl (by omega)
  have hthree : ((3 : Fin 4) : ℕ) = 3 := rfl
  apply Fin.ext
  rw [htop, val_twoBits, hthree]
  omega

/-! ## `Q6_K` -/

/-- the elements a byte of high bits serves, thirty-two apart -/
def quarter (half : Fin 2) (c : Fin 4) (i : Fin 32) : Fin 256 := ⟨half * 128 + c * 32 + i, by omega⟩

/-- the sub-block of sixteen an element is of -/
def group (p : Fin 256) : Fin 16 := ⟨p / 16, by omega⟩

theorem exists_quarter (p : Fin 256) : ∃ half c i, p = quarter half c i :=
  ⟨⟨p / 128, by omega⟩, ⟨p % 128 / 32, by omega⟩, ⟨p % 32, by omega⟩, by
    simp only [quarter, Fin.ext_iff]
    omega⟩

section

variable {n : ℕ} (x y : Bytes n) (start : ℕ) (hstart : start + 64 ≤ n)

/-- two bits of an element, from sixty-four bytes -/
def quarterBits (p : Fin 256) : Fin 4 :=
  twoBits x[start + (p.val / 128 * 32 + p.val % 32)] ⟨p % 128 / 32, by omega⟩

theorem quarterBits_at (half : Fin 2) (c : Fin 4) (i : Fin 32) :
    quarterBits x start hstart (quarter half c i) = twoBits x[start + (half.val * 32 + i.val)] c := by
  have hindex : (quarter half c i).val / 128 * 32 + (quarter half c i).val % 32 = half.val * 32 + i.val := by
    simp only [quarter]
    omega
  have hplace : (quarter half c i).val % 128 / 32 = c.val := by
    simp only [quarter]
    omega
  simp only [quarterBits, hindex, hplace]

variable {x y}

theorem quarterBits_inj (h : ∀ p, quarterBits x start hstart p = quarterBits y start hstart p) {k : ℕ} (hk : k < n)
    (hlow : start ≤ k) (hhigh : k < start + 64) : x[k] = y[k] := by
  obtain ⟨half, i, rfl⟩ : ∃ half : Fin 2, ∃ i : Fin 32, k = start + (half.val * 32 + i.val) :=
    ⟨⟨(k - start) / 32, by omega⟩, ⟨(k - start) % 32, by omega⟩, by
      dsimp only
      omega⟩
  refine twoBits_inj fun c => ?_
  rw [← quarterBits_at x start hstart, ← quarterBits_at y start hstart]
  exact h _

end

section

variable {n : ℕ} (x y : Bytes n) (start : ℕ) (hstart : start + 128 ≤ n)

/-- the four low bits of an element: two quarters in the low nibbles of sixty-four bytes, two in their high ones -/
def quarterNibble (p : Fin 256) : Fin 16 :=
  if p.val % 128 < 64 then lowNibble x[start + (p.val / 128 * 64 + p.val % 64)]
  else highNibble x[start + (p.val / 128 * 64 + p.val % 64)]

theorem quarterNibble_low (half : Fin 2) (c : Fin 2) (i : Fin 32) :
    quarterNibble x start hstart (quarter half ⟨c, by omega⟩ i) =
      lowNibble x[start + (half.val * 64 + (c.val * 32 + i.val))] := by
  have hlow : (quarter half ⟨c, by omega⟩ i).val % 128 < 64 := by
    simp only [quarter]
    omega
  have hindex : (quarter half ⟨c, by omega⟩ i).val / 128 * 64 + (quarter half ⟨c, by omega⟩ i).val % 64 =
      half.val * 64 + (c.val * 32 + i.val) := by
    simp only [quarter]
    omega
  rw [quarterNibble, if_pos hlow]
  simp only [hindex]

theorem quarterNibble_high (half : Fin 2) (c : Fin 2) (i : Fin 32) :
    quarterNibble x start hstart (quarter half ⟨c + 2, by omega⟩ i) =
      highNibble x[start + (half.val * 64 + (c.val * 32 + i.val))] := by
  have hhigh : ¬ (quarter half ⟨c + 2, by omega⟩ i).val % 128 < 64 := by
    simp only [quarter]
    omega
  have hindex : (quarter half ⟨c + 2, by omega⟩ i).val / 128 * 64 + (quarter half ⟨c + 2, by omega⟩ i).val % 64 =
      half.val * 64 + (c.val * 32 + i.val) := by
    simp only [quarter]
    omega
  rw [quarterNibble, if_neg hhigh]
  simp only [hindex]

variable {x y}

theorem quarterNibble_inj (h : ∀ p, quarterNibble x start hstart p = quarterNibble y start hstart p)
    {k : ℕ} (hk : k < n) (hlow : start ≤ k) (hhigh : k < start + 128) : x[k] = y[k] := by
  obtain ⟨half, c, i, rfl⟩ : ∃ half : Fin 2, ∃ c : Fin 2, ∃ i : Fin 32,
      k = start + (half.val * 64 + (c.val * 32 + i.val)) :=
    ⟨⟨(k - start) / 64, by omega⟩, ⟨(k - start) % 64 / 32, by omega⟩, ⟨(k - start) % 32, by omega⟩, by
      dsimp only
      omega⟩
  have hl := h (quarter half ⟨c, by omega⟩ i)
  have hh := h (quarter half ⟨c + 2, by omega⟩ i)
  rw [quarterNibble_low, quarterNibble_low] at hl
  rw [quarterNibble_high, quarterNibble_high] at hh
  exact nibbles_inj hl hh

end

/-- `i32::from(nibble) | (i32::from(high) << 4)` -/
def sixBits (nibble : Fin 16) (high : Fin 4) : Fin 64 :=
  ⟨(high.val <<< 4) ||| nibble.val, by
    rw [Nat.shiftLeft_eq, or_above nibble.isLt]
    omega⟩

theorem val_sixBits (nibble : Fin 16) (high : Fin 4) : (sixBits nibble high).val = high.val * 16 + nibble.val := by
  show high.val <<< 4 ||| nibble.val = high.val * 2 ^ 4 + nibble.val
  rw [Nat.shiftLeft_eq]
  exact or_above nibble.isLt

theorem sixBits_inj {a b : Fin 16} {c d : Fin 4} (h : sixBits a c = sixBits b d) : a = b ∧ c = d := by
  have hval := congrArg Fin.val h
  rw [val_sixBits, val_sixBits] at hval
  constructor
  · exact Fin.ext (by omega)
  · exact Fin.ext (by omega)

section

variable (ar : Arith)

def unpackQ6_K (x : Bytes 210) : Fields Unit Int8 (Fin 64) 16 256 :=
  ⟨ofLe16 x[208] x[209], (), fun g => x[192 + g.val].toInt8, fun p =>
    sixBits (quarterNibble x 0 (by omega) p) (quarterBits x 128 (by omega) p)⟩

theorem unpackQ6_K_injective : Function.Injective unpackQ6_K := by
  intro x y h
  obtain ⟨h0, h1⟩ := ofLe16_inj (congrArg Fields.d h)
  have hscales := congrFun (congrArg Fields.scales h)
  have hlevels := fun p => sixBits_inj (congrFun (congrArg Fields.levels h) p)
  apply Vector.ext
  intro k hk
  by_cases hl : k < 128
  · exact quarterNibble_inj 0 (by omega) (fun p => (hlevels p).1) hk (by omega) (by omega)
  · by_cases hh : k < 192
    · exact quarterBits_inj 128 (by omega) (fun p => (hlevels p).2) hk (by omega) (by omega)
    · by_cases hs : k < 208
      · obtain ⟨g, rfl⟩ : ∃ g, k = 192 + g := ⟨k - 192, by omega⟩
        exact signedEquiv.symm.injective (hscales ⟨g, by omega⟩)
      · interval_cases k
        · exact h0
        · exact h1

/-- what one round writes: four elements, thirty-two apart -/
def quarters (half : Fin 2) (i : Fin 32) : List (Fin 256) :=
  [quarter half 0 i, quarter half 1 i, quarter half 2 i, quarter half 3 i]

def quarterOrder : List (Fin 256) :=
  (List.finRange 2).flatMap fun half => (List.finRange 32).flatMap fun i => quarters half i

theorem quarterOrder_complete : quarterOrder.Perm (List.finRange 256) := by
  refine perm_finRange (by simp [quarterOrder, quarters]) fun p => ?_
  obtain ⟨half, c, i, rfl⟩ := exists_quarter p
  simp only [quarterOrder, List.mem_flatMap, List.mem_finRange, true_and]
  refine ⟨half, i, ?_⟩
  fin_cases c
  · exact List.mem_cons_self
  · exact List.mem_cons_of_mem _ List.mem_cons_self
  · exact List.mem_cons_of_mem _ (List.mem_cons_of_mem _ List.mem_cons_self)
  · exact List.mem_cons_of_mem _ (List.mem_cons_of_mem _ (List.mem_cons_of_mem _ List.mem_cons_self))

theorem group_at (half : Fin 2) (c : Fin 4) (i : Fin 32) :
    (group (quarter half c i)).val = half.val * 8 + (i.val / 16 + 2 * c.val) := by
  simp only [group, quarter]
  omega

def q6_K : BlockFormat where
  bytes := 210
  elements := 256
  Unpacked := Fields Unit Int8 (Fin 64) 16 256
  unpack := unpackQ6_K
  value u p := ar.mul (ar.mul (f16ToF32 u.d) (ar.ofInt (u.scales (group p)).toInt)) (ar.ofInt ((u.levels p).val - 32))
  loop x :=
    let d := f16ToF32 (ofLe16 x[208] x[209])
    (List.finRange 2).flatMap fun half => (List.finRange 32).flatMap fun i =>
      let ql := x[half.val * 64 + i.val]
      let ql32 := x[half.val * 64 + (32 + i.val)]
      let qh := x[128 + (half.val * 32 + i.val)]
      let write := fun (c : Fin 4) (value : Fin 64) =>
        let scale := ar.ofInt x[192 + (half.val * 8 + (i.val / 16 + 2 * c.val))].toInt8.toInt
        (quarter half c i, ar.mul (ar.mul d scale) (ar.ofInt (value.val - 32)))
      [write 0 (sixBits (lowNibble ql) (twoBits qh 0)), write 1 (sixBits (lowNibble ql32) (twoBits qh 1)),
        write 2 (sixBits (highNibble ql) (twoBits qh 2)), write 3 (sixBits (highNibble ql32) (topBits qh))]
  order := quarterOrder
  bijective := bijective_of_injective unpackQ6_K_injective (by
    rw [card_int8, Nat.card_fin]
    norm_num)
  complete := quarterOrder_complete
  loop_eq x := map_rounds fun half _ => map_rounds fun i _ => by
    have h0 : quarterNibble x 0 (by omega) (quarter half 0 i) = lowNibble x[half.val * 64 + i.val] := by
      simpa using quarterNibble_low x 0 (by omega) half 0 i
    have h1 : quarterNibble x 0 (by omega) (quarter half 1 i) = lowNibble x[half.val * 64 + (32 + i.val)] := by
      simpa using quarterNibble_low x 0 (by omega) half 1 i
    have h2 : quarterNibble x 0 (by omega) (quarter half 2 i) = highNibble x[half.val * 64 + i.val] := by
      simpa using quarterNibble_high x 0 (by omega) half 0 i
    have h3 : quarterNibble x 0 (by omega) (quarter half 3 i) = highNibble x[half.val * 64 + (32 + i.val)] := by
      simpa using quarterNibble_high x 0 (by omega) half 1 i
    simp only [quarters, List.map_cons, List.map_nil, unpackQ6_K, quarterBits_at, group_at, topBits_eq, h0, h1, h2, h3]

/-! ## `Q2_K` -/

/-- element `i` of a lane, among thirty-two -/
def laneOf (lane : Fin 2) (i : Fin 16) : Fin 32 := ⟨lane * 16 + i, by omega⟩

/-- the elements in the order of the loops over a half, a shift, a lane and an element -/
def laneOrder : List (Fin 256) :=
  (List.finRange 2).flatMap fun half => (List.finRange 4).flatMap fun j => (List.finRange 2).flatMap fun lane =>
    (List.finRange 16).map fun i => quarter half j (laneOf lane i)

theorem laneOrder_complete : laneOrder.Perm (List.finRange 256) := by
  refine perm_finRange (by simp [laneOrder]) fun p => ?_
  simp only [laneOrder, List.mem_flatMap, List.mem_map, List.mem_finRange, true_and]
  refine ⟨⟨p / 128, by omega⟩, ⟨p % 128 / 32, by omega⟩, ⟨p % 32 / 16, by omega⟩, ⟨p % 16, by omega⟩, ?_⟩
  simp only [quarter, laneOf, Fin.ext_iff]
  omega

theorem group_lane (half : Fin 2) (j : Fin 4) (lane : Fin 2) (i : Fin 16) :
    (group (quarter half j (laneOf lane i))).val = half.val * 8 + (j.val * 2 + lane.val) := by
  simp only [group, quarter, laneOf]
  omega

def unpackQ2_K (x : Bytes 84) : Fields F16 (Fin 16 × Fin 16) (Fin 4) 16 256 :=
  ⟨ofLe16 x[80] x[81], ofLe16 x[82] x[83], fun g => (lowNibble x[g.val], highNibble x[g.val]),
    quarterBits x 16 (by omega)⟩

theorem unpackQ2_K_injective : Function.Injective unpackQ2_K := by
  intro x y h
  obtain ⟨h0, h1⟩ := ofLe16_inj (congrArg Fields.d h)
  obtain ⟨h2, h3⟩ := ofLe16_inj (congrArg Fields.min h)
  have hscales := congrFun (congrArg Fields.scales h)
  have hlevels := congrFun (congrArg Fields.levels h)
  apply Vector.ext
  intro k hk
  by_cases hs : k < 16
  · have hpair := hscales ⟨k, hs⟩
    exact nibbles_inj (congrArg Prod.fst hpair) (congrArg Prod.snd hpair)
  · by_cases hq : k < 80
    · exact quarterBits_inj 16 (by omega) hlevels hk (by omega) (by omega)
    · interval_cases k
      · exact h0
      · exact h1
      · exact h2
      · exact h3

def q2_K : BlockFormat where
  bytes := 84
  elements := 256
  Unpacked := Fields F16 (Fin 16 × Fin 16) (Fin 4) 16 256
  unpack := unpackQ2_K
  value u p := ar.sub (ar.mul (ar.mul (f16ToF32 u.d) (ar.ofNat (u.scales (group p)).1.val)) (ar.ofNat (u.levels p).val))
    (ar.mul (f16ToF32 u.min) (ar.ofNat (u.scales (group p)).2.val))
  loop x :=
    let d := f16ToF32 (ofLe16 x[80] x[81])
    let dmin := f16ToF32 (ofLe16 x[82] x[83])
    (List.finRange 2).flatMap fun half => (List.finRange 4).flatMap fun j => (List.finRange 2).flatMap fun lane =>
      let packed := x[half.val * 8 + (j.val * 2 + lane.val)]
      let dl := ar.mul d (ar.ofNat (lowNibble packed).val)
      let ml := ar.mul dmin (ar.ofNat (highNibble packed).val)
      (List.finRange 16).map fun i =>
        let value := twoBits x[16 + (half.val * 32 + (laneOf lane i).val)] j
        (quarter half j (laneOf lane i), ar.sub (ar.mul dl (ar.ofNat value.val)) ml)
  order := laneOrder
  bijective := bijective_of_injective unpackQ2_K_injective (by
    rw [card_uint16, Nat.card_prod, Nat.card_fin, Nat.card_fin]
    norm_num)
  complete := laneOrder_complete
  loop_eq x := map_rounds fun half _ => map_rounds fun j _ => map_rounds fun lane _ => by
    simp only [List.map_map, Function.comp_def, unpackQ2_K, quarterBits_at, group_lane]

end

/-! ## Scales across words -/

/-- byte `m` of a word -/
def digit (x : ℕ) (m : Fin 4) : ℕ := x / 2 ^ (8 * m.val) % 2 ^ 8

theorem digit_and (x y : ℕ) (m : Fin 4) : digit (x &&& y) m = digit x m &&& digit y m := by
  rw [digit, Nat.and_div_two_pow, Nat.and_mod_two_pow]
  rfl

theorem digit_or (x y : ℕ) (m : Fin 4) : digit (x ||| y) m = digit x m ||| digit y m := by
  rw [digit, Nat.or_div_two_pow, Nat.or_mod_two_pow]
  rfl

/-- the low bits of a byte of a shifted word, where the shift takes none from the byte above -/
theorem digit_shift (x : ℕ) (m : Fin 4) {s k : ℕ} (h : s + k ≤ 8) :
    digit (x / 2 ^ s) m % 2 ^ k = digit x m / 2 ^ s % 2 ^ k := by
  have hpow : 2 ^ 8 = 2 ^ s * 2 ^ (8 - s) := by
    rw [← pow_add]
    congr 1
    omega
  have hright : digit x m / 2 ^ s % 2 ^ k = x / 2 ^ (8 * m.val) / 2 ^ s % 2 ^ k := by
    rw [digit, hpow, Nat.mod_mul_right_div_self, Nat.mod_mod_of_dvd _ (pow_dvd_pow 2 (by omega))]
  rw [hright, digit, Nat.mod_mod_of_dvd _ (pow_dvd_pow 2 (by omega)), Nat.div_right_comm]

/-- bytes that leave room for a nibble below them -/
theorem digit_raise {x : ℕ} (hx : ∀ m, digit x m < 16) (m : Fin 4) : digit ((x <<< 4) % 2 ^ 32) m = digit x m * 16 := by
  have h0 : x / 2 ^ 0 % 2 ^ 8 < 16 := hx 0
  have h1 : x / 2 ^ 8 % 2 ^ 8 < 16 := hx 1
  have h2 : x / 2 ^ 16 % 2 ^ 8 < 16 := hx 2
  have h3 : x / 2 ^ 24 % 2 ^ 8 < 16 := hx 3
  rw [Nat.shiftLeft_eq]
  fin_cases m
  · show x * 2 ^ 4 % 2 ^ 32 / 2 ^ 0 % 2 ^ 8 = x / 2 ^ 0 % 2 ^ 8 * 16
    omega
  · show x * 2 ^ 4 % 2 ^ 32 / 2 ^ 8 % 2 ^ 8 = x / 2 ^ 8 % 2 ^ 8 * 16
    omega
  · show x * 2 ^ 4 % 2 ^ 32 / 2 ^ 16 % 2 ^ 8 = x / 2 ^ 16 % 2 ^ 8 * 16
    omega
  · show x * 2 ^ 4 % 2 ^ 32 / 2 ^ 24 % 2 ^ 8 = x / 2 ^ 24 % 2 ^ 8 * 16
    omega

theorem digit_ofLe (a b c d : UInt8) (m : Fin 4) : digit (ofLe a b c d).toNat m = ([a, b, c, d].get m).toNat := by
  have ha := a.toNat_lt
  have hb := b.toNat_lt
  have hc := c.toNat_lt
  have hd := d.toNat_lt
  rw [toNat_ofLe, digit]
  fin_cases m
  all_goals
    simp
    omega

/-- a byte of `to_le_bytes` -/
def byteOf (v : UInt32) (m : Fin 4) : UInt8 := (leBytes v).get m

theorem toNat_byteOf (v : UInt32) (m : Fin 4) : (byteOf v m).toNat = digit v.toNat m := by
  fin_cases m
  all_goals simp [byteOf, leBytes, digit]

def lowTwo : UInt32 := 0x03030303

def lowFour : UInt32 := 0x0f0f0f0f

/-- four low nibbles, and above each two bits -/
def scaleWord (low high : UInt32) : UInt32 := (low &&& lowFour) ||| ((high &&& lowTwo) <<< 4)

theorem digit_scaleWord (low high : UInt32) (m : Fin 4) :
    digit (scaleWord low high).toNat m = digit high.toNat m % 4 * 16 + digit low.toNat m % 16 := by
  have hfour : digit lowFour.toNat m = 15 := by
    revert m
    decide
  have htwo : ∀ m, digit lowTwo.toNat m = 3 := by decide
  have hsmall : ∀ m, digit (high &&& lowTwo).toNat m = digit high.toNat m % 4 := by
    intro m
    rw [UInt32.toNat_and, digit_and, htwo m]
    exact and_mask _ 2 _ rfl
  have hshift : (4 : UInt32).toNat % 32 = 4 := rfl
  rw [scaleWord, UInt32.toNat_or, digit_or, UInt32.toNat_and, digit_and, hfour, UInt32.toNat_shiftLeft, hshift,
    digit_raise (fun m => by rw [hsmall]; omega), hsmall, and_mask _ 4 _ rfl, Nat.or_comm]
  exact or_above (i := 4) (Nat.mod_lt _ (by norm_num))

section

variable {n : ℕ} (x y : Bytes n) (start : ℕ) (hstart : start + 12 ≤ n)

/-- `u32::from_le_bytes` of four of the packed bytes -/
def word (w : Fin 3) : UInt32 :=
  ofLe x[start + w.val * 4] x[start + (w.val * 4 + 1)] x[start + (w.val * 4 + 2)] x[start + (w.val * 4 + 3)]

theorem digit_word (w : Fin 3) (m : Fin 4) : digit (word x start hstart w).toNat m = x[start + (w.val * 4 + m.val)].toNat := by
  rw [word, digit_ofLe]
  fin_cases m
  · rfl
  · rfl
  · rfl
  · rfl

/-- `q3_k_scales`, before the words are bytes again -/
def q3KWords : Fin 4 → UInt32 :=
  let first := word x start hstart 0
  let second := word x start hstart 1
  let high := word x start hstart 2
  ![scaleWord first high, scaleWord second (high >>> 2), scaleWord (first >>> 4) (high >>> 4),
    scaleWord (second >>> 4) (high >>> 6)]

/-- `q3_k_scales` -/
def q3KScales (g : Fin 16) : UInt8 := byteOf (q3KWords x start hstart ⟨g / 4, by omega⟩) ⟨g % 4, by omega⟩

/-- a scale is a nibble of one of the first eight bytes under two bits of one of the last four -/
theorem toNat_q3KScales (w m : Fin 4) : (q3KScales x start hstart ⟨w * 4 + m, by omega⟩).toNat =
    x[start + (8 + m.val)].toNat / 2 ^ (2 * w.val) % 4 * 16 +
      x[start + (w.val % 2 * 4 + m.val)].toNat / 2 ^ (4 * (w.val / 2)) % 16 := by
  have hword : (⟨(w.val * 4 + m.val) / 4, by omega⟩ : Fin 4) = w := Fin.ext (by
    dsimp only
    omega)
  have hbyte : (⟨(w.val * 4 + m.val) % 4, by omega⟩ : Fin 4) = m := Fin.ext (by
    dsimp only
    omega)
  have hdigit : (q3KScales x start hstart ⟨w * 4 + m, by omega⟩).toNat = digit (q3KWords x start hstart w).toNat m := by
    rw [← toNat_byteOf, q3KScales, hword, hbyte]
  have hshift : ∀ (v : UInt32) (m : Fin 4), digit (v >>> 2).toNat m % 4 = digit v.toNat m / 2 ^ 2 % 4 ∧
      digit (v >>> 4).toNat m % 4 = digit v.toNat m / 2 ^ 4 % 4 ∧ digit (v >>> 4).toNat m % 16 = digit v.toNat m / 2 ^ 4 % 16 ∧
        digit (v >>> 6).toNat m % 4 = digit v.toNat m / 2 ^ 6 % 4 := by
    intro v m
    have hright : ∀ s : UInt32, (v >>> s).toNat = v.toNat / 2 ^ (s.toNat % 32) := fun s => by
      rw [UInt32.toNat_shiftRight, Nat.shiftRight_eq_div_pow]
    rw [hright, hright, hright]
    exact ⟨digit_shift v.toNat m (s := 2) (k := 2) (by omega), digit_shift v.toNat m (s := 4) (k := 2) (by omega),
      digit_shift v.toNat m (s := 4) (k := 4) (by omega), digit_shift v.toNat m (s := 6) (k := 2) (by omega)⟩
  obtain ⟨h2, h4, h4', h6⟩ := hshift (word x start hstart 2) m
  obtain ⟨-, -, hfirst, -⟩ := hshift (word x start hstart 0) m
  obtain ⟨-, -, hsecond, -⟩ := hshift (word x start hstart 1) m
  rw [hdigit]
  fin_cases w
  · refine (digit_scaleWord _ _ m).trans ?_
    rw [digit_word, digit_word]
    simp
  · refine (digit_scaleWord _ _ m).trans ?_
    rw [h2, digit_word, digit_word]
    simp
  · refine (digit_scaleWord _ _ m).trans ?_
    rw [h4, hfirst, digit_word, digit_word]
    simp
  · refine (digit_scaleWord _ _ m).trans ?_
    rw [h6, hsecond, digit_word, digit_word]
    simp

theorem q3KScales_lt (g : Fin 16) : (q3KScales x start hstart g).toNat < 64 := by
  have hplace : g = ⟨(⟨g / 4, by omega⟩ : Fin 4) * 4 + (⟨g % 4, by omega⟩ : Fin 4), by omega⟩ := Fin.ext (by
    dsimp only
    omega)
  rw [hplace, toNat_q3KScales]
  omega

/-- the scale as a six-bit number -/
def q3Scale (g : Fin 16) : Fin 64 := ⟨(q3KScales x start hstart g).toNat, q3KScales_lt x start hstart g⟩

variable {x y}

theorem q3Scale_inj (h : ∀ g, q3Scale x start hstart g = q3Scale y start hstart g) {k : ℕ} (hk : k < n)
    (hlow : start ≤ k) (hhigh : k < start + 12) : x[k] = y[k] := by
  have hval : ∀ w m : Fin 4, x[start + (8 + m.val)].toNat / 2 ^ (2 * w.val) % 4 * 16 +
      x[start + (w.val % 2 * 4 + m.val)].toNat / 2 ^ (4 * (w.val / 2)) % 16 =
        y[start + (8 + m.val)].toNat / 2 ^ (2 * w.val) % 4 * 16 +
          y[start + (w.val % 2 * 4 + m.val)].toNat / 2 ^ (4 * (w.val / 2)) % 16 := by
    intro w m
    rw [← toNat_q3KScales x start hstart, ← toNat_q3KScales y start hstart]
    have hscale := congrArg Fin.val (h ⟨w * 4 + m, by omega⟩)
    exact hscale
  by_cases hnibbles : k < start + 8
  · -- the low nibble is on one scale, the high one on the scale eight further
    obtain ⟨c, m, rfl⟩ : ∃ c : Fin 2, ∃ m : Fin 4, k = start + (c.val * 4 + m.val) :=
      ⟨⟨(k - start) / 4, by omega⟩, ⟨(k - start) % 4, by omega⟩, by
        dsimp only
        omega⟩
    have hl := hval ⟨c, by omega⟩ m
    have hh := hval ⟨c + 2, by omega⟩ m
    have hc : c.val % 2 = c.val := by omega
    have hc2 : (c.val + 2) % 2 = c.val := by omega
    have hd : c.val / 2 = 0 := by omega
    have hd2 : (c.val + 2) / 2 = 1 := by omega
    simp only [hc, hc2, hd, hd2] at hl hh
    have := x[start + (c.val * 4 + m.val)].toNat_lt
    have := y[start + (c.val * 4 + m.val)].toNat_lt
    exact UInt8.toNat_inj.1 (by omega)
  · -- every two bits are on a scale of another word
    obtain ⟨m, rfl⟩ : ∃ m : Fin 4, k = start + (8 + m.val) := ⟨⟨k - start - 8, by omega⟩, by
      dsimp only
      omega⟩
    refine twoBits_inj fun w => Fin.ext ?_
    have := hval w m
    rw [val_twoBits, val_twoBits]
    omega

end

/-! ## `Q3_K` -/

/-- `low - carry`, where a bit that is set means no carry -/
def withCarry (byte bit : UInt8) (low : Fin 4) : Set.Icc (-4 : ℤ) 3 :=
  ⟨low.val - if byte &&& bit ≠ 0 then 0 else 4, by
    constructor
    · split_ifs
      · omega
      · omega
    · split_ifs
      · omega
      · omega⟩

theorem withCarry_inj {x y bit : UInt8} {a b : Fin 4} (h : withCarry x bit a = withCarry y bit b) :
    a = b ∧ (x &&& bit ≠ 0 ↔ y &&& bit ≠ 0) := by
  have hval := congrArg Subtype.val h
  simp only [withCarry] at hval
  split_ifs at hval with hx hy hy
  · exact ⟨Fin.ext (by omega), iff_of_true hx hy⟩
  · omega
  · omega
  · exact ⟨Fin.ext (by omega), iff_of_false hx hy⟩

section

variable (ar : Arith)

def unpackQ3_K (x : Bytes 110) : Fields Unit (Fin 64) (Set.Icc (-4 : ℤ) 3) 16 256 :=
  ⟨ofLe16 x[108] x[109], (), q3Scale x 96 (by omega), fun p =>
    withCarry x[p.val % 32] (bitOf (subBlock p)) (quarterBits x 32 (by omega) p)⟩

theorem subBlock_lane (half : Fin 2) (j : Fin 4) (i : Fin 32) : subBlock (quarter half j i) = ⟨half * 4 + j, by omega⟩ := by
  simp only [subBlock, quarter, Fin.ext_iff]
  omega

theorem unpackQ3_K_injective : Function.Injective unpackQ3_K := by
  intro x y h
  obtain ⟨h0, h1⟩ := ofLe16_inj (congrArg Fields.d h)
  have hscales := congrFun (congrArg Fields.scales h)
  have hlevels := fun p => withCarry_inj (congrFun (congrArg Fields.levels h) p)
  apply Vector.ext
  intro k hk
  by_cases hm : k < 32
  · -- bit `j` of the byte is on the element of the thirty-two `j`-th that it is for
    refine eq_of_bitOf fun j => ?_
    have hbit := (hlevels ⟨j * 32 + k, by omega⟩).2
    have hindex : (j.val * 32 + k) % 32 = k := by omega
    have hsub : subBlock ⟨j * 32 + k, by omega⟩ = j := by
      simp only [subBlock, Fin.ext_iff]
      omega
    simpa only [hindex, hsub] using hbit
  · by_cases hq : k < 96
    · exact quarterBits_inj 32 (by omega) (fun p => (hlevels p).1) hk (by omega) (by omega)
    · by_cases hs : k < 108
      · exact q3Scale_inj 96 (by omega) hscales hk (by omega) (by omega)
      · interval_cases k
        · exact h0
        · exact h1

def q3_K : BlockFormat where
  bytes := 110
  elements := 256
  Unpacked := Fields Unit (Fin 64) (Set.Icc (-4 : ℤ) 3) 16 256
  unpack := unpackQ3_K
  value u p := ar.mul (ar.mul (f16ToF32 u.d) (ar.sub (ar.ofNat (u.scales (group p)).val) (ar.ofNat 32)))
    (ar.ofInt (u.levels p).val)
  loop x :=
    let d := f16ToF32 (ofLe16 x[108] x[109])
    (List.finRange 2).flatMap fun (half : Fin 2) => (List.finRange 4).flatMap fun (j : Fin 4) =>
      let highBit := bitOf ⟨half * 4 + j, by omega⟩
      (List.finRange 2).flatMap fun (lane : Fin 2) =>
        let scale := q3KScales x 96 (by omega) ⟨half * 8 + (j * 2 + lane), by omega⟩
        let dl := ar.mul d (ar.sub (ar.ofNat scale.toNat) (ar.ofNat 32))
        (List.finRange 16).map fun i =>
          let low := twoBits x[32 + (half.val * 32 + (laneOf lane i).val)] j
          (quarter half j (laneOf lane i), ar.mul dl (ar.ofInt (withCarry x[(laneOf lane i).val] highBit low).val))
  order := laneOrder
  bijective := bijective_of_injective unpackQ3_K_injective (by simp)
  complete := laneOrder_complete
  loop_eq x := map_rounds fun half _ => map_rounds fun j _ => map_rounds fun lane _ => by
    have hgroup : ∀ i, group (quarter half j (laneOf lane i)) = ⟨half * 8 + (j * 2 + lane), by omega⟩ := fun i =>
      Fin.ext (group_lane half j lane i)
    have hindex : ∀ i, (quarter half j (laneOf lane i)).val % 32 = (laneOf lane i).val := by
      intro i
      simp only [quarter, laneOf]
      omega
    simp only [List.map_map, Function.comp_def, unpackQ3_K, quarterBits_at, hgroup, q3Scale, subBlock_lane, hindex]

/-! ## The formats -/

/-- the form of a type, if it is one this engine can reconstruct -/
def formatOf : ℕ → Option BlockFormat
  | 0 => some f32Format
  | 1 => some (wordFormat f16ToF32)
  | 2 => some (q4_0 ar)
  | 3 => some (q4_1 ar)
  | 6 => some (q5_0 ar)
  | 7 => some (q5_1 ar)
  | 8 => some (q8_0 ar)
  | 10 => some (q2_K ar)
  | 11 => some (q3_K ar)
  | 12 => some (q4_K ar)
  | 13 => some (q5_K ar)
  | 14 => some (q6_K ar)
  | 30 => some (wordFormat bf16ToF32)
  | _ => none

end

end Hocmesh.Engine
