/-
Stored blocks: what the bytes of a quantised block hold.

Each type `dequantize` supports is a `BlockFormat`: the fields its bytes unpack into, the loop that writes the values of a
block, and the value each element has by the fields. Whatever the arithmetic of the floats is, the loop writes every
element of the block once, with that value, and unpacking is a bijection between the blocks of bytes and the fields in
range, so that no bit of a block is lost and none is read twice.

Bijectivity is shown from one side only: the fields determine every byte (`Function.Injective`), and there are as many of
one as of the other.
-/
import Hocmesh.Base.Bits
import Hocmesh.Engine.Half

namespace Hocmesh.Engine

open Hocmesh.Base

abbrev Bytes (n : ℕ) := Vector UInt8 n

/-- an integer as a float -/
def Arith.ofInt (ar : Arith) (z : ℤ) : F32 := if 0 ≤ z then ar.ofNat z.toNat else ar.neg (ar.ofNat z.natAbs)

/-! ## Fields -/

/-- what a block holds: a scale, a minimum, the scales of its sub-blocks, and a level for each of its elements -/
@[ext] structure Fields (Min Scale Level : Type) (subs n : ℕ) where
  d : F16
  min : Min
  scales : Fin subs → Scale
  levels : Fin n → Level

section

variable {Min Scale Level : Type} {subs n b : ℕ}

def fieldsEquiv : Fields Min Scale Level subs n ≃ F16 × Min × (Fin subs → Scale) × (Fin n → Level) where
  toFun u := (u.d, u.min, u.scales, u.levels)
  invFun t := ⟨t.1, t.2.1, t.2.2.1, t.2.2.2⟩
  left_inv _ := rfl
  right_inv _ := rfl

/-- fields that determine the bytes, and are as many -/
theorem bijective_of_injective [Finite Min] [Finite Scale] [Finite Level] {f : Bytes b → Fields Min Scale Level subs n}
    (hf : Function.Injective f)
    (hcard : 65536 * (Nat.card Min * (Nat.card Scale ^ subs * Nat.card Level ^ n)) = 256 ^ b) : Function.Bijective f := by
  have hfields : Nat.card (Fields Min Scale Level subs n) = 256 ^ b := by
    rw [Nat.card_congr fieldsEquiv, Nat.card_prod, Nat.card_prod, Nat.card_prod, Nat.card_fun, Nat.card_fun, Nat.card_fin,
      Nat.card_fin, card_uint16, hcard]
  have : Finite (Fields Min Scale Level subs n) := Finite.of_equiv _ fieldsEquiv.symm
  refine hf.bijective_of_nat_card_le ?_
  rw [hfields, card_bytes]

end

/-! ## Formats -/

/-- the stored form of one block of a type -/
structure BlockFormat where
  bytes : ℕ
  elements : ℕ
  Unpacked : Type
  unpack : Bytes bytes → Unpacked
  value : Unpacked → Fin elements → F32
  /-- what the loop over a block writes, in its order -/
  loop : Bytes bytes → List (Fin elements × F32)
  /-- the elements, in the order of the loop -/
  order : List (Fin elements)
  bijective : Function.Bijective unpack
  complete : order.Perm (List.finRange elements)
  loop_eq : ∀ x, loop x = order.map fun p => (p, value (unpack x) p)

/-- a list of as many places as there are, in which every place occurs -/
theorem perm_finRange {n : ℕ} {l : List (Fin n)} (hlen : l.length = n) (hall : ∀ p, p ∈ l) :
    l.Perm (List.finRange n) := by
  have hsub : (List.finRange n).Subperm l := List.subperm_of_subset (List.nodup_finRange n) fun p _ => hall p
  exact (hsub.perm_of_length_le (by rw [hlen, List.length_finRange])).symm

/-- a loop whose rounds write at the places of theirs writes at the places of all -/
theorem map_rounds {ι α β : Type} {l : List ι} {places : ι → List α} {writes : ι → List β} {v : α → β}
    (h : ∀ i ∈ l, writes i = (places i).map v) : l.flatMap writes = (l.flatMap places).map v := by
  rw [List.map_flatMap]
  exact List.flatMap_congr h

/-! ## Parts of a byte -/

def lowNibble (x : UInt8) : Fin 16 :=
  ⟨(x &&& 0x0f).toNat, by
    rw [toNat_mask x _ (show (0x0f : UInt8).toNat + 1 = 2 ^ 4 from rfl)]
    omega⟩

def highNibble (x : UInt8) : Fin 16 :=
  ⟨(x >>> 4).toNat, by
    rw [toNat_shiftRight x 4 (k := 4) rfl (by omega)]
    have := x.toNat_lt
    omega⟩

@[simp] theorem val_lowNibble (x : UInt8) : (lowNibble x).val = x.toNat % 16 :=
  toNat_mask x _ (show (0x0f : UInt8).toNat + 1 = 2 ^ 4 from rfl)

@[simp] theorem val_highNibble (x : UInt8) : (highNibble x).val = x.toNat / 16 :=
  toNat_shiftRight x 4 (k := 4) rfl (by omega)

/-- a byte is its nibbles -/
theorem nibbles_inj {x y : UInt8} (hlow : lowNibble x = lowNibble y) (hhigh : highNibble x = highNibble y) : x = y := by
  have h1 := congrArg Fin.val hlow
  have h2 := congrArg Fin.val hhigh
  rw [val_lowNibble, val_lowNibble] at h1
  rw [val_highNibble, val_highNibble] at h2
  exact UInt8.toNat_inj.1 (by omega)

/-! ## Single values -/

def f32Format : BlockFormat where
  bytes := 4
  elements := 1
  Unpacked := F32
  unpack x := ofLe x[0] x[1] x[2] x[3]
  value u _ := u
  loop x := [(0, ofLe x[0] x[1] x[2] x[3])]
  order := [0]
  bijective := by
    have hinj : Function.Injective fun x : Bytes 4 => ofLe x[0] x[1] x[2] x[3] := by
      intro x y h
      obtain ⟨h0, h1, h2, h3⟩ := ofLe_inj h
      apply Vector.ext
      intro k hk
      interval_cases k
      · exact h0
      · exact h1
      · exact h2
      · exact h3
    refine ⟨hinj, fun v => ⟨Vector.ofFn ![UInt8.ofNat v.toNat, UInt8.ofNat (v.toNat / 2 ^ 8),
      UInt8.ofNat (v.toNat / 2 ^ 16), UInt8.ofNat (v.toNat / 2 ^ 24)], ?_⟩⟩
    exact ofLe_leBytes v
  complete := List.Perm.refl _
  loop_eq _ := rfl

/-- two bytes as one value, by whatever they denote -/
def wordFormat (widen : UInt16 → F32) : BlockFormat where
  bytes := 2
  elements := 1
  Unpacked := UInt16
  unpack x := ofLe16 x[0] x[1]
  value u _ := widen u
  loop x := [(0, widen (ofLe16 x[0] x[1]))]
  order := [0]
  bijective := by
    have hinj : Function.Injective fun x : Bytes 2 => ofLe16 x[0] x[1] := by
      intro x y h
      obtain ⟨h0, h1⟩ := ofLe16_inj h
      apply Vector.ext
      intro k hk
      interval_cases k
      · exact h0
      · exact h1
    refine hinj.bijective_of_nat_card_le ?_
    rw [card_bytes, card_uint16]
    norm_num
  complete := List.Perm.refl _
  loop_eq _ := rfl

/-! ## Thirty-two elements -/

/-- the element a low nibble holds -/
def lowPlace (i : Fin 16) : Fin 32 := ⟨i, by omega⟩

/-- the element a high nibble holds -/
def highPlace (i : Fin 16) : Fin 32 := ⟨i + 16, by omega⟩

/-- the elements as the loops over sixteen bytes write them -/
def order32 : List (Fin 32) := (List.finRange 16).flatMap fun i => [lowPlace i, highPlace i]

theorem order32_complete : order32.Perm (List.finRange 32) := by
  refine perm_finRange rfl fun p => ?_
  simp only [order32, List.mem_flatMap, List.mem_finRange, true_and, List.mem_cons, List.not_mem_nil, or_false]
  by_cases hp : p.val < 16
  · exact ⟨⟨p, hp⟩, Or.inl (Fin.ext rfl)⟩
  · refine ⟨⟨p - 16, by omega⟩, Or.inr (Fin.ext ?_)⟩
    simp only [highPlace]
    omega

section

variable {n : ℕ} (x y : Bytes n) (start : ℕ) (hstart : start + 16 ≤ n)

/-- the level of an element, from sixteen bytes whose low nibbles come before their high ones -/
def nibble (p : Fin 32) : Fin 16 :=
  if h : p.val < 16 then lowNibble x[start + p.val] else highNibble x[start + (p.val - 16)]

theorem nibble_low (i : Fin 16) : nibble x start hstart (lowPlace i) = lowNibble x[start + i.val] :=
  dif_pos i.isLt

theorem nibble_high (i : Fin 16) : nibble x start hstart (highPlace i) = highNibble x[start + i.val] := by
  have hnot : ¬ (highPlace i).val < 16 := by
    simp only [highPlace]
    omega
  rw [nibble, dif_neg hnot]
  simp only [highPlace, Nat.add_sub_cancel]

variable {x y}

theorem nibble_inj (h : ∀ p, nibble x start hstart p = nibble y start hstart p) {k : ℕ} (hk : k < n) (hlow : start ≤ k)
    (hhigh : k < start + 16) : x[k] = y[k] := by
  obtain ⟨i, rfl⟩ : ∃ i, k = start + i := ⟨k - start, by omega⟩
  have hl := h (lowPlace ⟨i, by omega⟩)
  have hh := h (highPlace ⟨i, by omega⟩)
  rw [nibble_low, nibble_low] at hl
  rw [nibble_high, nibble_high] at hh
  exact nibbles_inj hl hh

end

/-! ## The fifth bit -/

/-- `(high >> p) & 1` -/
theorem toNat_bit (high : UInt32) (p : Fin 32) :
    (((high >>> UInt32.ofNat p.val) &&& 1) <<< 4).toNat = high.toNat / 2 ^ p.val % 2 * 2 ^ 4 := by
  have hp : (UInt32.ofNat p.val).toNat % 32 = p.val := by
    rw [UInt32.toNat_ofNat']
    omega
  have hone : (1 : UInt32).toNat = 1 := rfl
  have hfour : (4 : UInt32).toNat % 32 = 4 := rfl
  rw [UInt32.toNat_shiftLeft, UInt32.toNat_and, UInt32.toNat_shiftRight, hp, hone, hfour, Nat.and_one_is_mod,
    Nat.shiftRight_eq_div_pow, Nat.shiftLeft_eq]
  omega

theorem toNat_fifth (high : UInt32) (p : Fin 32) (level : Fin 16) :
    (UInt32.ofNat level.val ||| (((high >>> UInt32.ofNat p.val) &&& 1) <<< 4)).toNat =
      high.toNat / 2 ^ p.val % 2 * 16 + level.val := by
  have hlevel : (UInt32.ofNat level.val).toNat = level.val := by
    rw [UInt32.toNat_ofNat']
    omega
  rw [UInt32.toNat_or, toNat_bit, hlevel, Nat.or_comm]
  exact or_above level.isLt

/-- a nibble with bit `p` of the high ones above it -/
def fifth (high : UInt32) (p : Fin 32) (level : Fin 16) : Fin 32 :=
  ⟨(UInt32.ofNat level.val ||| (((high >>> UInt32.ofNat p.val) &&& 1) <<< 4)).toNat, by
    rw [toNat_fifth]
    omega⟩

theorem val_fifth (high : UInt32) (p : Fin 32) (level : Fin 16) :
    (fifth high p level).val = high.toNat / 2 ^ p.val % 2 * 16 + level.val :=
  toNat_fifth high p level

theorem fifth_inj {high high' : UInt32} {a b : Fin 32 → Fin 16} (h : ∀ p, fifth high p (a p) = fifth high' p (b p)) :
    high = high' ∧ ∀ p, a p = b p := by
  have hval : ∀ p : Fin 32, high.toNat / 2 ^ p.val % 2 * 16 + (a p).val = high'.toNat / 2 ^ p.val % 2 * 16 + (b p).val := by
    intro p
    have hfin := congrArg Fin.val (h p)
    rwa [val_fifth, val_fifth] at hfin
  constructor
  · refine UInt32.toNat_inj.1 (eq_of_bits high.toNat_lt high'.toNat_lt fun i hi => ?_)
    have hbit := hval ⟨i, hi⟩
    dsimp only at hbit
    omega
  · intro p
    have := hval p
    omega

/-! ## `Q4_0` to `Q8_0` -/

section

variable (ar : Arith)

def unpackQ4_0 (x : Bytes 18) : Fields Unit Unit (Fin 16) 0 32 :=
  ⟨ofLe16 x[0] x[1], (), fun _ => (), nibble x 2 (by omega)⟩

theorem unpackQ4_0_injective : Function.Injective unpackQ4_0 := by
  intro x y h
  obtain ⟨h0, h1⟩ := ofLe16_inj (congrArg Fields.d h)
  have hlevels := congrFun (congrArg Fields.levels h)
  apply Vector.ext
  intro k hk
  by_cases hd : k < 2
  · interval_cases k
    · exact h0
    · exact h1
  · exact nibble_inj 2 (by omega) hlevels hk (by omega) (by omega)

def q4_0 : BlockFormat where
  bytes := 18
  elements := 32
  Unpacked := Fields Unit Unit (Fin 16) 0 32
  unpack := unpackQ4_0
  value u p := ar.mul (ar.sub (ar.ofNat (u.levels p).val) (ar.ofNat 8)) (f16ToF32 u.d)
  loop x :=
    let scale := f16ToF32 (ofLe16 x[0] x[1])
    (List.finRange 16).flatMap fun i =>
      let byte := x[2 + i.val]
      [(lowPlace i, ar.mul (ar.sub (ar.ofNat (lowNibble byte).val) (ar.ofNat 8)) scale),
        (highPlace i, ar.mul (ar.sub (ar.ofNat (highNibble byte).val) (ar.ofNat 8)) scale)]
  order := order32
  bijective := bijective_of_injective unpackQ4_0_injective (by
    rw [Nat.card_fin]
    norm_num)
  complete := order32_complete
  loop_eq x := map_rounds fun i _ => by simp [unpackQ4_0, nibble_low, nibble_high]

def unpackQ4_1 (x : Bytes 20) : Fields F16 Unit (Fin 16) 0 32 :=
  ⟨ofLe16 x[0] x[1], ofLe16 x[2] x[3], fun _ => (), nibble x 4 (by omega)⟩

theorem unpackQ4_1_injective : Function.Injective unpackQ4_1 := by
  intro x y h
  obtain ⟨h0, h1⟩ := ofLe16_inj (congrArg Fields.d h)
  obtain ⟨h2, h3⟩ := ofLe16_inj (congrArg Fields.min h)
  have hlevels := congrFun (congrArg Fields.levels h)
  apply Vector.ext
  intro k hk
  by_cases hd : k < 4
  · interval_cases k
    · exact h0
    · exact h1
    · exact h2
    · exact h3
  · exact nibble_inj 4 (by omega) hlevels hk (by omega) (by omega)

def q4_1 : BlockFormat where
  bytes := 20
  elements := 32
  Unpacked := Fields F16 Unit (Fin 16) 0 32
  unpack := unpackQ4_1
  value u p := ar.add (ar.mul (ar.ofNat (u.levels p).val) (f16ToF32 u.d)) (f16ToF32 u.min)
  loop x :=
    let scale := f16ToF32 (ofLe16 x[0] x[1])
    let min := f16ToF32 (ofLe16 x[2] x[3])
    (List.finRange 16).flatMap fun i =>
      let byte := x[4 + i.val]
      [(lowPlace i, ar.add (ar.mul (ar.ofNat (lowNibble byte).val) scale) min),
        (highPlace i, ar.add (ar.mul (ar.ofNat (highNibble byte).val) scale) min)]
  order := order32
  bijective := bijective_of_injective unpackQ4_1_injective (by
    rw [card_uint16, Nat.card_fin]
    norm_num)
  complete := order32_complete
  loop_eq x := map_rounds fun i _ => by simp [unpackQ4_1, nibble_low, nibble_high]

def unpackQ5_0 (x : Bytes 22) : Fields Unit Unit (Fin 32) 0 32 :=
  ⟨ofLe16 x[0] x[1], (), fun _ => (), fun p => fifth (ofLe x[2] x[3] x[4] x[5]) p (nibble x 6 (by omega) p)⟩

theorem unpackQ5_0_injective : Function.Injective unpackQ5_0 := by
  intro x y h
  obtain ⟨h0, h1⟩ := ofLe16_inj (congrArg Fields.d h)
  obtain ⟨hhigh, hlevels⟩ := fifth_inj (congrFun (congrArg Fields.levels h))
  obtain ⟨h2, h3, h4, h5⟩ := ofLe_inj hhigh
  apply Vector.ext
  intro k hk
  by_cases hd : k < 6
  · interval_cases k
    · exact h0
    · exact h1
    · exact h2
    · exact h3
    · exact h4
    · exact h5
  · exact nibble_inj 6 (by omega) hlevels hk (by omega) (by omega)

def q5_0 : BlockFormat where
  bytes := 22
  elements := 32
  Unpacked := Fields Unit Unit (Fin 32) 0 32
  unpack := unpackQ5_0
  value u p := ar.mul (ar.sub (ar.ofNat (u.levels p).val) (ar.ofNat 16)) (f16ToF32 u.d)
  loop x :=
    let scale := f16ToF32 (ofLe16 x[0] x[1])
    let high := ofLe x[2] x[3] x[4] x[5]
    (List.finRange 16).flatMap fun i =>
      let byte := x[6 + i.val]
      [(lowPlace i, ar.mul (ar.sub (ar.ofNat (fifth high (lowPlace i) (lowNibble byte)).val) (ar.ofNat 16)) scale),
        (highPlace i, ar.mul (ar.sub (ar.ofNat (fifth high (highPlace i) (highNibble byte)).val) (ar.ofNat 16)) scale)]
  order := order32
  bijective := bijective_of_injective unpackQ5_0_injective (by
    rw [Nat.card_fin]
    norm_num)
  complete := order32_complete
  loop_eq x := map_rounds fun i _ => by simp [unpackQ5_0, nibble_low, nibble_high]

def unpackQ5_1 (x : Bytes 24) : Fields F16 Unit (Fin 32) 0 32 :=
  ⟨ofLe16 x[0] x[1], ofLe16 x[2] x[3], fun _ => (), fun p => fifth (ofLe x[4] x[5] x[6] x[7]) p (nibble x 8 (by omega) p)⟩

theorem unpackQ5_1_injective : Function.Injective unpackQ5_1 := by
  intro x y h
  obtain ⟨h0, h1⟩ := ofLe16_inj (congrArg Fields.d h)
  obtain ⟨h2, h3⟩ := ofLe16_inj (congrArg Fields.min h)
  obtain ⟨hhigh, hlevels⟩ := fifth_inj (congrFun (congrArg Fields.levels h))
  obtain ⟨h4, h5, h6, h7⟩ := ofLe_inj hhigh
  apply Vector.ext
  intro k hk
  by_cases hd : k < 8
  · interval_cases k
    · exact h0
    · exact h1
    · exact h2
    · exact h3
    · exact h4
    · exact h5
    · exact h6
    · exact h7
  · exact nibble_inj 8 (by omega) hlevels hk (by omega) (by omega)

def q5_1 : BlockFormat where
  bytes := 24
  elements := 32
  Unpacked := Fields F16 Unit (Fin 32) 0 32
  unpack := unpackQ5_1
  value u p := ar.add (ar.mul (ar.ofNat (u.levels p).val) (f16ToF32 u.d)) (f16ToF32 u.min)
  loop x :=
    let scale := f16ToF32 (ofLe16 x[0] x[1])
    let min := f16ToF32 (ofLe16 x[2] x[3])
    let high := ofLe x[4] x[5] x[6] x[7]
    (List.finRange 16).flatMap fun i =>
      let byte := x[8 + i.val]
      [(lowPlace i, ar.add (ar.mul (ar.ofNat (fifth high (lowPlace i) (lowNibble byte)).val) scale) min),
        (highPlace i, ar.add (ar.mul (ar.ofNat (fifth high (highPlace i) (highNibble byte)).val) scale) min)]
  order := order32
  bijective := bijective_of_injective unpackQ5_1_injective (by
    rw [card_uint16, Nat.card_fin]
    norm_num)
  complete := order32_complete
  loop_eq x := map_rounds fun i _ => by simp [unpackQ5_1, nibble_low, nibble_high]

def unpackQ8_0 (x : Bytes 34) : Fields Unit Unit Int8 0 32 :=
  ⟨ofLe16 x[0] x[1], (), fun _ => (), fun p => x[2 + p.val].toInt8⟩

theorem unpackQ8_0_injective : Function.Injective unpackQ8_0 := by
  intro x y h
  obtain ⟨h0, h1⟩ := ofLe16_inj (congrArg Fields.d h)
  have hlevels := congrFun (congrArg Fields.levels h)
  apply Vector.ext
  intro k hk
  by_cases hd : k < 2
  · interval_cases k
    · exact h0
    · exact h1
  · obtain ⟨i, rfl⟩ : ∃ i, k = 2 + i := ⟨k - 2, by omega⟩
    exact signedEquiv.symm.injective (hlevels ⟨i, by omega⟩)

def q8_0 : BlockFormat where
  bytes := 34
  elements := 32
  Unpacked := Fields Unit Unit Int8 0 32
  unpack := unpackQ8_0
  value u p := ar.mul (ar.ofInt (u.levels p).toInt) (f16ToF32 u.d)
  loop x :=
    let scale := f16ToF32 (ofLe16 x[0] x[1])
    (List.finRange 32).map fun p => (p, ar.mul (ar.ofInt x[2 + p.val].toInt8.toInt) scale)
  order := List.finRange 32
  bijective := bijective_of_injective unpackQ8_0_injective (by
    rw [card_int8]
    norm_num)
  complete := List.Perm.refl _
  loop_eq _ := rfl

end

end Hocmesh.Engine
