/-
`dequantize` and `quantize`.

`dequantizeInto` writes the values of a tensor over whatever `out` holds, block by block in the order of the loops;
`quantize` packs a scale and levels that it takes from the values. Every element of `out` is written once, from its own
block (`written_once`), so that the result is what `dequantize` says of the bytes; and packing the fields of a block gives
back the block.
-/
import Hocmesh.Base.Scatter
import Hocmesh.Engine.SuperBlocks
import Hocmesh.Engine.Weights

namespace Hocmesh.Engine

open Hocmesh.Base Hocmesh.Model

/-! ## Blocks of the data -/

section

variable {α : Type} (n : ℕ) (l : List α)

theorem chunk_length {b : ℕ} (hb : b < l.length / n) : ((l.drop (b * n)).take n).length = n := by
  have hbound : (b + 1) * n ≤ l.length := (Nat.mul_le_mul_right n hb).trans (Nat.div_mul_le_self _ _)
  rw [Nat.add_mul, Nat.one_mul] at hbound
  rw [List.length_take, List.length_drop]
  omega

/-- `chunks_exact` -/
def chunksExact : List (Vector α n) :=
  (List.finRange (l.length / n)).map fun (b : Fin (l.length / n)) =>
    ⟨((l.drop (b * n)).take n).toArray, chunk_length n l b.isLt⟩

@[simp] theorem length_chunksExact : (chunksExact n l).length = l.length / n := by
  simp [chunksExact]

variable {n l}

theorem chunk_get {x : Vector α n} {b : ℕ} (h : (chunksExact n l)[b]? = some x) :
    x.toList = (l.drop (b * n)).take n := by
  obtain ⟨hb, rfl⟩ := List.getElem?_eq_some_iff.1 h
  simp [chunksExact, Vector.toList]

end

/-! ## `dequantize` -/

section

variable (ar : Arith)

/-- what the loops over the blocks write, `blocks` of them, each at its own stretch of `out` -/
def writesOf (f : BlockFormat) (data : List UInt8) (blocks : ℕ) : List (ℕ × F32) :=
  ((chunksExact f.bytes data).zipIdx.take blocks).flatMap fun b =>
    (f.loop b.1).map fun w => (b.2 * f.elements + w.1.val, w.2)

/-- `dequantize` -/
def dequantizeInto (kind : ℕ) (data : List UInt8) (out : List F32) : Check (List F32) := do
  let layout ← orBail (blockLayout kind) s!"GGML type {kind} is not one this build knows"
  bailIf (¬ isSupported kind) (s!"GGML type {typeName kind} ({kind}) is not one this engine can execute; requantise the " ++
    "model to Q4_K, Q5_K, Q6_K, Q2_K, Q3_K, Q8_0, Q4_0, Q4_1, Q5_0, Q5_1, F16, BF16 or F32")
  bailIf (¬ layout.elements ∣ out.length) s!"{out.length} elements is not a whole number of {layout.elements}-element blocks"
  let blocks := out.length / layout.elements
  let needed := blocks * layout.bytes
  bailIf (¬ needed ≤ data.length)
    s!"tensor data is {data.length} bytes, {needed} needed for {out.length} elements of {typeName kind}"
  match formatOf ar kind with
  | some f => pure (scatter out (writesOf f data blocks))
  | none => .error s!"unreachable: {typeName kind} passed the support check"

/-- the values of a block, in the order of its elements -/
def BlockFormat.values (f : BlockFormat) (block : List UInt8) : List F32 :=
  if h : block.length = f.bytes then (List.finRange f.elements).map (f.value (f.unpack ⟨block.toArray, h⟩))
  else List.replicate f.elements 0

theorem BlockFormat.length_values (f : BlockFormat) (block : List UInt8) : (f.values block).length = f.elements := by
  unfold BlockFormat.values
  split_ifs
  · simp
  · simp

/-- the forms are those of the layouts -/
theorem formatOf_layout {kind : ℕ} {f : BlockFormat} (h : formatOf ar kind = some f) :
    blockLayout kind = some ⟨f.elements, f.bytes⟩ := by
  unfold formatOf at h
  split at h
  all_goals first | (cases h; rfl) | cases h

/-- there is a form for every type that is supported, and for no other -/
theorem formatOf_isSome (kind : ℕ) : (formatOf ar kind).isSome = isSupported kind := by
  unfold formatOf isSupported
  split
  all_goals simp_all

/-- how the engine decodes a block -/
def decoder : BlockDecoder where
  decode kind block :=
    match formatOf ar kind with
    | some f => f.values block
    | none => List.replicate ((blockLayout kind).elim 0 BlockLayout.elements) 0
  length_decode kind layout block h := by
    cases hf : formatOf ar kind with
    | none =>
      rw [List.length_replicate, h]
      rfl
    | some f =>
      rw [formatOf_layout ar hf] at h
      cases h
      exact f.length_values block

/-! ## Every element once -/

variable {ar} {f : BlockFormat} {data : List UInt8} {blocks : ℕ}

/-- **Written once.** Where there are bytes for all the blocks, every place is written exactly once, with the value that
the fields of its own block give it. -/
theorem written_once (hdata : blocks * f.bytes ≤ data.length) (hbytes : 0 < f.bytes) :
    ((writesOf f data blocks).map Prod.fst).Perm (List.range (blocks * f.elements)) ∧
      ∀ w ∈ writesOf f data blocks, ∃ (b : ℕ) (p : Fin f.elements) (x : Bytes f.bytes), b < blocks ∧
        w.1 = b * f.elements + p.val ∧ x.toList = (data.drop (b * f.bytes)).take f.bytes ∧ w.2 = f.value (f.unpack x) p := by
  have hblocks : blocks ≤ (chunksExact f.bytes data).length := by
    rw [length_chunksExact]
    exact (Nat.le_div_iff_mul_le hbytes).2 hdata
  constructor
  · have hplaces : (writesOf f data blocks).map Prod.fst =
        (((chunksExact f.bytes data).zipIdx.take blocks).map Prod.snd).flatMap fun b =>
          f.order.map fun p => b * f.elements + p.val := by
      rw [writesOf, List.map_flatMap, List.flatMap_map]
      refine List.flatMap_congr fun b _ => ?_
      rw [f.loop_eq, List.map_map, List.map_map]
      rfl
    have hindex : ((chunksExact f.bytes data).zipIdx.take blocks).map Prod.snd = List.range blocks := by
      rw [List.map_take, List.zipIdx_map_snd, List.range_eq_range', List.take_range'_of_length_ge hblocks]
    rw [hplaces, hindex]
    refine List.Perm.trans ?_ range_mul_perm
    exact List.Perm.flatMap_left _ fun b _ => f.complete.map _
  · intro w hw
    obtain ⟨⟨x, b⟩, hb, hw⟩ := List.mem_flatMap.1 hw
    rw [f.loop_eq, List.map_map] at hw
    obtain ⟨p, -, rfl⟩ := List.mem_map.1 hw
    obtain ⟨i, hi, hget⟩ := List.mem_iff_getElem.1 hb
    rw [List.getElem_take, List.getElem_zipIdx, Nat.zero_add] at hget
    obtain ⟨rfl, rfl⟩ := Prod.mk.inj hget
    have hbound : i < blocks := by
      rw [List.length_take] at hi
      omega
    exact ⟨i, p, _, hbound, rfl, chunk_get (List.getElem?_eq_getElem (by omega)), rfl⟩

theorem BlockFormat.values_get (x : Bytes f.bytes) {block : List UInt8} (hx : x.toList = block) (p : Fin f.elements) :
    (f.values block)[p.val]? = some (f.value (f.unpack x) p) := by
  subst hx
  have hlength : x.toList.length = f.bytes := Vector.length_toList
  have hback : (⟨x.toList.toArray, hlength⟩ : Bytes f.bytes) = x := by
    apply Vector.toList_inj.1
    simp [Vector.toList]
  rw [BlockFormat.values, dif_pos hlength, hback, List.getElem?_map, List.getElem?_eq_getElem (by simp),
    List.getElem_finRange]
  rfl

/-- what follows a check may take it for passed -/
theorem after_bail {α : Type} {p : Prop} [Decidable p] {msg : String} {f g : Unit → Check α} (h : ¬ p → f () = g ()) :
    (bailIf p msg >>= f) = (bailIf p msg >>= g) := by
  unfold bailIf
  split_ifs with hp
  · rfl
  · exact h hp

theorem formatOf_pos {kind : ℕ} {f : BlockFormat} (h : formatOf ar kind = some f) : 0 < f.bytes ∧ 0 < f.elements := by
  unfold formatOf at h
  split at h
  all_goals first | (cases h; exact ⟨Nat.succ_pos _, Nat.succ_pos _⟩) | cases h

/-- **The loops compute the values.** Over whatever stood in `out`, the result is the values of the blocks. -/
theorem dequantizeInto_eq (kind : ℕ) (data : List UInt8) (out : List F32) :
    dequantizeInto ar kind data out = dequantize (decoder ar) kind data out.length := by
  unfold dequantizeInto dequantize
  cases hlayout : blockLayout kind with
  | none => rfl
  | some layout =>
    refine after_bail fun hsupported => after_bail fun hdvd => after_bail fun hneeded => ?_
    rw [not_not] at hsupported hdvd hneeded
    obtain ⟨f, hf⟩ : ∃ f, formatOf ar kind = some f := by
      rw [← formatOf_isSome ar] at hsupported
      exact Option.isSome_iff_exists.1 hsupported
    rw [formatOf_layout ar hf] at hlayout
    cases hlayout
    obtain ⟨hbytes, helements⟩ := formatOf_pos hf
    dsimp only at hdvd hneeded ⊢
    obtain ⟨hplaces, hvalues⟩ := @written_once f data _ hneeded hbytes
    rw [Nat.div_mul_cancel hdvd] at hplaces
    simp only [hf, decoder]
    refine congrArg Except.ok (scatter_eq ?_ ?_ ?_)
    · intro w hw
      obtain ⟨b, p, x, hb, hplace, hx, hvalue⟩ := hvalues w hw
      rw [hplace, getElem?_flatMap_range (fun b => f.length_values _) hb p.isLt, f.values_get x hx p, hvalue]
    · rw [List.length_flatMap, List.map_congr_left fun b _ => f.length_values _, List.map_const', List.sum_replicate,
        List.length_range, smul_eq_mul, Nat.div_mul_cancel hdvd]
    · intro q hq
      exact hplaces.symm.subset (List.mem_range.2 hq)

end

/-! ## Packing -/

/-- `((levels[i] & 0x0f) | ((levels[i + 16] & 0x0f) << 4)) as u8`, for every `i` -/
def packNibbles (levels : Fin 32 → ℕ) : List UInt8 :=
  (List.finRange 16).map fun i =>
    UInt8.ofNat (levels (lowPlace i) &&& 0x0f) ||| (UInt8.ofNat (levels (highPlace i) &&& 0x0f) <<< 4)

/-- the fifth bits, `high |= ((level >> 4) & 1) << i` for every `i` -/
def packHigh (levels : Fin 32 → ℕ) : UInt32 :=
  (List.finRange 32).foldl (fun high i => high ||| (((UInt32.ofNat (levels i) >>> 4) &&& 1) <<< UInt32.ofNat i.val)) 0

def packQ4_0 (u : Fields Unit Unit (Fin 16) 0 32) : List UInt8 := leBytes16 u.d ++ packNibbles fun p => (u.levels p).val

def packQ4_1 (u : Fields F16 Unit (Fin 16) 0 32) : List UInt8 :=
  leBytes16 u.d ++ leBytes16 u.min ++ packNibbles fun p => (u.levels p).val

def packQ5_0 (u : Fields Unit Unit (Fin 32) 0 32) : List UInt8 :=
  leBytes16 u.d ++ leBytes (packHigh fun p => (u.levels p).val) ++ packNibbles fun p => (u.levels p).val

def packQ5_1 (u : Fields F16 Unit (Fin 32) 0 32) : List UInt8 :=
  leBytes16 u.d ++ leBytes16 u.min ++ leBytes (packHigh fun p => (u.levels p).val) ++
    packNibbles fun p => (u.levels p).val

def packQ8_0 (u : Fields Unit Unit Int8 0 32) : List UInt8 :=
  leBytes16 u.d ++ (List.finRange 32).map fun p => (u.levels p).toUInt8

theorem leBytes16_ofLe16 (a b : UInt8) : leBytes16 (ofLe16 a b) = [a, b] := by
  have ha := a.toNat_lt
  have hb := b.toNat_lt
  have hlow : UInt8.ofNat (ofLe16 a b).toNat = a := UInt8.toNat_inj.1 (by
    rw [UInt8.toNat_ofNat', toNat_ofLe16]
    omega)
  have hhigh : UInt8.ofNat ((ofLe16 a b).toNat / 2 ^ 8) = b := UInt8.toNat_inj.1 (by
    rw [UInt8.toNat_ofNat', toNat_ofLe16]
    omega)
  rw [leBytes16, hlow, hhigh]

theorem leBytes_ofLe (a b c d : UInt8) : leBytes (ofLe a b c d) = [a, b, c, d] := by
  obtain ⟨ha, hb, hc, hd⟩ := ofLe_inj (ofLe_leBytes (ofLe a b c d))
  rw [leBytes, ha, hb, hc, hd]

theorem run_lt {n start : ℕ} (hstart : start + 16 ≤ n) (i : Fin 16) : start + i.val < n := by
  omega

/-- levels whose low bits are the nibbles of a run of bytes are packed into the run -/
theorem packNibbles_eq {n : ℕ} (x : Bytes n) (start : ℕ) (hstart : start + 16 ≤ n) {levels : Fin 32 → ℕ}
    (h : ∀ p, levels p % 16 = (nibble x start hstart p).val) :
    packNibbles levels = (List.finRange 16).map fun i => getElem x (start + i.val) (run_lt hstart i) := by
  refine List.map_congr_left fun i _ => ?_
  have hmask : ∀ p, levels p &&& 0x0f = (nibble x start hstart p).val := by
    intro p
    rw [← h p]
    exact and_mask _ 4 _ rfl
  have hbyte : ∀ v : Fin 16, (UInt8.ofNat v.val).toNat = v.val := by
    intro v
    rw [UInt8.toNat_ofNat']
    omega
  rw [hmask, hmask, nibble_low, nibble_high]
  apply UInt8.toNat_inj.1
  rw [toNat_nibbles (by rw [hbyte]; omega) (by rw [hbyte]; omega), hbyte, hbyte, val_lowNibble, val_highNibble]
  omega

/-- the fifth bit of a level at its place -/
theorem toNat_highBit (level : ℕ) (i : Fin 32) :
    (((UInt32.ofNat level >>> 4) &&& 1) <<< UInt32.ofNat i.val).toNat = level / 16 % 2 * 2 ^ i.val := by
  have hi : (UInt32.ofNat i.val).toNat % 32 = i.val := by
    rw [UInt32.toNat_ofNat']
    omega
  have hone : (1 : UInt32).toNat = 1 := rfl
  have hfour : (4 : UInt32).toNat % 32 = 4 := rfl
  have hbit : level % 2 ^ 32 / 2 ^ 4 % 2 = level / 16 % 2 := by omega
  have hsmall : level / 16 % 2 * 2 ^ i.val < 2 ^ 32 :=
    calc level / 16 % 2 * 2 ^ i.val ≤ 1 * 2 ^ i.val := Nat.mul_le_mul_right _ (by omega)
      _ < 2 ^ 32 := by
        rw [Nat.one_mul]
        exact Nat.pow_lt_pow_right (by norm_num) i.isLt
  rw [UInt32.toNat_shiftLeft, UInt32.toNat_and, UInt32.toNat_shiftRight, UInt32.toNat_ofNat', hi, hone, hfour,
    Nat.and_one_is_mod, Nat.shiftRight_eq_div_pow, hbit, Nat.shiftLeft_eq, Nat.mod_eq_of_lt hsmall]

theorem testBit_highBit (level : ℕ) (i j : Fin 32) :
    (level / 16 % 2 * 2 ^ i.val).testBit j.val = (decide (j = i) && level.testBit 4) := by
  rw [Nat.testBit_mul_two_pow]
  have hbit : level.testBit 4 = decide (level / 16 % 2 = 1) := Nat.testBit_eq_decide_div_mod_eq
  rcases lt_trichotomy i.val j.val with hij | hij | hij
  · have hne : j ≠ i := fun h => by rw [h] at hij; exact lt_irrefl _ hij
    have hpow : 2 ^ 1 ≤ 2 ^ (j.val - i.val) := Nat.pow_le_pow_right (by norm_num) (by omega)
    rw [Nat.testBit_lt_two_pow (by omega), decide_eq_false hne, Bool.and_false, Bool.false_and]
  · obtain rfl := Fin.ext hij
    rw [decide_eq_true le_rfl, Nat.sub_self, Nat.testBit_zero, Nat.mod_mod, hbit, decide_eq_true rfl]
  · have hne : j ≠ i := fun h => by rw [h] at hij; exact lt_irrefl _ hij
    rw [decide_eq_false (by omega), decide_eq_false hne, Bool.false_and, Bool.false_and]

/-- the bits of a word that is put together bit by bit -/
theorem packHigh_bit (levels : Fin 32 → ℕ) (j : Fin 32) :
    (packHigh levels).toNat.testBit j.val = (levels j).testBit 4 := by
  have hfold : ∀ (l : List (Fin 32)) (high : UInt32),
      (l.foldl (fun high i => high ||| (((UInt32.ofNat (levels i) >>> 4) &&& 1) <<< UInt32.ofNat i.val)) high).toNat.testBit
        j.val = (high.toNat.testBit j.val || (decide (j ∈ l) && (levels j).testBit 4)) := by
    intro l
    induction l with
    | nil =>
      intro high
      simp
    | cons i l ih =>
      intro high
      rw [List.foldl_cons, ih, UInt32.toNat_or, Nat.testBit_or, toNat_highBit, testBit_highBit]
      by_cases hji : j = i
      · subst hji
        cases high.toNat.testBit j.val <;> cases (levels j).testBit 4 <;> simp
      · simp [hji]
  have hall := hfold (List.finRange 32) 0
  have hmem : decide (j ∈ List.finRange 32) = true := decide_eq_true (List.mem_finRange j)
  have hzero : (0 : UInt32).toNat = 0 := rfl
  rw [hmem, Bool.true_and, hzero, Nat.zero_testBit, Bool.false_or] at hall
  exact hall

/-- the fifth bits of levels are the word they were taken from -/
theorem packHigh_fifth (high : UInt32) (low : Fin 32 → Fin 16) :
    (packHigh fun p => (fifth high p (low p)).val) = high := by
  refine UInt32.toNat_inj.1 (eq_of_bits (UInt32.toNat_lt _) high.toNat_lt fun i hi => ?_)
  have hbit := packHigh_bit (fun p => (fifth high p (low p)).val) ⟨i, hi⟩
  rw [Nat.testBit_eq_decide_div_mod_eq, Nat.testBit_eq_decide_div_mod_eq, val_fifth] at hbit
  have hiff := decide_eq_decide.1 hbit
  dsimp only at hiff
  have hlow := (low ⟨i, hi⟩).isLt
  omega

/-! ## Packing undoes unpacking -/

/-- a block is its first bytes and the run of the others -/
theorem toList_run {n : ℕ} (x : Bytes n) {head : List UInt8} {k m : ℕ} (hn : k + m = n) (hlen : head.length = k)
    (hhead : ∀ (i : ℕ) (hi : i < k), head[i]? = some x[i]) :
    head ++ (List.finRange m).map (fun i => x[k + i.val]) = x.toList := by
  apply List.ext_getElem?
  intro i
  by_cases hi : i < n
  · have hright : x.toList[i]? = some x[i] := by
      rw [Vector.getElem?_toList, Vector.getElem?_eq_getElem hi]
    rw [hright]
    by_cases hk : i < k
    · rw [List.getElem?_append_left (by omega), hhead i hk]
    · obtain ⟨j, rfl⟩ : ∃ j, i = k + j := ⟨i - k, by omega⟩
      have hj : j < (List.finRange m).length := by
        rw [List.length_finRange]
        omega
      rw [List.getElem?_append_right (by omega), hlen, Nat.add_sub_cancel_left, List.getElem?_map,
        List.getElem?_eq_getElem hj, List.getElem_finRange]
      rfl
  · rw [List.getElem?_eq_none (by simp; omega), List.getElem?_eq_none (by simp; omega)]

theorem packQ4_0_unpack (x : Bytes 18) : packQ4_0 (unpackQ4_0 x) = x.toList := by
  have hmod : ∀ p, ((unpackQ4_0 x).levels p).val % 16 = (nibble x 2 (by omega) p).val := fun p => Nat.mod_eq_of_lt (Fin.isLt _)
  rw [packQ4_0, packNibbles_eq x 2 (by omega) hmod]
  refine toList_run x (k := 2) rfl rfl fun i hi => ?_
  simp only [unpackQ4_0, leBytes16_ofLe16]
  interval_cases i
  · rfl
  · rfl

theorem packQ4_1_unpack (x : Bytes 20) : packQ4_1 (unpackQ4_1 x) = x.toList := by
  have hmod : ∀ p, ((unpackQ4_1 x).levels p).val % 16 = (nibble x 4 (by omega) p).val := fun p => Nat.mod_eq_of_lt (Fin.isLt _)
  rw [packQ4_1, packNibbles_eq x 4 (by omega) hmod]
  refine toList_run x (k := 4) rfl rfl fun i hi => ?_
  simp only [unpackQ4_1, leBytes16_ofLe16]
  interval_cases i
  · rfl
  · rfl
  · rfl
  · rfl

theorem fifth_mod (high : UInt32) (p : Fin 32) (level : Fin 16) : (fifth high p level).val % 16 = level.val := by
  rw [val_fifth]
  omega

theorem packQ5_0_unpack (x : Bytes 22) : packQ5_0 (unpackQ5_0 x) = x.toList := by
  have hmod : ∀ p, ((unpackQ5_0 x).levels p).val % 16 = (nibble x 6 (by omega) p).val := fun p => fifth_mod _ p _
  rw [packQ5_0, packNibbles_eq x 6 (by omega) hmod]
  refine toList_run x (k := 6) rfl rfl fun i hi => ?_
  simp only [unpackQ5_0, leBytes16_ofLe16, packHigh_fifth, leBytes_ofLe]
  interval_cases i
  · rfl
  · rfl
  · rfl
  · rfl
  · rfl
  · rfl

theorem packQ5_1_unpack (x : Bytes 24) : packQ5_1 (unpackQ5_1 x) = x.toList := by
  have hmod : ∀ p, ((unpackQ5_1 x).levels p).val % 16 = (nibble x 8 (by omega) p).val := fun p => fifth_mod _ p _
  rw [packQ5_1, packNibbles_eq x 8 (by omega) hmod]
  refine toList_run x (k := 8) rfl rfl fun i hi => ?_
  simp only [unpackQ5_1, leBytes16_ofLe16, packHigh_fifth, leBytes_ofLe]
  interval_cases i
  · rfl
  · rfl
  · rfl
  · rfl
  · rfl
  · rfl
  · rfl
  · rfl

theorem packQ8_0_unpack (x : Bytes 34) : packQ8_0 (unpackQ8_0 x) = x.toList := by
  refine toList_run x (k := 2) rfl rfl fun i hi => ?_
  simp only [unpackQ8_0, leBytes16_ofLe16]
  interval_cases i
  · rfl
  · rfl

/-- packing gives the bytes of a block, and it and unpacking undo each other -/
def Packs {Unpacked : Type} {n : ℕ} (pack : Unpacked → List UInt8) (unpack : Bytes n → Unpacked) : Prop :=
  (∀ x, pack (unpack x) = x.toList) ∧ ∀ u, ∃ x : Bytes n, pack u = x.toList ∧ unpack x = u

/-- a packing that undoes a bijective unpacking is undone by it -/
theorem Packs.of_left {Unpacked : Type} {n : ℕ} {unpack : Bytes n → Unpacked} {pack : Unpacked → List UInt8}
    (hbij : Function.Bijective unpack) (h : ∀ x, pack (unpack x) = x.toList) : Packs pack unpack := by
  refine ⟨h, fun u => ?_⟩
  obtain ⟨x, rfl⟩ := hbij.surjective u
  exact ⟨x, h x, rfl⟩

/-! ## `quantize` -/

/-- the `f32` operations that only the encoder uses -/
structure Encoding where
  infinity : F32
  abs : F32 → F32
  min : F32 → F32 → F32
  isZero : F32 → Bool
  /-- `.round() as i32` -/
  roundToInt : F32 → ℤ

section

variable (ar : Arith) (en : Encoding)

/-- whether `quantize` can produce a type -/
def canQuantize (kind : ℕ) : Bool := kind ∈ [0, 1, 2, 3, 6, 7, 8, 30]

/-- the value the decoder will read back -/
def roundTripScale (scale : F32) : F32 := f16ToF32 (f32ToF16 scale)

def clamp (z low high : ℤ) : ℤ := if z < low then low else if high < z then high else z

def quantiseSigned (value scale : F32) (limit : ℤ) : Int8 :=
  Int8.ofInt (if en.isZero scale then 0 else clamp (en.roundToInt (ar.div value scale)) (-limit - 1) limit)

def quantiseUnsigned (value scale : F32) (bias : ℤ) : ℤ :=
  if en.isZero scale then 0 else clamp (en.roundToInt (ar.div value scale)) (-bias) (bias - 1)

/-- a clamped level, as a number below its bound -/
def level (z : ℤ) (top : ℕ) : Fin (top + 1) :=
  ⟨(clamp z 0 top).toNat, by
    unfold clamp
    split_ifs
    all_goals omega⟩

/-- a scale and signed levels, by the largest of the magnitudes -/
def signedFields (block : Vector F32 32) : Fields Unit Unit Int8 0 32 :=
  let peak := block.toList.foldl (fun peak v => ar.max peak (en.abs v)) ar.zero
  let scale := roundTripScale (ar.div peak (ar.ofNat 127))
  ⟨f32ToF16 scale, (), fun _ => (), fun p => quantiseSigned ar en block[p] scale 127⟩

/-- a scale and levels about `bias`, by the value furthest from zero -/
def symmetricFields (bias : ℕ) (block : Vector F32 32) : Fields Unit Unit (Fin (2 * bias - 1 + 1)) 0 32 :=
  let extreme := block.toList.foldl (fun far v => if ar.gt (en.abs v) (en.abs far) then v else far) ar.zero
  let scale := roundTripScale (ar.div extreme (ar.neg (ar.ofNat bias)))
  ⟨f32ToF16 scale, (), fun _ => (), fun p => level (quantiseUnsigned ar en block[p] scale bias + bias) (2 * bias - 1)⟩

/-- a scale, a minimum and levels from it -/
def offsetFields (levelsMax : ℕ) (block : Vector F32 32) : Fields F16 Unit (Fin (levelsMax + 1)) 0 32 :=
  let min := roundTripScale (block.toList.foldl en.min en.infinity)
  let max := block.toList.foldl ar.max ar.negInfinity
  let scale := roundTripScale (ar.div (ar.sub max min) (ar.ofNat levelsMax))
  ⟨f32ToF16 scale, f32ToF16 min, fun _ => (), fun p =>
    if en.isZero scale then 0 else level (en.roundToInt (ar.div (ar.sub block[p] min) scale)) levelsMax⟩

/-- `quantize` -/
def quantize (kind : ℕ) (values : List F32) (out : List UInt8) : Check (List UInt8) := do
  bailIf (¬ canQuantize kind) (s!"this build reads {typeName kind} but does not write it; quantise with llama.cpp instead, " ++
    "whose encoder searches for the per-sub-block scales that a formula cannot find")
  let perBlock := (blockLayout kind).elim 1 BlockLayout.elements
  bailIf (¬ perBlock ∣ values.length) s!"{values.length} values is not a whole number of {perBlock}-element blocks"
  match kind with
  | 0 => pure (out ++ values.flatMap leBytes)
  | 1 => pure (out ++ values.flatMap fun value => leBytes16 (f32ToF16 value))
  | 30 => pure (out ++ values.flatMap fun (value : F32) => leBytes16 (value >>> 16).toUInt16)
  | 8 => pure (out ++ (chunksExact 32 values).flatMap fun block => packQ8_0 (signedFields ar en block))
  | 2 => pure (out ++ (chunksExact 32 values).flatMap fun block => packQ4_0 (symmetricFields ar en 8 block))
  | 6 => pure (out ++ (chunksExact 32 values).flatMap fun block => packQ5_0 (symmetricFields ar en 16 block))
  | 3 => pure (out ++ (chunksExact 32 values).flatMap fun block => packQ4_1 (offsetFields ar en 15 block))
  | 7 => pure (out ++ (chunksExact 32 values).flatMap fun block => packQ5_1 (offsetFields ar en 31 block))
  | _ => .error s!"unreachable: {typeName kind} passed the support check"

end

/-! ## No bit lost -/

/-- **Blocks lose and duplicate no bits.** The form of every type has the size of its layout and unpacks bijectively; what
`quantize` packs is undone by unpacking; and where the lengths fit, every element of `out` is written exactly once, with the
value the fields of its own block give it, and so the result is the values of the blocks whatever `out` was. -/
theorem blocks_lose_no_bits (ar : Arith) :
    (∀ kind, isSupported kind = true → ∃ f, formatOf ar kind = some f ∧ blockLayout kind = some ⟨f.elements, f.bytes⟩ ∧
      Function.Bijective f.unpack ∧
      ∀ (data : List UInt8) (out : List F32), f.elements ∣ out.length → out.length / f.elements * f.bytes ≤ data.length →
        dequantizeInto ar kind data out = .ok (scatter out (writesOf f data (out.length / f.elements))) ∧
        ((writesOf f data (out.length / f.elements)).map Prod.fst).Perm (List.range out.length) ∧
        ∀ w ∈ writesOf f data (out.length / f.elements), ∃ (b : ℕ) (p : Fin f.elements) (x : Bytes f.bytes),
          w.1 = b * f.elements + p.val ∧ x.toList = (data.drop (b * f.bytes)).take f.bytes ∧
            w.2 = f.value (f.unpack x) p) ∧
    Packs packQ4_0 unpackQ4_0 ∧ Packs packQ4_1 unpackQ4_1 ∧ Packs packQ5_0 unpackQ5_0 ∧ Packs packQ5_1 unpackQ5_1 ∧
      Packs packQ8_0 unpackQ8_0 := by
  refine ⟨fun kind hkind => ?_, .of_left (q4_0 ar).bijective packQ4_0_unpack, .of_left (q4_1 ar).bijective packQ4_1_unpack,
    .of_left (q5_0 ar).bijective packQ5_0_unpack, .of_left (q5_1 ar).bijective packQ5_1_unpack,
    .of_left (q8_0 ar).bijective packQ8_0_unpack⟩
  obtain ⟨f, hf⟩ : ∃ f, formatOf ar kind = some f := by
    rw [← formatOf_isSome ar] at hkind
    exact Option.isSome_iff_exists.1 hkind
  refine ⟨f, hf, formatOf_layout ar hf, f.bijective, fun data out hdvd hneeded => ?_⟩
  obtain ⟨hplaces, hvalues⟩ := @written_once f data _ hneeded (formatOf_pos hf).1
  rw [Nat.div_mul_cancel hdvd] at hplaces
  refine ⟨?_, hplaces, fun w hw => ?_⟩
  · simp only [dequantizeInto, Base.bind_ok, orBail_ok, bailIf_ok, not_not, formatOf_layout ar hf, hf]
    exact ⟨_, rfl, (), hkind, (), hdvd, (), hneeded, rfl⟩
  · obtain ⟨b, p, x, -, hplace, hx, hvalue⟩ := hvalues w hw
    exact ⟨b, p, x, hplace, hx, hvalue⟩

end Hocmesh.Engine
