/-
A GGUF header, written and read back.

`Header` is what a converter writes: typed entries, strings and nested arrays among them, and tensor records, within the
limits the reader has. `Header.write` is its bytes. Each read takes exactly the bytes of what it reads (`reads_pairHead`,
`reads_skip`, `reads_tensor`), so what follows is found where it stands, and the accessors return what was written
(`read_write`).
-/
import Hocmesh.Model.Cut

namespace Hocmesh.Model

open Hocmesh.Base Walk

/-! ## Headers -/

inductive Value where
  | u8 (v : UInt8)
  | i8 (v : Int8)
  | u16 (v : UInt16)
  | i16 (v : Int16)
  | u32 (v : UInt32)
  | i32 (v : Int32)
  | f32 (bits : UInt32)
  | bool (v : Bool)
  | string (v : String)
  | array (element : ValueType) (items : List Value)
  | u64 (v : UInt64)
  | i64 (v : Int64)
  | f64 (bits : UInt64)

def ValueType.code : ValueType → ℕ
  | .u8 => 0
  | .i8 => 1
  | .u16 => 2
  | .i16 => 3
  | .u32 => 4
  | .i32 => 5
  | .f32 => 6
  | .bool => 7
  | .string => 8
  | .array => 9
  | .u64 => 10
  | .i64 => 11
  | .f64 => 12

@[simp] theorem ValueType.fromCode_code (vt : ValueType) : ValueType.fromCode vt.code = .ok vt := by cases vt <;> rfl

theorem ValueType.code_lt (vt : ValueType) : vt.code < 256 ^ 4 := by cases vt <;> decide

def writeString (s : List UInt8) : List UInt8 := le 8 s.length ++ s

namespace Value

def type : Value → ValueType
  | .u8 _ => .u8
  | .i8 _ => .i8
  | .u16 _ => .u16
  | .i16 _ => .i16
  | .u32 _ => .u32
  | .i32 _ => .i32
  | .f32 _ => .f32
  | .bool _ => .bool
  | .string _ => .string
  | .array _ _ => .array
  | .u64 _ => .u64
  | .i64 _ => .i64
  | .f64 _ => .f64

/-- the bits of a value of fixed width, as a number -/
def bits : Value → ℕ
  | .u8 v => v.toNat
  | .i8 v => v.toBitVec.toNat
  | .u16 v => v.toNat
  | .i16 v => v.toBitVec.toNat
  | .u32 v => v.toNat
  | .i32 v => v.toBitVec.toNat
  | .f32 v => v.toNat
  | .bool v => v.toNat
  | .u64 v => v.toNat
  | .i64 v => v.toBitVec.toNat
  | .f64 v => v.toNat
  | .string _ | .array _ _ => 0

mutual

/-- the bytes of a value, without its type -/
def write : Value → List UInt8
  | .string s => writeString (utf8 s)
  | .array element items => le 4 element.code ++ (le 8 items.length ++ writeAll items)
  | v => le (v.type.fixedWidth.getD 0) v.bits

def writeAll : List Value → List UInt8
  | [] => []
  | v :: items => v.write ++ writeAll items

end

mutual

/-- strings within the limit, and arrays of what they say they are of -/
def wellFormed : Value → Bool
  | .string s => (utf8 s).length ≤ maxStringLen
  | .array element items => allOf element items
  | _ => true

def allOf (element : ValueType) : List Value → Bool
  | [] => true
  | v :: items => v.type = element && v.wellFormed && allOf element items

end

mutual

/-- the frames it takes to step over a value: elements of fixed width are stepped over together -/
def depth : Value → ℕ
  | .array element items => if element.fixedWidth = none then depthAll items + 1 else 1
  | _ => 1

def depthAll : List Value → ℕ
  | [] => 0
  | v :: items => max v.depth (depthAll items)

end

theorem writeAll_eq (items : List Value) : writeAll items = items.flatMap write := by
  induction items with
  | nil => rfl
  | cons v items ih => rw [writeAll, List.flatMap_cons, ih]

theorem allOf_iff (element : ValueType) (items : List Value) :
    allOf element items = true ↔ ∀ v ∈ items, v.type = element ∧ v.wellFormed = true := by
  induction items with
  | nil => simp [allOf]
  | cons v items ih => simp [allOf, ih, and_assoc]

theorem depth_le_depthAll {items : List Value} {v : Value} (h : v ∈ items) : v.depth ≤ depthAll items := by
  induction items with
  | nil => cases h
  | cons w items ih =>
    rw [depthAll]
    rcases List.mem_cons.1 h with rfl | h
    · exact le_max_left _ _
    · exact (ih h).trans (le_max_right _ _)

/-- **Induction on a value**, an array with its elements -/
theorem rec_items {P : Value → Prop} (leaf : ∀ v, v.type ≠ .array → P v)
    (array : ∀ element items, (∀ v ∈ items, P v) → P (.array element items)) (v : Value) : P v := by
  match v with
  | .array element items => exact array element items fun w hw => rec_items leaf array w
  | .u8 v => exact leaf _ (by simp [type])
  | .i8 v => exact leaf _ (by simp [type])
  | .u16 v => exact leaf _ (by simp [type])
  | .i16 v => exact leaf _ (by simp [type])
  | .u32 v => exact leaf _ (by simp [type])
  | .i32 v => exact leaf _ (by simp [type])
  | .f32 v => exact leaf _ (by simp [type])
  | .bool v => exact leaf _ (by simp [type])
  | .string v => exact leaf _ (by simp [type])
  | .u64 v => exact leaf _ (by simp [type])
  | .i64 v => exact leaf _ (by simp [type])
  | .f64 v => exact leaf _ (by simp [type])
termination_by sizeOf v
decreasing_by
  have := List.sizeOf_lt_of_mem hw
  simp
  omega

/-- a value of fixed width is its bits -/
theorem write_fixed {v : Value} {w : ℕ} (h : v.type.fixedWidth = some w) : v.write = le w v.bits := by
  cases v <;> first | (cases h; rfl) | cases h

theorem bits_lt {v : Value} {w : ℕ} (h : v.type.fixedWidth = some w) : v.bits < 256 ^ w := by
  cases v with
  | u8 v => cases h; exact v.toNat_lt
  | i8 v => cases h; exact v.toBitVec.isLt
  | u16 v => cases h; exact v.toNat_lt
  | i16 v => cases h; exact v.toBitVec.isLt
  | u32 v => cases h; exact v.toNat_lt
  | i32 v => cases h; exact v.toBitVec.isLt
  | f32 v => cases h; exact v.toNat_lt
  | bool v => cases h; cases v <;> decide
  | string v => cases h
  | array element items => cases h
  | u64 v => cases h; exact v.toNat_lt
  | i64 v => cases h; exact v.toBitVec.isLt
  | f64 v => cases h; exact v.toNat_lt

theorem length_write_item {items : List Value} {v : Value} (h : v ∈ items) : v.write.length ≤ (writeAll items).length := by
  rw [writeAll_eq, List.length_flatMap]
  exact List.le_sum_of_mem (List.mem_map_of_mem h)

theorem length_writeAll_fixed {element : ValueType} {items : List Value} {w : ℕ} (hw : element.fixedWidth = some w)
    (h : ∀ v ∈ items, v.type = element) : (writeAll items).length = items.length * w := by
  induction items with
  | nil => simp [writeAll]
  | cons v items ih =>
    have hv : v.type.fixedWidth = some w := by rw [h v List.mem_cons_self, hw]
    rw [writeAll, List.length_append, ih fun u hu => h u (List.mem_cons_of_mem _ hu), write_fixed hv, length_le,
      List.length_cons, Nat.add_mul]
    omega

theorem depth_pos (v : Value) : 0 < v.depth := by
  cases v with
  | array element items =>
    rw [depth]
    split_ifs <;> omega
  | _ => exact Nat.one_pos

theorem write_pos (v : Value) : 0 < v.write.length := by
  cases v <;> simp [write, writeString, type, ValueType.fixedWidth]

/-- every level of nesting is written -/
theorem depth_le_length (v : Value) : v.depth ≤ v.write.length := by
  induction v using rec_items with
  | leaf v hv =>
    have hpos := v.write_pos
    cases v <;> first | exact hpos | exact absurd rfl hv
  | array element items ih =>
    have hall : depthAll items ≤ (writeAll items).length := by
      clear * - ih
      induction items with
      | nil => exact Nat.zero_le _
      | cons v items ih' =>
        have h1 := ih v List.mem_cons_self
        have h2 := ih' fun u hu => ih u (List.mem_cons_of_mem _ hu)
        rw [depthAll, writeAll, List.length_append]
        exact max_le (by omega) (by omega)
    rw [depth, write, List.length_append, List.length_append, length_le, length_le]
    split_ifs <;> omega

theorem length_items_le (items : List Value) : items.length ≤ (writeAll items).length := by
  induction items with
  | nil => exact le_rfl
  | cons v items ih =>
    have := v.write_pos
    rw [writeAll, List.length_append, List.length_cons]
    omega

end Value

/-! ## Reading what was written -/

theorem reads_string {s : List UInt8} (h : s.length ≤ maxStringLen) : Reads Reader.string s (writeString s) := by
  have hlt : s.length < 256 ^ 8 := lt_of_le_of_lt h (by decide)
  refine (Reads.word hlt).bind ?_
  rw [if_neg (by omega)]
  exact Reads.take rfl

theorem reads_skipBytes {n : ℕ} {e : List UInt8} (h : e.length = n) : Reads (Reader.skip n) () e :=
  (Reads.take h).bind_pure

/-- **Stepping over a value** takes its bytes, on as many frames as it is deep. -/
theorem reads_skip (v : Value) (stack : ℕ) (hdepth : v.depth ≤ stack) (hok : v.wellFormed = true)
    (hlen : v.write.length < 2 ^ 64) : Reads (skipValue stack v.type) () v.write := by
  induction v using Value.rec_items generalizing stack with
  | leaf v hv =>
    obtain ⟨stack, rfl⟩ : ∃ m, stack = m + 1 := ⟨stack - 1, by have := v.depth_pos; omega⟩
    cases hw : v.type.fixedWidth with
    | some w =>
      have hskip : skipValue (stack + 1) v.type = Reader.skip w := by
        unfold skipValue
        split
        · cases v <;> cases hw <;> contradiction
        · contradiction
        · rw [hw, Option.getD_some]
      rw [hskip, Value.write_fixed hw]
      exact reads_skipBytes (length_le w v.bits)
    | none =>
      cases v with
      | string s =>
        have hs : (utf8 s).length ≤ maxStringLen := by simpa [Value.wellFormed] using hok
        exact (reads_string hs).bind_pure
      | array element items => exact absurd rfl hv
      | _ => cases hw
  | array element items ih =>
    rw [Value.wellFormed, Value.allOf_iff] at hok
    rw [Value.write, List.length_append, List.length_append, length_le, length_le] at hlen
    have hcount := Value.length_items_le items
    obtain ⟨stack, rfl⟩ : ∃ m, stack = m + 1 := ⟨stack - 1, by have := (Value.array element items).depth_pos; omega⟩
    rw [Value.type, Value.write]
    unfold skipValue
    refine (Reads.word element.code_lt).bind ?_
    rw [ValueType.fromCode_code]
    refine (Reads.word (by omega : items.length < 256 ^ 8)).bind ?_
    cases hw : element.fixedWidth with
    | some w =>
      have hbytes := Value.length_writeAll_fixed hw fun v hv => (hok v hv).1
      refine reads_skipBytes ?_
      rw [saturatingMul, hbytes, min_eq_left (by omega)]
    | none =>
      rw [Value.depth, if_pos hw] at hdepth
      have hitem : ∀ v ∈ items, Reads (skipValue stack element) () v.write := by
        intro v hv
        have hdeep := Value.depth_le_depthAll hv
        have hshort := Value.length_write_item hv
        rw [← (hok v hv).1]
        exact ih v hv stack (by omega) (hok v hv).2 (by omega)
      have htimes := Reads.times (fun _ => ()) Value.write items hitem
      rw [Value.writeAll_eq]
      exact htimes.bind_pure

/-! ## The header -/

/-- what a converter writes, within the limits of the reader -/
structure Header where
  version : ℕ
  pairs : List (String × Value)
  tensors : List TensorInfo
  version_known : version = 2 ∨ version = 3
  pairs_few : pairs.length ≤ maxKvPairs
  pairs_ok : ∀ p ∈ pairs, (utf8 p.1).length ≤ maxStringLen ∧ p.2.wellFormed = true
  tensors_few : tensors.length ≤ maxTensors
  tensors_ok : ∀ t ∈ tensors, (utf8 t.name).length ≤ maxStringLen ∧ t.dimensions.length ≤ maxDimensions ∧
    (∀ d ∈ t.dimensions, d < 2 ^ 64) ∧ t.kind < 2 ^ 32 ∧ t.offset < 2 ^ 64
  /-- an alignment, where one is declared, is a power of two -/
  aligned : ∀ p ∈ pairs, p.1 = alignmentKey → ∀ v, p.2 = .u32 v → isPowerOfTwo v.toNat

def writeHead (p : String × Value) : List UInt8 := writeString (utf8 p.1) ++ le 4 p.2.type.code

def writePair (p : String × Value) : List UInt8 := writeHead p ++ p.2.write

def TensorInfo.write (t : TensorInfo) : List UInt8 :=
  writeString (utf8 t.name) ++ (le 4 t.dimensions.length ++ (t.dimensions.flatMap (le 8) ++ (le 4 t.kind ++ le 8 t.offset)))

/-- the alignment an entry leaves behind -/
def alignmentAfter (alignment : ℕ) (p : String × Value) : ℕ :=
  if p.1 = alignmentKey then
    match p.2 with
    | .u32 v => v.toNat
    | _ => alignment
  else alignment

namespace Header

variable (h : Header)

def write : List UInt8 :=
  magic ++ (le 4 h.version ++ (le 8 h.tensors.length ++ (le 8 h.pairs.length ++
    (h.pairs.flatMap writePair ++ h.tensors.flatMap TensorInfo.write))))

/-- the alignment declared, or the default -/
def alignment : ℕ := h.pairs.foldl alignmentAfter defaultAlignment

/-- the value of the first entry with this key -/
def value? (key : String) : Option Value := (h.pairs.find? fun p => p.1 = key).map Prod.snd

end Header

/-- a value as a count -/
def Value.count : Value → Option ℕ
  | .u8 v => some v.toNat
  | .u16 v => some v.toNat
  | .u32 v => some v.toNat
  | .u64 v => some v.toNat
  | .i8 v => if 0 ≤ v.toInt then some v.toInt.toNat else none
  | .i16 v => if 0 ≤ v.toInt then some v.toInt.toNat else none
  | .i32 v => if 0 ≤ v.toInt then some v.toInt.toNat else none
  | .i64 v => if 0 ≤ v.toInt then some v.toInt.toNat else none
  | .bool v => some v.toNat
  | .f32 _ | .f64 _ | .string _ | .array _ _ => none

theorem reads_preamble {version : ℕ} (h : version = 2 ∨ version = 3) : Reads preamble () (magic ++ le 4 version) := by
  have hversion : version < 256 ^ 4 := by rcases h with rfl | rfl <;> decide
  refine ((Reads.take (by decide)).orRefuse _).bind ?_
  refine (Reads.refuseIf (by simp) _).bind (f := fun _ => _) ?_
  exact ((Reads.word hversion).orRefuse _).bind_end (Reads.refuseIf (by omega) _)

theorem reads_pairCount {n : ℕ} (h : n ≤ maxKvPairs) : Reads pairCount n (le 8 n) := by
  have hn : n < 256 ^ 8 := lt_of_le_of_lt h (by decide)
  refine (Reads.word hn).bind_end ?_
  exact (Reads.refuseIf (by omega) _).bind_end (Reads.pure n)

theorem reads_pairHead {p : String × Value} (h : (utf8 p.1).length ≤ maxStringLen) :
    Reads pairHead (utf8 p.1, p.2.type) (writeHead p) := by
  refine (reads_string h).bind ?_
  refine (Reads.word p.2.type.code_lt).bind_end ?_
  rw [ValueType.fromCode_code]
  exact (Reads.pure p.2.type).bind_end (Reads.pure _)

/-! ## Tensor records -/

theorem reads_tensor {t : TensorInfo} (hname : (utf8 t.name).length ≤ maxStringLen)
    (hdims : t.dimensions.length ≤ maxDimensions) (hsizes : ∀ d ∈ t.dimensions, d < 2 ^ 64) (hkind : t.kind < 2 ^ 32)
    (hoffset : t.offset < 2 ^ 64) : Reads readTensor t t.write := by
  have hcount : t.dimensions.length < 256 ^ 4 := lt_of_le_of_lt hdims (by decide)
  have hsizes' : Reads (times t.dimensions.length Reader.u64) (t.dimensions.map id) (t.dimensions.flatMap (le 8)) :=
    Reads.times id (le 8) t.dimensions fun d hd => Reads.word (hsizes d hd)
  rw [List.map_id] at hsizes'
  refine (reads_string hname).bind ?_
  refine (Reads.word hcount).bind ?_
  refine (Reads.refuseIf (by omega) _).bind (f := fun _ => _) ?_
  refine hsizes'.bind ?_
  refine (Reads.word hkind).bind ?_
  refine (Reads.word hoffset).bind_end ?_
  rw [fromUtf8Lossy_utf8]
  exact Reads.pure t

/-! ## Entries -/

section

variable {skip : ValueType → Walk Unit}

/-- the entries, for the alignment: each is stepped over, or is the alignment -/
theorem reads_walkPairs (pairs : List (String × Value)) (alignment : ℕ)
    (hkey : ∀ p ∈ pairs, (utf8 p.1).length ≤ maxStringLen) (hskip : ∀ p ∈ pairs, Reads (skip p.2.type) () p.2.write)
    (haligned : ∀ p ∈ pairs, p.1 = alignmentKey → ∀ v, p.2 = .u32 v → isPowerOfTwo v.toNat) :
    Reads (walkPairs skip pairs.length alignment) (pairs.foldl alignmentAfter alignment) (pairs.flatMap writePair) := by
  induction pairs generalizing alignment with
  | nil => exact Reads.pure alignment
  | cons p pairs ih =>
    have hrest := fun a => ih a (fun q hq => hkey q (List.mem_cons_of_mem _ hq))
      (fun q hq => hskip q (List.mem_cons_of_mem _ hq)) (fun q hq => haligned q (List.mem_cons_of_mem _ hq))
    rw [List.flatMap_cons, writePair, List.append_assoc]
    refine (reads_pairHead (hkey p List.mem_cons_self)).bind ?_
    dsimp only
    by_cases hdeclares : utf8 p.1 = utf8 alignmentKey ∧ p.2.type = .u32
    · rw [if_pos hdeclares]
      have hname : p.1 = alignmentKey := utf8_inj.1 hdeclares.1
      obtain ⟨v, hv⟩ : ∃ v, p.2 = .u32 v := by
        have htype := hdeclares.2
        cases hp : p.2 <;> rw [hp] at htype <;> first | exact ⟨_, rfl⟩ | cases htype
      have hpower := haligned p List.mem_cons_self hname v hv
      have hafter : alignmentAfter alignment p = v.toNat := by
        simp only [alignmentAfter, if_pos hname, hv]
      have hwrite : p.2.write = le 4 v.toNat := by rw [hv]; rfl
      have hzero : v.toNat ≠ 0 := by
        intro h0
        rw [isPowerOfTwo, h0] at hpower
        revert hpower
        decide
      rw [hwrite, List.foldl_cons, hafter]
      refine (Reads.word v.toNat_lt).bind ?_
      refine (Reads.refuseIf (by simp [hzero, hpower]) _).bind (f := fun _ => _) ?_
      exact hrest v.toNat
    · rw [if_neg hdeclares]
      have hafter : alignmentAfter alignment p = alignment := by
        unfold alignmentAfter
        split_ifs with hname
        · split
          · rename_i v hv
            refine absurd ⟨by rw [hname], ?_⟩ hdeclares
            rw [hv]
            rfl
          · rfl
        · rfl
      rw [List.foldl_cons, hafter]
      exact (hskip p List.mem_cons_self).bind (f := fun _ => _) (hrest alignment)

variable {α : Type} {key : String} {read : ValueType → Walk α}

/-- the entries, for a key that none of them has -/
theorem reads_findPair_none (pairs : List (String × Value)) (hkey : ∀ p ∈ pairs, (utf8 p.1).length ≤ maxStringLen)
    (hskip : ∀ p ∈ pairs, Reads (skip p.2.type) () p.2.write) (hne : ∀ p ∈ pairs, p.1 ≠ key) :
    Reads (findPair skip key read pairs.length) none (pairs.flatMap writePair) := by
  induction pairs with
  | nil => exact Reads.pure none
  | cons p pairs ih =>
    have hrest := ih (fun q hq => hkey q (List.mem_cons_of_mem _ hq)) (fun q hq => hskip q (List.mem_cons_of_mem _ hq))
      (fun q hq => hne q (List.mem_cons_of_mem _ hq))
    rw [List.flatMap_cons, writePair, List.append_assoc]
    refine (reads_pairHead (hkey p List.mem_cons_self)).bind ?_
    dsimp only
    rw [if_neg fun h => hne p List.mem_cons_self (utf8_inj.1 h)]
    exact (hskip p List.mem_cons_self).bind (f := fun _ => _) hrest

variable (skip read) in
/-- the entries, up to the value of the first that has the key: what is done with it is done where it stands -/
theorem go_findPair_some (pre : List (String × Value)) (v : Value) (n : ℕ)
    (hkey : ∀ p ∈ pre, (utf8 p.1).length ≤ maxStringLen) (hskip : ∀ p ∈ pre, Reads (skip p.2.type) () p.2.write)
    (hne : ∀ p ∈ pre, p.1 ≠ key) (hlen : (utf8 key).length ≤ maxStringLen) (before after : List UInt8) :
    (findPair skip key read (pre.length + (n + 1))).go
        (before ++ (pre.flatMap writePair ++ writeHead (key, v)) ++ after) before.length =
      (do
        let a ← read v.type
        pure (some a)).go (before ++ (pre.flatMap writePair ++ writeHead (key, v)) ++ after)
        (before ++ (pre.flatMap writePair ++ writeHead (key, v))).length := by
  induction pre generalizing before with
  | nil =>
    simp only [List.length_nil, List.flatMap_nil, List.nil_append, findPair]
    rw [bind_of_done (reads_pairHead (p := (key, v)) hlen before after)]
    dsimp only
    rw [if_pos rfl]
  | cons p pre ih =>
    have hhead := reads_pairHead (hkey p List.mem_cons_self)
    have hvalue := hskip p List.mem_cons_self
    have hrest := ih (fun q hq => hkey q (List.mem_cons_of_mem _ hq)) (fun q hq => hskip q (List.mem_cons_of_mem _ hq))
      (fun q hq => hne q (List.mem_cons_of_mem _ hq)) (before ++ writeHead p ++ p.2.write)
    have hbytes : before ++ ((p :: pre).flatMap writePair ++ writeHead (key, v)) ++ after =
        before ++ writeHead p ++ (p.2.write ++ (pre.flatMap writePair ++ writeHead (key, v)) ++ after) := by
      simp [writePair]
    have hbytes' : before ++ writeHead p ++ (p.2.write ++ (pre.flatMap writePair ++ writeHead (key, v)) ++ after) =
        before ++ writeHead p ++ p.2.write ++ (pre.flatMap writePair ++ writeHead (key, v)) ++ after := by simp
    have hstop : before ++ ((p :: pre).flatMap writePair ++ writeHead (key, v)) =
        before ++ writeHead p ++ p.2.write ++ (pre.flatMap writePair ++ writeHead (key, v)) := by simp [writePair]
    rw [List.length_cons, Nat.add_right_comm, findPair, hbytes, bind_of_done (hhead before _)]
    dsimp only
    rw [if_neg fun h => hne p List.mem_cons_self (utf8_inj.1 h), hbytes', List.append_assoc (before ++ writeHead p ++ p.2.write),
      bind_of_done (hvalue (before ++ writeHead p) _), ← List.append_assoc (before ++ writeHead p ++ p.2.write), hrest, hstop]

end

/-! ## Scalars -/

theorem reads_scalar (fc : FloatCast) {v : Value} {w : ℕ} (hw : v.type.fixedWidth = some w) :
    Reads (readScalar fc v.type) (v.type.scalar fc v.bits) v.write := by
  simp only [readScalar, hw]
  rw [Value.write_fixed hw]
  exact (Reads.word (Value.bits_lt hw)).bind_pure

theorem signed_toInt {w : ℕ} (x : BitVec w) (n : ℕ) (h : 256 ^ n = 2 ^ w) : signed n x.toNat = x.toInt := by
  rw [signed, BitVec.toInt_eq_toNat_bmod, ← h]

/-- what `metadata_u64` makes of the bits of a value is its count -/
theorem asCount_scalar (fc : FloatCast) (v : Value) :
    (v.type.scalar fc v.bits).bind asCount = v.count.map Scalar.unsigned := by
  have hsigned : ∀ z : ℤ, asCount (.signed z) = (if 0 ≤ z then some z.toNat else none).map Scalar.unsigned := by
    intro z
    rw [asCount]
    split_ifs <;> rfl
  cases v with
  | i8 v =>
    have hv : signed 1 (Value.i8 v).bits = v.toInt := signed_toInt v.toBitVec 1 (by norm_num)
    rw [Value.type, ValueType.scalar, hv]
    exact hsigned v.toInt
  | i16 v =>
    have hv : signed 2 (Value.i16 v).bits = v.toInt := signed_toInt v.toBitVec 2 (by norm_num)
    rw [Value.type, ValueType.scalar, hv]
    exact hsigned v.toInt
  | i32 v =>
    have hv : signed 4 (Value.i32 v).bits = v.toInt := signed_toInt v.toBitVec 4 (by norm_num)
    rw [Value.type, ValueType.scalar, hv]
    exact hsigned v.toInt
  | i64 v =>
    have hv : signed 8 (Value.i64 v).bits = v.toInt := signed_toInt v.toBitVec 8 (by norm_num)
    rw [Value.type, ValueType.scalar, hv]
    exact hsigned v.toInt
  | bool v => cases v <;> rfl
  | _ => rfl

/-! ## The whole header -/

section

variable (h : Header) (rest : List UInt8)

/-- the bytes before the entries -/
def Header.front : List UInt8 := magic ++ le 4 h.version ++ (le 8 h.tensors.length ++ le 8 h.pairs.length)

theorem Header.write_eq : h.write = h.front ++ (h.pairs.flatMap writePair ++ h.tensors.flatMap TensorInfo.write) := by
  simp [Header.write, Header.front]

theorem length_pair_le {p : String × Value} (hp : p ∈ h.pairs) : p.2.write.length ≤ (h.write ++ rest).length := by
  have hpair : (writePair p).length ≤ (h.pairs.flatMap writePair).length := by
    rw [List.length_flatMap]
    exact List.le_sum_of_mem (List.mem_map_of_mem hp)
  rw [writePair, List.length_append] at hpair
  rw [Header.write_eq]
  simp only [List.length_append]
  omega

variable {h rest}

theorem reads_skip_pair (hlen : (h.write ++ rest).length < 2 ^ 63) {p : String × Value} (hp : p ∈ h.pairs) :
    Reads (skipValue ((h.write ++ rest).length + 1) p.2.type) () p.2.write := by
  have hle := length_pair_le h rest hp
  have hdepth := p.2.depth_le_length
  exact reads_skip p.2 _ (by omega) (h.pairs_ok p hp).2 (by omega)

theorem Header.tensors_lt : h.tensors.length < 256 ^ 8 := lt_of_le_of_lt h.tensors_few (by decide)

variable {α : Type} {skip : ValueType → Walk Unit} {key : String} {read : ValueType → Walk α}

/-- the entries are searched from where they start -/
theorem go_findKey :
    (findKey skip key read).go (h.write ++ rest) 0 =
      (findPair skip key read h.pairs.length).go
        (h.front ++ h.pairs.flatMap writePair ++ (h.tensors.flatMap TensorInfo.write ++ rest)) h.front.length := by
  have hfront : Reads (do
      preamble
      let _ ← Reader.u64
      pairCount) h.pairs.length h.front :=
    (reads_preamble h.version_known).bind ((Reads.word Header.tensors_lt).bind (reads_pairCount h.pairs_few))
  have hbytes : h.write ++ rest =
      [] ++ h.front ++ (h.pairs.flatMap writePair ++ (h.tensors.flatMap TensorInfo.write ++ rest)) := by
    simp [Header.write_eq]
  have hwalk : findKey skip key read = (do
      preamble
      let _ ← Reader.u64
      pairCount) >>= findPair skip key read := by
    simp only [findKey, findKeyBody, Walk.bind_assoc]
  have hgo := hfront [] (h.pairs.flatMap writePair ++ (h.tensors.flatMap TensorInfo.write ++ rest))
  rw [List.length_nil] at hgo
  rw [hwalk, hbytes, bind_of_done hgo]
  simp

theorem go_findKey_none (hskip : ∀ p ∈ h.pairs, Reads (skip p.2.type) () p.2.write) (hvalue : h.value? key = none) :
    ∃ i, (findKey skip key read).go (h.write ++ rest) 0 = .done (none, i) := by
  have hne : ∀ p ∈ h.pairs, p.1 ≠ key := by
    simpa [Header.value?] using hvalue
  rw [go_findKey]
  exact ⟨_, reads_findPair_none h.pairs (fun p hp => (h.pairs_ok p hp).1) hskip hne h.front _⟩

/-- the first entry with the key is read where its value stands -/
theorem go_findKey_some (hskip : ∀ p ∈ h.pairs, Reads (skip p.2.type) () p.2.write) {v : Value}
    (hvalue : h.value? key = some v) :
    ∃ before after, (findKey skip key read).go (h.write ++ rest) 0 =
      (do
        let a ← read v.type
        pure (some a)).go (before ++ v.write ++ after) before.length := by
  obtain ⟨⟨k, v'⟩, hfind, hsnd⟩ := Option.map_eq_some_iff.1 hvalue
  obtain rfl : v' = v := hsnd
  obtain ⟨hk, pre, post, hpairs, hpre⟩ := List.find?_eq_some_iff_append.1 hfind
  obtain rfl : k = key := by simpa using hk
  have hmem : (k, v') ∈ h.pairs := by simp [hpairs]
  have hin : ∀ p ∈ pre, p ∈ h.pairs := fun p hp => by simp [hpairs, hp]
  have hgo := go_findPair_some skip read pre v' post.length
    (fun p hp => (h.pairs_ok p (hin p hp)).1) (fun p hp => hskip p (hin p hp))
    (fun p hp heq => by simpa [heq] using hpre p hp) (h.pairs_ok _ hmem).1 h.front
    (v'.write ++ (post.flatMap writePair ++ (h.tensors.flatMap TensorInfo.write ++ rest)))
  refine ⟨h.front ++ (pre.flatMap writePair ++ writeHead (k, v')),
    post.flatMap writePair ++ (h.tensors.flatMap TensorInfo.write ++ rest), ?_⟩
  have hbytes : h.front ++ h.pairs.flatMap writePair ++ (h.tensors.flatMap TensorInfo.write ++ rest) =
      h.front ++ (pre.flatMap writePair ++ writeHead (k, v')) ++
        (v'.write ++ (post.flatMap writePair ++ (h.tensors.flatMap TensorInfo.write ++ rest))) := by
    simp [hpairs, writePair]
  have hcount : h.pairs.length = pre.length + (post.length + 1) := by simp [hpairs]
  rw [go_findKey, hbytes, hcount, hgo, List.append_assoc (h.front ++ (pre.flatMap writePair ++ writeHead (k, v')))]

theorem string_write (hskip : ∀ p ∈ h.pairs, Reads (skip p.2.type) () p.2.write) :
    (metadataString skip key).run (h.write ++ rest) = match h.value? key with
      | none => .done none
      | some (.string s) => .done (some s)
      | some _ => .refused s!"GGUF key {key} is not a string" := by
  rw [metadataString, Walk.run]
  cases hvalue : h.value? key with
  | none =>
    obtain ⟨i, hgo⟩ := go_findKey_none hskip hvalue
    rw [hgo]
  | some v =>
    obtain ⟨before, after, hgo⟩ := go_findKey_some hskip hvalue
    have hok : v.wellFormed = true := by
      obtain ⟨p, hfind, rfl⟩ := Option.map_eq_some_iff.1 hvalue
      exact (h.pairs_ok p (List.mem_of_find?_eq_some hfind)).2
    rw [hgo]
    cases v with
    | string s =>
      have hs : (utf8 s).length ≤ maxStringLen := by simpa [Value.wellFormed] using hok
      have hread : Reads (stringValue key ValueType.string) s (Value.string s).write := by
        have := (reads_string hs).bind_pure (f := fromUtf8Lossy)
        rwa [fromUtf8Lossy_utf8] at this
      rw [Value.type, hread.bind_pure before after]
    | _ => rfl

/-- a value is read as its count, or refused where it has none -/
theorem scalarValue_write (fc : FloatCast) (key : String) (v : Value) (before after : List UInt8) :
    (∃ n j, v.count = some n ∧
      (scalarValue fc key asCount v.type).go (before ++ v.write ++ after) before.length = .done (.unsigned n, j)) ∨
    (v.count = none ∧
      ∃ e, (scalarValue fc key asCount v.type).go (before ++ v.write ++ after) before.length = .refused e) := by
  have hcount := asCount_scalar fc v
  rw [scalarValue_eq]
  cases hw : v.type.fixedWidth with
  | some w =>
    rw [bind_of_done ((reads_scalar fc hw).orRefuse _ before after)]
    cases hscalar : v.type.scalar fc v.bits with
    | none =>
      rw [hscalar] at hcount
      right
      exact ⟨Option.map_eq_none_iff.1 hcount.symm, _, rfl⟩
    | some scalar =>
      rw [hscalar, Option.bind_some] at hcount
      cases hn : v.count with
      | none =>
        rw [hn] at hcount
        right
        refine ⟨rfl, s!"GGUF key {key} holds {scalar.debug fc}, which does not fit", ?_⟩
        simp only [judge, hcount]
        rfl
      | some n =>
        rw [hn] at hcount
        left
        refine ⟨n, (before ++ v.write).length, rfl, ?_⟩
        simp only [judge, hcount]
        rfl
  | none =>
    right
    have hread : (orRefuse (readScalar fc v.type) s!"GGUF key {key} is not a number").go (before ++ v.write ++ after)
        before.length = .done (none, before.length) := by
      simp only [orRefuse, readScalar, hw]
      rfl
    have hnone : v.count = none := by
      cases v <;> first | rfl | cases hw
    refine ⟨hnone, s!"GGUF key {key} is not a number", ?_⟩
    rw [bind_of_done hread]
    rfl

theorem count_write (fc : FloatCast) (hskip : ∀ p ∈ h.pairs, Reads (skip p.2.type) () p.2.write) :
    match h.value? key with
    | none => (metadataU64 skip fc key).run (h.write ++ rest) = .done none
    | some v => match v.count with
      | some n => (metadataU64 skip fc key).run (h.write ++ rest) = .done (some n)
      | none => ∃ e, (metadataU64 skip fc key).run (h.write ++ rest) = .refused e := by
  unfold metadataU64 findScalar
  cases hvalue : h.value? key with
  | none =>
    obtain ⟨i, hgo⟩ : ∃ i, (findKey skip key (scalarValue fc key asCount)).go (h.write ++ rest) 0 = .done (none, i) :=
      go_findKey_none hskip hvalue
    dsimp only
    rw [Walk.run, bind_of_done hgo]
    rfl
  | some v =>
    obtain ⟨before, after, hgo⟩ : ∃ before after,
        (findKey skip key (scalarValue fc key asCount)).go (h.write ++ rest) 0 =
          (do
            let a ← scalarValue fc key asCount v.type
            pure (some a)).go (before ++ v.write ++ after) before.length := go_findKey_some hskip hvalue
    rcases scalarValue_write fc key v before after with ⟨n, j, hn, hread⟩ | ⟨hn, e, hread⟩
    · rw [bind_of_done hread] at hgo
      simp only [hn]
      rw [Walk.run, bind_of_done hgo]
      rfl
    · rw [bind_apply, hread] at hgo
      simp only [hn]
      refine ⟨e, ?_⟩
      rw [Walk.run, bind_apply, hgo]

/-- the next multiple, where it fits -/
theorem alignUp_spec {value alignment : ℕ} (ha : 0 < alignment) (hfit : value + alignment ≤ 2 ^ 64) :
    ∃ d, alignUp value alignment = some d ∧ alignment ∣ d ∧ value ≤ d ∧ d < value + alignment := by
  unfold alignUp
  by_cases hone : alignment ≤ 1
  · obtain rfl : alignment = 1 := by omega
    exact ⟨value, by simp, one_dvd _, le_rfl, by omega⟩
  · rw [if_neg hone]
    by_cases hzero : value % alignment = 0
    · exact ⟨value, by simp [hzero], Nat.dvd_of_mod_eq_zero hzero, le_rfl, by omega⟩
    · have hlt := Nat.mod_lt value ha
      have hdvd : alignment ∣ value + (alignment - value % alignment) := by
        refine ⟨value / alignment + 1, ?_⟩
        have := Nat.div_add_mod value alignment
        rw [Nat.mul_add, Nat.mul_one]
        omega
      refine ⟨value + (alignment - value % alignment), ?_, hdvd, by omega, by omega⟩
      simp only [if_neg hzero]
      rw [if_pos (by omega)]

theorem Header.alignment_bounds : 0 < h.alignment ∧ h.alignment < 2 ^ 32 := by
  have hfold : ∀ (pairs : List (String × Value)) (a : ℕ), (0 < a ∧ a < 2 ^ 32) → (∀ p ∈ pairs, p ∈ h.pairs) →
      0 < pairs.foldl alignmentAfter a ∧ pairs.foldl alignmentAfter a < 2 ^ 32 := by
    intro pairs
    induction pairs with
    | nil => exact fun a ha _ => ha
    | cons p pairs ih =>
      intro a ha hmem
      refine ih _ ?_ fun q hq => hmem q (List.mem_cons_of_mem _ hq)
      unfold alignmentAfter
      split_ifs with hname
      · split
        · rename_i v hv
          have hpower := h.aligned p (hmem p List.mem_cons_self) hname v hv
          refine ⟨Nat.pos_of_ne_zero ?_, v.toNat_lt⟩
          intro h0
          rw [isPowerOfTwo, h0] at hpower
          revert hpower
          decide
        · exact ha
      · exact ha
  exact hfold h.pairs defaultAlignment (by decide) fun p hp => hp

variable (skip) in
/-- `tensor_directory` up to the position the records end at -/
def directoryFront : Walk (ℕ × List TensorInfo) := do
  preamble
  let tensorCount ← Reader.u64
  refuseIf (maxTensors < tensorCount) s!"GGUF header claims {tensorCount} tensors, which is not plausible"
  let pairs ← pairCount
  let alignment ← walkPairs skip pairs defaultAlignment
  let tensors ← times tensorCount readTensor
  pure (alignment, tensors)

def directoryEnd (r : ℕ × List TensorInfo) : Walk (Option TensorDirectory) := do
  let stop ← position
  match alignUp stop r.1 with
  | none => refuse "GGUF tensor data would start past the end of a 64-bit file"
  | some dataStart => pure (some ⟨r.1, dataStart, r.2⟩)

theorem tensorDirectory_eq : tensorDirectory skip = directoryFront skip >>= directoryEnd := by
  simp only [tensorDirectory, directoryBody, directoryFront, Walk.bind_assoc]
  rfl

theorem reads_directoryFront (hskip : ∀ p ∈ h.pairs, Reads (skip p.2.type) () p.2.write) :
    Reads (directoryFront skip) (h.alignment, h.tensors) h.write := by
  have htensors : Reads (times h.tensors.length readTensor) (h.tensors.map id) (h.tensors.flatMap TensorInfo.write) :=
    Reads.times id TensorInfo.write h.tensors fun t ht => by
      obtain ⟨h1, h2, h3, h4, h5⟩ := h.tensors_ok t ht
      exact reads_tensor h1 h2 h3 h4 h5
  rw [List.map_id] at htensors
  have hpairs := reads_walkPairs h.pairs defaultAlignment (fun p hp => (h.pairs_ok p hp).1) hskip h.aligned
  rw [Header.write, ← List.append_assoc]
  refine (reads_preamble h.version_known).bind (f := fun _ => _) ?_
  refine (Reads.word Header.tensors_lt).bind ?_
  refine (Reads.refuseIf (Nat.not_lt.2 h.tensors_few) _).bind (f := fun _ => _) ?_
  exact (reads_pairCount h.pairs_few).bind (hpairs.bind htensors.bind_pure)

theorem directory_write (hskip : ∀ p ∈ h.pairs, Reads (skip p.2.type) () p.2.write)
    (hlen : (h.write ++ rest).length < 2 ^ 63) :
    ∃ dataStart, (tensorDirectory skip).run (h.write ++ rest) = .done (some ⟨h.alignment, dataStart, h.tensors⟩) ∧
      h.alignment ∣ dataStart ∧ h.write.length ≤ dataStart ∧ dataStart < h.write.length + h.alignment := by
  obtain ⟨hpos, hlt⟩ := h.alignment_bounds
  rw [List.length_append] at hlen
  obtain ⟨d, hd, hdvd, hle, hup⟩ := alignUp_spec hpos (by omega : h.write.length + h.alignment ≤ 2 ^ 64)
  refine ⟨d, ?_, hdvd, hle, hup⟩
  have hgo := reads_directoryFront hskip [] rest
  rw [List.nil_append, List.length_nil] at hgo
  have hend : (directoryEnd (h.alignment, h.tensors)).go (h.write ++ rest) h.write.length =
      .done (some ⟨h.alignment, d, h.tensors⟩, h.write.length) := by
    have hstop : position.go (h.write ++ rest) h.write.length = .done (h.write.length, h.write.length) := rfl
    rw [directoryEnd, bind_of_done hstop]
    simp only [hd]
    rfl
  rw [Walk.run, tensorDirectory_eq, bind_of_done hgo, hend]

end

/-- **Reading undoes writing.** Whatever a header holds and whatever follows it, the directory is the tensors that were
written, the alignment that was declared and the next multiple of it; and a key is read as the value of the first entry
that has it: a text as a text, a count as a count, no entry as none, any other value as an error. -/
theorem read_write (fc : FloatCast) (h : Header) (rest : List UInt8) (hlen : (h.write ++ rest).length < 2 ^ 63) :
    let bytes := h.write ++ rest
    let skip := skipValue (bytes.length + 1)
    (∃ dataStart, (tensorDirectory skip).run bytes = .done (some ⟨h.alignment, dataStart, h.tensors⟩) ∧
      h.alignment ∣ dataStart ∧ h.write.length ≤ dataStart ∧ dataStart < h.write.length + h.alignment) ∧
    (∀ key, (metadataString skip key).run bytes = match h.value? key with
      | none => .done none
      | some (.string s) => .done (some s)
      | some _ => .refused s!"GGUF key {key} is not a string") ∧
    ∀ key, match h.value? key with
      | none => (metadataU64 skip fc key).run bytes = .done none
      | some v => match v.count with
        | some n => (metadataU64 skip fc key).run bytes = .done (some n)
        | none => ∃ e, (metadataU64 skip fc key).run bytes = .refused e := by
  have hskip : ∀ p ∈ h.pairs, Reads (skipValue ((h.write ++ rest).length + 1) p.2.type) () p.2.write :=
    fun p hp => reads_skip_pair hlen hp
  exact ⟨directory_write hskip hlen, fun key => string_write hskip, fun key => count_write fc hskip⟩

/-- a vocabulary of nested arrays, an alignment and a signed count, and one tensor -/
def vocabularyHeader : Header where
  version := 3
  pairs := [("vocabulary", .array .array [.array .string [.string "a", .string "b"], .array .u8 [.u8 1]]),
    ("general.alignment", .u32 64), ("blocks", .i32 7)]
  tensors := [⟨"token_embd.weight", [2, 3], 0, 0⟩]
  version_known := by decide
  pairs_few := by decide
  pairs_ok := by decide +kernel
  tensors_few := by decide
  tensors_ok := by decide +kernel
  aligned := by
    intro p hp _ v hv
    simp only [List.mem_cons, List.not_mem_nil, or_false] at hp
    rcases hp with rfl | rfl | rfl
    · cases hv
    · cases hv
      decide
    · cases hv

/-- the count behind the vocabulary is found, whatever follows the header -/
theorem read_vocabularyHeader :
    let bytes := vocabularyHeader.write ++ [1, 2, 3]
    (metadataU64 (skipValue (bytes.length + 1)) .native "blocks").run bytes = .done (some 7) := by
  have hlen : (vocabularyHeader.write ++ [1, 2, 3]).length < 2 ^ 63 := by decide +kernel
  have hread := (read_write .native vocabularyHeader [1, 2, 3] hlen).2.2 "blocks"
  have hvalue : vocabularyHeader.value? "blocks" = some (.i32 7) := rfl
  rw [hvalue] at hread
  exact hread

end Hocmesh.Model
