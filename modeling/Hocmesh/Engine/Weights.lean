/-
`WeightFile`: a model file opened for reading its tensors.

A file is its bytes. `open` parses the directory out of the first sixteen mebibytes and checks it against the length;
`load` looks a tensor up by name, reads the bytes of its extent and reconstructs them. A `Verdict` tells an error from a
panic, which `load` can end in as well: the values of a tensor are allocated before its data is found to be too short.
What a read returns is a parameter, so that a file can be made to refuse some of them.

`assert_layers_present` is the loader's guard against holes. Whatever directory the file has, a tensor asked for by a stage
whose blocks have passed it is read from one of the spans that are present (`present_of_asserted`).
-/
import Hocmesh.Engine.Config
import Hocmesh.Engine.Reads
import Hocmesh.Model.Store

namespace Hocmesh.Engine

open Hocmesh.Base Hocmesh.Model

/-! ## Errors and panics -/

/-- how a call ends: it returns a value or an error, or it takes the process down -/
inductive Verdict (α : Type) where
  | ok (a : α)
  | error (e : String)
  | panic (why : String)
deriving DecidableEq

namespace Verdict

variable {α β : Type}

protected def bind (x : Verdict α) (f : α → Verdict β) : Verdict β :=
  match x with
  | .ok a => f a
  | .error e => .error e
  | .panic why => .panic why

instance : Monad Verdict where
  pure := .ok
  bind := Verdict.bind

def ofCheck : Check α → Verdict α
  | .ok a => .ok a
  | .error e => .error e

/-- the verdict with a panic taken for an error -/
def toCheck : Verdict α → Check α
  | .ok a => .ok a
  | .error e => .error e
  | .panic why => .error why

@[simp] theorem bind_ok (x : Verdict α) (f : α → Verdict β) (b : β) :
    (x >>= f) = .ok b ↔ ∃ a, x = .ok a ∧ f a = .ok b := by
  cases x with
  | ok a => exact ⟨fun h => ⟨a, rfl, h⟩, fun ⟨_, h, hf⟩ => by cases h; exact hf⟩
  | error e => exact ⟨fun h => (by cases h), fun ⟨_, h, _⟩ => by cases h⟩
  | panic why => exact ⟨fun h => (by cases h), fun ⟨_, h, _⟩ => by cases h⟩

@[simp] theorem ofCheck_ok (x : Check α) (a : α) : ofCheck x = .ok a ↔ x = .ok a := by
  cases x with
  | ok b => simp [ofCheck]
  | error e => simp [ofCheck]

@[simp] theorem toCheck_ok (x : Verdict α) (a : α) : x.toCheck = .ok a ↔ x = .ok a := by
  cases x with
  | ok b => simp [toCheck]
  | error e => simp [toCheck]
  | panic why => simp [toCheck]

end Verdict

/-! ## Reconstruction -/

/-- the GGML types this engine can reconstruct -/
def isSupported (kind : ℕ) : Bool := kind ∈ [0, 1, 2, 3, 6, 7, 8, 10, 11, 12, 13, 14, 30]

/-- the name of a type code, for error messages -/
def typeName : ℕ → String
  | 0 => "F32"
  | 1 => "F16"
  | 2 => "Q4_0"
  | 3 => "Q4_1"
  | 4 | 5 => "a withdrawn Q4_2/Q4_3"
  | 6 => "Q5_0"
  | 7 => "Q5_1"
  | 8 => "Q8_0"
  | 9 => "Q8_1"
  | 10 => "Q2_K"
  | 11 => "Q3_K"
  | 12 => "Q4_K"
  | 13 => "Q5_K"
  | 14 => "Q6_K"
  | 15 => "Q8_K"
  | 24 => "I8"
  | 25 => "I16"
  | 26 => "I32"
  | 27 => "I64"
  | 28 => "F64"
  | 30 => "BF16"
  | n => if (16 ≤ n ∧ n ≤ 23) ∨ n = 29 then "an i-quant" else "an unknown type"

/-- how one stored block of a type is turned into its values, which are as many as the layout says -/
structure BlockDecoder where
  decode : ℕ → List UInt8 → List F32
  length_decode : ∀ kind layout block, blockLayout kind = some layout → (decode kind block).length = layout.elements

section

variable (dec : BlockDecoder)

/-- `dequantize` into `count` values: the blocks one after another -/
def dequantize (kind : ℕ) (data : List UInt8) (count : ℕ) : Check (List F32) := do
  let layout ← orBail (blockLayout kind) s!"GGML type {kind} is not one this build knows"
  bailIf (¬ isSupported kind) (s!"GGML type {typeName kind} ({kind}) is not one this engine can execute; requantise the " ++
    "model to Q4_K, Q5_K, Q6_K, Q2_K, Q3_K, Q8_0, Q4_0, Q4_1, Q5_0, Q5_1, F16, BF16 or F32")
  bailIf (¬ layout.elements ∣ count) s!"{count} elements is not a whole number of {layout.elements}-element blocks"
  let blocks := count / layout.elements
  let needed := blocks * layout.bytes
  bailIf (¬ needed ≤ data.length)
    s!"tensor data is {data.length} bytes, {needed} needed for {count} elements of {typeName kind}"
  pure ((List.range blocks).flatMap fun i => dec.decode kind ((data.drop (i * layout.bytes)).take layout.bytes))

theorem dequantize_length {kind : ℕ} {data : List UInt8} {count : ℕ} {values : List F32}
    (h : dequantize dec kind data count = .ok values) : values.length = count := by
  simp only [dequantize, Base.bind_ok, orBail_ok, bailIf_ok, not_not, pure_ok, exists_const] at h
  obtain ⟨layout, hlayout, -, hdvd, -, rfl⟩ := h
  rw [List.length_flatMap, List.map_congr_left fun i _ => dec.length_decode kind layout _ hlayout, List.map_const',
    List.sum_replicate, List.length_range, smul_eq_mul]
  exact Nat.div_mul_cancel hdvd

theorem elementCount_eq {t : TensorInfo} {n : ℕ} (h : t.elementCount = some n) : n = t.dimensions.prod := by
  have hfold : ∀ (l : List ℕ) (a : ℕ), l.foldlM checkedMul a = some n → n = a * l.prod := by
    intro l
    induction l with
    | nil =>
      intro a ha
      simpa using ha.symm
    | cons x l ih =>
      intro a ha
      rw [List.foldlM_cons] at ha
      obtain ⟨b, hb, hrest⟩ := Option.bind_eq_some_iff.1 ha
      unfold checkedMul at hb
      split_ifs at hb
      obtain rfl := Option.some.inj hb
      rw [ih _ hrest, List.prod_cons, Nat.mul_assoc]
  simpa using hfold t.dimensions 1 h

/-- a tensor of no elements has no bytes -/
theorem elements_pos {d : TensorDirectory} {t : TensorInfo} {fileLen : ℕ} (hkind : isSupported t.kind = true)
    (hlen : 0 < (d.extentOf t fileLen).len) {n : ℕ} (hn : t.elementCount = some n) : 0 < n := by
  by_contra hzero
  obtain rfl : n = 0 := by omega
  obtain ⟨layout, hlayout⟩ : ∃ layout, blockLayout t.kind = some layout := by
    have hall : ∀ k ∈ [0, 1, 2, 3, 6, 7, 8, 10, 11, 12, 13, 14, 30], (blockLayout k).isSome := by decide
    exact Option.isSome_iff_exists.1 (hall t.kind (of_decide_eq_true hkind))
  have hempty : t.dataLen = some 0 := by
    have hdiv : (0 + max layout.elements 1 - 1) / max layout.elements 1 = 0 := Nat.div_eq_of_lt (by omega)
    simp only [TensorInfo.dataLen, hlayout, hn, Option.bind_eq_bind, Option.bind_some, hdiv, checkedMul, Nat.zero_mul]
    norm_num
  unfold ByteExtent.len TensorDirectory.extentOf at hlen
  simp only [hempty, saturatingAdd] at hlen
  omega

/-! ## One tensor -/

/-- the result of a check, with the fact that it is -/
def attested {α : Type} (x : Check α) : Check { a // x = .ok a } :=
  match x with
  | .ok a => .ok ⟨a, rfl⟩
  | .error e => .error e

theorem attested_ok {α : Type} (x : Check α) (r : { a // x = .ok a }) : attested x = .ok r := by
  obtain ⟨a, rfl⟩ := r
  rfl

/-- how many values a tensor has -/
def elements (t : TensorInfo) : Check ℕ := orBail t.elementCount s!"{t.name} declares a shape that overflows"

/-- `WeightFile::load` of a tensor of the directory; `read` returns the bytes of a span -/
def loadInfo (d : TensorDirectory) (fileLen : ℕ) (read : ByteExtent → Check (List UInt8)) (t : TensorInfo) :
    Verdict Tensor := do
  let kind ← Verdict.ofCheck (ensured (isSupported t.kind = true) (s!"{t.name} is stored as {typeName t.kind} " ++
    s!"({t.kind}), which this engine cannot execute; requantise the model"))
  let n ← Verdict.ofCheck (attested (elements t))
  let len ← Verdict.ofCheck (ensured (0 < (d.extentOf t fileLen).len) s!"{t.name} has an unreadable extent")
  let data ← Verdict.ofCheck (read (d.extentOf t fileLen))
  -- the vector of the values is made first, and cannot be one of more bytes than an offset can say
  if 2 ^ 63 ≤ 4 * n.val then .panic "capacity overflow"
  else do
    let values ← Verdict.ofCheck (attested (mapErr (fun e => s!"reconstructing {t.name}: {e}")
      (dequantize dec t.kind data n.val)))
    let hn := (orBail_ok _ _ _).1 n.property
    let hlength := dequantize_length dec ((mapErr_ok _ _ _).1 values.property)
    pure ⟨t.dimensions, values.val, hlength.trans (elementCount_eq hn),
      (elements_pos kind.down len.down hn).trans_eq hlength.symm⟩

theorem ensured_ok {p : Prop} [Decidable p] {msg : String} {r : PLift p} : ensured p msg = .ok r ↔ p := by
  unfold ensured
  split_ifs with h
  · exact iff_of_true (by rfl) h
  · exact iff_of_false (by simp) h

/-- what a tensor that loads has passed -/
theorem loadInfo_ok {d : TensorDirectory} {fileLen : ℕ} {read : ByteExtent → Check (List UInt8)} {t : TensorInfo}
    {tensor : Tensor} : loadInfo dec d fileLen read t = .ok tensor ↔
      isSupported t.kind = true ∧ 0 < (d.extentOf t fileLen).len ∧ ∃ n, t.elementCount = some n ∧ 4 * n < 2 ^ 63 ∧
        ∃ data, read (d.extentOf t fileLen) = .ok data ∧ dequantize dec t.kind data n = .ok tensor.values ∧
          t.dimensions = tensor.dimensions := by
  unfold loadInfo
  simp only [Verdict.bind_ok, Verdict.ofCheck_ok]
  constructor
  · rintro ⟨kind, hkind, n, -, len, hlen, data, hdata, hrest⟩
    split_ifs at hrest with hbig
    obtain ⟨values, -, hvalues⟩ := (Verdict.bind_ok _ _ _).1 hrest
    cases hvalues
    exact ⟨kind.down, len.down, n.val, (orBail_ok _ _ _).1 n.property, by omega, data, hdata,
      (mapErr_ok _ _ _).1 values.property, rfl⟩
  · rintro ⟨hkind, hlen, n, hn, hsmall, data, hdata, hvalues, hdims⟩
    refine ⟨⟨hkind⟩, ensured_ok.2 hkind, ⟨n, (orBail_ok _ _ _).2 hn⟩, attested_ok _ _, ⟨hlen⟩, ensured_ok.2 hlen, data,
      hdata, ?_⟩
    have hfits : ¬ 2 ^ 63 ≤ 4 * n := by omega
    rw [if_neg hfits]
    refine (Verdict.bind_ok _ _ _).2 ⟨⟨tensor.values, (mapErr_ok _ _ _).2 hvalues⟩, ?_, ?_⟩
    · rw [Verdict.ofCheck_ok]
      exact attested_ok _ _
    · obtain ⟨dims, values, hfilled, hnonempty⟩ := tensor
      dsimp only at hdims
      subst hdims
      rfl

/-- `seek` and `read_exact` -/
def readExact (bytes : List UInt8) (e : ByteExtent) : Check (List UInt8) :=
  if e.stop ≤ bytes.length then .ok ((bytes.drop e.start).take e.len) else .error "failed to fill whole buffer"

/-- the same, and an error outside the spans that are present -/
def readPresent (present : List ByteExtent) (bytes : List UInt8) (e : ByteExtent) : Check (List UInt8) :=
  if ∃ held ∈ present, held.start ≤ e.start ∧ e.stop ≤ held.stop then readExact bytes e
  else .error "these bytes are not here"

/-! ## The file -/

def headerBudget : ℕ := 16 * 1024 * 1024

/-- how a header is read on this machine: its floats, the variable for the architecture and the depth of the stack -/
structure Reading where
  fc : FloatCast
  fl : HeaderFloats
  assumed : Option String
  stack : ℕ

variable (rd : Reading)

/-- a file with its directory parsed -/
structure Opened where
  bytes : List UInt8
  directory : TensorDirectory
  header : List UInt8

/-- `WeightFile::open` -/
def openFile (bytes : List UInt8) : Check Opened := do
  let header := bytes.take (min headerBudget bytes.length)
  let parsed ← answer ((tensorDirectory (skipValue rd.stack)).run header)
  let directory ← orBail parsed s!"the file has no readable tensor directory in its first {header.length} bytes"
  directory.validate bytes.length
  pure ⟨bytes, directory, header⟩

namespace Opened

variable (o : Opened)

def configOf : Check ModelConfig := fromHeader rd.fl rd.assumed (metadataOf rd.fc rd.stack o.header)

/-- the file as a stage sees it, each tensor read when it is asked for -/
def weights (read : ByteExtent → Check (List UInt8)) : WeightFile where
  config := o.configOf rd
  tensors := o.directory.tensors.map fun t =>
    ⟨t.name, (loadInfo dec o.directory o.bytes.length read t).toCheck⟩

/-- `assert_layers_present` -/
def assertLayersPresent (start stop : ℕ) (present : List ByteExtent) : Check Unit :=
  each (fun (extent : ByteExtent) =>
    bailIf (¬ ∃ held ∈ present, held.start ≤ extent.start ∧ extent.stop ≤ held.stop)
      (s!"the file is missing bytes {extent.start}..{extent.stop}, which blocks {start}..{stop} need; the stage would " ++
        "have read zeros and generated plausible nonsense"))
    (o.directory.neededExtents start stop o.bytes.length)

end Opened

/-! ## What is read is present -/

section

variable {dec rd} {o : Opened}

theorem weights_info (read : ByteExtent → Check (List UInt8)) (name : String) :
    (o.weights dec rd read).info name = (o.directory.tensors.find? fun t => t.name = name).map fun t =>
      ⟨t.name, (loadInfo dec o.directory o.bytes.length read t).toCheck⟩ := by
  unfold WeightFile.info Opened.weights
  rw [List.find?_map]
  rfl

theorem weights_load_ok {read : ByteExtent → Check (List UInt8)} {name : String} {tensor : Tensor} :
    (o.weights dec rd read).load name = .ok tensor ↔ ∃ t, (o.directory.tensors.find? fun t => t.name = name) = some t ∧
      loadInfo dec o.directory o.bytes.length read t = .ok tensor := by
  unfold WeightFile.load
  rw [weights_info]
  simp only [Base.bind_ok, orBail_ok, Option.map_eq_some_iff]
  constructor
  · rintro ⟨_, ⟨t, ht, rfl⟩, hload⟩
    exact ⟨t, ht, (Verdict.toCheck_ok _ _).1 hload⟩
  · rintro ⟨t, ht, hload⟩
    exact ⟨_, ⟨t, ht, rfl⟩, (Verdict.toCheck_ok _ _).2 hload⟩

/-- a tensor that loads was read from its own extent, and another read of the same bytes loads it too -/
theorem loadInfo_mono {d : TensorDirectory} {fileLen : ℕ} {read read' : ByteExtent → Check (List UInt8)} {t : TensorInfo}
    {tensor : Tensor} (h : loadInfo dec d fileLen read t = .ok tensor)
    (hread : 0 < (d.extentOf t fileLen).len → Below (read (d.extentOf t fileLen)) (read' (d.extentOf t fileLen))) :
    loadInfo dec d fileLen read' t = .ok tensor := by
  obtain ⟨hkind, hlen, n, hn, hsmall, data, hdata, hvalues, hdims⟩ := (loadInfo_ok dec).1 h
  exact (loadInfo_ok dec).2 ⟨hkind, hlen, n, hn, hsmall, data, hread hlen data hdata, hvalues, hdims⟩

/-- a name asked for is of a block of the range, or of none -/
theorem needed_of_asked {d : TensorDirectory} {start stop : ℕ} (hstop : stop ≤ 2 ^ 32) {t : TensorInfo}
    (ht : t ∈ d.tensors) (hasked : Asked start stop t.name) : t ∈ d.tensorsForLayers start stop ∨ t ∈ d.sharedTensors := by
  rcases hasked with hshared | ⟨i, hstart, hi, suffix, -, hname⟩
  · right
    have hnone : ∀ name ∈ sharedNames, layerIndex name = none := by decide +kernel
    refine List.mem_filter.2 ⟨ht, ?_⟩
    rw [TensorInfo.layerIndex, hnone _ hshared]
    rfl
  · left
    have hindex : t.layerIndex = some i := by
      rw [TensorInfo.layerIndex, hname]
      exact layerIndex_blockName (by omega) suffix
    refine List.mem_filter.2 ⟨ht, ?_⟩
    simp [hindex, hstart, hi]

/-- **The guard covers every read.** Once the layers are asserted present, a file that refuses to read outside the spans
answers whatever the file itself answers to the names a stage of these blocks asks for. -/
theorem present_of_asserted {start stop : ℕ} (hstop : stop ≤ 2 ^ 32) {present : List ByteExtent}
    (h : o.assertLayersPresent start stop present = .ok ()) :
    Agree (Asked start stop) (o.weights dec rd (readExact o.bytes)) (o.weights dec rd (readPresent present o.bytes)) := by
  refine ⟨rfl, ?_, fun name hname tensor hload => ?_⟩
  · simp [Opened.weights]
  · obtain ⟨t, ht, hinfo⟩ := weights_load_ok.1 hload
    obtain rfl : t.name = name := by simpa using List.find?_some ht
    refine weights_load_ok.2 ⟨t, ht, loadInfo_mono hinfo fun hlen => ?_⟩
    have hne : (o.directory.extentOf t o.bytes.length).isEmpty = false := by
      unfold ByteExtent.len at hlen
      unfold ByteExtent.isEmpty
      simp only [decide_eq_false_iff_not]
      omega
    -- the extent stands in a merged one, and that in a span that is present
    have hmerged : ∃ span ∈ o.directory.neededExtents start stop o.bytes.length,
        (o.directory.extentOf t o.bytes.length).LiesIn span := by
      rcases needed_of_asked hstop (List.mem_of_find?_eq_some ht) hname with hmem | hmem
      · obtain ⟨span, hspan, hin⟩ := mem_extentsOf o.directory hmem hne
        exact ⟨span, List.mem_append_left _ hspan, hin⟩
      · obtain ⟨span, hspan, hin⟩ := mem_extentsOf o.directory hmem hne
        exact ⟨span, List.mem_append_right _ hspan, hin⟩
    obtain ⟨span, hspan, h1, h2⟩ := hmerged
    simp only [Opened.assertLayersPresent, each_ok, bailIf_ok, not_not] at h
    obtain ⟨held, hheld, h3, h4⟩ := h span hspan
    have hpresent : ∃ held ∈ present, held.start ≤ (o.directory.extentOf t o.bytes.length).start ∧
        (o.directory.extentOf t o.bytes.length).stop ≤ held.stop := ⟨held, hheld, h3.trans h1, h2.trans h4⟩
    rw [readPresent, if_pos hpresent]
    exact Below.refl _

end

end

/-! ## A small file -/

namespace Sample

/-- `F32` blocks as the engine reads them -/
def decoder : BlockDecoder where
  decode kind block := if kind = 0 then [UInt32.ofNat (leNat block)]
    else List.replicate ((blockLayout kind).elim 0 BlockLayout.elements) 0
  length_decode kind layout block h := by
    split_ifs with hkind
    · subst hkind
      obtain rfl := Option.some.inj h
      rfl
    · rw [List.length_replicate, h]
      rfl

def reading : Reading := ⟨.native, ⟨fun bits => bits ≠ 0x3F800000, fun _ => "1"⟩, none, 1⟩

def entries : List (String × Value) :=
  [("general.architecture", .string "llama"), ("llama.block_count", .u32 1), ("llama.embedding_length", .u32 1),
    ("llama.attention.head_count", .u32 1), ("llama.feed_forward_length", .u32 1), ("llama.rope.dimension_count", .u32 0)]

/-- a header, padding up to the next multiple of 32, and data -/
def gguf (entries : List (String × Value)) (tensors : List TensorInfo) (data : List F32) : List UInt8 :=
  let header := magic ++ le 4 3 ++ le 8 tensors.length ++ le 8 entries.length ++ entries.flatMap writePair ++
    tensors.flatMap TensorInfo.write
  header ++ List.replicate ((32 - header.length % 32) % 32) 0 ++ data.flatMap fun bits => le 4 bits.toNat

/-- every tensor one value, the query projection behind the others -/
def directory : List TensorInfo :=
  [⟨"blk.0.attn_q.weight", [1, 1], 0, 64⟩, ⟨"token_embd.weight", [1, 1], 0, 4⟩, ⟨"blk.0.attn_norm.weight", [1], 0, 8⟩,
    ⟨"blk.0.attn_k.weight", [1, 1], 0, 12⟩, ⟨"blk.0.attn_v.weight", [1, 1], 0, 16⟩,
    ⟨"blk.0.attn_output.weight", [1, 1], 0, 20⟩, ⟨"blk.0.ffn_norm.weight", [1], 0, 24⟩,
    ⟨"blk.0.ffn_gate.weight", [1, 1], 0, 28⟩, ⟨"blk.0.ffn_up.weight", [1, 1], 0, 32⟩,
    ⟨"blk.0.ffn_down.weight", [1, 1], 0, 36⟩, ⟨"output_norm.weight", [1], 0, 40⟩]

/-- the query projection is 2, everything else 1, and the last value belongs to no tensor -/
def model : List UInt8 := gguf entries directory (List.replicate 16 0x3F800000 ++ [0x40000000, 0x3F800000])

end Sample

end Hocmesh.Engine
