/-
`ModelConfig::from_header`: the numbers that decide what a forward pass does, read off the metadata.

A value of the metadata has 64 bits and is kept in 32: `as u32` drops the rest. What the header declares, before that, is
`Declared`, with the defaults of the keys that may be absent. The checks are made on what is kept.

`fromHeader` reads nothing but the metadata: on two headers of which the second answers whatever the first does, it
gives the same configuration (`fromHeader_below`).
-/
import Hocmesh.Engine.Stage
import Hocmesh.Model.Locality
import Hocmesh.Validator.Handlers

namespace Hocmesh.Engine

open Hocmesh.Base Hocmesh.Model

/-- the three ways a header is asked for the value of a key -/
structure Metadata where
  string : String → Check (Option String)
  u64 : String → Check (Option ℕ)
  f32 : String → Check (Option F32)

/-- what `from_header` does with an `f32` it reads -/
structure HeaderFloats where
  /-- `(factor - 1.0).abs() > f32::EPSILON` -/
  notOne : F32 → Bool
  display : F32 → String

/-! ## The rotary pairing -/

def known : List (String × RopeStyle) :=
  [("llama", .interleaved), ("mistral", .interleaved), ("qwen2", .halved), ("qwen3", .halved)]

def assumeArchitecture : String := "HOCMESH_ASSUME_ARCHITECTURE"

/-- `str::trim` -/
def trim (text : String) : String :=
  String.ofList ((text.toList.dropWhile Ledger.isWhitespace).reverse.dropWhile Ledger.isWhitespace).reverse

/-- `{:?}` of a text -/
def debugText (text : String) : String := "\"" ++ String.join (text.toList.map Validator.debugChar) ++ "\""

/-- the pairing for a declared architecture; `assumed` is the environment variable -/
def ropeStyleFor (assumed : Option String) (architecture : String) : Check RopeStyle :=
  match known.lookup architecture with
  | some style => pure style
  | none =>
    let names := ", ".intercalate (known.map Prod.fst)
    match (assumed.map trim).filter fun value => value ≠ "" with
    | none => .error (s!"architecture {debugText architecture} is not one this build knows the rotary pairing for (it " ++
        s!"knows {names}). Everything else about this file is checked against what this engine implements -- every " ++
        "tensor of every block, their shapes, and the metadata keys that would change the maths -- but which pairs of " ++
        "elements a rotary embedding rotates together is not written in a GGUF file at all, and llama.cpp fixes it per " ++
        "architecture in its own source. If this model has one of those shapes, say which with " ++
        s!"{assumeArchitecture}=<name>; the rest of the file will still have to prove itself. Guessing is not offered " ++
        "because a wrong pairing does not fail, it generates fluent, wrong text.")
    | some assumed =>
      orBail (known.lookup assumed) (s!"{assumeArchitecture} is set to {debugText assumed}, which is not an architecture " ++
        s!"this build knows either (it knows {names}). It names the shape to read {debugText architecture} as, not the " ++
        "shape the file already claims to be.")

/-! ## The header -/

section

variable (fl : HeaderFloats) (m : Metadata) (architecture : String)

def required (key : String) : Check ℕ := do
  let value ← m.u64 s!"{architecture}.{key}"
  orBail value s!"GGUF file does not declare {architecture}.{key}"

/-- a check whose outcome the configuration keeps -/
def ensured (p : Prop) [Decidable p] (msg : String) : Check (PLift p) := if h : p then .ok ⟨h⟩ else .error msg

def unimplementedNumeric : List (String × String) :=
  [("attention.sliding_window", "attends over a window rather than the whole history"),
    ("expert_count", "routes each token to a subset of experts"),
    ("attention.attn_logit_softcapping", "bounds its attention scores with tanh"),
    ("final_logit_softcapping", "bounds its output logits with tanh"),
    ("attention.max_alibi_bias", "biases attention by distance instead of rotating positions")]

def refuseUnimplementedMetadata : Check Unit := do
  each (fun (entry : String × String) => do
    let value ← m.u64 s!"{architecture}.{entry.1}"
    bailIf (value.getD 0 ≠ 0) (s!"this model {entry.2} ({architecture}.{entry.1} = {value.getD 0}), which this engine " ++
      "does not implement; running it would ignore that and generate fluent, wrong text")) unimplementedNumeric
  let scaling ← m.string s!"{architecture}.rope.scaling.type"
  let kind := scaling.getD "none"
  bailIf (kind ≠ "none") (s!"this model scales rotary positions ({architecture}.rope.scaling.type = {debugText kind}), " ++
    "which this engine does not implement; running it would place every position wrong and generate fluent, wrong text")
  let factor ← m.f32 s!"{architecture}.rope.scale_linear"
  match factor with
  | none => pure ()
  | some factor => bailIf (fl.notOne factor) (s!"this model scales rotary positions ({architecture}.rope.scale_linear = " ++
      s!"{fl.display factor}), which this engine does not implement")

/-- the width of a head: what the file states, or what the division gives where it comes out whole -/
def keyLengthOf (embeddingLength headCount : UInt32) (stated : Option ℕ) : Check UInt32 :=
  match stated with
  | some width => pure (UInt32.ofNat width)
  | none => do
    bailIf (¬ headCount.toNat ∣ embeddingLength.toNat) (s!"embedding_length {embeddingLength} does not divide into " ++
      s!"{headCount} heads, and the file does not declare {architecture}.attention.key_length to say how wide one is")
    pure (embeddingLength / headCount)

/-- 1e-5 and 10000, as their bits -/
def defaultEps : F32 := 0x3727C5AC

def defaultTheta : F32 := 0x461C4000

end

/-- `ModelConfig::from_header` -/
def fromHeader (fl : HeaderFloats) (assumed : Option String) (m : Metadata) : Check ModelConfig := do
  let declared ← m.string "general.architecture"
  let architecture ← orBail declared "GGUF file does not declare general.architecture"
  let ropeStyle ← ropeStyleFor assumed architecture
  let blockCount ← required m architecture "block_count"
  let embeddingLength ← required m architecture "embedding_length"
  let heads ← required m architecture "attention.head_count"
  let feedForwardLength ← required m architecture "feed_forward_length"
  let headCount := UInt32.ofNat heads
  let statedKv ← m.u64 s!"{architecture}.attention.head_count_kv"
  let headCountKv := UInt32.ofNat (statedKv.getD headCount.toNat)
  let headCount_pos ← ensured (0 < headCount) "attention.head_count is zero"
  let headCountKv_pos ← ensured (0 < headCountKv) "attention.head_count_kv is zero"
  let heads_grouped ← ensured (headCountKv.toNat ∣ headCount.toNat)
    s!"{headCount} query heads do not group evenly over {headCountKv} key/value heads"
  let statedKey ← m.u64 s!"{architecture}.attention.key_length"
  let keyLength ← keyLengthOf architecture (UInt32.ofNat embeddingLength) headCount statedKey
  let statedValue ← m.u64 s!"{architecture}.attention.value_length"
  let valueLength := UInt32.ofNat (statedValue.getD keyLength.toNat)
  let keyLength_pos ← ensured (0 < keyLength) "attention.key_length is zero"
  let valueLength_pos ← ensured (0 < valueLength) "attention.value_length is zero"
  let statedRope ← m.u64 s!"{architecture}.rope.dimension_count"
  let ropeDimensionCount := UInt32.ofNat (statedRope.getD keyLength.toNat)
  let rope ← ensured (ropeDimensionCount ≤ keyLength ∧ 2 ∣ ropeDimensionCount.toNat)
    s!"rope.dimension_count {ropeDimensionCount} is not an even count within a {keyLength}-wide head"
  refuseUnimplementedMetadata fl m architecture
  let eps ← m.f32 s!"{architecture}.attention.layer_norm_rms_epsilon"
  let theta ← m.f32 s!"{architecture}.rope.freq_base"
  -- the context length is read too, and no pass uses it
  let _ ← m.u64 s!"{architecture}.context_length"
  let vocabSize ← m.u64 s!"{architecture}.vocab_size"
  pure { ropeStyle, blockCount := UInt32.ofNat blockCount, embeddingLength := UInt32.ofNat embeddingLength, headCount,
         headCountKv, feedForwardLength := UInt32.ofNat feedForwardLength, keyLength, valueLength,
         rmsNormEps := eps.getD defaultEps, ropeTheta := theta.getD defaultTheta, ropeDimensionCount,
         vocabSize := UInt32.ofNat (vocabSize.getD 0), headCount_pos := headCount_pos.down,
         headCountKv_pos := headCountKv_pos.down, heads_grouped := heads_grouped.down, keyLength_pos := keyLength_pos.down,
         valueLength_pos := valueLength_pos.down, rope_within := rope.down.1, rope_even := rope.down.2 }

/-! ## What is declared and what is kept -/

/-- the numbers the widths are made of, as the header declares them -/
structure Declared where
  embeddingLength : ℕ
  headCount : ℕ
  headCountKv : ℕ
  keyLength : ℕ
  valueLength : ℕ
deriving DecidableEq

/-- an absent key has the default of `from_header`, made of what is declared -/
def declared (m : Metadata) : Check Declared := do
  let name ← m.string "general.architecture"
  let architecture ← orBail name "GGUF file does not declare general.architecture"
  let embeddingLength ← required m architecture "embedding_length"
  let headCount ← required m architecture "attention.head_count"
  let statedKv ← m.u64 s!"{architecture}.attention.head_count_kv"
  let statedKey ← m.u64 s!"{architecture}.attention.key_length"
  let statedValue ← m.u64 s!"{architecture}.attention.value_length"
  let keyLength := statedKey.getD (embeddingLength / headCount)
  pure { embeddingLength, headCount, headCountKv := statedKv.getD headCount, keyLength,
         valueLength := statedValue.getD keyLength }

/-- the widths of the configuration are the products of what is declared -/
structure Declared.Widths (d : Declared) (config : ModelConfig) : Prop where
  q : config.qWidth.toNat = d.headCount * d.keyLength
  k : config.kWidth.toNat = d.headCountKv * d.keyLength
  v : config.vWidth.toNat = d.headCountKv * d.valueLength
  attention : config.attentionWidth.toNat = d.headCount * d.valueLength

/-- everything declared, and every width, has 32 bits -/
structure Declared.Fits (d : Declared) : Prop where
  headCount : d.headCount < 2 ^ 32
  headCountKv : d.headCountKv < 2 ^ 32
  keyLength : d.keyLength < 2 ^ 32
  valueLength : d.valueLength < 2 ^ 32
  q : d.headCount * d.keyLength < 2 ^ 32
  k : d.headCountKv * d.keyLength < 2 ^ 32
  v : d.headCountKv * d.valueLength < 2 ^ 32
  attention : d.headCount * d.valueLength < 2 ^ 32

/-- how the kept numbers come from the declared ones: narrowed, and a width that is not stated is divided afterwards -/
structure Declared.Kept (d : Declared) (config : ModelConfig) : Prop where
  headCount : config.headCount = UInt32.ofNat d.headCount
  headCountKv : config.headCountKv = UInt32.ofNat d.headCountKv
  keyLength : config.keyLength = UInt32.ofNat d.keyLength ∨
    d.keyLength = d.embeddingLength / d.headCount ∧
      config.keyLength = UInt32.ofNat d.embeddingLength / config.headCount
  valueLength : config.valueLength = UInt32.ofNat d.valueLength ∨
    d.valueLength = d.keyLength ∧ config.valueLength = config.keyLength

/-- a header that has a configuration declares what it keeps -/
theorem declared_of_fromHeader {fl : HeaderFloats} {assumed : Option String} {m : Metadata} {config : ModelConfig}
    (h : fromHeader fl assumed m = .ok config) : ∃ d, declared m = .ok d ∧ d.Kept config := by
  simp only [fromHeader, bind_ok, orBail_ok, pure_ok] at h
  obtain ⟨name, hname, architecture, harchitecture, _, -, _, -, embedding, hembedding, heads, hheads, _, -, kv, hkv, _, -,
    _, -, _, -, key, hkey, keyLength, hkeyLength, value, hvalue, _, -, _, -, _, -, _, -, _, -, _, -, _, -, _, -, _, -,
    rfl⟩ := h
  refine ⟨⟨embedding, heads, kv.getD heads, key.getD (embedding / heads), value.getD (key.getD (embedding / heads))⟩, ?_,
    ⟨rfl, ?_, ?_, ?_⟩⟩
  · simp only [declared, bind_ok, orBail_ok, pure_ok]
    exact ⟨name, hname, architecture, harchitecture, embedding, hembedding, heads, hheads, kv, hkv, key, hkey, value,
      hvalue, rfl⟩
  · cases kv with
    | none => exact UInt32.ofNat_toNat
    | some kv => rfl
  · cases key with
    | some key =>
      simp only [keyLengthOf, pure_ok] at hkeyLength
      exact .inl hkeyLength.symm
    | none =>
      simp only [keyLengthOf, bind_ok, bailIf_ok, not_not, pure_ok, exists_const] at hkeyLength
      exact .inr ⟨rfl, hkeyLength.2.symm⟩
  · cases value with
    | some value => exact .inl rfl
    | none => exact .inr ⟨rfl, UInt32.ofNat_toNat⟩

/-- a quotient of kept numbers is that of the declared ones, when their product has 32 bits -/
theorem declared_div {embedding heads : ℕ} (hpos : 0 < embedding % 2 ^ 32 / heads)
    (hfits : heads * (embedding / heads) < 2 ^ 32) : embedding < 2 ^ 32 := by
  by_contra hlarge
  have hheads : heads ≤ embedding % 2 ^ 32 := by
    by_contra hlt
    rw [Nat.div_eq_of_lt (by omega)] at hpos
    cases hpos
  have hheads_pos : 0 < heads := Nat.pos_of_ne_zero fun hzero => by
    rw [hzero, Nat.div_zero] at hpos
    cases hpos
  have hsplit := Nat.div_add_mod embedding heads
  have hrest := Nat.mod_lt embedding hheads_pos
  omega

namespace Declared

variable {d : Declared} {config : ModelConfig}

theorem Kept.keyLength_eq (h : d.Kept config) (hfits : d.Fits) : config.keyLength.toNat = d.keyLength := by
  rcases h.keyLength with heq | ⟨hkey, heq⟩
  · rw [heq, UInt32.toNat_ofNat', Nat.mod_eq_of_lt hfits.keyLength]
  · have hheads : config.headCount.toNat = d.headCount := by
      rw [h.headCount, UInt32.toNat_ofNat', Nat.mod_eq_of_lt hfits.headCount]
    have hdiv : config.keyLength.toNat = d.embeddingLength % 2 ^ 32 / d.headCount := by
      rw [heq, UInt32.toNat_div, hheads, UInt32.toNat_ofNat']
    have hpos : 0 < config.keyLength.toNat := config.keyLength_pos
    have hsmall := declared_div (hdiv ▸ hpos) (hkey ▸ hfits.q)
    rw [hdiv, hkey, Nat.mod_eq_of_lt hsmall]

theorem Kept.valueLength_eq (h : d.Kept config) (hfits : d.Fits) : config.valueLength.toNat = d.valueLength := by
  rcases h.valueLength with heq | ⟨hvalue, heq⟩
  · rw [heq, UInt32.toNat_ofNat', Nat.mod_eq_of_lt hfits.valueLength]
  · rw [heq, hvalue, h.keyLength_eq hfits]

/-- numbers that fit are kept as declared -/
theorem Kept.eq (h : d.Kept config) (hfits : d.Fits) : config.headCount.toNat = d.headCount ∧
    config.headCountKv.toNat = d.headCountKv ∧ config.keyLength.toNat = d.keyLength ∧
      config.valueLength.toNat = d.valueLength := by
  refine ⟨?_, ?_, h.keyLength_eq hfits, h.valueLength_eq hfits⟩
  · rw [h.headCount, UInt32.toNat_ofNat', Nat.mod_eq_of_lt hfits.headCount]
  · rw [h.headCountKv, UInt32.toNat_ofNat', Nat.mod_eq_of_lt hfits.headCountKv]

/-- what fits has its products for widths -/
theorem Kept.widths (h : d.Kept config) (hfits : d.Fits) : d.Widths config := by
  obtain ⟨hheads, hkv, hkey, hvalue⟩ := h.eq hfits
  constructor
  · rw [ModelConfig.qWidth, UInt32.toNat_mul, hheads, hkey, Nat.mod_eq_of_lt hfits.q]
  · rw [ModelConfig.kWidth, UInt32.toNat_mul, hkv, hkey, Nat.mod_eq_of_lt hfits.k]
  · rw [ModelConfig.vWidth, UInt32.toNat_mul, hkv, hvalue, Nat.mod_eq_of_lt hfits.v]
  · rw [ModelConfig.attentionWidth, UInt32.toNat_mul, hheads, hvalue, Nat.mod_eq_of_lt hfits.attention]

/-- and products that are widths, and not zero, fit -/
theorem Widths.fits (h : d.Widths config) (hq : 0 < config.qWidth.toNat) (hk : 0 < config.kWidth.toNat)
    (hv : 0 < config.vWidth.toNat) : d.Fits := by
  have hbound : ∀ {x y : ℕ} {width : UInt32}, width.toNat = x * y → x * y < 2 ^ 32 :=
    fun heq => heq ▸ UInt32.toNat_lt _
  have hleft : ∀ {x y : ℕ}, 0 < x * y → x * y < 2 ^ 32 → x < 2 ^ 32 := fun hpos hlt =>
    (Nat.le_mul_of_pos_right _ (Nat.pos_of_mul_pos_left hpos)).trans_lt hlt
  have hright : ∀ {x y : ℕ}, 0 < x * y → x * y < 2 ^ 32 → y < 2 ^ 32 := fun hpos hlt =>
    (Nat.le_mul_of_pos_left _ (Nat.pos_of_mul_pos_right hpos)).trans_lt hlt
  rw [h.q] at hq
  rw [h.k] at hk
  rw [h.v] at hv
  exact ⟨hleft hq (hbound h.q), hleft hk (hbound h.k), hright hq (hbound h.q), hright hv (hbound h.v), hbound h.q,
    hbound h.k, hbound h.v, hbound h.attention⟩

end Declared

/-! ## Headers that answer alike -/

/-- whatever the first answers, the second answers too -/
structure Metadata.Below (m m' : Metadata) : Prop where
  string : ∀ key, Base.Below (m.string key) (m'.string key)
  u64 : ∀ key, Base.Below (m.u64 key) (m'.u64 key)
  f32 : ∀ key, Base.Below (m.f32 key) (m'.f32 key)

theorem refuseUnimplemented_below (fl : HeaderFloats) {m m' : Metadata} (h : m.Below m') (architecture : String) :
    Base.Below (refuseUnimplementedMetadata fl m architecture) (refuseUnimplementedMetadata fl m' architecture) := by
  unfold refuseUnimplementedMetadata
  refine .bind ?_ fun _ => (h.string _).bind fun _ => (Base.Below.refl _).bind fun _ => (h.f32 _).bind fun _ =>
    Base.Below.refl _
  intro u hu
  refine (each_ok _ _ u).2 fun entry hentry => ?_
  have hone := (each_ok _ _ u).1 hu entry hentry
  exact ((h.u64 _).bind fun _ => Base.Below.refl _) () hone

theorem required_below {m m' : Metadata} (h : m.Below m') (architecture key : String) :
    Base.Below (required m architecture key) (required m' architecture key) :=
  (h.u64 _).bind fun _ => Base.Below.refl _

/-- A header that answers whatever another answers has its configuration. -/
theorem fromHeader_below (fl : HeaderFloats) (assumed : Option String) {m m' : Metadata} (h : m.Below m') :
    Base.Below (fromHeader fl assumed m) (fromHeader fl assumed m') := by
  unfold fromHeader
  refine (h.string _).bind fun _ => (Base.Below.refl _).bind fun architecture => (Base.Below.refl _).bind fun _ => ?_
  refine (required_below h _ _).bind fun _ => (required_below h _ _).bind fun _ => ?_
  refine (required_below h _ _).bind fun _ => (required_below h _ _).bind fun _ => (h.u64 _).bind fun _ => ?_
  refine (Base.Below.refl _).bind fun _ => (Base.Below.refl _).bind fun _ => (Base.Below.refl _).bind fun _ => ?_
  refine (h.u64 _).bind fun _ => (Base.Below.refl _).bind fun _ => (h.u64 _).bind fun _ => ?_
  refine (Base.Below.refl _).bind fun _ => (Base.Below.refl _).bind fun _ => (h.u64 _).bind fun _ => ?_
  refine (Base.Below.refl _).bind fun _ => (refuseUnimplemented_below fl h architecture).bind fun _ => ?_
  exact (h.f32 _).bind fun _ => (h.f32 _).bind fun _ => (h.u64 _).bind fun _ => (h.u64 _).bind fun _ => Base.Below.refl _

/-! ## The metadata of a header's bytes -/

/-- what an accessor's answer is to its caller; the last two ends stop the program -/
def answer {α : Type} : Outcome α → Check α
  | .done a => .ok a
  | .truncated => .error "truncated"
  | .refused e => .error e
  | .outside => .error "index out of bounds"
  | .overflow => .error "stack overflow"

/-- the accessors over a header, on a stack of so many frames -/
def metadataOf (fc : FloatCast) (stack : ℕ) (header : List UInt8) : Metadata where
  string key := answer ((metadataString (skipValue stack) key).run header)
  u64 key := answer ((metadataU64 (skipValue stack) fc key).run header)
  f32 key := answer ((metadataF32 (skipValue stack) fc key).run header)

theorem answer_ok {α : Type} {o : Outcome α} {a : α} : answer o = .ok a ↔ o = .done a := by
  cases o with
  | done b => simp [answer]
  | truncated => simp [answer]
  | refused e => simp [answer]
  | outside => simp [answer]
  | overflow => simp [answer]

/-- an answer that is turned into another, where no answer stays none -/
theorem run_bind_pure {α β : Type} (p : Walk (Option α)) (g : Option α → Option β) (hg : g none = none)
    (bytes : List UInt8) (b : Option β) : Walk.run (p >>= fun a => pure (g a)) bytes = .done b ↔
      ∃ a, p.run bytes = .done a ∧ g a = b := by
  unfold Walk.run
  rw [Walk.bind_apply]
  cases p.go bytes 0 with
  | done r => simp [Walk.pure_apply]
  | truncated => simp [hg]
  | refused e => simp
  | outside => simp
  | overflow => simp

/-- **The metadata of a file whose directory can be read stands before its data.** -/
theorem metadataOf_below (fc : FloatCast) (stack : ℕ) {header other : List UInt8} {d : TensorDirectory}
    (h : (tensorDirectory (skipValue stack)).run header = .done (some d))
    (hsame : other.take d.dataStart = header.take d.dataStart) :
    (metadataOf fc stack header).Below (metadataOf fc stack other) := by
  have hscalar : ∀ (key : String) (wanted : Scalar → Option Scalar) (v : Option Scalar),
      (findScalar (skipValue stack) fc key wanted).run header = .done v →
        (findScalar (skipValue stack) fc key wanted).run other = .done v := fun key wanted v hv =>
    metadata_before (fun vt => local_scalarValue fc key wanted vt) (readsValue_scalar fc key wanted) h hsame hv
  refine ⟨fun key a ha => ?_, fun key a ha => ?_, fun key a ha => ?_⟩
  · exact answer_ok.2 (metadata_before (fun vt => local_stringValue key vt) (readsValue_string key) h hsame (answer_ok.1 ha))
  · obtain ⟨v, hv, rfl⟩ := (run_bind_pure _ _ rfl _ _).1 (answer_ok.1 ha)
    exact answer_ok.2 ((run_bind_pure _ _ rfl _ _).2 ⟨v, hscalar key _ v hv, rfl⟩)
  · obtain ⟨v, hv, rfl⟩ := (run_bind_pure _ _ rfl _ _).1 (answer_ok.1 ha)
    exact answer_ok.2 ((run_bind_pure _ _ rfl _ _).2 ⟨v, hscalar key _ v hv, rfl⟩)

end Hocmesh.Engine
