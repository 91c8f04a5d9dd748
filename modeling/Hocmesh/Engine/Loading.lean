/-
Loading a stage from a file, with the ends that take the process down.

`Opened.loadStage` is `Stage::load` as a `Verdict`: where it returns it returns what `Stage.load` does
(`agrees_loadStage`). Loading asks for tensors in a fixed order, and whether it goes through or goes down is decided by
what the file holds under each name (`walks_loadStage`).
-/
import Hocmesh.Engine.Weights

namespace Hocmesh.Engine

open Hocmesh.Base Hocmesh.Model

/-! ## Verdicts -/

namespace Verdict

variable {α β : Type}

/-- the call takes the process down -/
def Panics (x : Verdict α) : Prop := ∃ why, x = .panic why

@[simp] theorem panics_bind (x : Verdict α) (f : α → Verdict β) :
    (x >>= f).Panics ↔ x.Panics ∨ ∃ a, x = .ok a ∧ (f a).Panics := by
  cases x with
  | ok a =>
    refine ⟨fun h => .inr ⟨a, rfl, h⟩, ?_⟩
    rintro (⟨_, h⟩ | ⟨_, h, hf⟩)
    · cases h
    · cases h
      exact hf
  | error e =>
    refine ⟨fun ⟨_, h⟩ => (by cases h), ?_⟩
    rintro (⟨_, h⟩ | ⟨_, h, -⟩) <;> cases h
  | panic why => exact ⟨fun _ => .inl ⟨why, rfl⟩, fun _ => ⟨why, rfl⟩⟩

@[simp] theorem not_panics_ofCheck (x : Check α) : ¬ (ofCheck x).Panics := by
  rintro ⟨_, h⟩
  cases x <;> cases h

@[simp] theorem not_panics_pure (a : α) : ¬ (pure a : Verdict α).Panics := by
  rintro ⟨_, h⟩
  cases h

@[simp] theorem pure_ok (a b : α) : (pure a : Verdict α) = .ok b ↔ a = b :=
  ⟨fun h => by cases h; rfl, fun h => by rw [h]; rfl⟩

/-- rewrite the text of an error -/
def mapErr (f : String → String) : Verdict α → Verdict α
  | .ok a => .ok a
  | .error e => .error (f e)
  | .panic why => .panic why

@[simp] theorem mapErr_ok (f : String → String) (x : Verdict α) (a : α) : mapErr f x = .ok a ↔ x = .ok a := by
  cases x <;> simp [mapErr]

@[simp] theorem panics_mapErr (f : String → String) (x : Verdict α) : (mapErr f x).Panics ↔ x.Panics := by
  cases x <;> simp [mapErr, Panics]

/-- a verdict that returns just what a check passes with -/
def Agrees (x : Verdict α) (y : Check α) : Prop := ∀ a, x = .ok a ↔ y = .ok a

theorem agrees_ofCheck (y : Check α) : Agrees (ofCheck y) y := ofCheck_ok y

theorem agrees_toCheck (x : Verdict α) : Agrees x x.toCheck := fun a => (toCheck_ok x a).symm

theorem agrees_pure (a : α) : Agrees (pure a) (pure a) := fun b => by rw [pure_ok, Base.pure_ok]

theorem Agrees.bind {x : Verdict α} {y : Check α} {f : α → Verdict β} {g : α → Check β} (hxy : Agrees x y)
    (hfg : ∀ a, Agrees (f a) (g a)) : Agrees (x >>= f) (y >>= g) := by
  intro b
  rw [bind_ok, Base.bind_ok]
  exact exists_congr fun a => and_congr (hxy a) (hfg a b)

theorem Agrees.mapErr {x : Verdict α} {y : Check α} (hxy : Agrees x y) (f : String → String) :
    Agrees (x.mapErr f) (Base.mapErr f y) := by
  intro a
  rw [mapErr_ok, Base.mapErr_ok]
  exact hxy a

theorem agrees_mapM {f : α → Verdict β} {g : α → Check β} (h : ∀ a, Agrees (f a) (g a)) (l : List α) :
    Agrees (l.mapM' f) (l.mapM' g) := by
  induction l with
  | nil => exact agrees_pure _
  | cons a l ih => exact (h a).bind fun _ => ih.bind fun _ => agrees_pure _

/-! ## Calls that are decided step by step -/

section

variable {σ : Type} (passes faults : σ → Prop)

/-- the first step that does not pass faults -/
def FaultsIn : List σ → Prop
  | [] => False
  | s :: rest => faults s ∨ passes s ∧ FaultsIn rest

/-- a call that returns when every step passes, and goes down when the first that does not faults -/
structure Walks (x : Verdict α) (steps : List σ) : Prop where
  returns : (∃ a, x = .ok a) ↔ ∀ s ∈ steps, passes s
  panics : x.Panics ↔ FaultsIn passes faults steps

variable {passes faults}

theorem FaultsIn.append {l l' : List σ} : FaultsIn passes faults (l ++ l') ↔
    FaultsIn passes faults l ∨ (∀ s ∈ l, passes s) ∧ FaultsIn passes faults l' := by
  induction l with
  | nil => simp [FaultsIn]
  | cons s l ih =>
    rw [List.cons_append, FaultsIn, FaultsIn, ih, List.forall_mem_cons]
    tauto

theorem walks_pure (a : α) : Walks passes faults (pure a) [] :=
  ⟨⟨fun _ _ hs => absurd hs List.not_mem_nil, fun _ => ⟨a, rfl⟩⟩, ⟨fun h => absurd h (not_panics_pure a), False.elim⟩⟩

theorem Walks.bind {x : Verdict α} {f : α → Verdict β} {l l' : List σ} (hx : Walks passes faults x l)
    (hf : ∀ a, x = .ok a → Walks passes faults (f a) l') : Walks passes faults (x >>= f) (l ++ l') := by
  constructor
  · simp only [bind_ok, List.forall_mem_append]
    constructor
    · rintro ⟨b, a, ha, hb⟩
      exact ⟨hx.returns.1 ⟨a, ha⟩, (hf a ha).returns.1 ⟨b, hb⟩⟩
    · rintro ⟨hl, hl'⟩
      obtain ⟨a, ha⟩ := hx.returns.2 hl
      obtain ⟨b, hb⟩ := (hf a ha).returns.2 hl'
      exact ⟨b, a, ha, hb⟩
  · rw [panics_bind, FaultsIn.append, hx.panics, ← hx.returns]
    constructor
    · rintro (h | ⟨a, ha, h⟩)
      · exact .inl h
      · exact .inr ⟨⟨a, ha⟩, (hf a ha).panics.1 h⟩
    · rintro (h | ⟨⟨a, ha⟩, h⟩)
      · exact .inl h
      · exact .inr ⟨a, ha, (hf a ha).panics.2 h⟩

/-- one step, then the rest -/
theorem Walks.cons {x : Verdict α} {f : α → Verdict β} {s : σ} {l : List σ} (hx : Walks passes faults x [s])
    (hf : ∀ a, x = .ok a → Walks passes faults (f a) l) : Walks passes faults (x >>= f) (s :: l) := hx.bind hf

/-- a result that is only wrapped is decided by the same steps -/
theorem Walks.then_pure {x : Verdict α} {f : α → β} {l : List σ} (hx : Walks passes faults x l) :
    Walks passes faults (x >>= fun a => pure (f a)) l := by
  have h := hx.bind fun a _ => (walks_pure (f a) : Walks passes faults (pure (f a)) [])
  rwa [List.append_nil] at h

theorem walks_one {x : Verdict α} {s : σ} (hok : (∃ a, x = .ok a) ↔ passes s) (hpanics : x.Panics ↔ faults s) :
    Walks passes faults x [s] :=
  ⟨by rw [List.forall_mem_singleton]; exact hok, by rw [FaultsIn, FaultsIn, and_false, or_false]; exact hpanics⟩

theorem walks_mapM {γ : Type} {f : γ → Verdict α} {steps : γ → List σ} (l : List γ)
    (h : ∀ a ∈ l, Walks passes faults (f a) (steps a)) : Walks passes faults (l.mapM' f) (l.flatMap steps) := by
  induction l with
  | nil => exact walks_pure _
  | cons a l ih =>
    rw [List.mapM'_cons, List.flatMap_cons]
    exact (h a List.mem_cons_self).bind fun _ _ => (ih fun b hb => h b (List.mem_cons_of_mem _ hb)).then_pure

end

end Verdict

/-! ## `Stage::load` -/

section

variable (dec : BlockDecoder) (rd : Reading) (o : Opened) (read : ByteExtent → Check (List UInt8))

namespace Opened

/-- the entry of the directory under a name -/
def info (name : String) : Option TensorInfo := o.directory.tensors.find? fun t => t.name = name

/-- `WeightFile::load` -/
def load (name : String) : Verdict Tensor := do
  let t ← Verdict.ofCheck (orBail (o.info name) s!"the file declares no tensor {name}")
  loadInfo dec o.directory o.bytes.length read t

def loadOptional (name : String) : Verdict (Option Tensor) :=
  if (o.info name).isSome then do
    let t ← o.load dec read name
    pure (some t)
  else pure none

def getTensor (i : ℕ) (suffix : String) (shape : List ℕ) : Verdict Tensor := do
  let t ← o.load dec read s!"blk.{i}.{suffix}"
  Verdict.ofCheck (t.expectShape s!"blk.{i}.{suffix}" shape)
  pure t

def getOptional (i : ℕ) (suffix : String) (shape : List ℕ) : Verdict (Option Tensor) := do
  match ← o.loadOptional dec read s!"blk.{i}.{suffix}" with
  | none => pure none
  | some t =>
    Verdict.ofCheck (t.expectShape s!"blk.{i}.{suffix}" shape)
    pure (some t)

variable (config : ModelConfig)

def loadBlock (i : ℕ) : Verdict BlockWeights := do
  let embed := config.embeddingLength.toNat
  let ffn := config.feedForwardLength.toNat
  Verdict.ofCheck (refuseUnknownTensors (o.weights dec rd read) i)
  let attnNorm ← o.getTensor dec read i "attn_norm.weight" [embed]
  let attnQ ← o.getTensor dec read i "attn_q.weight" [embed, config.qWidth.toNat]
  let attnK ← o.getTensor dec read i "attn_k.weight" [embed, config.kWidth.toNat]
  let attnV ← o.getTensor dec read i "attn_v.weight" [embed, config.vWidth.toNat]
  let attnOutput ← o.getTensor dec read i "attn_output.weight" [config.attentionWidth.toNat, embed]
  let ffnNorm ← o.getTensor dec read i "ffn_norm.weight" [embed]
  let ffnGate ← o.getTensor dec read i "ffn_gate.weight" [embed, ffn]
  let ffnUp ← o.getTensor dec read i "ffn_up.weight" [embed, ffn]
  let ffnDown ← o.getTensor dec read i "ffn_down.weight" [ffn, embed]
  let attnQNorm ← o.getOptional dec read i "attn_q_norm.weight" [config.keyLength.toNat]
  let attnKNorm ← o.getOptional dec read i "attn_k_norm.weight" [config.keyLength.toNat]
  let attnQBias ← o.getOptional dec read i "attn_q.bias" [config.qWidth.toNat]
  let attnKBias ← o.getOptional dec read i "attn_k.bias" [config.kWidth.toNat]
  let attnVBias ← o.getOptional dec read i "attn_v.bias" [config.vWidth.toNat]
  let attnOutputBias ← o.getOptional dec read i "attn_output.bias" [embed]
  pure { attnNorm, attnQ, attnK, attnV, attnOutput, ffnNorm, ffnGate, ffnUp, ffnDown, attnQNorm, attnKNorm, attnQBias,
         attnKBias, attnVBias, attnOutputBias }

/-- `dimensions[1]` of a vector takes the process down -/
def expectTable (name : String) (t : Tensor) : Verdict Unit :=
  match t.dimensions[1]? with
  | none => .panic "index out of bounds"
  | some rows => Verdict.ofCheck (t.expectShape name [config.embeddingLength.toNat, rows])

def loadEmbedding (first : Bool) : Verdict (Option Tensor) :=
  if first then do
    let table ← o.load dec read "token_embd.weight"
    expectTable config "token_embd.weight" table
    pure (some table)
  else pure none

def loadOutputNorm (last : Bool) : Verdict (Option Tensor) :=
  if last then do
    let norm ← o.load dec read "output_norm.weight"
    pure (some norm)
  else pure none

def loadOutputHead (last : Bool) (embedding : Option Tensor) : Verdict (Option Tensor) :=
  if last then do
    let head ← match ← o.loadOptional dec read "output.weight", embedding with
      | some head, _ => pure head
      | none, some table => pure table
      | none, none => (o.load dec read "token_embd.weight").mapErr tiedHeadMissing
    expectTable config "output head" head
    pure (some head)
  else pure none

def loadStage (start stop : ℕ) : Verdict Stage := do
  let config ← Verdict.ofCheck (o.configOf rd)
  Verdict.ofCheck (config.validateRange start stop)
  let embedding ← o.loadEmbedding dec read config (start = 0)
  let layers ← (List.range' start (stop - start)).mapM' (o.loadBlock dec rd read config)
  let outputNorm ← o.loadOutputNorm dec read (stop = config.blockCount.toNat)
  let outputHead ← o.loadOutputHead dec read config (stop = config.blockCount.toNat) embedding
  pure { config := (config.withVocab embedding).withVocab outputHead
         start, stop, embedding, outputNorm, outputHead, layers }

end Opened

/-! ## Where it returns, it returns what loading does -/

open Verdict

theorem agrees_load (name : String) : Agrees (o.load dec read name) ((o.weights dec rd read).load name) := by
  unfold Opened.load WeightFile.load
  rw [weights_info, Opened.info]
  cases o.directory.tensors.find? fun t => t.name = name with
  | none => exact fun _ => ⟨fun h => (by cases h), fun h => by cases h⟩
  | some t => exact agrees_toCheck _

theorem agrees_loadOptional (name : String) :
    Agrees (o.loadOptional dec read name) ((o.weights dec rd read).loadOptional name) := by
  have hsome : ((o.weights dec rd read).info name).isSome = (o.info name).isSome := by
    rw [weights_info, Option.isSome_map, Opened.info]
  unfold Opened.loadOptional WeightFile.loadOptional
  rw [hsome]
  split_ifs
  · exact (agrees_load dec rd o read name).bind fun _ => agrees_pure _
  · exact agrees_pure _

theorem agrees_getTensor (i : ℕ) (suffix : String) (shape : List ℕ) :
    Agrees (o.getTensor dec read i suffix shape) (getTensor (o.weights dec rd read) i suffix shape) :=
  (agrees_load dec rd o read _).bind fun _ => (agrees_ofCheck _).bind fun _ => agrees_pure _

theorem agrees_getOptional (i : ℕ) (suffix : String) (shape : List ℕ) :
    Agrees (o.getOptional dec read i suffix shape) (getOptional (o.weights dec rd read) i suffix shape) := by
  refine (agrees_loadOptional dec rd o read _).bind fun t => ?_
  cases t with
  | none => exact agrees_pure _
  | some t => exact (agrees_ofCheck _).bind fun _ => agrees_pure _

theorem agrees_loadBlock (config : ModelConfig) (i : ℕ) :
    Agrees (o.loadBlock dec rd read config i) (loadBlock (o.weights dec rd read) config i) := by
  have hneed := agrees_getTensor dec rd o read i
  have hmay := agrees_getOptional dec rd o read i
  refine (agrees_ofCheck _).bind fun _ => (hneed _ _).bind fun _ => (hneed _ _).bind fun _ => (hneed _ _).bind fun _ => ?_
  refine (hneed _ _).bind fun _ => (hneed _ _).bind fun _ => (hneed _ _).bind fun _ => (hneed _ _).bind fun _ => ?_
  refine (hneed _ _).bind fun _ => (hneed _ _).bind fun _ => (hmay _ _).bind fun _ => (hmay _ _).bind fun _ => ?_
  exact (hmay _ _).bind fun _ => (hmay _ _).bind fun _ => (hmay _ _).bind fun _ => (hmay _ _).bind fun _ => agrees_pure _

theorem agrees_expectTable (config : ModelConfig) (name : String) (t : Tensor) :
    Agrees (Opened.expectTable config name t) (expectTable config name t) := by
  unfold Opened.expectTable expectTable index
  cases t.dimensions[1]? with
  | none => exact fun _ => ⟨fun h => (by cases h), fun h => by cases h⟩
  | some rows => exact agrees_ofCheck _

/-- **Where loading returns, it returns what `Stage.load` does.** -/
theorem agrees_loadStage (start stop : ℕ) :
    Agrees (o.loadStage dec rd read start stop) (Stage.load (o.weights dec rd read) start stop) := by
  have hload := agrees_load dec rd o read
  have htable := agrees_expectTable
  have hembedding : ∀ config first, Agrees (o.loadEmbedding dec read config first)
      (loadEmbedding (o.weights dec rd read) config first) := by
    intro config first
    cases first
    · exact agrees_pure _
    · exact (hload _).bind fun _ => (htable _ _ _).bind fun _ => agrees_pure _
  have hnorm : ∀ last, Agrees (o.loadOutputNorm dec read last) (loadOutputNorm (o.weights dec rd read) last) := by
    intro last
    cases last
    · exact agrees_pure _
    · exact (hload _).bind fun _ => agrees_pure _
  have hhead : ∀ config last embedding, Agrees (o.loadOutputHead dec read config last embedding)
      (loadOutputHead (o.weights dec rd read) config last embedding) := by
    intro config last embedding
    cases last
    · exact agrees_pure _
    · refine (agrees_loadOptional dec rd o read _).bind fun head => ?_
      have hchecked : ∀ head, Agrees (Opened.expectTable config "output head" head >>= fun _ => pure (some head))
          (expectTable config "output head" head >>= fun _ => pure (some head)) :=
        fun head => (htable _ _ _).bind fun _ => agrees_pure _
      rcases head with _ | head
      · rcases embedding with _ | table
        · exact ((hload _).mapErr _).bind hchecked
        · exact (agrees_pure _).bind hchecked
      · exact (agrees_pure _).bind hchecked
  refine (agrees_ofCheck _).bind fun config => (agrees_ofCheck _).bind fun _ => (hembedding _ _).bind fun _ => ?_
  refine (agrees_mapM (agrees_loadBlock dec rd o read config) _).bind fun _ => (hnorm _).bind fun _ => ?_
  exact (hhead _ _ _).bind fun _ => agrees_pure _

/-! ## What loading asks for, in order -/

/-- the extents a tensor must have: these, those of a table of rows of a width, or any -/
inductive Extents where
  | exactly (shape : List ℕ)
  | table (width : ℕ)
  | any

def Extents.Fits : Extents → List ℕ → Prop
  | .exactly shape, dimensions => dimensions = shape
  | .table width, dimensions => ∃ rows, dimensions = [width, rows]
  | .any, _ => True

/-- one step of loading: the names of a block are all known, or a tensor is asked for, which may have to be there -/
inductive Step where
  | known (i : ℕ)
  | ask (name : String) (required : Bool) (extents : Extents)

namespace Opened

/-- the tensor has a type the engine executes, bytes that can be read and a number of elements -/
def Reads (t : TensorInfo) (n : ℕ) (data : List UInt8) : Prop :=
  isSupported t.kind = true ∧ 0 < (o.directory.extentOf t o.bytes.length).len ∧ t.elementCount = some n ∧
    read (o.directory.extentOf t o.bytes.length) = .ok data

/-- the tensor can be read and reconstructed -/
def Loads (t : TensorInfo) : Prop :=
  ∃ n data, o.Reads read t n data ∧ n < 2 ^ 61 ∧ ∃ values, dequantize dec t.kind data n = .ok values

/-- the vector of the tensor's values would have more bytes than an offset can say -/
def TakesDown (t : TensorInfo) : Prop := ∃ n data, o.Reads read t n data ∧ 2 ^ 61 ≤ n

def Passes : Step → Prop
  | .known i => refuseUnknownTensors (o.weights dec rd read) i = .ok ()
  | .ask name required extents =>
    (required = true → (o.info name).isSome) ∧ ∀ t ∈ o.info name, o.Loads dec read t ∧ extents.Fits t.dimensions

/-- a tensor takes the process down, or is asked for as a table and has no second extent -/
def Faults : Step → Prop
  | .known _ => False
  | .ask name _ extents => ∃ t ∈ o.info name, o.TakesDown read t ∨
      (∃ width, extents = .table width) ∧ o.Loads dec read t ∧ t.dimensions.length < 2

variable (config : ModelConfig)

def blockSteps (i : ℕ) : List Step :=
  let embed := config.embeddingLength.toNat
  let ffn := config.feedForwardLength.toNat
  let need (suffix : String) (shape : List ℕ) : Step := .ask s!"blk.{i}.{suffix}" true (.exactly shape)
  let may (suffix : String) (shape : List ℕ) : Step := .ask s!"blk.{i}.{suffix}" false (.exactly shape)
  [.known i, need "attn_norm.weight" [embed], need "attn_q.weight" [embed, config.qWidth.toNat],
    need "attn_k.weight" [embed, config.kWidth.toNat], need "attn_v.weight" [embed, config.vWidth.toNat],
    need "attn_output.weight" [config.attentionWidth.toNat, embed], need "ffn_norm.weight" [embed],
    need "ffn_gate.weight" [embed, ffn], need "ffn_up.weight" [embed, ffn], need "ffn_down.weight" [ffn, embed],
    may "attn_q_norm.weight" [config.keyLength.toNat], may "attn_k_norm.weight" [config.keyLength.toNat],
    may "attn_q.bias" [config.qWidth.toNat], may "attn_k.bias" [config.kWidth.toNat],
    may "attn_v.bias" [config.vWidth.toNat], may "attn_output.bias" [embed]]

/-- the table that a stage with block 0 embeds from -/
def embeddingName : String := "token_embd.weight"

/-- the table that the stage with the last block turns its activation into logits with: a head of its own or the tied
one -/
def headName : String := if (o.info "output.weight").isSome then "output.weight" else embeddingName

def table (name : String) : Step := .ask name true (.table config.embeddingLength.toNat)

/-- everything that loading the blocks `[start, stop)` comes to; a tied table that is already there is not read again -/
def steps (start stop : ℕ) : List Step :=
  (if start = 0 then [table config embeddingName] else []) ++
    (List.range' start (stop - start)).flatMap (blockSteps config) ++
    if stop = config.blockCount.toNat then
      .ask "output_norm.weight" true .any ::
        if (o.info "output.weight").isSome = false ∧ start = 0 then [] else [table config o.headName]
    else []

end Opened

/-- a call that is decided by what these steps come to in the file -/
abbrev Opened.Walks {α : Type} (x : Verdict α) (l : List Step) : Prop :=
  Verdict.Walks (o.Passes dec rd read) (o.Faults dec read) x l

variable {dec rd o read}

theorem loads_iff {t : TensorInfo} :
    (∃ tensor, loadInfo dec o.directory o.bytes.length read t = .ok tensor) ↔ o.Loads dec read t := by
  simp only [loadInfo_ok]
  constructor
  · rintro ⟨tensor, hkind, hlen, n, hn, hsmall, data, hdata, hvalues, -⟩
    exact ⟨n, data, ⟨hkind, hlen, hn, hdata⟩, by omega, tensor.values, hvalues⟩
  · rintro ⟨n, data, ⟨hkind, hlen, hn, hdata⟩, hsmall, values, hvalues⟩
    have hlength := dequantize_length dec hvalues
    exact ⟨⟨t.dimensions, values, hlength.trans (elementCount_eq hn), (elements_pos hkind hlen hn).trans_eq hlength.symm⟩,
      hkind, hlen, n, hn, by omega, data, hdata, hvalues, rfl⟩

theorem takesDown_iff {t : TensorInfo} :
    (loadInfo dec o.directory o.bytes.length read t).Panics ↔ o.TakesDown read t := by
  unfold loadInfo
  simp only [panics_bind, not_panics_ofCheck, false_or, ofCheck_ok]
  constructor
  · rintro ⟨kind, -, n, -, len, -, data, hdata, hdown⟩
    split_ifs at hdown with hbig
    · exact ⟨n.val, data, ⟨kind.down, len.down, (orBail_ok _ _ _).1 n.property, hdata⟩, by omega⟩
    · simp at hdown
  · rintro ⟨n, data, ⟨hkind, hlen, hn, hdata⟩, hbig⟩
    refine ⟨⟨hkind⟩, ensured_ok.2 hkind, ⟨n, (orBail_ok _ _ _).2 hn⟩, attested_ok _ _, ⟨hlen⟩, ensured_ok.2 hlen, data,
      hdata, ?_⟩
    rw [if_pos (show 2 ^ 63 ≤ 4 * n by omega)]
    exact ⟨_, rfl⟩

theorem loads_dimensions {t : TensorInfo} {tensor : Tensor}
    (h : loadInfo dec o.directory o.bytes.length read t = .ok tensor) : tensor.dimensions = t.dimensions := by
  obtain ⟨-, -, -, -, -, -, -, -, hdims⟩ := (loadInfo_ok dec).1 h
  exact hdims.symm

/-- a tensor of the file, or an error when it declares none -/
theorem load_eq (name : String) : o.load dec read name =
    match o.info name with
    | none => .error s!"the file declares no tensor {name}"
    | some t => loadInfo dec o.directory o.bytes.length read t := by
  unfold Opened.load
  cases o.info name <;> rfl

theorem load_ok {name : String} {tensor : Tensor} : o.load dec read name = .ok tensor ↔
    ∃ t ∈ o.info name, loadInfo dec o.directory o.bytes.length read t = .ok tensor := by
  rw [load_eq]
  cases o.info name with
  | none => simp
  | some t => simp

theorem load_panics {name : String} : (o.load dec read name).Panics ↔ ∃ t ∈ o.info name, o.TakesDown read t := by
  rw [load_eq]
  cases o.info name with
  | none => simp [Verdict.Panics]
  | some t => simp [takesDown_iff]

/-- a tensor that is asked for and then held to extents -/
theorem walks_need {α : Type} {name : String} {extents : Extents} {x : Verdict Tensor} {check : Tensor → Verdict Unit}
    {f : Tensor → α} (hx : ∀ tensor, x = .ok tensor ↔ o.load dec read name = .ok tensor)
    (hdown : x.Panics ↔ (o.load dec read name).Panics)
    (hok : ∀ t : Tensor, check t = .ok () ↔ extents.Fits t.dimensions)
    (hpanics : ∀ t : Tensor, (check t).Panics ↔ (∃ width, extents = .table width) ∧ t.dimensions.length < 2) :
    o.Walks dec rd read (x >>= fun t => check t >>= fun _ => pure (f t)) [.ask name true extents] := by
  refine walks_one ?_ ?_
  · simp only [Verdict.bind_ok, Verdict.pure_ok, hx, load_ok]
    constructor
    · rintro ⟨_, tensor, ⟨t, ht, hload⟩, u, hcheck, -⟩
      refine ⟨fun _ => Option.isSome_of_mem ht, fun x hx => ?_⟩
      obtain rfl := Option.mem_unique ht hx
      exact ⟨loads_iff.1 ⟨tensor, hload⟩, loads_dimensions hload ▸ (hok tensor).1 hcheck⟩
    · rintro ⟨hsome, hall⟩
      obtain ⟨t, ht⟩ := Option.isSome_iff_exists.1 (hsome rfl)
      obtain ⟨hloads, hfits⟩ := hall t ht
      obtain ⟨tensor, hload⟩ := loads_iff.2 hloads
      exact ⟨f tensor, tensor, ⟨t, ht, hload⟩, (), (hok tensor).2 (loads_dimensions hload ▸ hfits), rfl⟩
  · simp only [panics_bind, hx, hdown, load_panics, load_ok, not_panics_pure, and_false, exists_false, or_false, hpanics]
    constructor
    · rintro (⟨t, ht, hdown⟩ | ⟨tensor, ⟨t, ht, hload⟩, htable, hshort⟩)
      · exact ⟨t, ht, .inl hdown⟩
      · exact ⟨t, ht, .inr ⟨htable, loads_iff.1 ⟨tensor, hload⟩, loads_dimensions hload ▸ hshort⟩⟩
    · rintro ⟨t, ht, hdown | ⟨htable, hloads, hshort⟩⟩
      · exact .inl ⟨t, ht, hdown⟩
      · obtain ⟨tensor, hload⟩ := loads_iff.2 hloads
        exact .inr ⟨tensor, ⟨t, ht, hload⟩, htable, loads_dimensions hload ▸ hshort⟩

theorem expectShape_fits (name : String) (shape : List ℕ) (t : Tensor) :
    Verdict.ofCheck (t.expectShape name shape) = .ok () ↔ (Extents.exactly shape).Fits t.dimensions := by
  rw [Verdict.ofCheck_ok, Tensor.expectShape, bailIf_ok, not_not]
  rfl

theorem expectShape_panics (name : String) (shape : List ℕ) (t : Tensor) :
    (Verdict.ofCheck (t.expectShape name shape)).Panics ↔
      (∃ width, Extents.exactly shape = .table width) ∧ t.dimensions.length < 2 := by
  refine ⟨fun h => absurd h (not_panics_ofCheck _), ?_⟩
  rintro ⟨⟨_, h⟩, -⟩
  cases h

theorem expectTable_fits (config : ModelConfig) (name : String) (t : Tensor) :
    Opened.expectTable config name t = .ok () ↔ (Extents.table config.embeddingLength.toNat).Fits t.dimensions := by
  unfold Opened.expectTable
  cases hrows : t.dimensions[1]? with
  | none =>
    refine ⟨fun h => (by cases h), ?_⟩
    rintro ⟨rows, h⟩
    rw [h] at hrows
    cases hrows
  | some rows =>
    rw [Verdict.ofCheck_ok, Tensor.expectShape, bailIf_ok, not_not]
    refine ⟨fun h => ⟨rows, h⟩, ?_⟩
    rintro ⟨rows', h⟩
    rw [h] at hrows
    rw [h, Option.some.inj hrows]

theorem expectTable_panics (config : ModelConfig) (name : String) (t : Tensor) :
    (Opened.expectTable config name t).Panics ↔
      (∃ width, Extents.table config.embeddingLength.toNat = .table width) ∧ t.dimensions.length < 2 := by
  unfold Opened.expectTable
  cases hrows : t.dimensions[1]? with
  | none => exact iff_of_true ⟨_, rfl⟩ ⟨⟨_, rfl⟩, by simpa using hrows⟩
  | some rows =>
    have hlong : 1 < t.dimensions.length := (List.getElem?_eq_some_iff.1 hrows).1
    exact iff_of_false (not_panics_ofCheck _) fun h => by omega

theorem walks_getTensor (i : ℕ) (suffix : String) (shape : List ℕ) :
    o.Walks dec rd read (o.getTensor dec read i suffix shape) [.ask s!"blk.{i}.{suffix}" true (.exactly shape)] :=
  walks_need (fun _ => Iff.rfl) Iff.rfl (expectShape_fits _ shape) (expectShape_panics _ shape)

theorem walks_getOptional (i : ℕ) (suffix : String) (shape : List ℕ) :
    o.Walks dec rd read (o.getOptional dec read i suffix shape) [.ask s!"blk.{i}.{suffix}" false (.exactly shape)] := by
  cases hinfo : o.info s!"blk.{i}.{suffix}" with
  | none =>
    have habsent : o.getOptional dec read i suffix shape = pure none := by
      simp only [Opened.getOptional, Opened.loadOptional, hinfo]
      rfl
    rw [habsent]
    exact walks_one (iff_of_true ⟨none, rfl⟩ ⟨fun h => (by cases h), fun t ht => by rw [hinfo] at ht; cases ht⟩)
      (iff_of_false (not_panics_pure _) fun ⟨t, ht, _⟩ => by rw [hinfo] at ht; cases ht)
  | some t =>
    have hpresent : o.getOptional dec read i suffix shape = (o.load dec read s!"blk.{i}.{suffix}" >>= fun t =>
        Verdict.ofCheck (t.expectShape s!"blk.{i}.{suffix}" shape) >>= fun _ => pure (some t)) := by
      unfold Opened.getOptional Opened.loadOptional
      rw [hinfo]
      cases o.load dec read s!"blk.{i}.{suffix}" <;> rfl
    have hwalks : o.Walks dec rd read (o.load dec read s!"blk.{i}.{suffix}" >>= fun t =>
        Verdict.ofCheck (t.expectShape s!"blk.{i}.{suffix}" shape) >>= fun _ => pure (some t))
        [.ask s!"blk.{i}.{suffix}" true (.exactly shape)] :=
      walks_need (fun _ => Iff.rfl) Iff.rfl (expectShape_fits _ shape) (expectShape_panics _ shape)
    rw [hpresent]
    refine walks_one (hwalks.returns.trans ?_) (hwalks.panics.trans (by simp [FaultsIn, Opened.Faults]))
    rw [List.forall_mem_singleton]
    exact ⟨fun h => ⟨fun hrequired => (by cases hrequired), h.2⟩, fun h => ⟨fun _ => by rw [hinfo]; rfl, h.2⟩⟩

theorem walks_loadBlock (config : ModelConfig) (i : ℕ) :
    o.Walks dec rd read (o.loadBlock dec rd read config i) (Opened.blockSteps config i) := by
  have hneed : ∀ suffix shape, o.Walks dec rd read (o.getTensor dec read i suffix shape) [_] := walks_getTensor i
  have hmay : ∀ suffix shape, o.Walks dec rd read (o.getOptional dec read i suffix shape) [_] := walks_getOptional i
  refine .cons (walks_one (by simp [Opened.Passes]) (by simp [Opened.Faults])) fun _ _ => ?_
  refine (hneed _ _).cons fun _ _ => (hneed _ _).cons fun _ _ => (hneed _ _).cons fun _ _ => (hneed _ _).cons fun _ _ => ?_
  refine (hneed _ _).cons fun _ _ => (hneed _ _).cons fun _ _ => (hneed _ _).cons fun _ _ => (hneed _ _).cons fun _ _ => ?_
  refine (hneed _ _).cons fun _ _ => (hmay _ _).cons fun _ _ => (hmay _ _).cons fun _ _ => (hmay _ _).cons fun _ _ => ?_
  exact (hmay _ _).cons fun _ _ => (hmay _ _).cons fun _ _ => (hmay _ _).cons fun _ _ => walks_pure _

theorem walks_loadEmbedding (config : ModelConfig) (start : ℕ) :
    o.Walks dec rd read (o.loadEmbedding dec read config (start = 0))
      (if start = 0 then [Opened.table config Opened.embeddingName] else []) := by
  by_cases hfirst : start = 0
  · rw [if_pos hfirst, decide_eq_true hfirst]
    exact walks_need (fun _ => Iff.rfl) Iff.rfl (expectTable_fits config _) (expectTable_panics config _)
  · rw [if_neg hfirst, decide_eq_false hfirst]
    exact walks_pure _

/-- a stage has the table it embeds from when it holds block 0, and it is one -/
theorem loadEmbedding_ok {config : ModelConfig} {first : Bool} {embedding : Option Tensor}
    (h : o.loadEmbedding dec read config first = .ok embedding) :
    (first = true ↔ embedding.isSome) ∧ ∀ table ∈ embedding,
      o.load dec read Opened.embeddingName = .ok table ∧
        (Extents.table config.embeddingLength.toNat).Fits table.dimensions := by
  cases first with
  | false =>
    obtain rfl := (Verdict.pure_ok _ _).1 h
    exact ⟨by simp, fun _ h => by cases h⟩
  | true =>
    simp only [Opened.loadEmbedding, if_true, Verdict.bind_ok, Verdict.pure_ok] at h
    obtain ⟨table, hload, _, hfits, rfl⟩ := h
    refine ⟨by simp, fun t ht => ?_⟩
    obtain rfl := Option.some.inj ht
    exact ⟨hload, (expectTable_fits config _ _).1 hfits⟩

/-- the head is a tensor of its own, or the table, and then held to the extents of a table -/
theorem loadOutputHead_eq (config : ModelConfig) (embedding : Option Tensor) :
    o.loadOutputHead dec read config true embedding = ((match o.info "output.weight", embedding with
      | some _, _ => o.load dec read "output.weight"
      | none, some table => pure table
      | none, none => (o.load dec read Opened.embeddingName).mapErr tiedHeadMissing) >>= fun head =>
        Opened.expectTable config "output head" head >>= fun _ => pure (some head)) := by
  unfold Opened.loadOutputHead Opened.loadOptional
  cases o.info "output.weight" with
  | none => cases embedding <;> rfl
  | some t => cases o.load dec read "output.weight" <;> rfl

theorem walks_loadOutputHead {config : ModelConfig} {start : ℕ} (last : Prop) [Decidable last] {embedding : Option Tensor}
    (hembedding : o.loadEmbedding dec read config (start = 0) = .ok embedding) :
    o.Walks dec rd read (o.loadOutputHead dec read config last embedding)
      (if last then
        if (o.info "output.weight").isSome = false ∧ start = 0 then [] else [Opened.table config o.headName]
      else []) := by
  by_cases hlast : last
  case neg =>
    rw [if_neg hlast, decide_eq_false hlast]
    exact walks_pure _
  rw [if_pos hlast, decide_eq_true hlast, loadOutputHead_eq, Opened.headName]
  obtain ⟨hfirst, htable⟩ := loadEmbedding_ok hembedding
  cases hinfo : o.info "output.weight" with
  | some t =>
    rw [if_neg (by simp), if_pos (by simp)]
    exact walks_need (fun _ => Iff.rfl) Iff.rfl (expectTable_fits config _) (expectTable_panics config _)
  | none =>
    cases embedding with
    | some table =>
      -- the table is there, and has been held to its extents
      have hok := (expectTable_fits config "output head" table).2 (htable table rfl).2
      have hreturns : ((pure table : Verdict Tensor) >>= fun head => Opened.expectTable config "output head" head >>=
          fun _ => pure (some head)) = pure (some table) := by
        show (Opened.expectTable config "output head" table >>= fun _ => pure (some table)) = pure (some table)
        rw [hok]
        rfl
      rw [if_pos ⟨rfl, by simpa using hfirst⟩]
      dsimp only
      rw [hreturns]
      exact walks_pure _
    | none =>
      have hnot : start ≠ 0 := by simpa using hfirst
      rw [if_neg fun h => hnot h.2, if_neg (by simp)]
      exact walks_need (fun _ => Verdict.mapErr_ok _ _ _) (panics_mapErr _ _) (expectTable_fits config _)
        (expectTable_panics config _)

theorem walks_loadOutputNorm (last : Prop) [Decidable last] : o.Walks dec rd read (o.loadOutputNorm dec read last)
    (if last then [.ask "output_norm.weight" true .any] else []) := by
  by_cases hlast : last
  · rw [if_pos hlast, decide_eq_true hlast]
    let check : Tensor → Verdict Unit := fun _ => pure ()
    have hok : ∀ t, check t = .ok () ↔ Extents.any.Fits t.dimensions := fun _ => iff_of_true rfl trivial
    have hdown : ∀ t, (check t).Panics ↔ (∃ width, Extents.any = .table width) ∧ t.dimensions.length < 2 :=
      fun _ => iff_of_false (not_panics_pure _) fun ⟨⟨_, h⟩, _⟩ => by cases h
    exact walks_need (fun _ => Iff.rfl) Iff.rfl hok hdown
  · rw [if_neg hlast, decide_eq_false hlast]
    exact walks_pure _

/-- **What decides loading.** It returns a stage when the header has a configuration for the range and every step
passes, and goes down when the first step that does not pass faults. -/
theorem walks_loadStage (start stop : ℕ) :
    ((∃ stage, o.loadStage dec rd read start stop = .ok stage) ↔ ∃ config, o.configOf rd = .ok config ∧
      (start < stop ∧ stop ≤ config.blockCount.toNat) ∧ ∀ s ∈ o.steps config start stop, o.Passes dec rd read s) ∧
    ((o.loadStage dec rd read start stop).Panics ↔ ∃ config, o.configOf rd = .ok config ∧
      (start < stop ∧ stop ≤ config.blockCount.toNat) ∧
        FaultsIn (o.Passes dec rd read) (o.Faults dec read) (o.steps config start stop)) := by
  have hrest : ∀ config, o.Walks dec rd read (do
      let embedding ← o.loadEmbedding dec read config (start = 0)
      let layers ← (List.range' start (stop - start)).mapM' (o.loadBlock dec rd read config)
      let outputNorm ← o.loadOutputNorm dec read (stop = config.blockCount.toNat)
      let outputHead ← o.loadOutputHead dec read config (stop = config.blockCount.toNat) embedding
      pure { config := (config.withVocab embedding).withVocab outputHead
             start, stop, embedding, outputNorm, outputHead, layers : Stage }) (o.steps config start stop) := by
    intro config
    have hsteps : o.steps config start stop = (if start = 0 then [Opened.table config Opened.embeddingName] else []) ++
        ((List.range' start (stop - start)).flatMap (Opened.blockSteps config) ++
          ((if stop = config.blockCount.toNat then [.ask "output_norm.weight" true .any] else []) ++
            if stop = config.blockCount.toNat then
              if (o.info "output.weight").isSome = false ∧ start = 0 then [] else [Opened.table config o.headName]
            else [])) := by
      unfold Opened.steps
      rw [List.append_assoc]
      split_ifs <;> rfl
    rw [hsteps]
    refine (walks_loadEmbedding config start).bind fun embedding hembedding => ?_
    refine (walks_mapM _ fun i _ => walks_loadBlock config i).bind fun layers _ => ?_
    exact (walks_loadOutputNorm _).bind fun norm _ => (walks_loadOutputHead _ hembedding).then_pure
  constructor
  · simp only [Opened.loadStage, Verdict.bind_ok, Verdict.ofCheck_ok, ModelConfig.validateRange_ok]
    constructor
    · rintro ⟨stage, config, hconfig, _, hrange, hok⟩
      exact ⟨config, hconfig, hrange, (hrest config).returns.1 ⟨stage, by
        simp only [Verdict.bind_ok]
        exact hok⟩⟩
    · rintro ⟨config, hconfig, hrange, hall⟩
      obtain ⟨stage, hstage⟩ := (hrest config).returns.2 hall
      simp only [Verdict.bind_ok] at hstage
      exact ⟨stage, config, hconfig, (), hrange, hstage⟩
  · unfold Opened.loadStage
    rw [panics_bind]
    simp only [not_panics_ofCheck, false_or, Verdict.ofCheck_ok]
    refine exists_congr fun config => and_congr_right fun _ => ?_
    rw [panics_bind, (hrest config).panics]
    simp only [not_panics_ofCheck, false_or, Verdict.ofCheck_ok, ModelConfig.validateRange_ok, exists_const]

/-! ## What a loaded stage is made of -/

theorem loadOutputNorm_ok {last : Bool} {norm : Option Tensor} (h : o.loadOutputNorm dec read last = .ok norm) :
    (last = true ↔ norm.isSome) ∧ ∀ t ∈ norm, o.load dec read "output_norm.weight" = .ok t := by
  cases last with
  | false =>
    obtain rfl := (Verdict.pure_ok _ _).1 h
    exact ⟨by simp, fun _ h => by cases h⟩
  | true =>
    simp only [Opened.loadOutputNorm, if_true, Verdict.bind_ok, Verdict.pure_ok] at h
    obtain ⟨t, hload, rfl⟩ := h
    refine ⟨by simp, fun x hx => ?_⟩
    obtain rfl := Option.some.inj hx
    exact hload

theorem loadOutputHead_ok {config : ModelConfig} {first last : Bool} {embedding head : Option Tensor}
    (hembedding : o.loadEmbedding dec read config first = .ok embedding)
    (h : o.loadOutputHead dec read config last embedding = .ok head) :
    (last = true ↔ head.isSome) ∧ ∀ t ∈ head, o.load dec read o.headName = .ok t := by
  cases last with
  | false =>
    obtain rfl := (Verdict.pure_ok _ _).1 h
    exact ⟨by simp, fun _ h => by cases h⟩
  | true =>
    rw [loadOutputHead_eq, Verdict.bind_ok] at h
    obtain ⟨t, hload, hchecked⟩ := h
    obtain ⟨_, -, hhead⟩ := (Verdict.bind_ok _ _ _).1 hchecked
    obtain rfl := (Verdict.pure_ok _ _).1 hhead
    refine ⟨by simp, fun x hx => ?_⟩
    obtain rfl := Option.some.inj hx
    unfold Opened.headName
    cases hinfo : o.info "output.weight" with
    | some info =>
      rw [hinfo] at hload
      rwa [if_pos (by simp)]
    | none =>
      rw [hinfo] at hload
      rw [if_neg (by simp)]
      cases embedding with
      | some table =>
        obtain rfl := (Verdict.pure_ok _ _).1 hload
        exact ((loadEmbedding_ok hembedding).2 table rfl).1
      | none => exact (Verdict.mapErr_ok _ _ _).1 hload

end

end Hocmesh.Engine
