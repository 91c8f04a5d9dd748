/-
`hocmesh-engine`: one contiguous range of a model's transformer blocks, loaded and executed.

A file is its configuration and, for every tensor its directory lists, what reading that tensor gives. `Stage.load` takes
the blocks `[start, stop)` out of it, the embedding table with block 0 and the output head with the last block; `embed`,
`forward` and `logits` run them. `forward` keeps its keys and values in a `Session` of the caller's and returns it also
when it fails, because the source writes it in place. An `Activation` is what one stage hands the next, and survives the
wire bit for bit (`fromBytes_toBytes`).
-/
import Hocmesh.Base.Cascade
import Hocmesh.Base.Words
import Hocmesh.Engine.Kernels

namespace Hocmesh.Engine

open Hocmesh.Base

/-! ## Configuration and tensors -/

/-- what a forward pass reads of the header, with the checks `from_header` has made -/
structure ModelConfig where
  ropeStyle : RopeStyle
  /-- blocks of the whole model, not of a stage -/
  blockCount : UInt32
  embeddingLength : UInt32
  headCount : UInt32
  headCountKv : UInt32
  feedForwardLength : UInt32
  keyLength : UInt32
  valueLength : UInt32
  rmsNormEps : F32
  ropeTheta : F32
  ropeDimensionCount : UInt32
  vocabSize : UInt32
  headCount_pos : 0 < headCount
  headCountKv_pos : 0 < headCountKv
  heads_grouped : headCountKv.toNat ∣ headCount.toNat
  keyLength_pos : 0 < keyLength
  valueLength_pos : 0 < valueLength
  rope_within : ropeDimensionCount ≤ keyLength
  rope_even : 2 ∣ ropeDimensionCount.toNat
deriving DecidableEq

namespace ModelConfig

variable (config : ModelConfig)

def groupSize : UInt32 := config.headCount / max config.headCountKv 1

/- the products are of `u32` and wrap as they do -/

def kWidth : UInt32 := config.headCountKv * config.keyLength

def vWidth : UInt32 := config.headCountKv * config.valueLength

def attentionWidth : UInt32 := config.headCount * config.valueLength

def qWidth : UInt32 := config.headCount * config.keyLength

def validateRange (start stop : ℕ) : Check Unit := do
  bailIf (¬ start < stop) s!"a stage holding no blocks ({start}..{stop}) is a network hop that computes nothing"
  bailIf (¬ stop ≤ config.blockCount.toNat)
    s!"blocks {start}..{stop} run past the model's {config.blockCount} blocks"

@[simp] theorem validateRange_ok (config : ModelConfig) (start stop : ℕ) (u : Unit) :
    config.validateRange start stop = .ok u ↔ start < stop ∧ stop ≤ config.blockCount.toNat := by
  simp [validateRange]

end ModelConfig

/-- one tensor as `WeightFile::load` returns it: as many values as its extents say, and not none -/
structure Tensor where
  dimensions : List ℕ
  values : List F32
  filled : values.length = dimensions.prod
  nonempty : 0 < values.length
deriving DecidableEq

namespace Tensor

variable (t : Tensor)

def rowLen : ℕ := t.dimensions.headD 0

def rows : ℕ := t.values.length / t.rowLen

def row (i : ℕ) : Check (List F32) := slice t.values (i * t.rowLen) ((i + 1) * t.rowLen)

def expectShape (name : String) (dimensions : List ℕ) : Check Unit :=
  bailIf (t.dimensions ≠ dimensions) s!"{name} is {t.dimensions}, expected {dimensions}"

end Tensor

/-- the vocabulary of the table or head that was loaded, over the one the header declares -/
def ModelConfig.withVocab (config : ModelConfig) (table : Option Tensor) : ModelConfig :=
  match table with
  | none => config
  | some t => { config with vocabSize := UInt32.ofNat (t.dimensions.getD 1 0) }

/-! ## The file -/

/-- a tensor of the directory, and what reading its bytes and reconstructing them gives -/
structure TensorEntry where
  name : String
  contents : Check Tensor

/-- a model file: `ModelConfig::from_header` of its header, and its directory in order -/
structure WeightFile where
  config : Check ModelConfig
  tensors : List TensorEntry

/-- `str::parse::<u32>` -/
def parseU32 (text : List Char) : Option ℕ :=
  let digits := match text with
    | '+' :: rest => rest
    | _ => text
  if digits ≠ [] ∧ digits.all Char.isDigit then
    let n := digits.foldl (fun n d => n * 10 + (d.toNat - '0'.toNat)) 0
    if n < 2 ^ 32 then some n else none
  else none

/-- the block of a `blk.N.` name -/
def layerIndex (name : String) : Option ℕ :=
  match name.toList with
  | 'b' :: 'l' :: 'k' :: '.' :: rest => if '.' ∈ rest then parseU32 (rest.takeWhile (· ≠ '.')) else none
  | _ => none

namespace WeightFile

variable (file : WeightFile)

def tensorsForLayers (start stop : ℕ) : List TensorEntry :=
  file.tensors.filter fun t => match layerIndex t.name with
    | some i => start ≤ i ∧ i < stop
    | none => false

def info (name : String) : Option TensorEntry := file.tensors.find? fun t => t.name = name

def load (name : String) : Check Tensor := do
  let t ← orBail (file.info name) s!"the file declares no tensor {name}"
  t.contents

def loadOptional (name : String) : Check (Option Tensor) :=
  if (file.info name).isSome then do
    let t ← file.load name
    pure (some t)
  else pure none

end WeightFile

/-! ## A stage -/

/-- the tensors of one block: nine that must be there, and six terms some families add -/
structure BlockWeights where
  attnNorm : Tensor
  attnQ : Tensor
  attnK : Tensor
  attnV : Tensor
  attnOutput : Tensor
  ffnNorm : Tensor
  ffnGate : Tensor
  ffnUp : Tensor
  ffnDown : Tensor
  attnQNorm : Option Tensor
  attnKNorm : Option Tensor
  attnQBias : Option Tensor
  attnKBias : Option Tensor
  attnVBias : Option Tensor
  attnOutputBias : Option Tensor
deriving DecidableEq

/-- keys and values of the positions a sequence has passed -/
structure KvCache where
  keys : List F32
  values : List F32
deriving DecidableEq

/-- what one sequence remembers at a stage: a cache for every block held there -/
structure Session where
  caches : List KvCache
deriving DecidableEq

structure Stage where
  config : ModelConfig
  start : ℕ
  stop : ℕ
  embedding : Option Tensor
  outputNorm : Option Tensor
  outputHead : Option Tensor
  layers : List BlockWeights
deriving DecidableEq

/-- every suffix the forward pass reads -/
def consumed : List String :=
  ["attn_norm.weight", "attn_q.weight", "attn_k.weight", "attn_v.weight", "attn_output.weight", "ffn_norm.weight",
    "ffn_gate.weight", "ffn_up.weight", "ffn_down.weight", "attn_q_norm.weight", "attn_k_norm.weight", "attn_q.bias",
    "attn_k.bias", "attn_v.bias", "attn_output.bias"]

/-- `name.strip_prefix(&format!("blk.{index}.")).unwrap_or(name)` -/
def blockSuffix (i : ℕ) (name : String) : String :=
  let head := s!"blk.{i}.".toList
  if head.isPrefixOf name.toList then String.ofList (name.toList.drop head.length) else name

def refuseUnknownTensors (file : WeightFile) (i : ℕ) : Check Unit :=
  each (fun t => bailIf (blockSuffix i t.name ∉ consumed) s!"{t.name} is a tensor this build does not read")
    (file.tensorsForLayers i (i + 1))

section Load

variable (file : WeightFile) (config : ModelConfig)

/-- `get` of `Stage::load` -/
def getTensor (i : ℕ) (suffix : String) (shape : List ℕ) : Check Tensor := do
  let t ← file.load s!"blk.{i}.{suffix}"
  t.expectShape s!"blk.{i}.{suffix}" shape
  pure t

/-- `get_optional` of `Stage::load` -/
def getOptional (i : ℕ) (suffix : String) (shape : List ℕ) : Check (Option Tensor) := do
  match ← file.loadOptional s!"blk.{i}.{suffix}" with
  | none => pure none
  | some t =>
    t.expectShape s!"blk.{i}.{suffix}" shape
    pure (some t)

def loadBlock (i : ℕ) : Check BlockWeights := do
  let embed := config.embeddingLength.toNat
  let ffn := config.feedForwardLength.toNat
  refuseUnknownTensors file i
  let attnNorm ← getTensor file i "attn_norm.weight" [embed]
  let attnQ ← getTensor file i "attn_q.weight" [embed, config.qWidth.toNat]
  let attnK ← getTensor file i "attn_k.weight" [embed, config.kWidth.toNat]
  let attnV ← getTensor file i "attn_v.weight" [embed, config.vWidth.toNat]
  let attnOutput ← getTensor file i "attn_output.weight" [config.attentionWidth.toNat, embed]
  let ffnNorm ← getTensor file i "ffn_norm.weight" [embed]
  let ffnGate ← getTensor file i "ffn_gate.weight" [embed, ffn]
  let ffnUp ← getTensor file i "ffn_up.weight" [embed, ffn]
  let ffnDown ← getTensor file i "ffn_down.weight" [ffn, embed]
  -- one head's width: the same weights are applied to every head in turn
  let attnQNorm ← getOptional file i "attn_q_norm.weight" [config.keyLength.toNat]
  let attnKNorm ← getOptional file i "attn_k_norm.weight" [config.keyLength.toNat]
  let attnQBias ← getOptional file i "attn_q.bias" [config.qWidth.toNat]
  let attnKBias ← getOptional file i "attn_k.bias" [config.kWidth.toNat]
  let attnVBias ← getOptional file i "attn_v.bias" [config.vWidth.toNat]
  let attnOutputBias ← getOptional file i "attn_output.bias" [embed]
  pure { attnNorm, attnQ, attnK, attnV, attnOutput, ffnNorm, ffnGate, ffnUp, ffnDown, attnQNorm, attnKNorm, attnQBias,
         attnKBias, attnVBias, attnOutputBias }

/-- a table of `embedding_length`-wide rows, however many: reading `dimensions[1]` of a vector stops the program -/
def expectTable (name : String) (t : Tensor) : Check Unit := do
  let rows ← index t.dimensions 1
  t.expectShape name [config.embeddingLength.toNat, rows]

def loadEmbedding (first : Bool) : Check (Option Tensor) :=
  if first then do
    let table ← file.load "token_embd.weight"
    expectTable config "token_embd.weight" table
    pure (some table)
  else pure none

def loadOutputNorm (last : Bool) : Check (Option Tensor) :=
  if last then do
    let norm ← file.load "output_norm.weight"
    pure (some norm)
  else pure none

def tiedHeadMissing (error : String) : String :=
  "this model ties its output head to its embedding table, but this file holds neither, so the stage with the last " ++
    s!"block has nothing to turn its activation into logits with: {error}"

/-- a model without `output.weight` ties its head to its embedding table, which the stage with the last block then
reads whether or not it holds block 0 -/
def loadOutputHead (last : Bool) (embedding : Option Tensor) : Check (Option Tensor) :=
  if last then do
    let head ← match ← file.loadOptional "output.weight", embedding with
      | some head, _ => pure head
      | none, some table => pure table
      | none, none => mapErr tiedHeadMissing (file.load "token_embd.weight")
    expectTable config "output head" head
    pure (some head)
  else pure none

end Load

namespace Stage

/-- `Stage::load` -/
def load (file : WeightFile) (start stop : ℕ) : Check Stage := do
  let config ← file.config
  config.validateRange start stop
  let embedding ← loadEmbedding file config (start = 0)
  let layers ← (List.range' start (stop - start)).mapM' (loadBlock file config)
  let outputNorm ← loadOutputNorm file (stop = config.blockCount.toNat)
  let outputHead ← loadOutputHead file config (stop = config.blockCount.toNat) embedding
  pure { config := (config.withVocab embedding).withVocab outputHead
         start, stop, embedding, outputNorm, outputHead, layers }

theorem load_ok_iff (file : WeightFile) (start stop : ℕ) (stage : Stage) :
    load file start stop = .ok stage ↔ ∃ config, file.config = .ok config ∧ (start < stop ∧ stop ≤ config.blockCount.toNat) ∧
      ∃ embedding, loadEmbedding file config (start = 0) = .ok embedding ∧
      ∃ layers, (List.range' start (stop - start)).mapM' (loadBlock file config) = .ok layers ∧
      ∃ norm, loadOutputNorm file (stop = config.blockCount.toNat) = .ok norm ∧
      ∃ head, loadOutputHead file config (stop = config.blockCount.toNat) embedding = .ok head ∧
      ⟨(config.withVocab embedding).withVocab head, start, stop, embedding, norm, head, layers⟩ = stage := by
  simp only [load, bind_ok, pure_ok, ModelConfig.validateRange_ok, exists_const]

variable (stage : Stage)

def isFirst : Bool := stage.start = 0

def isLast : Bool := stage.stop = stage.config.blockCount.toNat

/-- an empty cache for every block held here -/
def session : Session := ⟨stage.layers.map fun _ => ⟨[], []⟩⟩

end Stage

/-! ## Activations -/

structure Activation where
  /-- absolute position of the first token of the step -/
  position : UInt32
  /-- row-major `[tokens][embedding_length]` -/
  hidden : List F32
  tokens : ℕ
deriving DecidableEq

namespace Activation

def toBytes (a : Activation) : List UInt8 :=
  leBytes a.position ++ leBytes (UInt32.ofNat a.tokens) ++ a.hidden.flatMap leBytes

def fromBytes (bytes : List UInt8) : Check Activation := do
  match words (bytes.take 8) with
  | [position, tokens] =>
    let body := bytes.drop 8
    bailIf (¬ 4 ∣ body.length) s!"activation frame holds {body.length} bytes, not a whole number of f32"
    let hidden := words body
    bailIf (¬ (0 < tokens.toNat ∧ tokens.toNat ∣ hidden.length))
      s!"{hidden.length} values do not divide into {tokens} tokens"
    pure ⟨position, hidden, tokens.toNat⟩
  | _ => .error "activation frame is too short for a header"

/-- **The wire keeps every bit.** An activation of at least one token and fewer than `2^32`, whose values divide into its
tokens, is read back as it was written; every activation a stage hands on is one. -/
theorem fromBytes_toBytes (a : Activation) (h0 : 0 < a.tokens) (h1 : a.tokens < 2 ^ 32) (h2 : a.tokens ∣ a.hidden.length) :
    fromBytes a.toBytes = .ok a := by
  have htake : a.toBytes.take 8 = leBytes a.position ++ (leBytes (UInt32.ofNat a.tokens) ++ []) := by
    simp [toBytes, leBytes]
  have hdrop : a.toBytes.drop 8 = a.hidden.flatMap leBytes := by
    simp [toBytes, leBytes]
  have htokens : (UInt32.ofNat a.tokens).toNat = a.tokens := by
    rw [UInt32.toNat_ofNat']
    exact Nat.mod_eq_of_lt h1
  unfold fromBytes
  rw [htake, words_append_leBytes, words_append_leBytes, hdrop]
  simp [words, htokens, h0, h2, bailIf]

end Activation

end Hocmesh.Engine
