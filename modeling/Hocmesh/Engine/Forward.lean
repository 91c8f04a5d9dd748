/-
Running a stage: `embed`, `forward` and `logits`.

A block goes through the tokens of a step one by one. Each is projected, checked against the cache, which must end where
the token's position begins, written to the cache, attended over everything the cache then holds, and passed through the
feed-forward layer. The blocks of a stage are a `cascade`: `forward` is what its rows of caches and the activation come to.
-/
import Hocmesh.Engine.Stage

namespace Hocmesh.Engine

open Hocmesh.Base

section

variable (ar : Arith)

def matVec (weight : Tensor) (input : List F32) (outputs : ℕ) : Check (List F32) :=
  (List.range outputs).mapM' fun i => do
    let row ← slice weight.values (i * weight.rowLen) ((i + 1) * weight.rowLen)
    pure (dot ar row input)

def addBias (values : List F32) (bias : Option Tensor) : List F32 :=
  match bias with
  | none => values
  | some b => addInto ar values b.values

/-- one weight vector of a head's width, applied to every head in turn -/
def normEachHead (values : List F32) (headDim : ℕ) (weight : Option Tensor) (eps : F32) : Check (List F32) :=
  match weight with
  | none => pure values
  | some w => mapChunks headDim (fun head => pure (rmsNorm ar head w.values eps (zeros ar headDim))) values

variable (config : ModelConfig) (layer : BlockWeights)

/-! ## One block -/

/-- a bias, then the head norm, then the rotation: what turns a projection into a query or a key -/
def turned (vector : List F32) (bias norm : Option Tensor) (position : ℕ) : Check (List F32) := do
  let normed ← normEachHead ar (addBias ar vector bias) config.keyLength.toNat norm config.rmsNormEps
  rope ar normed config.keyLength.toNat config.ropeTheta config.ropeDimensionCount.toNat config.ropeStyle position

/-- query, key and value of one token -/
def project (row : List F32) (position : ℕ) : Check (List F32 × List F32 × List F32) := do
  let normed := rmsNorm ar row layer.attnNorm.values config.rmsNormEps (zeros ar config.embeddingLength.toNat)
  let q ← matVec ar layer.attnQ normed config.qWidth.toNat
  let k ← matVec ar layer.attnK normed config.kWidth.toNat
  let v ← matVec ar layer.attnV normed config.vWidth.toNat
  let q ← turned ar config q layer.attnQBias layer.attnQNorm position
  let k ← turned ar config k layer.attnKBias layer.attnKNorm position
  pure (q, k, addBias ar v layer.attnVBias)

/-- what one query head makes of the positions up to its own -/
def attendHead (cache : KvCache) (q : List F32) (position : ℕ) (attended : List F32) (head : ℕ) : Check (List F32) := do
  let keyLength := config.keyLength.toNat
  let valueLength := config.valueLength.toNat
  let kvHead := head / config.groupSize.toNat
  let scale := ar.div ar.one (ar.sqrt (ar.ofNat keyLength))
  let query ← slice q (head * keyLength) ((head + 1) * keyLength)
  let scores ← (List.range (position + 1)).mapM' fun past => do
    let at' := past * config.kWidth.toNat + kvHead * keyLength
    let key ← slice cache.keys at' (at' + keyLength)
    pure (ar.mul (dot ar query key) scale)
  let _ ← slice attended (head * valueLength) ((head + 1) * valueLength)
  let out ← (softmax ar scores).zipIdx.foldlM (fun out (w : F32 × ℕ) => do
    let at' := w.2 * config.vWidth.toNat + kvHead * valueLength
    let value ← slice cache.values at' (at' + valueLength)
    pure (addInto ar out (value.map (ar.mul w.1)))) (zeros ar valueLength)
  pure (splice attended (head * valueLength) out)

def attend (cache : KvCache) (q : List F32) (position : ℕ) : Check (List F32) :=
  (List.range config.headCount.toNat).foldlM (attendHead ar config cache q position)
    (zeros ar config.attentionWidth.toNat)

def feedForward (row : List F32) : Check (List F32) := do
  let width := config.embeddingLength.toNat
  let ffn := config.feedForwardLength.toNat
  let normed := rmsNorm ar row layer.ffnNorm.values config.rmsNormEps (zeros ar width)
  let gate ← matVec ar layer.ffnGate normed ffn
  let up ← matVec ar layer.ffnUp normed ffn
  let projected ← matVec ar layer.ffnDown (List.zipWith (fun g u => ar.mul (silu ar g) u) gate up) width
  pure (addInto ar row projected)

/-- the rest of the block, once the token's key and value are in the cache -/
def afterWrite (cache : KvCache) (q row : List F32) (position : ℕ) : Check (List F32) := do
  let attended ← attend ar config cache q position
  let projected ← matVec ar layer.attnOutput attended config.embeddingLength.toNat
  feedForward ar config layer (addInto ar row (addBias ar projected layer.attnOutputBias))

/-- one token through one block -/
def runToken (cache : KvCache) (row : List F32) (position : ℕ) : KvCache × Check (List F32) :=
  match project ar config layer row position with
  | .error e => (cache, .error e)
  | .ok (q, k, v) =>
    -- the cache is append-only: a position is written exactly once
    if cache.keys.length ≠ position * config.kWidth.toNat then
      (cache, .error (s!"position {position} arrived out of order: the cache holds " ++
        s!"{cache.keys.length / max config.kWidth.toNat 1} positions"))
    else
      let written : KvCache := ⟨cache.keys ++ k, cache.values ++ v⟩
      (written, afterWrite ar config layer written q row position)

/-- `for token in 0..tokens` of `run_block`, over the tokens that are left -/
def runTokens (position : ℕ) : List ℕ → KvCache → List F32 → KvCache × Check (List F32)
  | [], cache, hidden => (cache, .ok hidden)
  | token :: rest, cache, hidden =>
    let width := config.embeddingLength.toNat
    match slice hidden (token * width) ((token + 1) * width) with
    | .error e => (cache, .error e)
    | .ok row =>
      match runToken ar config layer cache row (position + token) with
      | (cache', .error e) => (cache', .error e)
      | (cache', .ok row') => runTokens position rest cache' (splice hidden (token * width) row')

def runBlock (position tokens : ℕ) (cache : KvCache) (hidden : List F32) : KvCache × Check (List F32) :=
  runTokens ar config layer position (List.range tokens) cache hidden

/-! ## A stage -/

namespace Stage

variable (stage : Stage)

def embed (tokens : List UInt32) (position : UInt32) : Check Activation := do
  let table ← orBail stage.embedding "only the stage holding block 0 can embed tokens"
  let rows ← tokens.mapM' fun token => do
    bailIf (¬ token.toNat < table.rows) s!"token {token} is outside a vocabulary of {table.rows}"
    table.row token.toNat
  pure ⟨position, rows.flatten, tokens.length⟩

/-- the session as the blocks leave it, also when one of them fails, and the activation for the next stage -/
def forward (session : Session) (input : Activation) : Session × Check Activation :=
  let width := stage.config.embeddingLength.toNat
  if 0 < input.tokens ∧ input.hidden.length = input.tokens * width then
    let r := cascade (fun layer => runBlock ar stage.config layer input.position.toNat input.tokens) stage.layers
      session.caches input.hidden
    (⟨r.1⟩, r.2.map fun hidden => { input with hidden })
  else (session, .error s!"activation is {input.hidden.length} values, expected {input.tokens} x {width}")

def logits (input : Activation) : Check (List F32) := do
  let norm ← orBail stage.outputNorm "only the stage holding the last block can produce logits"
  let head ← orBail stage.outputHead "this stage holds no output head"
  let width := stage.config.embeddingLength.toNat
  let last ← slice input.hidden ((input.tokens - 1) * width) (input.tokens * width)
  -- the norm's shape is not checked: what it does not reach stays zero
  matVec ar head (rmsNorm ar last norm.values stage.config.rmsNormEps (zeros ar width)) head.rows

end Stage

end

/-! ## Lengths -/

section

variable {ar : Arith} {config : ModelConfig} {layer : BlockWeights}

@[simp] theorem length_addInto (values deltas : List F32) : (addInto ar values deltas).length = values.length := by
  induction values generalizing deltas with
  | nil => cases deltas <;> rfl
  | cons v values ih =>
    cases deltas with
    | nil => rfl
    | cons d deltas => simp [addInto, ih]

theorem feedForward_length {row row' : List F32} (h : feedForward ar config layer row = .ok row') :
    row'.length = row.length := by
  simp only [feedForward, bind_ok, pure_ok] at h
  obtain ⟨gate, -, up, -, projected, -, rfl⟩ := h
  simp

theorem runToken_length {cache cache' : KvCache} {row row' : List F32} {position : ℕ}
    (h : runToken ar config layer cache row position = (cache', .ok row')) : row'.length = row.length := by
  unfold runToken at h
  split at h
  · cases h
  · split_ifs at h with hpos
    · cases h
    · simp only [Prod.mk.injEq, afterWrite, bind_ok] at h
      obtain ⟨-, attended, -, projected, -, hff⟩ := h
      simpa using feedForward_length hff

theorem runTokens_length {position : ℕ} (tokens : List ℕ) (cache cache' : KvCache) (hidden hidden' : List F32)
    (h : runTokens ar config layer position tokens cache hidden = (cache', .ok hidden')) :
    hidden'.length = hidden.length := by
  induction tokens generalizing cache hidden with
  | nil =>
    simp only [runTokens, Prod.mk.injEq, Except.ok.injEq] at h
    rw [h.2]
  | cons token rest ih =>
    simp only [runTokens] at h
    split at h
    · cases h
    · rename_i row hrow
      split at h
      · cases h
      · rename_i cache1 row' hrun
        have hlen := runToken_length hrun
        have hslice := length_of_slice hrow
        have hfit := ((slice_ok_iff _ _ _ _).1 hrow).1
        rw [ih _ _ h]
        apply length_splice
        omega

/-- a block returns as many values as it was given -/
theorem runBlock_length {position tokens : ℕ} {cache cache' : KvCache} {hidden hidden' : List F32}
    (h : runBlock ar config layer position tokens cache hidden = (cache', .ok hidden')) :
    hidden'.length = hidden.length :=
  runTokens_length _ _ _ _ _ h

/-- A stage answers with an activation of the position, tokens and width it was given. -/
theorem forward_shape {stage : Stage} {session session' : Session} {input output : Activation}
    (h : stage.forward ar session input = (session', .ok output)) :
    output.position = input.position ∧ output.tokens = input.tokens ∧ output.hidden.length = input.hidden.length := by
  unfold Stage.forward at h
  simp only at h
  split_ifs at h with hin
  case neg => cases h
  simp only [Prod.mk.injEq] at h
  obtain ⟨-, hout⟩ := h
  cases hr : (cascade (fun layer => runBlock ar stage.config layer input.position.toNat input.tokens) stage.layers
      session.caches input.hidden).2 with
  | error e => rw [hr] at hout; cases hout
  | ok hidden =>
    rw [hr] at hout
    cases hout
    refine ⟨rfl, rfl, ?_⟩
    refine cascade_keeps _ (fun x => x.length = input.hidden.length) ?_ _ _ _ _ _ rfl (Prod.ext rfl hr)
    intro l c x c' y hx hy
    rw [runBlock_length hy, hx]

end

end Hocmesh.Engine
