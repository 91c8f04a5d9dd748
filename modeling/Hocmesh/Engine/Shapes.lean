/-
What loading a stage makes sure of, and what the caches owe to it.

`Stage.load` checks every tensor of a block against the widths the configuration implies (`loadBlock_shaped`). So the
query, key and value of a token are always computed (`project_ok`), and what a block can refuse before it writes is a
position other than the one its cache ends at. After that it has written (`runToken_grows`), and nothing later in the
pass takes it back (`forward_writes`).
-/
import Hocmesh.Engine.Forward

namespace Hocmesh.Engine

open Hocmesh.Base

/-! ## Shapes -/

/-- every tensor of the block has the extents the configuration implies -/
structure BlockWeights.Shaped (config : ModelConfig) (b : BlockWeights) : Prop where
  attnNorm : b.attnNorm.dimensions = [config.embeddingLength.toNat]
  attnQ : b.attnQ.dimensions = [config.embeddingLength.toNat, config.qWidth.toNat]
  attnK : b.attnK.dimensions = [config.embeddingLength.toNat, config.kWidth.toNat]
  attnV : b.attnV.dimensions = [config.embeddingLength.toNat, config.vWidth.toNat]
  attnOutput : b.attnOutput.dimensions = [config.attentionWidth.toNat, config.embeddingLength.toNat]
  ffnNorm : b.ffnNorm.dimensions = [config.embeddingLength.toNat]
  ffnGate : b.ffnGate.dimensions = [config.embeddingLength.toNat, config.feedForwardLength.toNat]
  ffnUp : b.ffnUp.dimensions = [config.embeddingLength.toNat, config.feedForwardLength.toNat]
  ffnDown : b.ffnDown.dimensions = [config.feedForwardLength.toNat, config.embeddingLength.toNat]
  attnQNorm : ∀ t ∈ b.attnQNorm, t.dimensions = [config.keyLength.toNat]
  attnKNorm : ∀ t ∈ b.attnKNorm, t.dimensions = [config.keyLength.toNat]
  attnQBias : ∀ t ∈ b.attnQBias, t.dimensions = [config.qWidth.toNat]
  attnKBias : ∀ t ∈ b.attnKBias, t.dimensions = [config.kWidth.toNat]
  attnVBias : ∀ t ∈ b.attnVBias, t.dimensions = [config.vWidth.toNat]
  attnOutputBias : ∀ t ∈ b.attnOutputBias, t.dimensions = [config.embeddingLength.toNat]

theorem getTensor_shape {file : WeightFile} {i : ℕ} {suffix : String} {shape : List ℕ} {t : Tensor}
    (h : getTensor file i suffix shape = .ok t) : t.dimensions = shape := by
  simp only [getTensor, Tensor.expectShape, bind_ok, bailIf_ok, pure_ok, not_not] at h
  obtain ⟨t', -, _, hshape, rfl⟩ := h
  exact hshape

theorem getOptional_shape {file : WeightFile} {i : ℕ} {suffix : String} {shape : List ℕ} {o : Option Tensor}
    (h : getOptional file i suffix shape = .ok o) : ∀ t ∈ o, t.dimensions = shape := by
  intro t ht
  simp only [getOptional, bind_ok] at h
  obtain ⟨o', -, h⟩ := h
  cases o' with
  | none =>
    cases h
    cases ht
  | some t' =>
    simp only [Tensor.expectShape, bind_ok, bailIf_ok, pure_ok, not_not] at h
    obtain ⟨_, hshape, rfl⟩ := h
    cases ht
    exact hshape

theorem loadBlock_shaped {file : WeightFile} {config : ModelConfig} {i : ℕ} {b : BlockWeights}
    (h : loadBlock file config i = .ok b) : b.Shaped config := by
  simp only [loadBlock, bind_ok, pure_ok] at h
  obtain ⟨_, -, t₁, h₁, t₂, h₂, t₃, h₃, t₄, h₄, t₅, h₅, t₆, h₆, t₇, h₇, t₈, h₈, t₉, h₉, o₁, g₁, o₂, g₂, o₃, g₃, o₄, g₄,
    o₅, g₅, o₆, g₆, rfl⟩ := h
  exact ⟨getTensor_shape h₁, getTensor_shape h₂, getTensor_shape h₃, getTensor_shape h₄, getTensor_shape h₅,
    getTensor_shape h₆, getTensor_shape h₇, getTensor_shape h₈, getTensor_shape h₉, getOptional_shape g₁,
    getOptional_shape g₂, getOptional_shape g₃, getOptional_shape g₄, getOptional_shape g₅, getOptional_shape g₆⟩

/-- a stage as loading leaves it: at least one block, every block shaped by the configuration -/
structure Stage.Loaded (stage : Stage) : Prop where
  layers_ne : stage.layers ≠ []
  shaped : ∀ b ∈ stage.layers, b.Shaped stage.config

theorem BlockWeights.Shaped.withVocab {config : ModelConfig} {b : BlockWeights} (h : b.Shaped config)
    (t : Option Tensor) : b.Shaped (config.withVocab t) := by
  cases t with
  | none => exact h
  | some t => exact ⟨h.1, h.2, h.3, h.4, h.5, h.6, h.7, h.8, h.9, h.10, h.11, h.12, h.13, h.14, h.15⟩

theorem Stage.loaded_of_load {file : WeightFile} {start stop : ℕ} {stage : Stage}
    (h : Stage.load file start stop = .ok stage) : stage.Loaded := by
  obtain ⟨config, -, ⟨hlt, -⟩, embedding, -, layers, hl, norm, -, head, -, rfl⟩ :=
    (Stage.load_ok_iff file start stop stage).1 h
  constructor
  · intro hnil
    have hlen := length_of_mapM _ _ _ hl
    rw [show layers = [] from hnil, List.length_range', List.length_nil] at hlen
    omega
  · intro b hb
    obtain ⟨i, -, hi⟩ := mem_of_mapM _ _ _ hl b hb
    exact ((loadBlock_shaped hi).withVocab _).withVocab _

/-! ## A token is always projected -/

section

variable (ar : Arith) {config : ModelConfig} {layer : BlockWeights}

theorem slice_ok {α : Type} {l : List α} (start stop : ℕ) (h1 : start ≤ stop) (h2 : stop ≤ l.length) :
    ∃ r, slice l start stop = .ok r := ⟨_, (slice_ok_iff l start stop _).2 ⟨⟨h1, h2⟩, rfl⟩⟩

theorem matVec_ok {t : Tensor} {n m : ℕ} (h : t.dimensions = [n, m]) (input : List F32) :
    ∃ r, matVec ar t input m = .ok r ∧ r.length = m := by
  have hrow : t.rowLen = n := by simp [Tensor.rowLen, h]
  have hlen : t.values.length = n * m := by simp [t.filled, h]
  obtain ⟨r, hr, hrl, -⟩ := mapM_ok_of (fun i => do
    let row ← slice t.values (i * t.rowLen) ((i + 1) * t.rowLen)
    pure (dot ar row input)) (fun _ => True) (List.range m) (by
      intro i hi
      have him : i + 1 ≤ m := List.mem_range.1 hi
      obtain ⟨row, hrow'⟩ := slice_ok (l := t.values) (i * t.rowLen) ((i + 1) * t.rowLen)
        (Nat.mul_le_mul_right _ (by omega)) (by
          rw [hrow, hlen, mul_comm n m]
          exact Nat.mul_le_mul_right n him)
      exact ⟨dot ar row input, by simp [hrow'], trivial⟩)
  exact ⟨r, hr, by simpa using hrl⟩

theorem length_flatten_of_forall {α : Type} {n : ℕ} (l : List (List α)) (h : ∀ x ∈ l, x.length = n) :
    l.flatten.length = l.length * n := by
  induction l with
  | nil => simp
  | cons x l ih =>
    rw [List.flatten_cons, List.length_append, h x List.mem_cons_self, ih fun y hy => h y (List.mem_cons_of_mem _ hy),
      List.length_cons]
    ring

/-- a loop over whole chunks keeps the length of what it works on -/
theorem mapChunks_ok {α : Type} {n : ℕ} (hn : 0 < n) {f : List α → Check (List α)}
    (hf : ∀ chunk, chunk.length = n → ∃ r, f chunk = .ok r ∧ r.length = n) (l : List α) :
    ∃ r, mapChunks n f l = .ok r ∧ r.length = l.length := by
  obtain ⟨chunks, hchunks, hlen, hall⟩ := mapM_ok_of (fun i => f ((l.drop (i * n)).take n)) (fun r => r.length = n)
    (List.range (l.length / n)) (by
      intro i hi
      have hi' : i + 1 ≤ l.length / n := List.mem_range.1 hi
      have hle : (i + 1) * n ≤ l.length := (Nat.mul_le_mul_right n hi').trans (Nat.div_mul_le_self _ _)
      apply hf
      rw [List.length_take, List.length_drop]
      have : (i + 1) * n = i * n + n := by ring
      omega)
  refine ⟨chunks.flatten ++ l.drop (l.length / n * n), ?_, ?_⟩
  · simp [mapChunks, hchunks, bailIf, hn.ne']
  · rw [List.length_append, length_flatten_of_forall chunks hall, hlen, List.length_range, List.length_drop]
    have := Nat.div_mul_le_self l.length n
    omega

theorem rotate_ok (theta : F32) {rotated : ℕ} (style : RopeStyle) (position : ℕ) {head : List F32} {i : ℕ}
    (hi : i < rotated / 2) (hrot : rotated ≤ head.length) :
    ∃ r, rotate ar theta rotated style position head i = .ok r ∧ r.length = head.length := by
  have h1 : (style.pair (rotated / 2) i).1 < head.length := by
    cases style <;> simp only [RopeStyle.pair] <;> omega
  have h2 : (style.pair (rotated / 2) i).2 < head.length := by
    cases style <;> simp only [RopeStyle.pair] <;> omega
  refine ⟨_, by simp [rotate, index, orBail, List.getElem?_eq_getElem h1, List.getElem?_eq_getElem h2]; rfl, ?_⟩
  simp

/-- a loop whose every step goes through keeps what its steps keep -/
theorem foldlM_ok_of {α β : Type} (f : β → α → Check β) (P : β → Prop) (l : List α)
    (h : ∀ a ∈ l, ∀ b, P b → ∃ b', f b a = .ok b' ∧ P b') : ∀ b, P b → ∃ r, l.foldlM f b = .ok r ∧ P r := by
  induction l with
  | nil => exact fun b hb => ⟨b, rfl, hb⟩
  | cons a l ih =>
    intro b hb
    obtain ⟨b1, hb1, hP1⟩ := h a List.mem_cons_self b hb
    obtain ⟨r, hr, hPr⟩ := ih (fun x hx => h x (List.mem_cons_of_mem _ hx)) b1 hP1
    exact ⟨r, by simp [hb1, hr], hPr⟩

theorem rotateAll_ok (theta : F32) {rotated : ℕ} (style : RopeStyle) (position : ℕ) (is : List ℕ) (head : List F32)
    (his : ∀ i ∈ is, i < rotated / 2) (hrot : rotated ≤ head.length) :
    ∃ r, is.foldlM (rotate ar theta rotated style position) head = .ok r ∧ r.length = head.length := by
  refine foldlM_ok_of _ (fun turned => turned.length = head.length) is (fun i hi turned hturned => ?_) head rfl
  obtain ⟨r, hr, hlen⟩ := rotate_ok ar theta style position (his i hi) (hturned ▸ hrot)
  exact ⟨r, hr, hlen.trans hturned⟩

@[simp] theorem length_addBias (values : List F32) (bias : Option Tensor) :
    (addBias ar values bias).length = values.length := by
  cases bias <;> simp [addBias]

theorem turned_ok (config : ModelConfig) (vector : List F32) (bias norm : Option Tensor) (position : ℕ) :
    ∃ r, turned ar config vector bias norm position = .ok r ∧ r.length = vector.length := by
  have hkey : 0 < config.keyLength.toNat := config.keyLength_pos
  have hrope : config.ropeDimensionCount.toNat ≤ config.keyLength.toNat := config.rope_within
  have hbias := length_addBias ar vector bias
  obtain ⟨normed, hnormed, hlen⟩ : ∃ r, normEachHead ar (addBias ar vector bias) config.keyLength.toNat norm
      config.rmsNormEps = .ok r ∧ r.length = vector.length := by
    cases norm with
    | none => exact ⟨_, rfl, hbias⟩
    | some w =>
      obtain ⟨r, hr, hl⟩ := mapChunks_ok hkey (f := fun head =>
        pure (rmsNorm ar head w.values config.rmsNormEps (zeros ar config.keyLength.toNat)))
        (fun chunk _ => ⟨_, rfl, by simp [rmsNorm, zeros]⟩) (addBias ar vector bias)
      exact ⟨r, hr, hl.trans hbias⟩
  obtain ⟨r, hr, hrl⟩ := mapChunks_ok hkey (f := fun head => (List.range (config.ropeDimensionCount.toNat / 2)).foldlM
      (rotate ar config.ropeTheta config.ropeDimensionCount.toNat config.ropeStyle position) head) (by
    intro chunk hchunk
    obtain ⟨r, hr, hl⟩ := rotateAll_ok ar config.ropeTheta config.ropeStyle position
      (List.range (config.ropeDimensionCount.toNat / 2)) chunk
      (fun i hi => List.mem_range.1 hi) (by omega)
    exact ⟨r, hr, by omega⟩) normed
  refine ⟨r, ?_, by omega⟩
  simp only [turned, bind_ok]
  exact ⟨normed, hnormed, hr⟩

/-- a token is always projected, to a query, a key and a value of the widths of the configuration -/
theorem project_ok (hshape : layer.Shaped config) (row : List F32) (position : ℕ) :
    ∃ q k v, project ar config layer row position = .ok (q, k, v) ∧ q.length = config.qWidth.toNat ∧
      k.length = config.kWidth.toNat ∧ v.length = config.vWidth.toNat := by
  have hproject : ∀ (t : Tensor) (m : ℕ), t.dimensions = [config.embeddingLength.toNat, m] →
      ∃ r, matVec ar t (rmsNorm ar row layer.attnNorm.values config.rmsNormEps (zeros ar config.embeddingLength.toNat)) m
        = .ok r ∧ r.length = m := fun t m h => matVec_ok ar h _
  obtain ⟨q, hq, hqlen⟩ := hproject _ _ hshape.attnQ
  obtain ⟨k, hk, hklen⟩ := hproject _ _ hshape.attnK
  obtain ⟨v, hv, hvlen⟩ := hproject _ _ hshape.attnV
  obtain ⟨q', hq', hq'len⟩ := turned_ok ar config q layer.attnQBias layer.attnQNorm position
  obtain ⟨k', hk', hk'len⟩ := turned_ok ar config k layer.attnKBias layer.attnKNorm position
  refine ⟨q', k', addBias ar v layer.attnVBias, ?_, hq'len.trans hqlen, hk'len.trans hklen,
    (length_addBias ar v _).trans hvlen⟩
  simp only [project, bind_ok, pure_ok]
  exact ⟨q, hq, k, hk, v, hv, q', hq', k', hk', rfl⟩

theorem kWidth_pos (hshape : layer.Shaped config) : 0 < config.kWidth.toNat := by
  have hfilled := layer.attnK.filled
  have hnonempty := layer.attnK.nonempty
  rw [hshape.attnK, List.prod_cons, List.prod_singleton] at hfilled
  exact Nat.pos_of_mul_pos_left (hfilled ▸ hnonempty)

/-! ## What a block writes -/

theorem runToken_keeps (config : ModelConfig) (layer : BlockWeights) (cache : KvCache) (row : List F32) (position : ℕ) :
    cache.keys.length ≤ (runToken ar config layer cache row position).1.keys.length := by
  unfold runToken
  split
  · exact le_rfl
  · split_ifs
    · exact le_rfl
    · simp

theorem runTokens_keeps (position : ℕ) (tokens : List ℕ) (cache : KvCache) (hidden : List F32) :
    cache.keys.length ≤ (runTokens ar config layer position tokens cache hidden).1.keys.length := by
  induction tokens generalizing cache hidden with
  | nil => exact le_rfl
  | cons token rest ih =>
    simp only [runTokens]
    split
    · exact le_rfl
    · rename_i row hrow
      have hkeep := runToken_keeps ar config layer cache row (position + token)
      split
      · rename_i cache' e heq
        rw [heq] at hkeep
        exact hkeep
      · rename_i cache' row' heq
        rw [heq] at hkeep
        exact hkeep.trans (ih _ _)

theorem runToken_refused (hshape : layer.Shaped config) {cache : KvCache} (row : List F32) {position : ℕ}
    (h : cache.keys.length ≠ position * config.kWidth.toNat) :
    ∃ e, runToken ar config layer cache row position = (cache, .error e) := by
  obtain ⟨q, k, v, hp, -⟩ := project_ok ar hshape row position
  simp [runToken, hp, h]

/-- a token whose position the cache ends at is written, whatever becomes of the rest of the block -/
theorem runToken_grows (hshape : layer.Shaped config) {cache : KvCache} (row : List F32) {position : ℕ}
    (h : cache.keys.length = position * config.kWidth.toNat) :
    cache.keys.length < (runToken ar config layer cache row position).1.keys.length := by
  obtain ⟨q, k, v, hp, -, hk, -⟩ := project_ok ar hshape row position
  have hpos := kWidth_pos hshape
  simp only [runToken, hp, h, ne_eq, not_true_eq_false, if_false, List.length_append, hk]
  omega

/-- the first token of a step is at the position of the step, and its row is there -/
theorem runBlock_first (layer : BlockWeights) (position : ℕ) {tokens : ℕ} (hpos : 0 < tokens) (cache : KvCache) {hidden : List F32}
    (hlen : hidden.length = tokens * config.embeddingLength.toNat) :
    ∃ row rest, runBlock ar config layer position tokens cache hidden =
      match runToken ar config layer cache row position with
      | (cache', .error e) => (cache', .error e)
      | (cache', .ok row') => runTokens ar config layer position rest cache' (splice hidden 0 row') := by
  obtain ⟨n, rfl⟩ : ∃ n, tokens = n + 1 := ⟨tokens - 1, by omega⟩
  obtain ⟨row, hrow⟩ := slice_ok (l := hidden) 0 config.embeddingLength.toNat (Nat.zero_le _) (by
    rw [hlen]
    exact Nat.le_mul_of_pos_left _ hpos)
  refine ⟨row, (List.range n).map Nat.succ, ?_⟩
  unfold runBlock
  rw [List.range_succ_eq_map]
  rcases hrun : runToken ar config layer cache row position with ⟨cache', e | row'⟩
  · simp only [runTokens, Nat.add_zero, Nat.zero_mul, Nat.zero_add, Nat.one_mul, hrow, hrun]
  · simp only [runTokens, Nat.add_zero, Nat.zero_mul, Nat.zero_add, Nat.one_mul, hrow, hrun]

theorem runBlock_refused (hshape : layer.Shaped config) {position tokens : ℕ} (hpos : 0 < tokens) {cache : KvCache}
    {hidden : List F32} (hlen : hidden.length = tokens * config.embeddingLength.toNat)
    (h : cache.keys.length ≠ position * config.kWidth.toNat) :
    ∃ e, runBlock ar config layer position tokens cache hidden = (cache, .error e) := by
  obtain ⟨row, rest, hrun⟩ := runBlock_first ar layer position hpos cache hlen
  obtain ⟨e, he⟩ := runToken_refused ar hshape row h
  exact ⟨e, by rw [hrun, he]⟩

theorem runBlock_grows (hshape : layer.Shaped config) {position tokens : ℕ} (hpos : 0 < tokens) {cache : KvCache}
    {hidden : List F32} (hlen : hidden.length = tokens * config.embeddingLength.toNat)
    (h : cache.keys.length = position * config.kWidth.toNat) :
    cache.keys.length < (runBlock ar config layer position tokens cache hidden).1.keys.length := by
  obtain ⟨row, rest, hrun⟩ := runBlock_first ar layer position hpos cache hlen
  have hgrow := runToken_grows ar hshape row h
  rw [hrun]
  split
  · rename_i cache' e heq
    rw [heq] at hgrow
    exact hgrow
  · rename_i cache' row' heq
    rw [heq] at hgrow
    exact hgrow.trans_le (runTokens_keeps ar _ _ _ _)

end

namespace Stage

variable (ar : Arith) {stage : Stage}

/-- the activation has the size its tokens come to -/
def Sized (stage : Stage) (input : Activation) : Prop :=
  0 < input.tokens ∧ input.hidden.length = input.tokens * stage.config.embeddingLength.toNat

/-- the first block's cache ends where the activation begins -/
def InOrder (stage : Stage) (session : Session) (input : Activation) : Prop :=
  ∃ cache ∈ session.caches.head?, cache.keys.length = input.position.toNat * stage.config.kWidth.toNat

theorem forward_of_sized {session : Session} {input : Activation} (h : stage.Sized input) :
    stage.forward ar session input =
      (⟨(cascade (fun layer => runBlock ar stage.config layer input.position.toNat input.tokens) stage.layers
          session.caches input.hidden).1⟩,
        (cascade (fun layer => runBlock ar stage.config layer input.position.toNat input.tokens) stage.layers
          session.caches input.hidden).2.map fun hidden => { input with hidden }) := if_pos h

/-- a pass that is refused before the first block writes leaves the session as it was -/
theorem forward_refused (hl : stage.Loaded) {session : Session} {input : Activation}
    (h : ¬ (stage.Sized input ∧ stage.InOrder session input)) :
    ∃ e, stage.forward ar session input = (session, .error e) := by
  by_cases hsized : stage.Sized input
  case neg => exact ⟨_, if_neg hsized⟩
  rw [forward_of_sized ar hsized]
  obtain ⟨layer, layers, hlayers⟩ := List.exists_cons_of_ne_nil hl.layers_ne
  have hshape := hl.shaped layer (by rw [hlayers]; exact List.mem_cons_self)
  obtain ⟨caches⟩ := session
  rw [hlayers]
  cases caches with
  | nil => exact ⟨_, rfl⟩
  | cons cache caches =>
    have hne : cache.keys.length ≠ input.position.toNat * stage.config.kWidth.toNat := by
      intro heq
      exact h ⟨hsized, cache, rfl, heq⟩
    obtain ⟨e, he⟩ := runBlock_refused ar hshape hsized.1 hsized.2 hne
    exact ⟨e, by rw [cascade_cons, he]; rfl⟩

/-- **A pass that gets as far as the first block's cache has written**, also when it fails further on. -/
theorem forward_writes (hl : stage.Loaded) {session : Session} {input : Activation} (hsized : stage.Sized input)
    (horder : stage.InOrder session input) : (stage.forward ar session input).1 ≠ session := by
  obtain ⟨layer, layers, hlayers⟩ := List.exists_cons_of_ne_nil hl.layers_ne
  have hshape := hl.shaped layer (by rw [hlayers]; exact List.mem_cons_self)
  obtain ⟨cache, hcache, heq⟩ := horder
  obtain ⟨caches⟩ := session
  cases caches with
  | nil => cases hcache
  | cons c caches =>
    obtain rfl : c = cache := Option.some.inj hcache
    have hgrow := runBlock_grows ar hshape hsized.1 hsized.2 heq
    intro hsame
    -- the first cache of the pass is the first block's, and it is longer
    have hhead : ((stage.forward ar ⟨c :: caches⟩ input).1.caches.head?.map fun c => c.keys.length) =
        some (runBlock ar stage.config layer input.position.toNat input.tokens c input.hidden).1.keys.length := by
      rw [forward_of_sized ar hsized, hlayers, cascade_cons]
      cases hr : runBlock ar stage.config layer input.position.toNat input.tokens c input.hidden with
      | mk c' r => cases r <;> rfl
    rw [hsame] at hhead
    simp only [List.head?_cons, Option.map_some, Option.some.injEq] at hhead
    omega

end Stage

end Hocmesh.Engine
