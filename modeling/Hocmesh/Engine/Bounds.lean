/-
Running a loaded stage stays inside its vectors.

When the widths of a configuration are the products they stand for (`ModelConfig.Exact`), every slice a block takes of its
query, its caches and its output is there. So a pass whose position the caches end at returns (`runBlock_ok`), the caches of
all blocks end at the same position again, and the only thing a pass can refuse is a position out of order.
-/
import Hocmesh.Engine.Shapes

namespace Hocmesh.Engine

open Hocmesh.Base

/-! ## Widths that are the products -/

/-- no product of the configuration wraps -/
structure ModelConfig.Exact (config : ModelConfig) : Prop where
  q : config.qWidth.toNat = config.headCount.toNat * config.keyLength.toNat
  k : config.kWidth.toNat = config.headCountKv.toNat * config.keyLength.toNat
  v : config.vWidth.toNat = config.headCountKv.toNat * config.valueLength.toNat
  attention : config.attentionWidth.toNat = config.headCount.toNat * config.valueLength.toNat

/-- the cache ends where this position begins -/
structure KvCache.EndsAt (config : ModelConfig) (cache : KvCache) (position : ℕ) : Prop where
  keys : cache.keys.length = position * config.kWidth.toNat
  values : cache.values.length = position * config.vWidth.toNat

/-- a query head's key and value head is one of them -/
theorem ModelConfig.kvHead_lt (config : ModelConfig) {head : ℕ} (h : head < config.headCount.toNat) :
    head / config.groupSize.toNat < config.headCountKv.toNat := by
  have hkv : 0 < config.headCountKv.toNat := config.headCountKv_pos
  have hmax : max config.headCountKv 1 = config.headCountKv := by
    show (if config.headCountKv ≤ 1 then 1 else config.headCountKv) = config.headCountKv
    split_ifs with hle
    · exact UInt32.le_antisymm (UInt32.le_iff_toNat_le.2 hkv) hle
    · rfl
  have hgroup : config.groupSize.toNat = config.headCount.toNat / config.headCountKv.toNat := by
    rw [ModelConfig.groupSize, UInt32.toNat_div, hmax]
  have hmul : config.headCountKv.toNat * config.groupSize.toNat = config.headCount.toNat := by
    rw [hgroup]
    exact Nat.mul_div_cancel' config.heads_grouped
  exact Nat.div_lt_of_lt_mul (by rwa [mul_comm, hmul])

/-- the part of a row that belongs to one of its heads is inside it -/
theorem head_within {head heads width : ℕ} (h : head < heads) : head * width + width ≤ heads * width := by
  rw [← Nat.succ_mul]
  exact Nat.mul_le_mul_right width h

/-- and so it is in every row of a cache -/
theorem past_within {past position row at' width : ℕ} (hpast : past < position) (h : at' + width ≤ row) :
    past * row + at' + width ≤ position * row :=
  calc past * row + at' + width ≤ past * row + row := by omega
    _ ≤ position * row := head_within hpast

section

variable (ar : Arith) {config : ModelConfig} {layer : BlockWeights}

/-! ## One token -/

theorem length_softmax (scores : List F32) : (softmax ar scores).length = scores.length := by
  simp [softmax]

theorem length_zeros (n : ℕ) : (zeros ar n).length = n := List.length_replicate

theorem attendHead_ok (hexact : config.Exact) {cache : KvCache} {position : ℕ} (hcache : cache.EndsAt config (position + 1))
    {q attended : List F32} (hq : q.length = config.qWidth.toNat) (hattended : attended.length = config.attentionWidth.toNat)
    {head : ℕ} (hhead : head < config.headCount.toNat) :
    ∃ r, attendHead ar config cache q position attended head = .ok r ∧ r.length = config.attentionWidth.toNat := by
  have hkv := config.kvHead_lt hhead
  obtain ⟨query, hquery⟩ := slice_ok (l := q) (head * config.keyLength.toNat) ((head + 1) * config.keyLength.toNat)
    (Nat.mul_le_mul_right _ (Nat.le_succ _)) (by rw [hq, hexact.q]; exact Nat.mul_le_mul_right _ hhead)
  have hscore : ∀ past ∈ List.range (position + 1), ∃ score, (do
      let at' := past * config.kWidth.toNat + head / config.groupSize.toNat * config.keyLength.toNat
      let key ← slice cache.keys at' (at' + config.keyLength.toNat)
      pure (ar.mul (dot ar query key) (ar.div ar.one (ar.sqrt (ar.ofNat config.keyLength.toNat)))) : Check F32) = .ok score ∧
        True := by
    intro past hpast
    obtain ⟨key, hkey⟩ := slice_ok (l := cache.keys)
      (past * config.kWidth.toNat + head / config.groupSize.toNat * config.keyLength.toNat)
      (past * config.kWidth.toNat + head / config.groupSize.toNat * config.keyLength.toNat + config.keyLength.toNat)
      (Nat.le_add_right _ _)
      (by rw [hcache.keys]; exact past_within (List.mem_range.1 hpast) (by rw [hexact.k]; exact head_within hkv))
    simp only [bind_ok, pure_ok]
    exact ⟨_, ⟨key, hkey, rfl⟩, trivial⟩
  obtain ⟨scores, hscores, hlen, -⟩ := mapM_ok_of _ _ _ hscore
  have hwithin : (head + 1) * config.valueLength.toNat ≤ attended.length := by
    rw [hattended, hexact.attention]
    exact Nat.mul_le_mul_right _ hhead
  obtain ⟨old, hold⟩ := slice_ok (l := attended) (head * config.valueLength.toNat) ((head + 1) * config.valueLength.toNat)
    (Nat.mul_le_mul_right _ (Nat.le_succ _)) hwithin
  have hweigh : ∀ w ∈ (softmax ar scores).zipIdx, ∀ out : List F32, out.length = config.valueLength.toNat → ∃ out', (do
      let at' := w.2 * config.vWidth.toNat + head / config.groupSize.toNat * config.valueLength.toNat
      let value ← slice cache.values at' (at' + config.valueLength.toNat)
      pure (addInto ar out (value.map (ar.mul w.1))) : Check (List F32)) = .ok out' ∧
        out'.length = config.valueLength.toNat := by
    intro w hw out hout
    have hpast : w.2 < position + 1 := by
      have hidx := List.snd_lt_of_mem_zipIdx hw
      rwa [length_softmax, hlen, List.length_range] at hidx
    obtain ⟨value, hvalue⟩ := slice_ok (l := cache.values)
      (w.2 * config.vWidth.toNat + head / config.groupSize.toNat * config.valueLength.toNat)
      (w.2 * config.vWidth.toNat + head / config.groupSize.toNat * config.valueLength.toNat + config.valueLength.toNat)
      (Nat.le_add_right _ _)
      (by rw [hcache.values]; exact past_within hpast (by rw [hexact.v]; exact head_within hkv))
    simp only [bind_ok, pure_ok]
    exact ⟨_, ⟨value, hvalue, rfl⟩, by rw [length_addInto, hout]⟩
  obtain ⟨out, hout, houtlen⟩ := foldlM_ok_of _ _ _ hweigh (zeros ar config.valueLength.toNat) (length_zeros ar _)
  refine ⟨splice attended (head * config.valueLength.toNat) out, ?_, ?_⟩
  · simp only [attendHead, bind_ok, pure_ok]
    exact ⟨query, hquery, scores, hscores, old, hold, out, hout, rfl⟩
  · rw [length_splice attended out _ (by rw [houtlen, ← Nat.succ_mul]; exact hwithin), hattended]

theorem attend_ok (hexact : config.Exact) {cache : KvCache} {position : ℕ} (hcache : cache.EndsAt config (position + 1))
    {q : List F32} (hq : q.length = config.qWidth.toNat) : ∃ r, attend ar config cache q position = .ok r := by
  obtain ⟨r, hr, -⟩ := foldlM_ok_of (attendHead ar config cache q position)
    (fun attended => attended.length = config.attentionWidth.toNat) (List.range config.headCount.toNat)
    (fun head hhead attended hattended => attendHead_ok ar hexact hcache hq hattended (List.mem_range.1 hhead))
    (zeros ar config.attentionWidth.toNat) (length_zeros ar _)
  exact ⟨r, hr⟩

theorem feedForward_ok (hshape : layer.Shaped config) (row : List F32) : ∃ r, feedForward ar config layer row = .ok r := by
  obtain ⟨gate, hgate, -⟩ := matVec_ok ar hshape.ffnGate
    (rmsNorm ar row layer.ffnNorm.values config.rmsNormEps (zeros ar config.embeddingLength.toNat))
  obtain ⟨up, hup, -⟩ := matVec_ok ar hshape.ffnUp
    (rmsNorm ar row layer.ffnNorm.values config.rmsNormEps (zeros ar config.embeddingLength.toNat))
  obtain ⟨projected, hprojected, -⟩ := matVec_ok ar hshape.ffnDown
    (List.zipWith (fun g u => ar.mul (silu ar g) u) gate up)
  refine ⟨addInto ar row projected, ?_⟩
  simp only [feedForward, bind_ok, pure_ok]
  exact ⟨gate, hgate, up, hup, projected, hprojected, rfl⟩

theorem afterWrite_ok (hexact : config.Exact) (hshape : layer.Shaped config) {cache : KvCache} {position : ℕ}
    (hcache : cache.EndsAt config (position + 1)) {q : List F32} (hq : q.length = config.qWidth.toNat) (row : List F32) :
    ∃ r, afterWrite ar config layer cache q row position = .ok r := by
  obtain ⟨attended, hattended⟩ := attend_ok ar hexact hcache hq
  obtain ⟨projected, hprojected, -⟩ := matVec_ok ar hshape.attnOutput attended
  obtain ⟨r, hr⟩ := feedForward_ok ar hshape (addInto ar row (addBias ar projected layer.attnOutputBias))
  refine ⟨r, ?_⟩
  simp only [afterWrite, bind_ok]
  exact ⟨attended, hattended, projected, hprojected, hr⟩

/-- a token whose position the cache ends at goes through, and leaves the cache one position further -/
theorem runToken_ok (hexact : config.Exact) (hshape : layer.Shaped config) {cache : KvCache} {position : ℕ}
    (hcache : cache.EndsAt config position) (row : List F32) :
    ∃ cache' row', runToken ar config layer cache row position = (cache', .ok row') ∧ row'.length = row.length ∧
      cache'.EndsAt config (position + 1) := by
  obtain ⟨q, k, v, hproject, hq, hk, hv⟩ := project_ok ar hshape row position
  have hwritten : KvCache.EndsAt config ⟨cache.keys ++ k, cache.values ++ v⟩ (position + 1) := by
    constructor
    · rw [List.length_append, hcache.keys, hk, Nat.succ_mul]
    · rw [List.length_append, hcache.values, hv, Nat.succ_mul]
  obtain ⟨row', hrow'⟩ := afterWrite_ok ar hexact hshape hwritten hq row
  have hrun : runToken ar config layer cache row position = (⟨cache.keys ++ k, cache.values ++ v⟩, .ok row') := by
    simp only [runToken, hproject, hcache.keys, ne_eq, not_true_eq_false, if_false, hrow']
  exact ⟨_, row', hrun, runToken_length hrun, hwritten⟩

/-! ## One block -/

/-- the loop over the tokens that are left, from the one the cache ends at -/
theorem runTokens_ok (hexact : config.Exact) (hshape : layer.Shaped config) {position : ℕ} (n first : ℕ) {cache : KvCache}
    (hcache : cache.EndsAt config (position + first)) {hidden : List F32}
    (hhidden : (first + n) * config.embeddingLength.toNat ≤ hidden.length) :
    ∃ cache' hidden', runTokens ar config layer position (List.range' first n) cache hidden = (cache', .ok hidden') ∧
      cache'.EndsAt config (position + (first + n)) := by
  induction n generalizing first cache hidden with
  | zero => exact ⟨cache, hidden, rfl, hcache⟩
  | succ n ih =>
    have hfit : (first + 1) * config.embeddingLength.toNat ≤ hidden.length :=
      (Nat.mul_le_mul_right _ (by omega)).trans hhidden
    obtain ⟨row, hrow⟩ := slice_ok (l := hidden) (first * config.embeddingLength.toNat)
      ((first + 1) * config.embeddingLength.toNat) (Nat.mul_le_mul_right _ (Nat.le_succ _)) hfit
    obtain ⟨cache', row', hrun, hlen, hnext⟩ := runToken_ok ar hexact hshape hcache row
    have hrowlen : first * config.embeddingLength.toNat + row'.length ≤ hidden.length := by
      rw [hlen, length_of_slice hrow, Nat.add_sub_cancel' (Nat.mul_le_mul_right _ (Nat.le_succ _))]
      exact hfit
    have hspliced : (first + 1 + n) * config.embeddingLength.toNat ≤
        (splice hidden (first * config.embeddingLength.toNat) row').length := by
      rw [length_splice _ _ _ hrowlen]
      exact (Nat.mul_le_mul_right _ (by omega)).trans hhidden
    obtain ⟨cache'', hidden'', hrest, hends⟩ := ih (first + 1) hnext hspliced
    refine ⟨cache'', hidden'', ?_, by rwa [show first + (n + 1) = first + 1 + n by omega]⟩
    rw [List.range'_succ]
    simp only [runTokens, hrow, hrun]
    exact hrest

/-- **A pass in order goes through a block**, and the block's cache ends where the next pass begins. -/
theorem runBlock_ok (hexact : config.Exact) (hshape : layer.Shaped config) {position tokens : ℕ} {cache : KvCache}
    (hcache : cache.EndsAt config position) {hidden : List F32}
    (hhidden : hidden.length = tokens * config.embeddingLength.toNat) :
    ∃ cache' hidden', runBlock ar config layer position tokens cache hidden = (cache', .ok hidden') ∧
      hidden'.length = hidden.length ∧ cache'.EndsAt config (position + tokens) := by
  have hstart : cache.EndsAt config (position + 0) := hcache
  have hlen : (0 + tokens) * config.embeddingLength.toNat ≤ hidden.length := by rw [hhidden, Nat.zero_add]
  obtain ⟨cache', hidden', hrun, hends⟩ := runTokens_ok ar hexact hshape tokens 0 hstart hlen
  rw [Nat.zero_add] at hends
  rw [← List.range_eq_range'] at hrun
  exact ⟨cache', hidden', hrun, runBlock_length hrun, hends⟩

/-! ## Out of order -/

/-- the error of a position that the cache does not end at -/
def outOfOrder (position held : ℕ) : String :=
  s!"position {position} arrived out of order: the cache holds " ++ s!"{held} positions"

theorem runBlock_outOfOrder (hshape : layer.Shaped config) {position held tokens : ℕ} (htokens : 0 < tokens)
    {cache : KvCache} (hcache : cache.EndsAt config held) (hne : position ≠ held) {hidden : List F32}
    (hhidden : hidden.length = tokens * config.embeddingLength.toNat) :
    runBlock ar config layer position tokens cache hidden = (cache, .error (outOfOrder position held)) := by
  have hwidth := kWidth_pos hshape
  obtain ⟨row, rest, hrun⟩ := runBlock_first ar layer position htokens cache hhidden
  obtain ⟨q, k, v, hproject, -⟩ := project_ok ar hshape row position
  have hlen : cache.keys.length ≠ position * config.kWidth.toNat := by
    rw [hcache.keys]
    exact fun heq => hne (Nat.eq_of_mul_eq_mul_right hwidth heq).symm
  have hheld : cache.keys.length / max config.kWidth.toNat 1 = held := by
    rw [max_eq_left hwidth, hcache.keys, Nat.mul_div_cancel held hwidth]
  have htoken : runToken ar config layer cache row position = (cache, .error (outOfOrder position held)) := by
    simp only [runToken, hproject, if_pos hlen, hheld]
    rfl
  rw [hrun, htoken]

end

/-! ## A stage -/

namespace Stage

variable (ar : Arith) {stage : Stage}

/-- a cache for each block of the stage, and all of them end at one position -/
structure HoldsTo (stage : Stage) (session : Session) (held : ℕ) : Prop where
  fits : session.caches.length = stage.layers.length
  ends : ∀ cache ∈ session.caches, cache.EndsAt stage.config held

/-- **What a pass does.** It is refused and changes nothing, or it goes through and every cache is as many positions
further. -/
theorem forward_cases (hl : stage.Loaded) (hexact : stage.config.Exact) {session : Session} {held : ℕ}
    (hsession : stage.HoldsTo session held) (input : Activation) :
    (¬ stage.Sized input ∧ ∃ e, stage.forward ar session input = (session, .error e)) ∨
      (stage.Sized input ∧ input.position.toNat ≠ held ∧
        stage.forward ar session input = (session, .error (outOfOrder input.position.toNat held))) ∨
      (stage.Sized input ∧ input.position.toNat = held ∧ ∃ session' output,
        stage.forward ar session input = (session', .ok output) ∧ stage.HoldsTo session' (held + input.tokens)) := by
  by_cases hsized : stage.Sized input
  case neg => exact .inl ⟨hsized, _, if_neg hsized⟩
  refine .inr ?_
  rw [forward_of_sized ar hsized]
  by_cases hposition : input.position.toNat = held
  · refine .inr ⟨hsized, hposition, ?_⟩
    obtain ⟨caches, hidden, hrun, hlen, hends⟩ := cascade_ok
      (fun layer => runBlock ar stage.config layer input.position.toNat input.tokens)
      (fun cache => cache.EndsAt stage.config held) (fun cache => cache.EndsAt stage.config (held + input.tokens))
      (fun hidden => hidden.length = input.tokens * stage.config.embeddingLength.toNat) stage.layers
      (fun layer hlayer cache hidden hcache hhidden => by
        have hhere : cache.EndsAt stage.config input.position.toNat := hposition ▸ hcache
        obtain ⟨cache', hidden', hrun, hlen, hends⟩ := runBlock_ok ar hexact (hl.shaped layer hlayer) hhere hhidden
        exact ⟨cache', hidden', hrun, hlen.trans hhidden, hposition ▸ hends⟩)
      session.caches input.hidden hsession.fits hsession.ends hsized.2
    refine ⟨⟨caches⟩, { input with hidden }, by rw [hrun]; rfl, ⟨?_, hends⟩⟩
    have hkept := length_cascade (fun layer => runBlock ar stage.config layer input.position.toNat input.tokens)
      stage.layers session.caches input.hidden
    rw [hrun] at hkept
    exact hkept.trans hsession.fits
  · refine .inl ⟨hsized, hposition, ?_⟩
    obtain ⟨layer, layers, hlayers⟩ := List.exists_cons_of_ne_nil hl.layers_ne
    obtain ⟨caches⟩ := session
    have hfits := hsession.fits
    rw [hlayers]
    cases caches with
    | nil => rw [hlayers] at hfits; cases hfits
    | cons cache caches =>
      have hblock := runBlock_outOfOrder ar (hl.shaped layer (by rw [hlayers]; exact List.mem_cons_self)) hsized.1
        (hsession.ends cache List.mem_cons_self) hposition hsized.2
      rw [cascade_cons, hblock]
      rfl

/-- the session after these passes, refused ones included -/
def sessionAfter (stage : Stage) (inputs : List Activation) : Session :=
  inputs.foldl (fun session input => (stage.forward ar session input).1) stage.session

/-- the caches of a session are never out of step -/
theorem sessionAfter_holds (hl : stage.Loaded) (hexact : stage.config.Exact) (inputs : List Activation) :
    ∃ held, stage.HoldsTo (stage.sessionAfter ar inputs) held := by
  have hrun : ∀ (inputs : List Activation) (session : Session) (held : ℕ), stage.HoldsTo session held →
      ∃ held', stage.HoldsTo (inputs.foldl (fun session input => (stage.forward ar session input).1) session) held' := by
    intro inputs
    induction inputs with
    | nil => exact fun session held h => ⟨held, h⟩
    | cons input inputs ih =>
      intro session held h
      rw [List.foldl_cons]
      rcases forward_cases ar hl hexact h input with ⟨-, e, hf⟩ | ⟨-, -, hf⟩ | ⟨-, -, session', output, hf, hholds⟩
      · exact ih _ held (by rw [hf]; exact h)
      · exact ih _ held (by rw [hf]; exact h)
      · exact ih _ _ (by rw [hf]; exact hholds)
  refine hrun inputs stage.session 0 ⟨by simp [session], fun cache hcache => ?_⟩
  obtain ⟨layer, -, rfl⟩ := List.mem_map.1 hcache
  exact ⟨(Nat.zero_mul _).symm, (Nat.zero_mul _).symm⟩

end Stage

end Hocmesh.Engine
