/-
A model cut into stages is the model.

`Stage.join` lays two neighbouring stages end to end. Loading it is loading the two (`load_join`): the blocks
are the blocks of both, the embedding table is the first one's, and the head is the second one's even where the model ties
its head to a table that only the first would otherwise read. Running it is running the two, caches and failures included
(`forward_join`). From both, a chain of stages that tile the model loads exactly when the whole does, and passes an
activation exactly as the whole does (`loadAll_iff`, `forward_joinAll`).
-/
import Hocmesh.Engine.Forward

namespace Hocmesh.Engine

open Hocmesh.Base

/-! ## Configurations that differ in the vocabulary only -/

namespace ModelConfig

/-- the configuration without its vocabulary, which no block reads -/
def blank (config : ModelConfig) : ModelConfig := { config with vocabSize := 0 }

/-- the same model, whatever vocabulary a stage has read off its own tables -/
def Alike (c d : ModelConfig) : Prop := c.blank = d.blank

@[simp] theorem blank_withVocab (config : ModelConfig) (t : Option Tensor) :
    (config.withVocab t).blank = config.blank := by
  cases t <;> rfl

theorem Alike.symm {c d : ModelConfig} (h : Alike c d) : Alike d c := Eq.symm h

theorem Alike.trans {c d e : ModelConfig} (h1 : Alike c d) (h2 : Alike d e) : Alike c e := Eq.trans h1 h2

theorem Alike.withVocab {c d : ModelConfig} (h : Alike c d) (t : Option Tensor) : Alike (c.withVocab t) d :=
  (blank_withVocab c t).trans h

theorem Alike.embeddingLength {c d : ModelConfig} (h : Alike c d) : c.embeddingLength = d.embeddingLength := by
  have hf := congrArg ModelConfig.embeddingLength h
  exact hf

theorem Alike.blockCount {c d : ModelConfig} (h : Alike c d) : c.blockCount = d.blockCount := by
  have hf := congrArg ModelConfig.blockCount h
  exact hf

theorem Alike.rmsNormEps {c d : ModelConfig} (h : Alike c d) : c.rmsNormEps = d.rmsNormEps := by
  have hf := congrArg ModelConfig.rmsNormEps h
  exact hf

end ModelConfig

theorem runToken_blank (ar : Arith) (config : ModelConfig) : runToken ar config = runToken ar config.blank := rfl

theorem runTokens_blank (ar : Arith) (config : ModelConfig) (layer : BlockWeights) (position : ℕ) (tokens : List ℕ)
    (cache : KvCache) (hidden : List F32) :
    runTokens ar config layer position tokens cache hidden =
      runTokens ar config.blank layer position tokens cache hidden := by
  induction tokens generalizing cache hidden with
  | nil => rfl
  | cons token rest ih =>
    simp only [runTokens, ih, runToken_blank ar config]
    rfl

theorem runBlock_alike (ar : Arith) {c d : ModelConfig} (h : c.Alike d) : runBlock ar c = runBlock ar d := by
  funext layer position tokens cache hidden
  unfold runBlock
  rw [runTokens_blank ar c, runTokens_blank ar d, show c.blank = d.blank from h]

/-! ## Two stages end to end -/

namespace Stage

def join (s t : Stage) : Stage where
  config := s.config.withVocab t.outputHead
  start := s.start
  stop := t.stop
  embedding := s.embedding
  outputNorm := t.outputNorm
  outputHead := t.outputHead
  layers := s.layers ++ t.layers

/-- a session of the stage: one cache for every block -/
def Fits (s : Stage) (session : Session) : Prop := session.caches.length = s.layers.length

theorem fits_session (s : Stage) : s.Fits s.session := by
  simp [Fits, session]

theorem fits_forward (ar : Arith) (s : Stage) (session : Session) (input : Activation) (h : s.Fits session) :
    s.Fits (s.forward ar session input).1 := by
  unfold forward
  simp only
  split_ifs with hin
  · simpa [Fits] using h
  · exact h

theorem session_join (s t : Stage) : (s.join t).session.caches = s.session.caches ++ t.session.caches := by
  simp [join, session]

/-- **Running two stages is running their join.** The second stage gets what the first hands it and works on its own
part of the caches; a failure of either is the join's, with the caches as far as they were written. -/
theorem forward_join (ar : Arith) (s t : Stage) (c d : Session) (input : Activation) (hc : s.Fits c)
    (halike : s.config.Alike t.config) :
    (s.join t).forward ar ⟨c.caches ++ d.caches⟩ input = match s.forward ar c input with
      | (c', .error e) => (⟨c'.caches ++ d.caches⟩, .error e)
      | (c', .ok mid) => (⟨c'.caches ++ (t.forward ar d mid).1.caches⟩, (t.forward ar d mid).2) := by
  have hjoin : (s.join t).config.Alike s.config := ModelConfig.Alike.withVocab rfl _
  have hwidth := hjoin.embeddingLength
  have hwidth' := halike.embeddingLength
  unfold forward
  simp only [hwidth, runBlock_alike ar hjoin, ← runBlock_alike ar halike, ← hwidth']
  by_cases hin : 0 < input.tokens ∧ input.hidden.length = input.tokens * s.config.embeddingLength.toNat
  · simp only [if_pos hin]
    have happ := cascade_append (fun layer => runBlock ar s.config layer input.position.toNat input.tokens) s.layers
      t.layers c.caches d.caches input.hidden hc
    rw [show (s.join t).layers = s.layers ++ t.layers from rfl, happ]
    cases hr : cascade (fun layer => runBlock ar s.config layer input.position.toNat input.tokens) s.layers c.caches
        input.hidden with
    | mk c' r =>
      cases r with
      | error e => rfl
      | ok hidden =>
        have hlen : hidden.length = input.hidden.length :=
          cascade_keeps _ (fun x => x.length = input.hidden.length)
            (fun l c x c' y hx hy => (runBlock_length hy).trans hx) _ _ _ _ _ rfl hr
        simp only [Except.map, hlen, if_pos hin]
  · simp only [if_neg hin]

theorem logits_join (ar : Arith) (s t : Stage) (input : Activation) (halike : s.config.Alike t.config) :
    (s.join t).logits ar input = t.logits ar input := by
  have hjoin : (s.join t).config.Alike t.config := halike.withVocab _
  unfold logits
  simp only [hjoin.embeddingLength, hjoin.rmsNormEps]
  rfl

/-! ## Loading -/

theorem loadEmbedding_table {file : WeightFile} {config : ModelConfig} {first : Bool} {t : Tensor}
    (h : loadEmbedding file config first = .ok (some t)) :
    file.load "token_embd.weight" = .ok t ∧ (expectTable config "token_embd.weight" t).isOk := by
  unfold loadEmbedding at h
  split_ifs at h
  · simp only [bind_ok, pure_ok] at h
    obtain ⟨t', ht, u, hu, heq⟩ := h
    cases heq
    exact ⟨ht, by rw [hu]; rfl⟩
  · cases h

/-- a tied head is the same table, whether the stage has read it as its embedding or reads it now -/
theorem loadOutputHead_tied {file : WeightFile} {config : ModelConfig} {first last : Bool} {embedding : Option Tensor}
    (h : loadEmbedding file config first = .ok embedding) (head : Option Tensor) :
    loadOutputHead file config last embedding = .ok head ↔ loadOutputHead file config last none = .ok head := by
  cases embedding with
  | none => rfl
  | some t =>
    have ht := (loadEmbedding_table h).1
    unfold loadOutputHead
    split_ifs
    · cases hopt : file.loadOptional "output.weight" with
      | error e => rfl
      | ok o =>
        cases o with
        | some w => rfl
        | none => simp [ht, mapErr]
    · rfl

theorem loadOutputHead_middle (file : WeightFile) (config : ModelConfig) (embedding : Option Tensor) :
    loadOutputHead file config false embedding = .ok none := rfl

theorem range_split {start mid stop : ℕ} (h1 : start ≤ mid) (h2 : mid ≤ stop) :
    List.range' start (stop - start) = List.range' start (mid - start) ++ List.range' mid (stop - mid) := by
  have hlen : stop - start = (mid - start) + (stop - mid) := by omega
  have hmid : mid = start + 1 * (mid - start) := by omega
  rw [hlen, ← List.range'_append, ← hmid]

/-- **Two neighbouring stages load exactly when the stage over both ranges does**, and it is their join. -/
theorem load_join (file : WeightFile) (start mid stop : ℕ) (h1 : start < mid) (h2 : mid < stop) (whole : Stage) :
    load file start stop = .ok whole ↔
      ∃ s t, load file start mid = .ok s ∧ load file mid stop = .ok t ∧ s.join t = whole := by
  have hmid0 : decide (mid = 0) = false := decide_eq_false (by omega)
  constructor
  · intro h
    obtain ⟨config, hconfig, ⟨-, hstop⟩, embedding, he, layers, hl, norm, hn, head, hh, rfl⟩ :=
      (load_ok_iff file start stop whole).1 h
    rw [range_split h1.le h2.le, mapM_append_ok] at hl
    obtain ⟨l₁, l₂, hl₁, hl₂, rfl⟩ := hl
    have hmid : decide (mid = config.blockCount.toNat) = false := decide_eq_false (by omega)
    refine ⟨_, _, (load_ok_iff file start mid _).2 ⟨config, hconfig, ⟨h1, by omega⟩, embedding, he, l₁, hl₁, none, ?_,
      none, ?_, rfl⟩, (load_ok_iff file mid stop _).2 ⟨config, hconfig, ⟨h2, hstop⟩, none, ?_, l₂, hl₂, norm, hn, head,
      (loadOutputHead_tied he head).1 hh, rfl⟩, rfl⟩
    · rw [hmid]; rfl
    · rw [hmid]; rfl
    · rw [hmid0]; rfl
  · intro h
    obtain ⟨s, t, hs, ht, rfl⟩ := h
    obtain ⟨config, hconfig, ⟨-, hmid⟩, embedding, he, l₁, hl₁, norm₁, hn₁, head₁, hh₁, rfl⟩ :=
      (load_ok_iff file start mid s).1 hs
    obtain ⟨config', hconfig', ⟨-, hstop⟩, embedding', he', l₂, hl₂, norm, hn, head, hh, rfl⟩ :=
      (load_ok_iff file mid stop t).1 ht
    obtain rfl : config = config' := Except.ok.inj (hconfig.symm.trans hconfig')
    have hnot : decide (mid = config.blockCount.toNat) = false := decide_eq_false (by omega)
    rw [hmid0] at he'
    rw [hnot] at hn₁ hh₁
    cases he'
    cases hh₁
    refine (load_ok_iff file start stop _).2 ⟨config, hconfig, ⟨by omega, hstop⟩, embedding, he, l₁ ++ l₂, ?_, norm, hn,
      head, (loadOutputHead_tied he head).2 hh, rfl⟩
    rw [range_split h1.le h2.le, mapM_append_ok]
    exact ⟨l₁, l₂, hl₁, hl₂, rfl⟩

/-! ## A chain of stages -/

/-- the stages `[start, e₁)`, `[e₁, e₂)`, … of a file -/
def loadAll (file : WeightFile) : ℕ → List ℕ → Check (List Stage)
  | _, [] => pure []
  | start, stop :: ends => do
    let s ← load file start stop
    let rest ← loadAll file stop ends
    pure (s :: rest)

theorem loadAll_length {file : WeightFile} (ends : List ℕ) (start : ℕ) (stages : List Stage)
    (h : loadAll file start ends = .ok stages) : stages.length = ends.length := by
  induction ends generalizing start stages with
  | nil =>
    cases h
    rfl
  | cons stop ends ih =>
    simp only [loadAll, bind_ok, pure_ok] at h
    obtain ⟨s, -, rest, hrest, rfl⟩ := h
    simp [ih stop rest hrest]

def joinAll : Stage → List Stage → Stage
  | s, [] => s
  | s, t :: rest => s.join (joinAll t rest)

/-- **A model cut anywhere loads exactly when the whole does**, and the whole is the stages end to end. -/
theorem loadAll_iff (file : WeightFile) (start : ℕ) (ends : List ℕ) (stop : ℕ) 
    (h : (start :: (ends ++ [stop])).IsChain (· < ·)) (whole : Stage) :
    load file start stop = .ok whole ↔
      ∃ s rest, loadAll file start (ends ++ [stop]) = .ok (s :: rest) ∧ joinAll s rest = whole := by
  induction ends generalizing start whole with
  | nil =>
    simp only [loadAll, List.nil_append, bind_ok, pure_ok]
    constructor
    · intro hl
      exact ⟨whole, [], ⟨whole, hl, [], rfl, rfl⟩, rfl⟩
    · intro hl
      obtain ⟨s, rest, ⟨s', hs, _, rfl, heq⟩, rfl⟩ := hl
      cases heq
      exact hs
  | cons mid ends ih =>
    obtain ⟨hmid, htail⟩ := List.isChain_cons_cons.1 h
    have hlast : mid < stop := by
      have hall := List.isChain_iff_pairwise.1 htail
      exact (List.pairwise_cons.1 hall).1 stop (by simp)
    rw [load_join file start mid stop hmid hlast]
    constructor
    · intro hl
      obtain ⟨s, t, hs, ht, rfl⟩ := hl
      obtain ⟨t', rest, hrest, rfl⟩ := (ih mid htail t).1 ht
      refine ⟨s, t' :: rest, ?_, rfl⟩
      simp [loadAll, hs, hrest]
    · intro hl
      obtain ⟨s, rest, hall, rfl⟩ := hl
      simp only [List.cons_append, loadAll, bind_ok, pure_ok] at hall
      obtain ⟨s', hs, rest', hrest, heq⟩ := hall
      cases heq
      cases rest with
      | nil =>
        have hlen := loadAll_length _ _ _ hrest
        simp at hlen
      | cons t rest => exact ⟨s, joinAll t rest, hs, (ih mid htail _).2 ⟨t, rest, hrest, rfl⟩, rfl⟩

theorem load_alike {file : WeightFile} {config : ModelConfig} {start stop : ℕ} {s : Stage} (hc : file.config = .ok config)
    (h : load file start stop = .ok s) : s.config.Alike config := by
  obtain ⟨config', hconfig, -, embedding, -, layers, -, norm, -, head, -, rfl⟩ := (load_ok_iff file start stop s).1 h
  obtain rfl : config' = config := Except.ok.inj (hconfig.symm.trans hc)
  exact ModelConfig.Alike.withVocab (ModelConfig.Alike.withVocab rfl _) _

theorem loadAll_alike {file : WeightFile} {config : ModelConfig} (hc : file.config = .ok config) (ends : List ℕ)
    (start : ℕ) (stages : List Stage) (h : loadAll file start ends = .ok stages) :
    ∀ s ∈ stages, s.config.Alike config := by
  induction ends generalizing start stages with
  | nil =>
    cases h
    simp
  | cons stop ends ih =>
    simp only [loadAll, bind_ok, pure_ok] at h
    obtain ⟨s, hs, rest, hrest, rfl⟩ := h
    intro x hx
    rcases List.mem_cons.1 hx with rfl | hx
    · exact load_alike hc hs
    · exact ih stop rest hrest x hx

theorem joinAll_alike {config : ModelConfig} (s : Stage) (rest : List Stage) (h : s.config.Alike config) :
    (joinAll s rest).config.Alike config := by
  cases rest with
  | nil => exact h
  | cons t rest => exact h.withVocab _

theorem session_joinAll (s : Stage) (rest : List Stage) :
    (joinAll s rest).session.caches = ((s :: rest).map fun s => s.session.caches).flatten := by
  induction rest generalizing s with
  | nil => simp [joinAll]
  | cons t rest ih => rw [joinAll, session_join, ih]; rfl

theorem embed_joinAll (s : Stage) (rest : List Stage) (tokens : List UInt32) (position : UInt32) :
    (joinAll s rest).embed tokens position = s.embed tokens position := by
  cases rest <;> rfl

theorem logits_joinAll (ar : Arith) {config : ModelConfig} (s : Stage) (rest : List Stage) (input : Activation)
    (h : ∀ t ∈ s :: rest, t.config.Alike config) :
    (joinAll s rest).logits ar input = ((s :: rest).getLast (by simp)).logits ar input := by
  induction rest generalizing s with
  | nil => rfl
  | cons t rest ih =>
    have hs : s.config.Alike config := h s List.mem_cons_self
    have ht : (joinAll t rest).config.Alike config := joinAll_alike t rest (h t (by simp))
    rw [joinAll, logits_join ar s _ input (hs.trans ht.symm), ih t fun x hx => h x (List.mem_cons_of_mem _ hx)]
    rfl

/-- **A chain passes an activation as the whole model does**: the same result or the same failure, and caches that are
the whole model's caches cut where the chain is. -/
theorem forward_joinAll (ar : Arith) {config : ModelConfig} (s : Stage) (rest : List Stage) (sessions : List Session)
    (input : Activation) (h : ∀ t ∈ s :: rest, t.config.Alike config) (hfit : List.Forall₂ Fits (s :: rest) sessions) :
    (joinAll s rest).forward ar ⟨(sessions.map Session.caches).flatten⟩ input =
      (⟨((cascade (fun t => t.forward ar) (s :: rest) sessions input).1.map Session.caches).flatten⟩,
        (cascade (fun t => t.forward ar) (s :: rest) sessions input).2) := by
  induction rest generalizing s sessions input with
  | nil =>
    obtain ⟨c, _, hc, hnil, rfl⟩ := List.forall₂_cons_left_iff.1 hfit
    cases hnil
    rw [cascade_cons]
    cases hr : s.forward ar c input with
    | mk c' r => cases r <;> simp [joinAll, hr]
  | cons t rest ih =>
    obtain ⟨c, cs, hc, hcs, rfl⟩ := List.forall₂_cons_left_iff.1 hfit
    have hs : s.config.Alike config := h s List.mem_cons_self
    have ht : (joinAll t rest).config.Alike config := joinAll_alike t rest (h t (by simp))
    rw [joinAll, List.map_cons, List.flatten_cons,
      forward_join ar s (joinAll t rest) c ⟨(cs.map Session.caches).flatten⟩ input hc (hs.trans ht.symm), cascade_cons]
    cases hr : s.forward ar c input with
    | mk c' r =>
      cases r with
      | error e => rfl
      | ok mid =>
        simp only [ih t cs mid (fun x hx => h x (List.mem_cons_of_mem _ hx)) hcs, List.map_cons, List.flatten_cons]

end Stage

end Hocmesh.Engine
