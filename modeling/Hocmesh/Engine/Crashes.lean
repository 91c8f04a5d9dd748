/-
Which files a stage is loaded from safely.

A file loads safely when loading returns, no accessor of the header looks outside it, and a stage that is returned has the
tensors and the widths its configuration implies, so that it runs inside its vectors. `loads_safely_iff` says exactly
which files do, in terms of what they hold under each name loading asks for.
-/
import Hocmesh.Engine.Bounds
import Hocmesh.Engine.Loading
import Hocmesh.Model.Nesting

namespace Hocmesh.Engine

open Hocmesh.Base Hocmesh.Model Verdict

/-! ## Stages that cannot crash -/

/-- every tensor has exactly the extents the configuration implies -/
structure Stage.Implied (stage : Stage) : Prop where
  layers : ∀ b ∈ stage.layers, b.Shaped stage.config
  embedding : ∀ t ∈ stage.embedding,
    t.dimensions = [stage.config.embeddingLength.toNat, stage.config.vocabSize.toNat]
  outputNorm : ∀ t ∈ stage.outputNorm, t.dimensions = [stage.config.embeddingLength.toNat]
  outputHead : ∀ t ∈ stage.outputHead,
    t.dimensions = [stage.config.embeddingLength.toNat, stage.config.vocabSize.toNat]

/-- nothing it does indexes past the end of a vector: it answers, or refuses for one of these reasons -/
structure Stage.RunsInside (ar : Arith) (stage : Stage) : Prop where
  /-- a token outside the vocabulary, or no table -/
  embed : ∀ tokens position, (∃ a, stage.embed tokens position = .ok a) ∨ stage.embedding = none ∨
    ∃ table ∈ stage.embedding, ∃ token ∈ tokens,
      stage.embed tokens position = .error s!"token {token} is outside a vocabulary of {table.rows}"
  /-- a position that is not the next one, whatever passes have gone before -/
  forward : ∀ inputs input, stage.Sized input →
    (∃ output, (stage.forward ar (stage.sessionAfter ar inputs) input).2 = .ok output) ∨
      ∃ held, (stage.forward ar (stage.sessionAfter ar inputs) input).2 = .error (outOfOrder input.position.toNat held)
  /-- no norm or no head -/
  logits : ∀ input, stage.Sized input →
    (∃ scores, stage.logits ar input = .ok scores) ∨ stage.outputNorm = none ∨ stage.outputHead = none

section

variable (dec : BlockDecoder) (rd : Reading) (o : Opened) (read : ByteExtent → Check (List UInt8))

/-- loading returns, no accessor of the header looks outside it, and a stage that is returned cannot crash -/
structure Opened.LoadsSafely (ar : Arith) (start stop : ℕ) : Prop where
  header : ∀ key, (metadataString (skipValue rd.stack) key).run o.header ≠ .outside ∧
    (metadataU64 (skipValue rd.stack) rd.fc key).run o.header ≠ .outside ∧
      (metadataF32 (skipValue rd.stack) rd.fc key).run o.header ≠ .outside
  returns : ¬ (o.loadStage dec rd read start stop).Panics
  implied : ∀ stage, o.loadStage dec rd read start stop = .ok stage → stage.Implied
  widths : ∀ stage, o.loadStage dec rd read start stop = .ok stage →
    ∃ d, declared (metadataOf rd.fc rd.stack o.header) = .ok d ∧ d.Widths stage.config
  runs : ∀ stage, o.loadStage dec rd read start stop = .ok stage → stage.RunsInside ar

/-- the tables of a stage: one if it embeds, one if it holds the last block -/
def Opened.tables (config : ModelConfig) (start stop : ℕ) : List String :=
  (if start = 0 then [embeddingName] else []) ++ if stop = config.blockCount.toNat then [o.headName] else []

/-- what is asked of a file beyond its passing the steps of loading -/
structure Opened.Fitting (config : ModelConfig) (start stop : ℕ) : Prop where
  /-- what is declared, and its products, have 32 bits -/
  widths : ∀ d, declared (metadataOf rd.fc rd.stack o.header) = .ok d → d.Fits
  /-- the output norm, if it is used, is as wide as the model -/
  norm : stop = config.blockCount.toNat → ∀ t ∈ o.info "output_norm.weight", t.dimensions = [config.embeddingLength.toNat]
  /-- the tables that are used have the rows of one vocabulary, of 32 bits -/
  vocab : ∃ vocab < 2 ^ 32, ∀ name ∈ o.tables config start stop, ∀ t ∈ o.info name,
    t.dimensions = [config.embeddingLength.toNat, vocab]

/-- no step of loading faults before one is refused, and a file that passes them all is fitting -/
def Opened.Sound (start stop : ℕ) : Prop :=
  ∀ config, o.configOf rd = .ok config → start < stop ∧ stop ≤ config.blockCount.toNat →
    ¬ Verdict.FaultsIn (o.Passes dec rd read) (o.Faults dec read) (o.steps config start stop) ∧
      ((∀ s ∈ o.steps config start stop, o.Passes dec rd read s) → o.Fitting rd config start stop)

end

section

variable {dec : BlockDecoder} {rd : Reading} {o : Opened} {read : ByteExtent → Check (List UInt8)} {start stop : ℕ}

theorem withVocab_widths {d : Declared} {config : ModelConfig} (t : Option Tensor) :
    d.Widths (config.withVocab t) ↔ d.Widths config := by
  cases t with
  | none => exact Iff.rfl
  | some t => exact ⟨fun h => ⟨h.q, h.k, h.v, h.attention⟩, fun h => ⟨h.q, h.k, h.v, h.attention⟩⟩

@[simp] theorem withVocab_embeddingLength (config : ModelConfig) (t : Option Tensor) :
    (config.withVocab t).embeddingLength = config.embeddingLength := by
  cases t <;> rfl

/-- no width of a stage with a block is zero, because no tensor is empty -/
theorem Stage.Loaded.widths_pos {stage : Stage} (h : stage.Loaded) :
    0 < stage.config.qWidth.toNat ∧ 0 < stage.config.kWidth.toNat ∧ 0 < stage.config.vWidth.toNat := by
  obtain ⟨b, layers, hlayers⟩ := List.exists_cons_of_ne_nil h.layers_ne
  have hshape := h.shaped b (by rw [hlayers]; exact List.mem_cons_self)
  have hpos : ∀ (t : Tensor) (n m : ℕ), t.dimensions = [n, m] → 0 < m := by
    intro t n m hdims
    have hfilled := t.filled
    have hnonempty := t.nonempty
    rw [hdims, List.prod_cons, List.prod_singleton] at hfilled
    exact Nat.pos_of_mul_pos_left (hfilled ▸ hnonempty)
  exact ⟨hpos _ _ _ hshape.attnQ, hpos _ _ _ hshape.attnK, hpos _ _ _ hshape.attnV⟩

/-- a table's rows are its second extent -/
theorem rows_of_table {t : Tensor} {n m : ℕ} (h : t.dimensions = [n, m]) : t.rows = m := by
  have hfilled := t.filled
  have hnonempty := t.nonempty
  rw [h, List.prod_cons, List.prod_singleton] at hfilled
  have hn : 0 < n := Nat.pos_of_mul_pos_right (hfilled ▸ hnonempty)
  rw [Tensor.rows, Tensor.rowLen, h, List.headD_cons, hfilled, Nat.mul_div_cancel_left m hn]

theorem row_ok {t : Tensor} {i : ℕ} (h : i < t.rows) : ∃ r, t.row i = .ok r :=
  slice_ok _ _ (Nat.mul_le_mul_right _ (Nat.le_succ i)) ((Nat.mul_le_mul_right _ h).trans (Nat.div_mul_le_self _ _))

/-- one row for each token, up to the first that is not in the vocabulary -/
theorem tableRows_cases (table : Tensor) (tokens : List UInt32) :
    (∃ rows, (tokens.mapM' fun token => do
        bailIf (¬ token.toNat < table.rows) s!"token {token} is outside a vocabulary of {table.rows}"
        table.row token.toNat) = (.ok rows : Check _)) ∨
      ∃ token ∈ tokens, (tokens.mapM' fun token => do
        bailIf (¬ token.toNat < table.rows) s!"token {token} is outside a vocabulary of {table.rows}"
        table.row token.toNat) = .error s!"token {token} is outside a vocabulary of {table.rows}" := by
  induction tokens with
  | nil => exact .inl ⟨[], rfl⟩
  | cons token tokens ih =>
    rw [List.mapM'_cons]
    by_cases hin : token.toNat < table.rows
    · obtain ⟨row, hrow⟩ := row_ok hin
      rw [bailIf, if_neg (not_not.2 hin), hrow]
      rcases ih with ⟨rows, hrest⟩ | ⟨other, hother, hrest⟩
      · rw [hrest]
        exact .inl ⟨row :: rows, rfl⟩
      · rw [hrest]
        exact .inr ⟨other, List.mem_cons_of_mem _ hother, rfl⟩
    · rw [bailIf, if_pos hin]
      exact .inr ⟨token, List.mem_cons_self, rfl⟩

theorem embed_cases (stage : Stage) (tokens : List UInt32) (position : UInt32) :
    (∃ a, stage.embed tokens position = .ok a) ∨ stage.embedding = none ∨
      ∃ table ∈ stage.embedding, ∃ token ∈ tokens,
        stage.embed tokens position = .error s!"token {token} is outside a vocabulary of {table.rows}" := by
  cases htable : stage.embedding with
  | none => exact .inr (.inl rfl)
  | some table =>
    have hembed : stage.embed tokens position = (tokens.mapM' fun token => do
        bailIf (¬ token.toNat < table.rows) s!"token {token} is outside a vocabulary of {table.rows}"
        table.row token.toNat) >>= fun rows => pure ⟨position, rows.flatten, tokens.length⟩ := by
      unfold Stage.embed
      rw [htable]
      rfl
    rw [hembed]
    rcases tableRows_cases table tokens with ⟨rows, hall⟩ | ⟨token, htoken, hbad⟩
    · rw [hall]
      exact .inl ⟨_, rfl⟩
    · rw [hbad]
      exact .inr (.inr ⟨table, rfl, token, htoken, rfl⟩)

theorem logits_cases (ar : Arith) {stage : Stage} (h : stage.Implied) {input : Activation} (hsized : stage.Sized input) :
    (∃ scores, stage.logits ar input = .ok scores) ∨ stage.outputNorm = none ∨ stage.outputHead = none := by
  cases hnorm : stage.outputNorm with
  | none => exact .inr (.inl rfl)
  | some norm =>
    cases hhead : stage.outputHead with
    | none => exact .inr (.inr rfl)
    | some head =>
      obtain ⟨htokens, hlen⟩ := hsized
      obtain ⟨last, hlast⟩ := slice_ok (l := input.hidden) ((input.tokens - 1) * stage.config.embeddingLength.toNat)
        (input.tokens * stage.config.embeddingLength.toNat) (Nat.mul_le_mul_right _ (Nat.sub_le _ _)) hlen.ge
      have hdims := h.outputHead head hhead
      obtain ⟨scores, hscores, -⟩ := matVec_ok ar hdims
        (rmsNorm ar last norm.values stage.config.rmsNormEps (zeros ar stage.config.embeddingLength.toNat))
      refine .inl ⟨scores, ?_⟩
      simp only [Stage.logits, hnorm, hhead, Base.bind_ok, orBail_ok, Option.some.injEq]
      exact ⟨norm, rfl, head, rfl, last, hlast, by rw [rows_of_table hdims]; exact hscores⟩

/-- what a stage that loads was made from -/
theorem loadStage_parts {stage : Stage} (h : o.loadStage dec rd read start stop = .ok stage) :
    stage.Loaded ∧ ∃ config, o.configOf rd = .ok config ∧ (start < stop ∧ stop ≤ config.blockCount.toNat) ∧
      stage.config = (config.withVocab stage.embedding).withVocab stage.outputHead ∧
      ((start = 0 ↔ stage.embedding.isSome) ∧ ∀ t ∈ stage.embedding, o.load dec read Opened.embeddingName = .ok t) ∧
      ((stop = config.blockCount.toNat ↔ stage.outputNorm.isSome) ∧
        ∀ t ∈ stage.outputNorm, o.load dec read "output_norm.weight" = .ok t) ∧
      ((stop = config.blockCount.toNat ↔ stage.outputHead.isSome) ∧
        ∀ t ∈ stage.outputHead, o.load dec read o.headName = .ok t) := by
  refine ⟨Stage.loaded_of_load ((agrees_loadStage dec rd o read start stop stage).1 h), ?_⟩
  simp only [Opened.loadStage, Verdict.bind_ok, Verdict.ofCheck_ok, ModelConfig.validateRange_ok, Verdict.pure_ok] at h
  obtain ⟨config, hconfig, _, hrange, embedding, hembedding, layers, -, norm, hnorm, head, hhead, rfl⟩ := h
  obtain ⟨hfirst, htable⟩ := loadEmbedding_ok hembedding
  obtain ⟨hlast, hloaded⟩ := loadOutputNorm_ok hnorm
  obtain ⟨hlast', hloaded'⟩ := loadOutputHead_ok hembedding hhead
  rw [decide_eq_true_iff] at hfirst hlast hlast'
  exact ⟨config, hconfig, hrange, rfl, ⟨hfirst, fun t ht => (htable t ht).1⟩, ⟨hlast, hloaded⟩, ⟨hlast', hloaded'⟩⟩

/-- the extents of a tensor that was loaded under a name are those of the file -/
theorem dimensions_of_load {name : String} {t : Tensor} (h : o.load dec read name = .ok t) :
    ∃ info ∈ o.info name, t.dimensions = info.dimensions := by
  obtain ⟨info, hinfo, hload⟩ := load_ok.1 h
  exact ⟨info, hinfo, loads_dimensions hload⟩

/-- a stage out of a fitting file has every extent that its configuration implies -/
theorem implied_of_fitting {stage : Stage} (h : o.loadStage dec rd read start stop = .ok stage) {config : ModelConfig}
    (hconfig : o.configOf rd = .ok config) (hfit : o.Fitting rd config start stop) : stage.Implied := by
  obtain ⟨hl, config', hconfig', -, hvocab, ⟨hfirst, htable⟩, ⟨hlast, hnorm⟩, ⟨hlast', hhead⟩⟩ := loadStage_parts h
  obtain rfl := Except.ok.inj (hconfig.symm.trans hconfig')
  obtain ⟨vocab, hsmall, hrows⟩ := hfit.vocab
  have hembed : ∀ t ∈ stage.embedding, t.dimensions = [config.embeddingLength.toNat, vocab] := by
    intro t ht
    obtain ⟨info, hinfo, hdims⟩ := dimensions_of_load (htable t ht)
    have hin : Opened.embeddingName ∈ o.tables config start stop :=
      List.mem_append_left _ (by rw [if_pos (hfirst.2 (Option.isSome_of_mem ht))]; exact List.mem_cons_self)
    rw [hdims, hrows _ hin info hinfo]
  have hheaded : ∀ t ∈ stage.outputHead, t.dimensions = [config.embeddingLength.toNat, vocab] := by
    intro t ht
    obtain ⟨info, hinfo, hdims⟩ := dimensions_of_load (hhead t ht)
    have hin : o.headName ∈ o.tables config start stop :=
      List.mem_append_right _ (by rw [if_pos (hlast'.2 (Option.isSome_of_mem ht))]; exact List.mem_cons_self)
    rw [hdims, hrows _ hin info hinfo]
  have hwidth : stage.config.embeddingLength = config.embeddingLength := by
    rw [hvocab, withVocab_embeddingLength, withVocab_embeddingLength]
  -- the vocabulary that is kept is that of the head, or else that of the table
  have hkept : ∀ t : Tensor, t.dimensions = [config.embeddingLength.toNat, vocab] →
      (UInt32.ofNat (t.dimensions.getD 1 0)).toNat = vocab := by
    intro t ht
    rw [ht, UInt32.toNat_ofNat']
    exact Nat.mod_eq_of_lt hsmall
  have hsize : stage.embedding.isSome ∨ stage.outputHead.isSome → stage.config.vocabSize.toNat = vocab := by
    intro hsome
    rw [hvocab]
    cases hheadOf : stage.outputHead with
    | some t => exact hkept t (hheaded t hheadOf)
    | none =>
      cases htableOf : stage.embedding with
      | some t => exact hkept t (hembed t htableOf)
      | none =>
        rw [hheadOf, htableOf] at hsome
        simp at hsome
  refine ⟨hl.shaped, fun t ht => ?_, fun t ht => ?_, fun t ht => ?_⟩
  · rw [hwidth, hsize (.inl (Option.isSome_of_mem ht)), hembed t ht]
  · obtain ⟨info, hinfo, hdims⟩ := dimensions_of_load (hnorm t ht)
    rw [hwidth, hdims, hfit.norm (hlast.2 (Option.isSome_of_mem ht)) info hinfo]
  · rw [hwidth, hsize (.inr (Option.isSome_of_mem ht)), hheaded t ht]

/-- and widths that are the products of what is declared, none of which wraps -/
theorem widths_of_fitting {stage : Stage} (h : o.loadStage dec rd read start stop = .ok stage) {config : ModelConfig}
    (hconfig : o.configOf rd = .ok config) (hfit : o.Fitting rd config start stop) :
    stage.config.Exact ∧ ∃ d, declared (metadataOf rd.fc rd.stack o.header) = .ok d ∧ d.Widths stage.config := by
  obtain ⟨-, config', hconfig', -, hvocab, -⟩ := loadStage_parts h
  obtain rfl := Except.ok.inj (hconfig.symm.trans hconfig')
  obtain ⟨d, hd, hkept⟩ := declared_of_fromHeader hconfig
  have hfits := hfit.widths d hd
  have hwidths := hkept.widths hfits
  obtain ⟨hheads, hkv, hkey, hvalue⟩ := hkept.eq hfits
  have hexact : config.Exact :=
    ⟨by rw [hwidths.q, hheads, hkey], by rw [hwidths.k, hkv, hkey], by rw [hwidths.v, hkv, hvalue],
      by rw [hwidths.attention, hheads, hvalue]⟩
  have hsame : ∀ (config : ModelConfig) t, config.Exact → (config.withVocab t).Exact := by
    intro config t h
    cases t with
    | none => exact h
    | some t => exact ⟨h.q, h.k, h.v, h.attention⟩
  rw [hvocab]
  exact ⟨hsame _ _ (hsame _ _ hexact), d, hd, (withVocab_widths _).2 ((withVocab_widths _).2 hwidths)⟩

/-- **Which files cannot crash a stage.** Loading returns, and a stage that it returns has the tensors and the widths
that its configuration implies and runs inside its vectors, exactly for the files that are sound. -/
theorem loads_safely_iff (ar : Arith) : o.LoadsSafely dec rd read ar start stop ↔ o.Sound dec rd read start stop := by
  obtain ⟨hreturns, hpanics⟩ : ((∃ stage, o.loadStage dec rd read start stop = .ok stage) ↔ _) ∧ _ :=
    walks_loadStage start stop
  constructor
  · intro h config hconfig hrange
    refine ⟨fun hfault => h.returns (hpanics.2 ⟨config, hconfig, hrange, hfault⟩), fun hall => ?_⟩
    obtain ⟨stage, hstage⟩ := hreturns.2 ⟨config, hconfig, hrange, hall⟩
    obtain ⟨hl, config', hconfig', -, hvocab, ⟨hfirst, htable⟩, ⟨hlast, hnorm⟩, ⟨hlast', hhead⟩⟩ := loadStage_parts hstage
    obtain rfl := Except.ok.inj (hconfig.symm.trans hconfig')
    have himplied := h.implied stage hstage
    obtain ⟨d, hd, hwidths⟩ := h.widths stage hstage
    have hwidth : stage.config.embeddingLength = config.embeddingLength := by
      rw [hvocab, withVocab_embeddingLength, withVocab_embeddingLength]
    have hfound : ∀ {name : String} {t : Tensor} {info : TensorInfo} {dims : List ℕ}, o.load dec read name = .ok t →
        t.dimensions = dims → info ∈ o.info name → info.dimensions = dims := by
      intro name t info dims hload hdims hinfo
      obtain ⟨info', hinfo', hsame⟩ := dimensions_of_load hload
      obtain rfl := Option.mem_unique hinfo hinfo'
      rw [← hsame, hdims]
    refine ⟨fun d' hd' => ?_, fun hstop info hinfo => ?_, stage.config.vocabSize.toNat, UInt32.toNat_lt _, ?_⟩
    · obtain rfl := Except.ok.inj (hd.symm.trans hd')
      obtain ⟨hq, hk, hv⟩ := hl.widths_pos
      exact hwidths.fits hq hk hv
    · obtain ⟨t, ht⟩ := Option.isSome_iff_exists.1 (hlast.1 hstop)
      exact hfound (hnorm t ht) (hwidth ▸ himplied.outputNorm t ht) hinfo
    · intro name hname info hinfo
      rcases List.mem_append.1 hname with hin | hin
      · split_ifs at hin with hstart
        · obtain rfl := List.mem_singleton.1 hin
          obtain ⟨t, ht⟩ := Option.isSome_iff_exists.1 (hfirst.1 hstart)
          exact hfound (htable t ht) (hwidth ▸ himplied.embedding t ht) hinfo
        · cases hin
      · split_ifs at hin with hstop
        · obtain rfl := List.mem_singleton.1 hin
          obtain ⟨t, ht⟩ := Option.isSome_iff_exists.1 (hlast'.1 hstop)
          exact hfound (hhead t ht) (hwidth ▸ himplied.outputHead t ht) hinfo
        · cases hin
  · intro h
    have hfitting : ∀ stage, o.loadStage dec rd read start stop = .ok stage →
        ∃ config, o.configOf rd = .ok config ∧ o.Fitting rd config start stop := by
      intro stage hstage
      obtain ⟨config, hconfig, hrange, hall⟩ := hreturns.1 ⟨stage, hstage⟩
      exact ⟨config, hconfig, (h config hconfig hrange).2 hall⟩
    refine ⟨fun key => ?_, fun hdown => ?_, fun stage hstage => ?_, fun stage hstage => ?_, fun stage hstage => ?_⟩
    · have hskip := inside_skipValue rd.stack
      exact ⟨(inside_findKey hskip key (inside_stringValue key)).run_ne _,
        ((inside_findKey hskip key (inside_scalarValue rd.fc key asCount)).bind fun _ => Walk.Inside.pure _).run_ne _,
        ((inside_findKey hskip key (inside_scalarValue rd.fc key (asReal rd.fc))).bind fun _ =>
          Walk.Inside.pure _).run_ne _⟩
    · obtain ⟨config, hconfig, hrange, hfault⟩ := hpanics.1 hdown
      exact (h config hconfig hrange).1 hfault
    · obtain ⟨config, hconfig, hfit⟩ := hfitting stage hstage
      exact implied_of_fitting hstage hconfig hfit
    · obtain ⟨config, hconfig, hfit⟩ := hfitting stage hstage
      exact (widths_of_fitting hstage hconfig hfit).2
    · obtain ⟨config, hconfig, hfit⟩ := hfitting stage hstage
      have himplied := implied_of_fitting hstage hconfig hfit
      have hexact := (widths_of_fitting hstage hconfig hfit).1
      have hl := (loadStage_parts hstage).1
      refine ⟨embed_cases stage, fun inputs input hsized => ?_, fun input hsized => logits_cases ar himplied hsized⟩
      obtain ⟨held, hheld⟩ := Stage.sessionAfter_holds ar hl hexact inputs
      rcases Stage.forward_cases ar hl hexact hheld input with ⟨hnot, -⟩ | ⟨-, -, hrefused⟩ |
        ⟨-, -, session, output, hrun, -⟩
      · exact absurd hsized hnot
      · exact .inr ⟨held, by rw [hrefused]⟩
      · exact .inl ⟨output, by rw [hrun]⟩

end

/-! ## Files that crash a stage -/

namespace Sample

/-- the small file with its table declared as a vector -/
def vectorTable : List UInt8 :=
  gguf entries (directory.map fun t => if t.name = "token_embd.weight" then { t with dimensions := [1] } else t)
    (List.replicate 18 0x3F800000)

/-- the small file with 641 heads of 6700417 values, which make one more than 2^32 -/
def wrappedWidths : List UInt8 :=
  gguf [("general.architecture", .string "llama"), ("llama.block_count", .u32 1), ("llama.embedding_length", .u32 1),
    ("llama.attention.head_count", .u32 641), ("llama.attention.key_length", .u32 6700417),
    ("llama.attention.value_length", .u32 6700417), ("llama.feed_forward_length", .u32 1),
    ("llama.rope.dimension_count", .u32 0)] directory (List.replicate 18 0x3F800000)

/-- the first block of a file takes the process down -/
def loadsDown (o : Opened) : Bool :=
  match o.loadStage decoder reading (readExact o.bytes) 0 1 with
  | .panic _ => true
  | _ => false

/-- the queries of the first block of a file are not as wide as the file declares them -/
def loadsWide (o : Opened) : Bool :=
  match o.loadStage decoder reading (readExact o.bytes) 0 1, declared (metadataOf .native 1 o.header) with
  | .ok stage, .ok d => decide (stage.config.qWidth.toNat ≠ d.headCount * d.keyLength)
  | _, _ => false

end Sample

/-- a vector for a table takes the process down, and widths that wrap give a stage whose queries have one value -/
theorem loads_unsafely :
    (∃ o, openFile Sample.reading Sample.vectorTable = .ok o ∧
      ∀ ar, ¬ o.LoadsSafely Sample.decoder Sample.reading (readExact o.bytes) ar 0 1) ∧
    ∃ o, openFile Sample.reading Sample.wrappedWidths = .ok o ∧
      ∀ ar, ¬ o.LoadsSafely Sample.decoder Sample.reading (readExact o.bytes) ar 0 1 := by
  constructor
  · have hrun : (openFile Sample.reading Sample.vectorTable).okWith Sample.loadsDown = true := by
      decide +kernel
    obtain ⟨o, ho, hdown⟩ := (okWith_iff _ _).1 hrun
    refine ⟨o, ho, fun ar h => h.returns ?_⟩
    cases hload : o.loadStage Sample.decoder Sample.reading (readExact o.bytes) 0 1 with
    | panic why => exact ⟨why, rfl⟩
    | ok stage => simp [Sample.loadsDown, hload] at hdown
    | error e => simp [Sample.loadsDown, hload] at hdown
  · have hrun : (openFile Sample.reading Sample.wrappedWidths).okWith Sample.loadsWide = true := by
      decide +kernel
    obtain ⟨o, ho, hwide⟩ := (okWith_iff _ _).1 hrun
    refine ⟨o, ho, fun ar h => ?_⟩
    unfold Sample.loadsWide at hwide
    cases hload : o.loadStage Sample.decoder Sample.reading (readExact o.bytes) 0 1 with
    | panic why => simp [hload] at hwide
    | error e => simp [hload] at hwide
    | ok stage =>
      obtain ⟨d, hd, hwidths⟩ := h.widths stage hload
      rw [hload, show declared (metadataOf .native 1 o.header) = .ok d from hd] at hwide
      exact of_decide_eq_true hwide hwidths.q

end Hocmesh.Engine
