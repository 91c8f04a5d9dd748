/-
What a load reads of a file.

`Stage::load` is pull-based: it names the tensors it wants, and what it names is `Asked`. Two files that answer these names
alike load alike (`load_below`), so a tensor that is never asked for may hold anything. A load `Reads` a tensor of the
directory when it cannot succeed without reading it.

The refusal of tensors this build does not consume walks the blocks of the range only. So a model loaded whole may leave
tensors out: those of no block that are not one of the three shared ones, those of blocks past the last, and the second of
two of one name. There are no others (`loaded_in_full_iff`).
-/
import Hocmesh.Engine.Stage

namespace Hocmesh.Engine

open Hocmesh.Base

/-! ## Names -/

/-- the tensors of no block that a stage may hold -/
def sharedNames : List String := ["token_embd.weight", "output_norm.weight", "output.weight"]

/-- the names a load of these blocks may ask for -/
def Asked (start stop : ℕ) (name : String) : Prop :=
  name ∈ sharedNames ∨ ∃ i, start ≤ i ∧ i < stop ∧ ∃ suffix ∈ consumed, name = s!"blk.{i}.{suffix}"

theorem toList_blockName (i : ℕ) (suffix : String) :
    (s!"blk.{i}.{suffix}").toList = 'b' :: 'l' :: 'k' :: '.' :: (Nat.toDigits 10 i ++ '.' :: suffix.toList) := by
  simp [String.toList_append, toString]

theorem parseU32_toDigits {i : ℕ} (h : i < 2 ^ 32) : parseU32 (Nat.toDigits 10 i) = some i := by
  have hdigit : ∀ c ∈ Nat.toDigits 10 i, c.isDigit := fun c hc => Nat.isDigit_of_mem_toDigits (by decide) (by decide) hc
  have hfold : (Nat.toDigits 10 i).foldl (fun n d => n * 10 + (d.toNat - '0'.toNat)) 0 = i := by
    have hchars := Nat.ofDigitChars_ten_toDigits (n := i)
    rw [Nat.ofDigitChars_eq_foldl] at hchars
    simpa only [Nat.mul_comm 10] using hchars
  have hne : Nat.toDigits 10 i ≠ [] := Nat.toDigits_ne_nil
  unfold parseU32
  split
  · next rest heq =>
    have hplus := hdigit '+' (by rw [heq]; exact List.mem_cons_self)
    exact absurd hplus (by decide)
  · dsimp only
    rw [if_pos ⟨hne, List.all_eq_true.2 hdigit⟩, hfold, if_pos h]

/-- a block tensor's name says its block -/
theorem layerIndex_blockName {i : ℕ} (h : i < 2 ^ 32) (suffix : String) :
    layerIndex s!"blk.{i}.{suffix}" = some i := by
  have htake : (Nat.toDigits 10 i ++ '.' :: suffix.toList).takeWhile (· ≠ '.') = Nat.toDigits 10 i := by
    rw [List.takeWhile_append_of_pos]
    · simp
    · intro c hc
      have := Nat.isDigit_of_mem_toDigits (by decide) (by decide) hc
      simp only [decide_eq_true_eq, ne_eq]
      rintro rfl
      revert this
      decide
  unfold layerIndex
  rw [toList_blockName]
  simp only [htake, parseU32_toDigits h]
  simp

/-- a name of the block whose suffix is consumed is asked for -/
theorem name_of_blockSuffix {i : ℕ} {name : String} (hindex : layerIndex name = some i)
    (h : blockSuffix i name ∈ consumed) : ∃ suffix ∈ consumed, name = s!"blk.{i}.{suffix}" := by
  unfold blockSuffix at h
  dsimp only at h
  split_ifs at h with hhead
  · refine ⟨_, h, ?_⟩
    obtain ⟨rest, hrest⟩ := List.isPrefixOf_iff_prefix.1 hhead
    rw [← hrest, List.drop_left]
    apply String.toList_inj.1
    rw [← hrest]
    simp [String.toList_append, toString]
  · -- no suffix is spelled like a block's tensor
    have hnone : ∀ s ∈ consumed, layerIndex s = none := by decide +kernel
    rw [hnone name h] at hindex
    cases hindex

/-! ## Files that answer alike -/

/-- the same header and directory, and every name in question that the first file can read, the second reads the same -/
structure Agree (names : String → Prop) (file file' : WeightFile) : Prop where
  config : file.config = file'.config
  directory : file.tensors.map TensorEntry.name = file'.tensors.map TensorEntry.name
  load : ∀ name, names name → Below (file.load name) (file'.load name)

namespace Agree

variable {names : String → Prop} {file file' : WeightFile}

theorem info_isSome (h : Agree names file file') (name : String) :
    (file.info name).isSome = (file'.info name).isSome := by
  have hmem : ∀ f : WeightFile, (f.info name).isSome = decide (name ∈ f.tensors.map TensorEntry.name) := by
    intro f
    rw [Bool.eq_iff_iff, decide_eq_true_eq, List.mem_map]
    unfold WeightFile.info
    rw [List.find?_isSome]
    simp only [decide_eq_true_eq]
  rw [hmem, hmem, h.directory]

theorem loadOptional (h : Agree names file file') {name : String} (hname : names name) :
    Below (file.loadOptional name) (file'.loadOptional name) := by
  unfold WeightFile.loadOptional
  rw [h.info_isSome]
  split_ifs
  · exact (h.load name hname).bind fun _ => Below.refl _
  · exact Below.refl _

theorem refuseUnknownTensors (h : Agree names file file') (i : ℕ) :
    refuseUnknownTensors file i = refuseUnknownTensors file' i := by
  have hnames : ∀ f : WeightFile, Engine.refuseUnknownTensors f i =
      each (fun name => bailIf (blockSuffix i name ∉ consumed) s!"{name} is a tensor this build does not read")
        ((f.tensors.map TensorEntry.name).filter fun name => (layerIndex name).any fun k => i ≤ k ∧ k < i + 1) := by
    intro f
    have hwithin : f.tensorsForLayers i (i + 1) =
        f.tensors.filter fun t => (layerIndex t.name).any fun k => i ≤ k ∧ k < i + 1 := by
      refine List.filter_congr fun t _ => ?_
      cases layerIndex t.name <;> rfl
    rw [Engine.refuseUnknownTensors, hwithin, List.filter_map, each_map]
    rfl
  rw [hnames, hnames, h.directory]

theorem getTensor (h : Agree names file file') {i : ℕ} {suffix : String} (hname : names s!"blk.{i}.{suffix}")
    (shape : List ℕ) : Below (getTensor file i suffix shape) (getTensor file' i suffix shape) :=
  (h.load _ hname).bind fun _ => Below.refl _

theorem getOptional (h : Agree names file file') {i : ℕ} {suffix : String} (hname : names s!"blk.{i}.{suffix}")
    (shape : List ℕ) : Below (getOptional file i suffix shape) (getOptional file' i suffix shape) :=
  (h.loadOptional hname).bind fun _ => Below.refl _

end Agree

theorem loadBlock_below {start stop i : ℕ} {file file' : WeightFile} (h : Agree (Asked start stop) file file')
    (hstart : start ≤ i) (hstop : i < stop) (config : ModelConfig) :
    Below (loadBlock file config i) (loadBlock file' config i) := by
  have hname : ∀ suffix ∈ consumed, Asked start stop s!"blk.{i}.{suffix}" :=
    fun suffix hs => .inr ⟨i, hstart, hstop, suffix, hs, rfl⟩
  have hget : ∀ suffix ∈ consumed, ∀ shape, Below (getTensor file i suffix shape) (getTensor file' i suffix shape) :=
    fun suffix hs shape => h.getTensor (hname suffix hs) shape
  have hopt : ∀ suffix ∈ consumed, ∀ shape, Below (getOptional file i suffix shape) (getOptional file' i suffix shape) :=
    fun suffix hs shape => h.getOptional (hname suffix hs) shape
  unfold loadBlock
  dsimp only
  rw [h.refuseUnknownTensors]
  refine (Below.refl _).bind fun _ => ?_
  refine (hget "attn_norm.weight" (by decide) _).bind fun _ => ?_
  refine (hget "attn_q.weight" (by decide) _).bind fun _ => ?_
  refine (hget "attn_k.weight" (by decide) _).bind fun _ => ?_
  refine (hget "attn_v.weight" (by decide) _).bind fun _ => ?_
  refine (hget "attn_output.weight" (by decide) _).bind fun _ => ?_
  refine (hget "ffn_norm.weight" (by decide) _).bind fun _ => ?_
  refine (hget "ffn_gate.weight" (by decide) _).bind fun _ => ?_
  refine (hget "ffn_up.weight" (by decide) _).bind fun _ => ?_
  refine (hget "ffn_down.weight" (by decide) _).bind fun _ => ?_
  refine (hopt "attn_q_norm.weight" (by decide) _).bind fun _ => ?_
  refine (hopt "attn_k_norm.weight" (by decide) _).bind fun _ => ?_
  refine (hopt "attn_q.bias" (by decide) _).bind fun _ => ?_
  refine (hopt "attn_k.bias" (by decide) _).bind fun _ => ?_
  refine (hopt "attn_v.bias" (by decide) _).bind fun _ => ?_
  exact (hopt "attn_output.bias" (by decide) _).bind fun _ => Below.refl _

theorem loadOutputHead_below {start stop : ℕ} {file file' : WeightFile} (h : Agree (Asked start stop) file file')
    (config : ModelConfig) (last : Bool) (embedding : Option Tensor) :
    Below (loadOutputHead file config last embedding) (loadOutputHead file' config last embedding) := by
  unfold loadOutputHead
  split_ifs
  · refine (h.loadOptional (.inl (by decide))).bind fun found => ?_
    rcases found with _ | head
    · rcases embedding with _ | table
      · exact ((h.load _ (.inl (by decide))).mapErr _).bind fun _ => Below.refl _
      · exact Below.refl _
    · exact Below.refl _
  · exact Below.refl _

/-- **A load depends on what it asks for.** A stage that loads from one file loads from every file that agrees with it on
the names asked for, and it is the same stage. -/
theorem load_below {start stop : ℕ} {file file' : WeightFile} (h : Agree (Asked start stop) file file') :
    Below (Stage.load file start stop) (Stage.load file' start stop) := by
  unfold Stage.load
  rw [h.config]
  refine (Below.refl _).bind fun config => (Below.refl _).bind fun _ => ?_
  refine .bind ?_ fun embedding => .bind ?_ fun layers => .bind ?_ fun norm =>
    (loadOutputHead_below h config _ embedding).bind fun _ => Below.refl _
  · unfold loadEmbedding
    split_ifs
    · exact (h.load _ (.inl (by decide))).bind fun _ => Below.refl _
    · exact Below.refl _
  · refine Below.mapM fun i hi => ?_
    obtain ⟨hstart, hstop⟩ := List.mem_range'_1.1 hi
    exact loadBlock_below h hstart (by omega) config
  · unfold loadOutputNorm
    split_ifs
    · exact (h.load _ (.inl (by decide))).bind fun _ => Below.refl _
    · exact Below.refl _

/-- what a whole load asks for and finds, it has read -/
theorem load_of_asked {file : WeightFile} {config : ModelConfig} (hc : file.config = .ok config) {stage : Stage}
    (h : Stage.load file 0 config.blockCount.toNat = .ok stage) {name : String}
    (hname : Asked 0 config.blockCount.toNat name) (hinfo : (file.info name).isSome) : ∃ t, file.load name = .ok t := by
  obtain ⟨config', hconfig, -, embedding, hembedding, layers, hlayers, norm, hnorm, head, hhead, -⟩ :=
    (Stage.load_ok_iff file 0 _ stage).1 h
  obtain rfl : config = config' := Except.ok.inj (hc.symm.trans hconfig)
  rcases hname with hshared | ⟨i, -, hstop, suffix, hsuffix, rfl⟩
  · fin_cases hshared
    · simp only [loadEmbedding, decide_true, if_true, bind_ok] at hembedding
      obtain ⟨t, ht, -⟩ := hembedding
      exact ⟨t, ht⟩
    · simp only [loadOutputNorm, decide_true, if_true, bind_ok] at hnorm
      obtain ⟨t, ht, -⟩ := hnorm
      exact ⟨t, ht⟩
    · simp only [loadOutputHead, decide_true, if_true, bind_ok] at hhead
      obtain ⟨found, hfound, -⟩ := hhead
      rw [WeightFile.loadOptional, if_pos hinfo, bind_ok] at hfound
      obtain ⟨t, ht, -⟩ := hfound
      exact ⟨t, ht⟩
  · obtain ⟨layer, hlayer⟩ := ok_of_mapM _ _ _ hlayers i (List.mem_range'_1.2 ⟨Nat.zero_le i, by omega⟩)
    simp only [loadBlock, bind_ok] at hlayer
    obtain ⟨-, -, t1, h1, t2, h2, t3, h3, t4, h4, t5, h5, t6, h6, t7, h7, t8, h8, t9, h9, o1, g1, o2, g2, o3, g3, o4, g4,
      o5, g5, o6, g6, -⟩ := hlayer
    have hget : ∀ {s : String} {shape : List ℕ} {t : Tensor}, getTensor file i s shape = .ok t →
        ∃ t, file.load s!"blk.{i}.{s}" = .ok t := by
      intro s shape t ht
      simp only [getTensor, bind_ok] at ht
      obtain ⟨t, ht, -⟩ := ht
      exact ⟨t, ht⟩
    have hopt : ∀ {s : String} {shape : List ℕ} {o : Option Tensor}, getOptional file i s shape = .ok o →
        (file.info s!"blk.{i}.{s}").isSome → ∃ t, file.load s!"blk.{i}.{s}" = .ok t := by
      intro s shape o ho hi
      rw [getOptional, bind_ok] at ho
      obtain ⟨found, hfound, -⟩ := ho
      rw [WeightFile.loadOptional, if_pos hi, bind_ok] at hfound
      obtain ⟨t, ht, -⟩ := hfound
      exact ⟨t, ht⟩
    fin_cases hsuffix
    exacts [hget h1, hget h2, hget h3, hget h4, hget h5, hget h6, hget h7, hget h8, hget h9, hopt g1 hinfo, hopt g2 hinfo,
      hopt g3 hinfo, hopt g4 hinfo, hopt g5 hinfo, hopt g6 hinfo]

/-! ## One tensor made unreadable -/

/-- the file with one tensor of its directory unreadable -/
def WeightFile.spoil (file : WeightFile) (j : ℕ) : WeightFile :=
  { file with tensors := file.tensors.modify j fun t => { t with contents := .error "unreadable" } }

/-- a load of these blocks cannot do without this tensor of the directory -/
def Reads (file : WeightFile) (start stop j : ℕ) : Prop := ∀ stage, Stage.load (file.spoil j) start stop ≠ .ok stage

/-- the place a name is looked up at -/
def WeightFile.place (file : WeightFile) (name : String) : ℕ := file.tensors.findIdx fun t => t.name = name

theorem find?_modify (tensors : List TensorEntry) (name : String) (f : TensorEntry → TensorEntry)
    (hf : ∀ t, (f t).name = t.name) (j : ℕ) :
    (tensors.modify j f).find? (fun t => t.name = name) =
      if tensors.findIdx (fun t => t.name = name) = j then (tensors.find? fun t => t.name = name).map f
      else tensors.find? fun t => t.name = name := by
  induction tensors generalizing j with
  | nil => simp only [List.modify_nil, List.find?_nil, Option.map_none, ite_self]
  | cons t rest ih =>
    cases j with
    | zero =>
      rw [List.modify_zero_cons, List.findIdx_cons, List.find?_cons, List.find?_cons, hf]
      by_cases hname : t.name = name
      · simp [hname]
      · simp [hname]
    | succ j =>
      rw [List.modify_succ_cons, List.findIdx_cons, List.find?_cons, List.find?_cons, ih]
      by_cases hname : t.name = name
      · simp [hname]
      · simp [hname]

theorem spoil_load (file : WeightFile) (j : ℕ) (name : String) (h : file.place name ≠ j) :
    (file.spoil j).load name = file.load name := by
  unfold WeightFile.place at h
  unfold WeightFile.load WeightFile.info WeightFile.spoil
  rw [find?_modify _ _ _ (by simp), if_neg h]

theorem spoil_load_place {file : WeightFile} {name : String} (h : (file.info name).isSome) :
    (file.spoil (file.place name)).load name = .error "unreadable" := by
  unfold WeightFile.load WeightFile.info WeightFile.spoil WeightFile.place
  rw [find?_modify _ _ _ (by simp), if_pos rfl]
  obtain ⟨t, ht⟩ := Option.isSome_iff_exists.1 h
  unfold WeightFile.info at ht
  rw [ht]
  rfl

theorem spoil_names (file : WeightFile) (j : ℕ) :
    (file.spoil j).tensors.map TensorEntry.name = file.tensors.map TensorEntry.name := by
  unfold WeightFile.spoil
  apply List.ext_getElem?
  intro k
  simp only [List.getElem?_map, List.getElem?_modify]
  cases file.tensors[k]? with
  | none => rfl
  | some t =>
    by_cases hjk : j = k
    · simp [hjk]
    · simp [hjk]

/-- spoiling a place that no name in question is looked up at changes nothing -/
theorem spoil_agree (names : String → Prop) (file : WeightFile) (j : ℕ)
    (h : ∀ name, names name → file.place name ≠ j) : Agree names file (file.spoil j) := by
  refine ⟨rfl, (spoil_names file j).symm, fun name hname => ?_⟩
  rw [spoil_load file j name (h name hname)]
  exact Below.refl _

/-- a tensor not looked up is not read -/
theorem not_reads {file : WeightFile} {start stop j : ℕ} {stage : Stage} (h : Stage.load file start stop = .ok stage)
    (hplace : ∀ name, Asked start stop name → file.place name ≠ j) : ¬ Reads file start stop j := by
  intro hreads
  exact hreads stage (load_below (spoil_agree _ file j hplace) stage h)

theorem place_lt {file : WeightFile} {name : String} {j : ℕ} (h : file.place name = j) (hj : j < file.tensors.length) :
    file.tensors[j].name = name := by
  subst h
  have hfound := @List.findIdx_getElem _ (fun t : TensorEntry => decide (t.name = name)) file.tensors hj
  exact of_decide_eq_true hfound

theorem place_of_nodup {file : WeightFile} (h : (file.tensors.map TensorEntry.name).Nodup) {j : ℕ}
    (hj : j < file.tensors.length) : file.place file.tensors[j].name = j := by
  have hlt : file.place file.tensors[j].name < file.tensors.length :=
    List.findIdx_lt_length_of_exists ⟨_, List.getElem_mem hj, by simp⟩
  have hname := place_lt rfl hlt
  refine (List.getElem?_inj (by simpa using hlt) h).1 ?_
  rw [List.getElem?_map, List.getElem?_map, List.getElem?_eq_getElem hlt, List.getElem?_eq_getElem hj]
  exact congrArg some hname

/-! ## A model in full -/

/-- **A model is loaded in full exactly when its directory holds nothing else.** A whole model that loads has read every
tensor of its directory if and only if no two share a name and each belongs to one of its blocks or is the embedding
table, the output norm or the output head. -/
theorem loaded_in_full_iff (file : WeightFile) (config : ModelConfig) (stage : Stage) (hc : file.config = .ok config)
    (h : Stage.load file 0 config.blockCount.toNat = .ok stage) :
    (∀ j < file.tensors.length, Reads file 0 config.blockCount.toNat j) ↔
      (file.tensors.map TensorEntry.name).Nodup ∧
        ∀ t ∈ file.tensors, (∃ i < config.blockCount.toNat, layerIndex t.name = some i) ∨ t.name ∈ sharedNames := by
  constructor
  · intro hall
    constructor
    · refine List.pairwise_iff_getElem.2 fun j k hj hk hjk heq => ?_
      simp only [List.length_map] at hj hk
      simp only [List.getElem_map] at heq
      refine not_reads h (fun name _ hplace => ?_) (hall k hk)
      -- the first of the two is found
      have hname := place_lt hplace hk
      have hlt : j < file.tensors.findIdx fun t => decide (t.name = name) := by
        unfold WeightFile.place at hplace
        omega
      have hfirst := List.not_of_lt_findIdx hlt
      simp [heq, hname] at hfirst
    · intro t ht
      obtain ⟨j, hj, rfl⟩ := List.getElem_of_mem ht
      by_contra hother
      refine not_reads h (fun name hasked hplace => hother ?_) (hall j hj)
      rw [place_lt hplace hj]
      rcases hasked with hshared | ⟨i, -, hi, suffix, -, rfl⟩
      · exact .inr hshared
      · exact .inl ⟨i, hi, layerIndex_blockName (hi.trans config.blockCount.toNat_lt) suffix⟩
  · rintro ⟨hnodup, hnames⟩ j hj stage' hload
    have hplace := place_of_nodup hnodup hj
    have hinfo : (file.info file.tensors[j].name).isSome :=
      List.find?_isSome.2 ⟨_, List.getElem_mem hj, by simp⟩
    have hagree : Agree (fun _ => False) file (file.spoil j) := spoil_agree _ file j fun _ hno => hno.elim
    have hasked : Asked 0 config.blockCount.toNat file.tensors[j].name := by
      rcases hnames _ (List.getElem_mem hj) with ⟨i, hi, hindex⟩ | hshared
      · -- a tensor of one of the blocks is consumed there, or the load refused it
        obtain ⟨config', hconfig, -, -, -, layers, hlayers, -⟩ := (Stage.load_ok_iff file 0 _ stage).1 h
        obtain rfl : config = config' := Except.ok.inj (hc.symm.trans hconfig)
        obtain ⟨layer, hlayer⟩ := ok_of_mapM _ _ _ hlayers i (List.mem_range'_1.2 ⟨Nat.zero_le i, by omega⟩)
        rw [loadBlock, bind_ok] at hlayer
        obtain ⟨_, hrefuse, -⟩ := hlayer
        simp only [refuseUnknownTensors, each_ok, bailIf_ok, not_not] at hrefuse
        have hsuffix := hrefuse file.tensors[j] (List.mem_filter.2 ⟨List.getElem_mem hj, by simp [hindex]⟩)
        exact .inr ⟨i, Nat.zero_le i, hi, name_of_blockSuffix hindex hsuffix⟩
      · exact .inl hshared
    have hc' : (file.spoil j).config = .ok config := hc
    have hinfo' : ((file.spoil j).info file.tensors[j].name).isSome := by
      rw [← hagree.info_isSome]
      exact hinfo
    obtain ⟨t, ht⟩ := load_of_asked hc' hload hasked hinfo'
    have herror := spoil_load_place hinfo
    rw [hplace, ht] at herror
    cases herror

/-! ## A tensor of no block -/

namespace Sample

/-- one block one value wide -/
def config : ModelConfig where
  ropeStyle := .interleaved
  blockCount := 1
  embeddingLength := 1
  headCount := 1
  headCountKv := 1
  feedForwardLength := 1
  keyLength := 1
  valueLength := 1
  rmsNormEps := 0
  ropeTheta := 0x3F800000
  ropeDimensionCount := 0
  vocabSize := 0
  headCount_pos := by decide
  headCountKv_pos := by decide
  heads_grouped := by decide
  keyLength_pos := by decide
  valueLength_pos := by decide
  rope_within := by decide
  rope_even := by decide

def vector (name : String) : TensorEntry := ⟨name, .ok ⟨[1], [0x3F800000], rfl, by simp⟩⟩

def matrix (name : String) : TensorEntry := ⟨name, .ok ⟨[1, 1], [0x3F800000], rfl, by simp⟩⟩

def file : WeightFile where
  config := .ok config
  tensors := [matrix "token_embd.weight", vector "blk.0.attn_norm.weight", matrix "blk.0.attn_q.weight",
    matrix "blk.0.attn_k.weight", matrix "blk.0.attn_v.weight", matrix "blk.0.attn_output.weight",
    vector "blk.0.ffn_norm.weight", matrix "blk.0.ffn_gate.weight", matrix "blk.0.ffn_up.weight",
    matrix "blk.0.ffn_down.weight", vector "output_norm.weight"]

/-- the same file with the factors by which it scales its rotations, a tensor that belongs to no block -/
def scaled : WeightFile := { file with tensors := file.tensors ++ [vector "rope_freqs.weight"] }

end Sample

/-- every tensor of a plain model is read -/
theorem plain_file_in_full :
    (∃ stage, Stage.load Sample.file 0 1 = .ok stage) ∧ ∀ j < 11, Reads Sample.file 0 1 j := by
  have hload : ((Stage.load Sample.file 0 1).okWith fun _ => true) = true := by decide +kernel
  obtain ⟨stage, hstage, -⟩ := (okWith_iff _ _).1 hload
  have hnames : ∀ t ∈ Sample.file.tensors, layerIndex t.name = some 0 ∨ t.name ∈ sharedNames := by decide +kernel
  have hall := (loaded_in_full_iff Sample.file Sample.config stage rfl hstage).2 ⟨by decide +kernel, fun t ht =>
    (hnames t ht).imp_left fun hindex => ⟨0, by decide, hindex⟩⟩
  exact ⟨⟨stage, hstage⟩, hall⟩

/-- The rotation factors are left out, and the model runs without them. -/
theorem rope_factors_unread :
    (∃ stage, Stage.load Sample.scaled 0 1 = .ok stage) ∧
      ∃ j < Sample.scaled.tensors.length, ¬ Reads Sample.scaled 0 1 j := by
  have hload : ((Stage.load Sample.scaled 0 1).okWith fun _ => true) = true := by decide +kernel
  have hspoiled : ((Stage.load (Sample.scaled.spoil 11) 0 1).okWith fun _ => true) = true := by decide +kernel
  obtain ⟨stage, hstage, -⟩ := (okWith_iff _ _).1 hload
  obtain ⟨stage', hstage', -⟩ := (okWith_iff _ _).1 hspoiled
  exact ⟨⟨stage, hstage⟩, 11, by decide +kernel, fun hreads => hreads stage' hstage'⟩

end Hocmesh.Engine
