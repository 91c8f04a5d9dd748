/-
A stage on a machine that holds a part of the model.

`model-shard` fetches the chunks a range of blocks needs and writes them into a file full of holes, with a sidecar that
lists the spans that are there. `StageState::load` opens such a file, refuses it unless the spans cover what the blocks need,
and loads them. Every byte it then reads of a tensor stands in a span, and where the header does too, the stage is the one
the whole model gives (`stage_without_holes`).

`chunks_for_blocks` says which chunks to fetch. Where all chunks but the last are of one size, they are enough, and no chunk
is fetched for nothing but the padding between tensors (`chunks_are_enough`).
-/
import Hocmesh.Engine.Weights
import Hocmesh.Model.Nesting
import Hocmesh.Node.Whole

namespace Hocmesh.Node

open Hocmesh.Base Hocmesh.Model Hocmesh.Engine

/-! ## Loading from a file and its sidecar -/

/-- the spans of a sidecar; a file without one was written whole -/
def presentOf (bytes : List UInt8) : Option (List ByteExtent) → List ByteExtent
  | some present => present
  | none => [⟨0, bytes.length⟩]

section

variable (dec : BlockDecoder) (rd : Reading)

/-- `StageState::load` of a file, with what its sidecar says is present -/
def StageState.loadFile (bytes : List UInt8) (sidecar : Option (List ByteExtent)) (start stop : ℕ) (next : Option String) :
    Check StageState := do
  let o ← openFile rd bytes
  o.assertLayersPresent start stop (presentOf bytes sidecar)
  let _ ← o.configOf rd
  StageState.load (o.weights dec rd (readExact bytes)) start stop next

variable {dec rd}

theorem openFile_ok {bytes : List UInt8} {o : Opened} (h : openFile rd bytes = .ok o) :
    o.bytes = bytes ∧ o.header = bytes.take (min headerBudget bytes.length) ∧
      (tensorDirectory (skipValue rd.stack)).run o.header = .done (some o.directory) ∧
      o.directory.validate bytes.length = .ok () := by
  simp only [openFile, bind_ok, orBail_ok, pure_ok, answer_ok, exists_ok_unit_and] at h
  obtain ⟨parsed, hparsed, d, rfl, hvalid, rfl⟩ := h
  exact ⟨rfl, rfl, hparsed, hvalid⟩

theorem take_of_sameOn {a b : List UInt8} {n : ℕ} (h : SameOn ⟨0, n⟩ a b) : a.take n = b.take n := by
  apply List.ext_getElem?
  intro p
  rw [List.getElem?_take, List.getElem?_take]
  split_ifs with hp
  · exact h p (Nat.zero_le p) hp
  · rfl

theorem sameOn_mono {e held : ByteExtent} {a b : List UInt8} (h : SameOn held a b) (hin : e.LiesIn held) : SameOn e a b :=
  fun p h1 h2 => h p (hin.1.trans h1) (h2.trans_le hin.2)

/-- a span that is present reads the same from the part as from the whole -/
theorem readPresent_below {present : List ByteExtent} {bytes model : List UInt8} (hlen : bytes.length = model.length)
    (hsame : ∀ held ∈ present, SameOn held bytes model) (e : ByteExtent) :
    Below (readPresent present bytes e) (readExact model e) := by
  intro data hdata
  unfold readPresent at hdata
  split_ifs at hdata with hheld
  obtain ⟨held, hmem, hin⟩ := hheld
  unfold readExact at hdata ⊢
  split_ifs at hdata with hstop
  rw [if_pos (by omega), ← hdata]
  congr 1
  apply List.ext_getElem?
  intro p
  rw [List.getElem?_take, List.getElem?_take, List.getElem?_drop, List.getElem?_drop]
  split_ifs with hp
  · unfold ByteExtent.len at hp
    exact (sameOn_mono (hsame held hmem) hin (e.start + p) (by omega) (by omega)).symm
  · rfl

/-- two files with the same header have the same directory and configuration -/
theorem opened_alike {bytes model : List UInt8} {o o' : Opened} (ho : openFile rd bytes = .ok o)
    (ho' : openFile rd model = .ok o') (hlen : bytes.length = model.length)
    (hheader : SameOn ⟨0, o'.directory.dataStart⟩ bytes model) :
    o.directory = o'.directory ∧ Below (o.configOf rd) (o'.configOf rd) := by
  obtain ⟨-, hhead, hdir, -⟩ := openFile_ok ho
  obtain ⟨-, hhead', hdir', -⟩ := openFile_ok ho'
  have htake : o.header.take o'.directory.dataStart = o'.header.take o'.directory.dataStart := by
    rw [hhead, hhead', hlen, List.take_take, List.take_take]
    exact take_of_take (min_le_left _ _) (take_of_sameOn hheader)
  have hsame := directory_before hdir' htake
  rw [hdir] at hsame
  obtain hd := Option.some.inj (Outcome.done.inj hsame)
  refine ⟨hd, fromHeader_below rd.fl rd.assumed (metadataOf_below rd.fc rd.stack hdir ?_)⟩
  rw [hd]
  exact htake.symm

/-- **A stage never computes with a hole.** If a stage loads from a file and the spans of its sidecar, it loads the same
from the file that refuses to read a tensor's bytes anywhere but inside one of the spans. And if the file was written by
`materialize_partial` and the spans are the ones it returned, with the header of the model in one of them, then it is the
stage the model itself gives. -/
theorem stage_without_holes (dec : BlockDecoder) (rd : Reading) (bytes : List UInt8) (sidecar : Option (List ByteExtent))
    (start stop : ℕ) (next : Option String) (s : StageState)
    (h : StageState.loadFile dec rd bytes sidecar start stop next = .ok s) :
    (∃ o, openFile rd bytes = .ok o ∧
      Stage.load (o.weights dec rd (readPresent (presentOf bytes sidecar) bytes)) start stop = .ok s.stage) ∧
    ∀ (sha256 : List UInt8 → String) (files : String → Option (List UInt8)) (manifest : ModelManifest)
      (keep : List UInt32) (parts : List (List UInt8)) (present : List ByteExtent) (o' : Opened),
      List.Forall₂ (Holds sha256) manifest.chunks parts → CollisionFree sha256 files parts →
      materializePartial sha256 files manifest keep = .ok (bytes, present) → sidecar = some present →
      openFile rd parts.flatten = .ok o' → (∃ held ∈ present, ByteExtent.LiesIn ⟨0, o'.directory.dataStart⟩ held) →
      Stage.load (o'.weights dec rd (readExact parts.flatten)) start stop = .ok s.stage := by
  simp only [StageState.loadFile, bind_ok, exists_ok_unit_and] at h
  obtain ⟨o, ho, hpresent, config, hconfig, hload⟩ := h
  obtain ⟨hstage, -⟩ := stageState_load hload
  obtain ⟨hbytes, -⟩ := openFile_ok ho
  have hstop : stop ≤ 2 ^ 32 := by
    obtain ⟨config', hconfig', ⟨-, hle⟩, -⟩ := (Stage.load_ok_iff _ _ _ _).1 hstage
    exact hle.trans config'.blockCount.toNat_lt.le
  rw [← hbytes] at hstage
  have hguard : Agree (Asked start stop) (o.weights dec rd (readExact o.bytes))
      (o.weights dec rd (readPresent (presentOf bytes sidecar) o.bytes)) := present_of_asserted hstop hpresent
  have hstrict := load_below hguard s.stage hstage
  rw [hbytes] at hstrict
  refine ⟨⟨o, ho, hstrict⟩, ?_⟩
  rintro sha256 files manifest keep parts present o' hparts hfree hpartial rfl ho' ⟨held, hheld, hin⟩
  obtain ⟨hlen, -, hsame⟩ := materializePartial_spec hparts hfree hpartial
  obtain ⟨hbytes', -⟩ := openFile_ok ho'
  obtain ⟨hdir, hbelow⟩ := opened_alike ho ho' hlen (sameOn_mono (hsame held hheld) hin)
  have hagree : Agree (Asked start stop) (o.weights dec rd (readPresent present bytes))
      (o'.weights dec rd (readExact parts.flatten)) := by
    refine ⟨hconfig.trans (hbelow config hconfig).symm, ?_, fun name hname tensor hload => ?_⟩
    · simp [Opened.weights, hdir]
    · obtain ⟨t, ht, hinfo⟩ := weights_load_ok.1 hload
      rw [hdir, hbytes, hlen] at hinfo
      refine weights_load_ok.2 ⟨t, hdir ▸ ht, ?_⟩
      rw [hbytes']
      exact loadInfo_mono hinfo fun _ => readPresent_below hlen hsame _
  exact load_below hagree s.stage hstrict

end

/-! ### A model in four chunks -/

namespace Sample

/-- a digest of 64 digits: of the length and the first 30 bytes -/
def digest (bytes : List UInt8) : String :=
  Protocol.hexLower ((UInt8.ofNat bytes.length :: UInt8.ofNat (bytes.length / 256) :: bytes ++ List.replicate 30 0).take 32)

def chunksOf (parts : List (List UInt8)) : List ChunkRef :=
  parts.zipIdx.map fun part => ⟨UInt32.ofNat part.2, digest part.1, part.1.length⟩

def manifestOf (parts : List (List UInt8)) : ModelManifest where
  schemaVersion := 1
  modelId := "small"
  revision := "1"
  format := .gguf
  architecture := "llama"
  parameterCount := none
  tensorDtype := none
  totalSizeBytes := parts.flatten.length
  chunks := chunksOf parts
  metadata := []

/-- a store that holds every chunk -/
def storeOf (parts : List (List UInt8)) (hash : String) : Option (List UInt8) := parts.find? fun part => digest part = hash

theorem holds_chunksOf (parts : List (List UInt8)) : List.Forall₂ (Holds digest) (chunksOf parts) parts := by
  have hgen : ∀ k, List.Forall₂ (Holds digest)
      ((parts.zipIdx k).map fun part => ⟨UInt32.ofNat part.2, digest part.1, part.1.length⟩) parts := by
    induction parts with
    | nil => exact fun _ => .nil
    | cons part rest ih => exact fun k => .cons ⟨rfl, rfl⟩ (ih (k + 1))
  exact hgen 0

theorem storeOf_free (parts : List (List UInt8)) (h : ∀ a ∈ parts, ∀ b ∈ parts, digest a = digest b → a = b) :
    CollisionFree digest (storeOf parts) parts :=
  fun _ data part hdata hpart => h data (List.mem_of_find?_eq_some hdata) part hpart

/-- the second chunk is one byte of the header: of the offset of the query projection -/
def parts : List (List UInt8) := [Engine.Sample.model.take 316, [0x40], Engine.Sample.model.drop 317]

/-- the file without that chunk -/
def holed : List UInt8 := Engine.Sample.model.set 316 0

/-- what evaluating the model on these files gives: of the chunks, of the whole file, and of the file without the second -/
theorem evaluated :
    (parts.flatten = Engine.Sample.model ∧ (∀ a ∈ parts, ∀ b ∈ parts, digest a = digest b → a = b) ∧
      materializePartial digest (storeOf parts) (manifestOf parts) [0, 1, 2] = .ok (parts.flatten, [⟨0, 1000⟩]) ∧
      ((chunksOf parts).map fun c => c.sizeBytes).sum = 1000 ∧
      materializePartial digest (storeOf parts) (manifestOf parts) [0, 2] = .ok (holed, [⟨0, 316⟩, ⟨317, 1000⟩])) ∧
    ((openFile Engine.Sample.reading Engine.Sample.model).okWith fun o =>
      decide (o.directory.dataStart ≤ 1000) &&
      (Stage.load (o.weights Engine.Sample.decoder Engine.Sample.reading (readExact Engine.Sample.model)) 0 1).okWith
        fun stage => stage.isLast && decide (stage.layers.map (fun b => b.attnQ.values) = [[0x40000000]])) = true ∧
    ((StageState.loadFile Engine.Sample.decoder Engine.Sample.reading holed (some [⟨0, 316⟩, ⟨317, 1000⟩]) 0 1 none).okWith
      fun s => decide (s.stage.layers.map (fun b => b.attnQ.values) = [[0x3F800000]])) = true := by
  -- one evaluation after the other: the kernel keeps what it has evaluated until a declaration ends
  refine ⟨?_, ?_, ?_⟩
  · decide +kernel
  · decide +kernel
  · decide +kernel

theorem parts_flatten : parts.flatten = Engine.Sample.model := evaluated.1.1

theorem parts_free : CollisionFree digest (storeOf parts) parts := storeOf_free parts evaluated.1.2.1

/-- the whole model opens, and its stage has the query projection written -/
theorem whole_loads : ∃ o stage, openFile Engine.Sample.reading Engine.Sample.model = .ok o ∧ o.directory.dataStart ≤ 1000 ∧
    Stage.load (o.weights Engine.Sample.decoder Engine.Sample.reading (readExact Engine.Sample.model)) 0 1 = .ok stage ∧
    stage.isLast = true ∧ stage.layers.map (fun b => b.attnQ.values) = [[0x40000000]] := by
  obtain ⟨-, hwhole, -⟩ := evaluated
  obtain ⟨o, ho, hstage⟩ := (okWith_iff _ _).1 hwhole
  obtain ⟨hstart, hstage⟩ := Bool.and_eq_true_iff.1 hstage
  obtain ⟨stage, hload, hvalue⟩ := (okWith_iff _ _).1 hstage
  obtain ⟨hlast, hvalue⟩ := Bool.and_eq_true_iff.1 hvalue
  exact ⟨o, stage, ho, of_decide_eq_true hstart, hload, hlast, of_decide_eq_true hvalue⟩

end Sample

/-- a file with every chunk in it gives the stage of the model -/
theorem shard_with_every_chunk :
    ∃ s o', StageState.loadFile Engine.Sample.decoder Engine.Sample.reading Sample.parts.flatten
        (some [⟨0, 1000⟩]) 0 1 none = .ok s ∧
      openFile Engine.Sample.reading Sample.parts.flatten = .ok o' ∧
      Stage.load (o'.weights Engine.Sample.decoder Engine.Sample.reading (readExact Sample.parts.flatten)) 0 1 =
        .ok s.stage := by
  obtain ⟨⟨-, -, hpartial, hsizes, -⟩, -⟩ := Sample.evaluated
  have hlen : Sample.parts.flatten.length = 1000 := (length_of_holds _ (Sample.holds_chunksOf _)).trans hsizes
  obtain ⟨o, stage, ho, hstart, hstage, hlast, -⟩ := Sample.whole_loads
  rw [← Sample.parts_flatten] at ho hstage
  have hs : StageState.loadFile Engine.Sample.decoder Engine.Sample.reading Sample.parts.flatten (some [⟨0, 1000⟩]) 0 1 none =
      .ok ⟨stage, ∅, none⟩ := by
    obtain ⟨hbytes, -⟩ := openFile_ok ho
    have hpresent : o.assertLayersPresent 0 1 [⟨0, 1000⟩] = .ok () := by
      simp only [Opened.assertLayersPresent, each_ok, bailIf_ok, not_not]
      intro e he
      rw [hbytes, hlen] at he
      obtain ⟨-, hle, -⟩ := needed_within o.directory 0 1 1000 e he
      exact ⟨⟨0, 1000⟩, List.mem_singleton.2 rfl, Nat.zero_le _, hle⟩
    obtain ⟨config, hconfig, -⟩ := (Stage.load_ok_iff _ _ _ _).1 hstage
    simp only [StageState.loadFile, bind_ok, exists_ok_unit_and]
    refine ⟨o, ho, hpresent, config, hconfig, ?_⟩
    simp only [StageState.load, bind_ok, bailIf_ok, pure_ok, ne_eq, not_not, exists_const]
    exact ⟨stage, hstage, hlast, rfl⟩
  refine ⟨_, o, hs, ho, ?_⟩
  exact (stage_without_holes _ _ _ _ 0 1 none _ hs).2 Sample.digest (Sample.storeOf Sample.parts)
    (Sample.manifestOf Sample.parts) [0, 1, 2] Sample.parts [⟨0, 1000⟩] o (Sample.holds_chunksOf _) Sample.parts_free
    hpartial rfl ho ⟨⟨0, 1000⟩, List.mem_singleton.2 rfl, le_rfl, hstart⟩

/-- With one byte of the header left out the file loads all the same: the query projection is read from where its offset
now says, and is not the model's. -/
theorem header_hole_changes_weight :
    List.Forall₂ (Holds Sample.digest) (Sample.manifestOf Sample.parts).chunks Sample.parts ∧
      CollisionFree Sample.digest (Sample.storeOf Sample.parts) Sample.parts ∧
      materializePartial Sample.digest (Sample.storeOf Sample.parts) (Sample.manifestOf Sample.parts) [0, 2] =
        .ok (Sample.holed, [⟨0, 316⟩, ⟨317, 1000⟩]) ∧
      ∃ s o' stage, StageState.loadFile Engine.Sample.decoder Engine.Sample.reading Sample.holed
          (some [⟨0, 316⟩, ⟨317, 1000⟩]) 0 1 none = .ok s ∧
        openFile Engine.Sample.reading Sample.parts.flatten = .ok o' ∧
        Stage.load (o'.weights Engine.Sample.decoder Engine.Sample.reading (readExact Sample.parts.flatten)) 0 1 =
          .ok stage ∧
        s.stage.layers.map (fun b => b.attnQ.values) = [[0x3F800000]] ∧
        stage.layers.map (fun b => b.attnQ.values) = [[0x40000000]] := by
  obtain ⟨⟨-, -, -, -, hpartial⟩, -, hload⟩ := Sample.evaluated
  refine ⟨Sample.holds_chunksOf _, Sample.parts_free, hpartial, ?_⟩
  obtain ⟨s, hs, hvalue⟩ := (okWith_iff _ _).1 hload
  obtain ⟨o', stage, ho', -, hstage, -, hvalue'⟩ := Sample.whole_loads
  rw [← Sample.parts_flatten] at ho' hstage
  exact ⟨s, o', stage, hs, ho', hstage, of_decide_eq_true hvalue, hvalue'⟩

/-! ## The chunks to fetch -/

/-- `chunks_for_blocks` -/
def chunksForBlocks (rd : Reading) (manifest : ModelManifest) (header : List UInt8) (start stop : ℕ) :
    Check (List UInt32) := do
  let parsed ← answer ((tensorDirectory (skipValue rd.stack)).run header)
  let directory ← orBail parsed "model has no readable tensor directory"
  let total := manifest.totalSizeBytes
  -- the header is the one region every stage holds
  let extents := directory.neededExtents start stop total ++ [⟨0, min directory.dataStart total⟩]
  let chunkSize ← orBail ((manifest.chunks.head?.map ChunkRef.sizeBytes).filter fun size => 0 < size)
    "manifest declares no chunks"
  let indexes ← TensorDirectory.chunksForExtents extents chunkSize
  pure (indexes.map UInt32.ofNat)

/-- chunks of one size, as an import cuts them: the last may be shorter -/
def EvenlyCut (size : ℕ) (chunks : List ChunkRef) : Prop :=
  (∀ chunk ∈ chunks.dropLast, chunk.sizeBytes = size) ∧ ∀ chunk ∈ chunks, chunk.sizeBytes ≤ size

instance (size : ℕ) (chunks : List ChunkRef) : Decidable (EvenlyCut size chunks) := by unfold EvenlyCut; infer_instance

/-- chunks cut evenly are found by division -/
theorem chunkAt_evenlyCut {size : ℕ} (hsize : 0 < size) (chunks : List ChunkRef) (h : EvenlyCut size chunks) (k : ℕ)
    (hindex : chunks.map (fun chunk => chunk.index.toNat) = List.range' k chunks.length) {p : ℕ} (hp : p < totalSize chunks) :
    ∃ chunk ∈ chunkAt chunks p, chunk.index.toNat = k + p / size := by
  induction chunks generalizing k p with
  | nil => simp [totalSize] at hp
  | cons chunk rest ih =>
    have hsum : totalSize (chunk :: rest) = chunk.sizeBytes + totalSize rest := by simp [totalSize]
    rw [List.map_cons, List.length_cons, List.range'_succ, List.cons.injEq] at hindex
    have hle := h.2 chunk List.mem_cons_self
    rw [chunkAt]
    split_ifs with hin
    · refine ⟨chunk, rfl, ?_⟩
      rw [hindex.1, Nat.div_eq_of_lt (by omega), Nat.add_zero]
    · cases rest with
      | nil =>
        simp only [totalSize, List.map_cons, List.map_nil, List.sum_cons, List.sum_nil] at hp
        omega
      | cons next rest =>
        have hfull : chunk.sizeBytes = size := h.1 chunk (by simp)
        have hrest : EvenlyCut size (next :: rest) :=
          ⟨fun c hc => h.1 c (by rw [List.dropLast_cons_cons]; exact List.mem_cons_of_mem _ hc),
            fun c hc => h.2 c (List.mem_cons_of_mem _ hc)⟩
        obtain ⟨found, hfound, heq⟩ := ih hrest (k + 1) hindex.2 (show p - chunk.sizeBytes < totalSize (next :: rest) by omega)
        refine ⟨found, hfound, ?_⟩
        have hdiv : (p - size + size) / size = (p - size) / size + 1 := Nat.add_div_right _ hsize
        rw [Nat.sub_add_cancel (by omega)] at hdiv
        rw [heq, hfull, hdiv]
        omega

theorem mem_chunksForExtents {extents : List ByteExtent} {size : ℕ} {indexes : List ℕ}
    (h : TensorDirectory.chunksForExtents extents size = .ok indexes) (n : ℕ) :
    n ∈ indexes ↔ ∃ e ∈ extents, ∃ p, e.start ≤ p ∧ p < e.stop ∧ p / size = n := by
  simp only [TensorDirectory.chunksForExtents, bind_ok, bailIf_ok, not_not, pure_ok, exists_const] at h
  obtain ⟨hsize, rfl⟩ := h
  simp only [List.mem_dedup, List.mem_insertionSort, List.mem_flatMap, List.mem_filter, List.mem_range'_1]
  constructor
  · rintro ⟨e, ⟨he, hne⟩, h1, h2⟩
    have hlt : e.start < e.stop := by simpa [ByteExtent.isEmpty] using hne
    have hfirst : n * size ≤ e.stop - 1 := (Nat.le_div_iff_mul_le hsize).1 (by omega)
    rcases le_total e.start (n * size) with hle | hle
    · exact ⟨e, he, n * size, hle, by omega, Nat.mul_div_cancel n hsize⟩
    · refine ⟨e, he, e.start, le_rfl, hlt, le_antisymm h1 ?_⟩
      exact (Nat.le_div_iff_mul_le hsize).2 hle
  · rintro ⟨e, he, p, h1, h2, rfl⟩
    refine ⟨e, ⟨he, by simp [ByteExtent.isEmpty]; omega⟩, Nat.div_le_div_right h1, ?_⟩
    have hlast : p / size ≤ (e.stop - 1) / size := Nat.div_le_div_right (by omega)
    omega

/-- distinct indexes tell the chunks of a manifest apart -/
theorem chunk_of_index {chunks : List ChunkRef} (hindex : chunks.map (fun chunk => chunk.index.toNat) = List.range' 0 chunks.length)
    {a b : ChunkRef} (ha : a ∈ chunks) (hb : b ∈ chunks) (h : a.index = b.index) : a = b := by
  have hnodup : (chunks.map fun chunk => chunk.index.toNat).Nodup := by
    rw [hindex]
    exact List.nodup_range'
  exact List.inj_on_of_nodup_map hnodup ha hb (congrArg UInt32.toNat h)

theorem mem_of_chunkAt {chunks : List ChunkRef} {p : ℕ} {chunk : ChunkRef} (h : chunkAt chunks p = some chunk) :
    chunk ∈ chunks := by
  induction chunks generalizing p with
  | nil => cases h
  | cons first rest ih =>
    rw [chunkAt] at h
    split_ifs at h
    · obtain rfl := Option.some.inj h
      exact List.mem_cons_self
    · exact List.mem_cons_of_mem _ (ih h)

/-- where two files that agree up to the data of the one both have a directory, it is the same -/
theorem directory_unique {stack : ℕ} {a b : List UInt8} {d d' : TensorDirectory}
    (ha : (tensorDirectory (skipValue stack)).run a = .done (some d))
    (hb : (tensorDirectory (skipValue stack)).run b = .done (some d'))
    (hsame : ∀ p, p < d.dataStart → p < a.length → p < b.length → a[p]? = b[p]?) : d' = d := by
  obtain ⟨j, hj⟩ := run_some.1 ha
  obtain ⟨k, hk⟩ := run_some.1 hb
  have hja : j ≤ a.length := ((inside_directory (inside_skipValue stack) a 0 (Nat.zero_le _)).2 _ _ hj).2
  have hkb : k ≤ b.length := ((inside_directory (inside_skipValue stack) b 0 (Nat.zero_le _)).2 _ _ hk).2
  have hstop := directory_stop hj
  have htake : ∀ n, n ≤ j → n ≤ b.length → a.take n = b.take n := by
    intro n hn hnb
    apply List.ext_getElem?
    intro p
    rw [List.getElem?_take, List.getElem?_take]
    split_ifs with hp
    · exact hsame p (by omega) (by omega) (by omega)
    · rfl
  have hlocal := local_tensorDirectory (local_skipValue stack)
  rcases le_or_gt j b.length with hle | hlt
  · have hother := (hlocal a 0 _ j hj).2 b (htake j le_rfl hle).symm
    rw [hk] at hother
    exact Option.some.inj (Prod.mk.inj (Outcome.done.inj hother)).1
  · -- the shorter file ends before the directory of the longer one does
    have hother := (hlocal b 0 _ k hk).2 a (htake k (by omega) hkb)
    rw [hj] at hother
    exact (Option.some.inj (Prod.mk.inj (Outcome.done.inj hother)).1).symm

theorem chunksForExtents_ok (extents : List ByteExtent) {size : ℕ} (hsize : 0 < size) :
    ∃ indexes, TensorDirectory.chunksForExtents extents size = .ok indexes := by
  unfold TensorDirectory.chunksForExtents
  rw [bailIf, if_neg (not_not.2 hsize)]
  exact ⟨_, rfl⟩

/-- a file that agrees with the model where its header is opens as the model does -/
theorem openFile_alike {rd : Reading} {file model : List UInt8} {o' : Opened} (hlen : file.length = model.length)
    (hsame : SameOn ⟨0, min o'.directory.dataStart model.length⟩ file model) (ho' : openFile rd model = .ok o') :
    ∃ o, openFile rd file = .ok o := by
  obtain ⟨-, hhead', hdir', hvalid'⟩ := openFile_ok ho'
  have htake : (file.take (min headerBudget file.length)).take o'.directory.dataStart =
      o'.header.take o'.directory.dataStart := by
    rw [hhead', hlen, List.take_take, List.take_take]
    exact take_of_take (by omega) (take_of_sameOn hsame)
  refine ⟨⟨file, o'.directory, file.take (min headerBudget file.length)⟩, ?_⟩
  simp only [openFile, bind_ok, orBail_ok, pure_ok, answer_ok, exists_ok_unit_and]
  exact ⟨some o'.directory, directory_before hdir' htake, o'.directory, rfl, hlen ▸ hvalid', rfl⟩

/-- a chunk that reads is as long as the manifest says -/
theorem readChunk_length {sha256 : List UInt8 → String} {files : String → Option (List UInt8)} {chunks : List ChunkRef}
    {parts : List (List UInt8)} (hparts : List.Forall₂ (Holds sha256) chunks parts) (hfree : CollisionFree sha256 files parts)
    {chunk : ChunkRef} (hchunk : chunk ∈ chunks) {data : List UInt8} (h : readChunk sha256 files chunk.sha256 = .ok data) :
    data.length = chunk.sizeBytes := by
  obtain ⟨hfile, hsha⟩ := readChunk_ok h
  obtain ⟨i, hi, rfl⟩ := List.getElem_of_mem hchunk
  have hi' : i < parts.length := hparts.length_eq ▸ hi
  obtain ⟨hpart, hsize⟩ : Holds sha256 chunks[i] parts[i] := hparts.get hi hi'
  rw [hfree _ data parts[i] hfile (List.getElem_mem hi') (hsha.trans hpart.symm), hsize]

/-- **The chunks a stage is told to fetch are enough, and few.** For chunks cut evenly: a store that has them gives a file
that opens if the model does and whose spans pass the guard, and each of them holds a byte of the header, of a tensor the
blocks need, or of the padding behind one. -/
theorem chunks_are_enough (rd : Reading) (sha256 : List UInt8 → String) (manifest : ModelManifest)
    (parts : List (List UInt8)) (header : List UInt8) (d : TensorDirectory) (start stop : ℕ)
    (hvalid : manifest.validate = .ok ()) (heven : ∀ first ∈ manifest.chunks.head?, EvenlyCut first.sizeBytes manifest.chunks)
    (hparts : List.Forall₂ (Holds sha256) manifest.chunks parts) (hleads : header <+: parts.flatten)
    (hd : (tensorDirectory (skipValue rd.stack)).run header = .done (some d)) :
    ∃ keep, chunksForBlocks rd manifest header start stop = .ok keep ∧
      (∀ files : String → Option (List UInt8), CollisionFree sha256 files parts →
        (∀ chunk ∈ manifest.chunks, chunk.index ∈ keep → ∃ data, readChunk sha256 files chunk.sha256 = .ok data) →
        ∃ file present, materializePartial sha256 files manifest keep = .ok (file, present) ∧
          (∀ o', openFile rd parts.flatten = .ok o' → ∃ o, openFile rd file = .ok o) ∧
          ∀ o, openFile rd file = .ok o → o.assertLayersPresent start stop present = .ok ()) ∧
      ∀ chunk ∈ manifest.chunks, chunk.index ∈ keep → ∃ p, chunkAt manifest.chunks p = some chunk ∧
        (p < d.dataStart ∨ Touches d.alignment ((d.tensorsForLayers start stop ++ d.sharedTensors).map fun t =>
          d.extentOf t manifest.totalSizeBytes) p) := by
  obtain ⟨⟨-, -, -, -, hne⟩, hindex, hchunks, htotal, -⟩ := (validate_ok_iff manifest).1 hvalid
  obtain ⟨more, hmore⟩ := hleads
  obtain ⟨first, rest, hfirst⟩ := List.exists_cons_of_ne_nil hne
  have hhead : manifest.chunks.head? = some first := by rw [hfirst]; rfl
  have hcut := heven first hhead
  have hsize : 0 < first.sizeBytes := (hchunks first (by rw [hfirst]; exact List.mem_cons_self)).2
  have hmodel : parts.flatten.length = manifest.totalSizeBytes := (length_of_holds sha256 hparts).trans htotal
  obtain ⟨indexes, hindexes⟩ := chunksForExtents_ok
    (d.neededExtents start stop manifest.totalSizeBytes ++ [⟨0, min d.dataStart manifest.totalSizeBytes⟩]) hsize
  have hmem := mem_chunksForExtents hindexes
  have hkeep : chunksForBlocks rd manifest header start stop = .ok (indexes.map UInt32.ofNat) := by
    simp only [chunksForBlocks, bind_ok, orBail_ok, pure_ok, answer_ok]
    exact ⟨some d, hd, d, rfl, first.sizeBytes, by simp [hhead, hsize], indexes, hindexes, rfl⟩
  have hfind : ∀ p < manifest.totalSizeBytes, ∃ chunk ∈ chunkAt manifest.chunks p,
      chunk.index = UInt32.ofNat (p / first.sizeBytes) := by
    intro p hp
    obtain ⟨chunk, hchunk, hat⟩ := chunkAt_evenlyCut hsize _ hcut 0 hindex (show p < totalSize manifest.chunks by omega)
    refine ⟨chunk, hchunk, UInt32.toNat_inj.1 ?_⟩
    have := chunk.index.toNat_lt
    rw [UInt32.toNat_ofNat']
    omega
  refine ⟨_, hkeep, fun files hfree hstore => ?_, fun chunk hchunk hin => ?_⟩
  · obtain ⟨⟨file, present⟩, hpartial⟩ : ∃ result, materializePartial sha256 files manifest (indexes.map UInt32.ofNat) =
        .ok result :=
      materializePartial_ok hvalid fun chunk hchunk hin => by
        obtain ⟨data, hdata⟩ := hstore chunk hchunk hin
        exact ⟨data, hdata, readChunk_length hparts hfree hchunk hdata⟩
    obtain ⟨hlen, hspans, hsame⟩ := materializePartial_spec hparts hfree hpartial
    rw [hmodel] at hspans
    -- the chunk at a byte asked for is kept
    have hkept : ∀ e ∈ (d.neededExtents start stop manifest.totalSizeBytes ++
        [⟨0, min d.dataStart manifest.totalSizeBytes⟩] : List ByteExtent),
        e.start < e.stop → e.stop ≤ manifest.totalSizeBytes → ∃ held ∈ present, e.LiesIn held := by
      intro e he hlt hle
      refine hspans.covers hlt hle fun p h1 h2 => ?_
      obtain ⟨chunk, hchunk, hat⟩ := hfind p (by omega)
      exact ⟨chunk, hchunk, List.mem_map.2 ⟨p / first.sizeBytes, (hmem _).2 ⟨e, he, p, h1, h2, rfl⟩, hat.symm⟩⟩
    have hheader : SameOn ⟨0, min d.dataStart manifest.totalSizeBytes⟩ file parts.flatten := by
      intro p _ h2
      obtain ⟨held, hheld, hin⟩ := hkept _ (List.mem_append_right _ (List.mem_singleton.2 rfl))
        (show 0 < min d.dataStart manifest.totalSizeBytes by dsimp only at h2; omega) (min_le_right _ _)
      exact hsame held hheld p (hin.1.trans (Nat.zero_le p)) (h2.trans_le hin.2)
    refine ⟨file, present, hpartial, fun o' ho' => ?_, fun o ho => ?_⟩
    · obtain ⟨-, hhead', hdir', -⟩ := openFile_ok ho'
      have hsame' : o'.directory = d := by
        refine directory_unique hd hdir' fun p _ hp hp' => ?_
        rw [hhead', List.length_take] at hp'
        rw [hhead', List.getElem?_take_of_lt (by omega), ← hmore, List.getElem?_append_left hp]
      refine openFile_alike hlen ?_ ho'
      rw [hsame', hmodel]
      exact hheader
    · obtain ⟨hbytes, hhead', hdir', -⟩ := openFile_ok ho
      have hsame' : o.directory = d := by
        refine directory_unique hd hdir' fun p hstart hp hp' => ?_
        rw [hhead', List.length_take] at hp'
        rw [hhead', List.getElem?_take_of_lt (by omega),
          hheader p (Nat.zero_le p) (show p < min d.dataStart manifest.totalSizeBytes by omega), ← hmore,
          List.getElem?_append_left hp]
      simp only [Opened.assertLayersPresent, each_ok, bailIf_ok, not_not]
      intro e he
      rw [hsame', hbytes, hlen, hmodel] at he
      obtain ⟨hlt, hle, -⟩ := needed_within d start stop manifest.totalSizeBytes e he
      exact hkept e (List.mem_append_left _ he) hlt hle
  · obtain ⟨n, hn, heq⟩ := List.mem_map.1 hin
    obtain ⟨e, he, p, h1, h2, rfl⟩ := (hmem n).1 hn
    have hp : p < manifest.totalSizeBytes ∧ (p < d.dataStart ∨ Touches d.alignment
        ((d.tensorsForLayers start stop ++ d.sharedTensors).map fun t => d.extentOf t manifest.totalSizeBytes) p) := by
      rcases List.mem_append.1 he with he | he
      · obtain ⟨-, hle, htouch⟩ := needed_within d start stop manifest.totalSizeBytes e he
        exact ⟨by omega, .inr (htouch p h1 h2)⟩
      · obtain rfl := List.mem_singleton.1 he
        dsimp only at h2
        exact ⟨by omega, .inl (by omega)⟩
    obtain ⟨found, hfound, hat⟩ := hfind p hp.1
    obtain rfl : found = chunk := chunk_of_index hindex (mem_of_chunkAt hfound) hchunk (hat.trans heq)
    exact ⟨p, hfound, hp.2⟩

/-! ### Two tensors with padding between them -/

namespace Sample

/-- two values, 28 bytes of padding apart -/
def padded : List UInt8 :=
  Engine.Sample.gguf [] [⟨"a", [1], 0, 0⟩, ⟨"b", [1], 0, 32⟩] (0x3F800000 :: List.replicate 7 0 ++ [0x3F800000])

def paddedDirectory : TensorDirectory := ⟨32, 96, [⟨"a", [1], 0, 0⟩, ⟨"b", [1], 0, 32⟩]⟩

/-- in chunks of 25 bytes, the last of seven -/
def evenParts : List (List UInt8) := (List.range 6).map fun i => (padded.drop (25 * i)).take 25

/-- the first chunk longer than the others -/
def unevenParts : List (List UInt8) := [padded.take 100, (padded.drop 100).take 16, padded.drop 116]

/-- the chunk of the even ones that holds padding alone -/
def paddingChunk : ChunkRef := ⟨4, digest (List.replicate 25 0), 25⟩

/-- what evaluating the model on these chunks gives: on the even ones, and on the others -/
theorem chunks_evaluated :
    ((manifestOf evenParts).chunks.head?.map ChunkRef.sizeBytes = some 25 ∧ EvenlyCut 25 (manifestOf evenParts).chunks ∧
      padded = evenParts.flatten ∧
      (∀ chunk ∈ (manifestOf evenParts).chunks,
        ((readChunk digest (storeOf evenParts) chunk.sha256).okWith fun _ => true) = true) ∧
      (manifestOf evenParts).validate = .ok () ∧
      (tensorDirectory (skipValue Engine.Sample.reading.stack)).run padded = .done (some paddedDirectory) ∧
      (∀ a ∈ evenParts, ∀ b ∈ evenParts, digest a = digest b → a = b) ∧
      chunksForBlocks Engine.Sample.reading (manifestOf evenParts) padded 0 1 = .ok [0, 1, 2, 3, 4, 5]) ∧
    (paddingChunk ∈ (manifestOf evenParts).chunks ∧
      ∀ p < 132, chunkAt (manifestOf evenParts).chunks p = some paddingChunk →
        96 ≤ p ∧ ∀ t ∈ paddedDirectory.tensors,
          p < (paddedDirectory.extentOf t 132).start ∨ (paddedDirectory.extentOf t 132).stop ≤ p) ∧
    ((manifestOf unevenParts).validate = .ok () ∧
      chunksForBlocks Engine.Sample.reading (manifestOf unevenParts) padded 0 1 = .ok [0, 1] ∧
      materializePartial digest (storeOf unevenParts) (manifestOf unevenParts) [0, 1] =
        .ok (padded.take 116 ++ List.replicate 16 0, [⟨0, 116⟩])) ∧
    ((openFile Engine.Sample.reading (padded.take 116 ++ List.replicate 16 0)).okWith fun o =>
      !(o.assertLayersPresent 0 1 [⟨0, 116⟩]).okWith fun _ => true) = true := by
  refine ⟨?_, ?_, ?_, ?_⟩
  · decide +kernel
  · decide +kernel
  · decide +kernel
  · decide +kernel

theorem evenParts_even : ∀ first ∈ (manifestOf evenParts).chunks.head?,
    EvenlyCut first.sizeBytes (manifestOf evenParts).chunks := by
  intro first hfirst
  obtain ⟨⟨hsize, heven, -⟩, -⟩ := chunks_evaluated
  rw [Option.mem_def.1 hfirst] at hsize
  rw [Option.some.inj hsize]
  exact heven

end Sample

/-- the chunks for the small file are enough: from a store that holds every chunk its shard is written and passes -/
theorem padded_chunks_enough :
    ∃ keep file present, chunksForBlocks Engine.Sample.reading (Sample.manifestOf Sample.evenParts) Sample.padded 0 1 = .ok keep ∧
      materializePartial Sample.digest (Sample.storeOf Sample.evenParts) (Sample.manifestOf Sample.evenParts) keep =
        .ok (file, present) ∧
      ∀ o, openFile Engine.Sample.reading file = .ok o → o.assertLayersPresent 0 1 present = .ok () := by
  obtain ⟨⟨-, -, hleads, hstore, hvalid, hdirectory, hfree, -⟩, -⟩ := Sample.chunks_evaluated
  obtain ⟨keep, hkeep, henough, -⟩ := chunks_are_enough Engine.Sample.reading Sample.digest
    (Sample.manifestOf Sample.evenParts) Sample.evenParts Sample.padded Sample.paddedDirectory 0 1 hvalid
    Sample.evenParts_even (Sample.holds_chunksOf _) ⟨[], by rw [List.append_nil]; exact hleads⟩ hdirectory
  obtain ⟨file, present, hpartial, -, hassert⟩ := henough (Sample.storeOf Sample.evenParts)
    (Sample.storeOf_free _ hfree) fun chunk hchunk _ => by
      obtain ⟨data, hdata, -⟩ := (okWith_iff _ _).1 (hstore chunk hchunk)
      exact ⟨data, hdata⟩
  exact ⟨keep, file, present, hkeep, hpartial, hassert⟩

/-- With a first chunk longer than the others the chunks are too few. With chunks cut evenly one is kept that holds nothing
but padding. -/
theorem uneven_chunks_too_few :
    (∃ keep file present o,
      (Sample.manifestOf Sample.unevenParts).validate = .ok () ∧
      chunksForBlocks Engine.Sample.reading (Sample.manifestOf Sample.unevenParts) Sample.padded 0 1 = .ok keep ∧
      materializePartial Sample.digest (Sample.storeOf Sample.unevenParts) (Sample.manifestOf Sample.unevenParts) keep =
        .ok (file, present) ∧
      openFile Engine.Sample.reading file = .ok o ∧ o.assertLayersPresent 0 1 present ≠ .ok ()) ∧
    ∃ keep chunk, (Sample.manifestOf Sample.evenParts).validate = .ok () ∧
      (tensorDirectory (skipValue Engine.Sample.reading.stack)).run Sample.padded = .done (some Sample.paddedDirectory) ∧
      chunksForBlocks Engine.Sample.reading (Sample.manifestOf Sample.evenParts) Sample.padded 0 1 = .ok keep ∧
      chunk ∈ (Sample.manifestOf Sample.evenParts).chunks ∧ chunk.index ∈ keep ∧
      ∀ p < 132, chunkAt (Sample.manifestOf Sample.evenParts).chunks p = some chunk →
        96 ≤ p ∧ ∀ t ∈ Sample.paddedDirectory.tensors,
          p < (Sample.paddedDirectory.extentOf t 132).start ∨ (Sample.paddedDirectory.extentOf t 132).stop ≤ p := by
  obtain ⟨⟨-, -, -, -, hvalid, hdirectory, -, hall⟩, ⟨hpadding, hidle⟩, ⟨hvalid', hkeep, hpartial⟩, hopen⟩ :=
    Sample.chunks_evaluated
  constructor
  · obtain ⟨o, ho, hassert⟩ := (okWith_iff _ _).1 hopen
    refine ⟨_, _, _, o, hvalid', hkeep, hpartial, ho, fun hok => ?_⟩
    rw [hok] at hassert
    cases hassert
  · exact ⟨_, Sample.paddingChunk, hvalid, hdirectory, hall, hpadding, by decide, hidle⟩

end Hocmesh.Node
