/-
`hocmesh-model`: manifests, and the chunks of a model kept under their digests.

A manifest lists the chunks of a file in order; `validate` accepts one whose indexes count up from zero, whose chunks are
not empty and whose sizes add up (`validate_ok_iff`). A file `Assembles` a manifest when it is the concatenation of byte
strings with these digests and sizes.

`materialize_partial` writes some of the chunks, each at its own offset, into a file of zeros of the full length, and
returns the spans it wrote. The spans are the bytes of the chunks asked for, and inside them the file is the one the
manifest describes (`materializePartial_spec`).
-/
import Hocmesh.Ledger.Validate
import Hocmesh.Model.Directory

namespace Hocmesh.Model

open Hocmesh.Base

/-! ## Manifests -/

inductive ModelFormat where
  | gguf
  | safetensors
deriving DecidableEq

structure ChunkRef where
  index : UInt32
  sha256 : String
  sizeBytes : ℕ
deriving DecidableEq

structure ModelManifest where
  schemaVersion : ℕ
  modelId : String
  revision : String
  format : ModelFormat
  architecture : String
  parameterCount : Option ℕ
  tensorDtype : Option String
  totalSizeBytes : ℕ
  chunks : List ChunkRef
  metadata : List (String × String)
deriving DecidableEq

/-- 64 hexadecimal digits of either case; a text of 64 bytes that are all digits is one of 64 characters -/
def isSha256 (value : String) : Bool :=
  value.toList.length = 64 ∧ value.toList.all fun ch => ch.isDigit || ('a' ≤ ch && ch ≤ 'f') || ('A' ≤ ch && ch ≤ 'F')

/-- `text.trim().is_empty()` -/
def isBlank (text : String) : Bool := text.toList.all Ledger.isWhitespace

/-- the loop of `validate` over the chunks from `expected` on -/
def addChunks : List ChunkRef → ℕ → ℕ → Check ℕ
  | [], _, total => pure total
  | chunk :: rest, expected, total => do
    bailIf (chunk.index.toNat ≠ expected) "chunk indexes are not contiguous"
    bailIf (¬ isSha256 chunk.sha256) "invalid chunk digest"
    bailIf (¬ 0 < chunk.sizeBytes) "empty chunks are not permitted"
    let total ← orBail (checkedAdd total chunk.sizeBytes) "model size overflow"
    addChunks rest (expected + 1) total

namespace ModelManifest

variable (manifest : ModelManifest)

def validate : Check Unit := do
  bailIf (manifest.schemaVersion ≠ 1) "unsupported manifest schema"
  bailIf (isBlank manifest.modelId) "model_id is empty"
  bailIf (isBlank manifest.revision) "revision is empty"
  bailIf (isBlank manifest.architecture) "architecture is empty"
  bailIf (manifest.chunks = []) "manifest has no chunks"
  let total ← addChunks manifest.chunks 0 0
  bailIf (total ≠ manifest.totalSizeBytes) "manifest size does not match chunks"

end ModelManifest

def totalSize (chunks : List ChunkRef) : ℕ := (chunks.map ChunkRef.sizeBytes).sum

/-- what the loop accepts, and what it returns -/
theorem addChunks_ok_iff (chunks : List ChunkRef) (expected total result : ℕ) (hfits : total < 2 ^ 64) :
    addChunks chunks expected total = .ok result ↔
      chunks.map (fun chunk => chunk.index.toNat) = List.range' expected chunks.length ∧
        (∀ chunk ∈ chunks, isSha256 chunk.sha256 = true ∧ 0 < chunk.sizeBytes) ∧
        total + totalSize chunks = result ∧ result < 2 ^ 64 := by
  induction chunks generalizing expected total with
  | nil =>
    simp only [addChunks, pure_ok, totalSize, List.map_nil, List.sum_nil, Nat.add_zero, List.length_nil, List.range'_zero,
      List.not_mem_nil, false_imp_iff, implies_true, true_and]
    omega
  | cons chunk rest ih =>
    have hsum : totalSize (chunk :: rest) = chunk.sizeBytes + totalSize rest := by
      simp [totalSize]
    simp only [addChunks, bind_ok, bailIf_ok, orBail_ok, checkedAdd, not_not, exists_const, List.map_cons, List.length_cons,
      List.range'_succ, List.cons.injEq, List.forall_mem_cons, hsum]
    constructor
    · rintro ⟨hindex, hsha, hsize, total', htotal, hrest⟩
      split_ifs at htotal with hlt
      obtain rfl := Option.some.inj htotal
      obtain ⟨h1, h2, h3, h4⟩ := (ih (expected + 1) _ hlt).1 hrest
      exact ⟨⟨hindex, h1⟩, ⟨⟨hsha, hsize⟩, h2⟩, by omega, h4⟩
    · rintro ⟨⟨hindex, h1⟩, ⟨⟨hsha, hsize⟩, h2⟩, h3, h4⟩
      have hlt : total + chunk.sizeBytes < 2 ^ 64 := by omega
      refine ⟨hindex, hsha, hsize, total + chunk.sizeBytes, if_pos hlt, ?_⟩
      exact (ih (expected + 1) _ hlt).2 ⟨h1, h2, by omega, h4⟩

theorem validate_ok_iff (m : ModelManifest) :
    m.validate = .ok () ↔ (m.schemaVersion = 1 ∧ isBlank m.modelId = false ∧ isBlank m.revision = false ∧
      isBlank m.architecture = false ∧ m.chunks ≠ []) ∧
      m.chunks.map (fun chunk => chunk.index.toNat) = List.range' 0 m.chunks.length ∧
      (∀ chunk ∈ m.chunks, isSha256 chunk.sha256 = true ∧ 0 < chunk.sizeBytes) ∧
      totalSize m.chunks = m.totalSizeBytes ∧ m.totalSizeBytes < 2 ^ 64 := by
  simp only [ModelManifest.validate, bind_ok, bailIf_ok, not_not, exists_const, Bool.not_eq_true,
    addChunks_ok_iff _ 0 0 _ (by norm_num), Nat.zero_add]
  constructor
  · rintro ⟨h1, h2, h3, h4, h5, total, ⟨h6, h7, rfl, h8⟩, h9⟩
    exact ⟨⟨h1, h2, h3, h4, h5⟩, h6, h7, h9, h9 ▸ h8⟩
  · rintro ⟨⟨h1, h2, h3, h4, h5⟩, h6, h7, h8, h9⟩
    exact ⟨h1, h2, h3, h4, h5, _, ⟨h6, h7, rfl, h8 ▸ h9⟩, h8⟩

/-! ## Chunks under their digests -/

section

variable (sha256 : List UInt8 → String)

/-- `ChunkStore::read`, over the files that are there -/
def readChunk (files : String → Option (List UInt8)) (hash : String) : Check (List UInt8) := do
  bailIf (¬ isSha256 hash) "invalid SHA-256 digest"
  let bytes ← orBail (files hash) s!"reading chunk {hash}"
  bailIf (sha256 bytes ≠ hash) s!"chunk {hash} failed integrity verification"
  pure bytes

/-- the bytes of a chunk, as far as its manifest says -/
def Holds (chunk : ChunkRef) (part : List UInt8) : Prop := sha256 part = chunk.sha256 ∧ part.length = chunk.sizeBytes

/-- a file that is the concatenation of the chunks -/
def Assembles (chunks : List ChunkRef) (file : List UInt8) : Prop :=
  ∃ parts, List.Forall₂ (Holds sha256) chunks parts ∧ file = parts.flatten

theorem length_of_holds {chunks : List ChunkRef} {parts : List (List UInt8)} (h : List.Forall₂ (Holds sha256) chunks parts) :
    parts.flatten.length = totalSize chunks := by
  induction h with
  | nil => rfl
  | cons hpart _ ih => simp [totalSize, hpart.2, ih]

/-- no file of the store has the digest of a part and other bytes -/
def CollisionFree (files : String → Option (List UInt8)) (parts : List (List UInt8)) : Prop :=
  ∀ hash data part, files hash = some data → part ∈ parts → sha256 data = sha256 part → data = part

/-! ## Some of the chunks -/

/-- `write_at` into a file that is long enough -/
def writeAt (file : List UInt8) (start : ℕ) (data : List UInt8) : List UInt8 :=
  file.take start ++ data ++ file.drop (start + data.length)

/-- a run of kept chunks is one span -/
def extend (present : List ByteExtent) (start stop : ℕ) : List ByteExtent :=
  match present.getLast? with
  | some last => if last.stop = start then present.dropLast ++ [⟨last.start, stop⟩] else present ++ [⟨start, stop⟩]
  | none => [⟨start, stop⟩]

/-- the loop of `materialize_partial` over the chunks from `offset` on -/
def keepChunks (files : String → Option (List UInt8)) (keep : List UInt32) :
    List ChunkRef → ℕ → List UInt8 → List ByteExtent → Check (List UInt8 × List ByteExtent)
  | [], _, file, present => pure (file, present)
  | chunk :: rest, offset, file, present =>
    if chunk.index ∉ keep then keepChunks files keep rest (offset + chunk.sizeBytes) file present
    else do
      let data ← readChunk sha256 files chunk.sha256
      bailIf (data.length ≠ chunk.sizeBytes) "chunk size mismatch"
      keepChunks files keep rest (offset + chunk.sizeBytes) (writeAt file offset data)
        (extend present offset (offset + chunk.sizeBytes))

/-- the file written and the spans that are present in it -/
def materializePartial (files : String → Option (List UInt8)) (manifest : ModelManifest) (keep : List UInt32) :
    Check (List UInt8 × List ByteExtent) := do
  manifest.validate
  keepChunks sha256 files keep manifest.chunks 0 (List.replicate manifest.totalSizeBytes 0) []

end

/-! ## The spans written -/

/-- the chunk that the byte at `p` stands in -/
def chunkAt : List ChunkRef → ℕ → Option ChunkRef
  | [], _ => none
  | chunk :: rest, p => if p < chunk.sizeBytes then some chunk else chunkAt rest (p - chunk.sizeBytes)

/-- that chunk is kept -/
def keptAt (keep : List UInt32) (chunks : List ChunkRef) (p : ℕ) : Prop :=
  ∃ chunk ∈ chunkAt chunks p, chunk.index ∈ keep

theorem chunkAt_append (before after : List ChunkRef) (p : ℕ) (h : totalSize before ≤ p) :
    chunkAt (before ++ after) p = chunkAt after (p - totalSize before) := by
  induction before generalizing p with
  | nil => simp [totalSize]
  | cons chunk rest ih =>
    have hsum : totalSize (chunk :: rest) = chunk.sizeBytes + totalSize rest := by simp [totalSize]
    rw [hsum] at h ⊢
    rw [List.cons_append, chunkAt, if_neg (by omega), ih _ (by omega), Nat.sub_sub]

/-- the spans are the kept bytes before `offset`, none of them empty and no two with nothing between them -/
structure Spans (kept : ℕ → Prop) (offset : ℕ) (present : List ByteExtent) : Prop where
  apart : present.Pairwise fun a b => a.stop < b.start
  inside : ∀ e ∈ present, e.start < e.stop ∧ e.stop ≤ offset
  mem_iff : ∀ p < offset, kept p ↔ ∃ e ∈ present, e.start ≤ p ∧ p < e.stop

namespace Spans

variable {kept : ℕ → Prop} {offset size : ℕ} {present : List ByteExtent}

theorem nil (kept : ℕ → Prop) : Spans kept 0 [] := ⟨List.Pairwise.nil, by simp, by simp⟩

/-- a chunk that is not kept adds nothing -/
theorem skip (h : Spans kept offset present) (hnot : ∀ p, offset ≤ p → p < offset + size → ¬ kept p) :
    Spans kept (offset + size) present := by
  refine ⟨h.apart, fun e he => ⟨(h.inside e he).1, by have := (h.inside e he).2; omega⟩, fun p hp => ?_⟩
  by_cases hlt : p < offset
  · exact h.mem_iff p hlt
  · refine iff_of_false (hnot p (by omega) hp) ?_
    rintro ⟨e, he, -, hstop⟩
    have := (h.inside e he).2
    omega

/-- a chunk that is kept joins the last span, or is one of its own -/
theorem extend (h : Spans kept offset present) (hsize : 0 < size) (hkept : ∀ p, offset ≤ p → p < offset + size → kept p) :
    Spans kept (offset + size) (extend present offset (offset + size)) := by
  have hmem : ∀ {spans : List ByteExtent}, (∀ p, (∃ e ∈ spans, e.start ≤ p ∧ p < e.stop) ↔
      (∃ e ∈ present, e.start ≤ p ∧ p < e.stop) ∨ (offset ≤ p ∧ p < offset + size)) →
      ∀ p < offset + size, kept p ↔ ∃ e ∈ spans, e.start ≤ p ∧ p < e.stop := by
    intro spans hspans p hp
    rw [hspans p]
    by_cases hlt : p < offset
    · rw [h.mem_iff p hlt]
      exact ⟨.inl, fun hor => hor.resolve_right (by omega)⟩
    · exact iff_of_true (hkept p (by omega) hp) (.inr ⟨by omega, hp⟩)
  unfold Model.extend
  rcases List.eq_nil_or_concat' present with rfl | ⟨init, last, rfl⟩
  · refine ⟨List.pairwise_singleton _ _, ?_, hmem fun p => ?_⟩
    · simp only [List.getLast?_nil, List.mem_singleton, forall_eq]
      omega
    · simp
  · obtain ⟨hinit, -, hlast⟩ := List.pairwise_append.1 h.apart
    have hend := h.inside last (by simp)
    rw [List.getLast?_append_cons, List.getLast?_singleton]
    dsimp only [Option.some_or]
    split_ifs with hjoin
    · rw [List.dropLast_concat]
      refine ⟨List.pairwise_append.2 ⟨hinit, List.pairwise_singleton _ _, ?_⟩, ?_, hmem fun p => ?_⟩
      · intro a ha b hb
        obtain rfl := List.mem_singleton.1 hb
        exact hlast a ha last (List.mem_singleton.2 rfl)
      · intro e he
        rcases List.mem_append.1 he with he | he
        · have := h.inside e (by simp [he])
          omega
        · obtain rfl := List.mem_singleton.1 he
          dsimp only
          omega
      · simp only [List.mem_append, List.mem_singleton, or_and_right, exists_or, exists_eq_left]
        constructor
        · rintro (hin | ⟨h1, h2⟩)
          · exact .inl (.inl hin)
          · by_cases hlt : p < last.stop
            · exact .inl (.inr ⟨h1, hlt⟩)
            · exact .inr ⟨by omega, h2⟩
        · rintro ((hin | ⟨h1, h2⟩) | ⟨h1, h2⟩)
          · exact .inl hin
          · exact .inr ⟨h1, by omega⟩
          · exact .inr ⟨by omega, h2⟩
    · refine ⟨List.pairwise_append.2 ⟨h.apart, List.pairwise_singleton _ _, ?_⟩, ?_, hmem fun p => ?_⟩
      · intro a ha b hb
        obtain rfl := List.mem_singleton.1 hb
        rcases List.mem_append.1 ha with ha | ha
        · have h1 := hlast a ha last (List.mem_singleton.2 rfl)
          dsimp only
          omega
        · obtain rfl := List.mem_singleton.1 ha
          dsimp only
          omega
      · intro e he
        rcases List.mem_append.1 he with he | he
        · have := h.inside e he
          omega
        · obtain rfl := List.mem_singleton.1 he
          dsimp only
          omega
      · simp only [List.mem_append, List.mem_singleton, or_and_right, exists_or, exists_eq_left]

/-- bytes that are all kept stand in one span -/
theorem covers (h : Spans kept offset present) {e : ByteExtent} (hne : e.start < e.stop) (hstop : e.stop ≤ offset)
    (hkept : ∀ p, e.start ≤ p → p < e.stop → kept p) : ∃ held ∈ present, e.LiesIn held := by
  obtain ⟨held, hheld, h1, h2⟩ := (h.mem_iff e.start (by omega)).1 (hkept e.start le_rfl hne)
  refine ⟨held, hheld, h1, ?_⟩
  by_contra hshort
  -- the byte behind the span would be kept too, in a span that touches this one
  obtain ⟨next, hnext, h3, h4⟩ := (h.mem_iff held.stop (by omega)).1 (hkept held.stop (by omega) (by omega))
  have hheld' := h.inside held hheld
  obtain ⟨i, hi, rfl⟩ := List.getElem_of_mem hheld
  obtain ⟨j, hj, rfl⟩ := List.getElem_of_mem hnext
  have happart := List.pairwise_iff_getElem.1 h.apart
  rcases lt_trichotomy i j with hij | rfl | hij
  · have := happart i j hi hj hij
    omega
  · omega
  · have := happart j i hj hi hij
    omega

end Spans

/-- two files are the same on a span -/
def SameOn (e : ByteExtent) (a b : List UInt8) : Prop := ∀ p, e.start ≤ p → p < e.stop → a[p]? = b[p]?

theorem writeAt_length {file data : List UInt8} {start : ℕ} (h : start + data.length ≤ file.length) :
    (writeAt file start data).length = file.length := by
  simp only [writeAt, List.length_append, List.length_take, List.length_drop]
  omega

theorem writeAt_getElem? {file data : List UInt8} {start p : ℕ} (h : start + data.length ≤ file.length) :
    (writeAt file start data)[p]? = if start ≤ p ∧ p < start + data.length then data[p - start]? else file[p]? := by
  have htake : (file.take start).length = start := by
    rw [List.length_take]
    omega
  unfold writeAt
  by_cases h1 : p < start
  · rw [if_neg (by omega), List.append_assoc, List.getElem?_append_left (by omega), List.getElem?_take_of_lt h1]
  · by_cases h2 : p < start + data.length
    · rw [if_pos ⟨by omega, h2⟩, List.append_assoc, List.getElem?_append_right (by omega), htake,
        List.getElem?_append_left (by omega)]
    · rw [if_neg (by omega), List.getElem?_append_right (by rw [List.length_append]; omega), List.length_append, htake,
        List.getElem?_drop]
      congr 1
      omega

theorem readChunk_ok {sha256 : List UInt8 → String} {files : String → Option (List UInt8)} {hash : String}
    {bytes : List UInt8} (h : readChunk sha256 files hash = .ok bytes) : files hash = some bytes ∧ sha256 bytes = hash := by
  simp only [readChunk, bind_ok, orBail_ok, bailIf_ok, not_not, pure_ok, exists_const] at h
  obtain ⟨-, bytes', hbytes, hsha, rfl⟩ := h
  exact ⟨hbytes, hsha⟩

section

variable {sha256 : List UInt8 → String} {files : String → Option (List UInt8)} {keep : List UInt32} {chunks : List ChunkRef}
  {parts : List (List UInt8)}

/-- what the loop leaves behind: the kept bytes are the file's, and the spans are the kept bytes -/
theorem keepChunks_spec (before : List ChunkRef) (written : List (List UInt8))
    {after : List ChunkRef} {rest : List (List UInt8)}
    (hbefore : totalSize before = written.flatten.length) (hafter : List.Forall₂ (Holds sha256) after rest)
    (hfree : CollisionFree sha256 files rest)
    (hpos : ∀ chunk ∈ after, 0 < chunk.sizeBytes) {file : List UInt8} {present : List ByteExtent}
    (hlen : file.length = (written ++ rest).flatten.length)
    (hsame : ∀ p < totalSize before, keptAt keep (before ++ after) p → file[p]? = ((written ++ rest).flatten)[p]?)
    (hspans : Spans (keptAt keep (before ++ after)) (totalSize before) present) {result : List UInt8 × List ByteExtent}
    (h : keepChunks sha256 files keep after (totalSize before) file present = .ok result) :
    result.1.length = (written ++ rest).flatten.length ∧
      (∀ p < totalSize (before ++ after), keptAt keep (before ++ after) p →
        result.1[p]? = ((written ++ rest).flatten)[p]?) ∧
      Spans (keptAt keep (before ++ after)) (totalSize (before ++ after)) result.2 := by
  induction hafter generalizing before written file present with
  | nil =>
    simp only [keepChunks, pure_ok] at h
    subst h
    simp only [List.append_nil] at *
    exact ⟨hlen, hsame, hspans⟩
  | @cons chunk part after rest hholds hafter ih =>
    have hsum : totalSize (before ++ [chunk]) = totalSize before + chunk.sizeBytes := by simp [totalSize]
    have hat : ∀ p, totalSize before ≤ p → p < totalSize before + chunk.sizeBytes →
        (keptAt keep (before ++ chunk :: after) p ↔ chunk.index ∈ keep) := by
      intro p h1 h2
      rw [keptAt, chunkAt_append _ _ _ h1, chunkAt, if_pos (by omega)]
      simp
    have happ : before ++ chunk :: after = (before ++ [chunk]) ++ after := by simp
    have hparts : written ++ part :: rest = (written ++ [part]) ++ rest := by simp
    have hbefore' : totalSize (before ++ [chunk]) = (written ++ [part]).flatten.length := by
      rw [hsum, hbefore, List.flatten_append, List.length_append, List.flatten_singleton, hholds.2]
    have hpos' : ∀ c ∈ after, 0 < c.sizeBytes := fun c hc => hpos c (List.mem_cons_of_mem _ hc)
    have hfree' : CollisionFree sha256 files rest := fun hash d part hd hp => hfree hash d part hd (List.mem_cons_of_mem _ hp)
    rw [happ] at hat
    rw [happ, hparts] at hsame ⊢
    rw [happ] at hspans
    rw [hparts] at hlen
    rw [keepChunks] at h
    by_cases hkeep : chunk.index ∈ keep
    · rw [if_neg (not_not.2 hkeep)] at h
      simp only [bind_ok, bailIf_ok, not_not, exists_const] at h
      obtain ⟨data, hdata, hsize, h⟩ := h
      obtain ⟨hfile, hsha⟩ := readChunk_ok hdata
      obtain rfl : data = part := hfree _ data part hfile List.mem_cons_self (hsha.trans hholds.1.symm)
      have hroom : totalSize before + data.length ≤ file.length := by
        rw [hlen, hbefore]
        simp
      rw [← hsum] at h
      refine ih _ _ hbefore' hfree' hpos' (by rw [writeAt_length hroom, hlen]) (fun p hp hk => ?_) ?_ h
      · rw [hsum] at hp
        rw [writeAt_getElem? hroom]
        split_ifs with hin
        · rw [List.flatten_append, List.flatten_append, List.flatten_singleton, List.append_assoc,
            List.getElem?_append_right (by omega), ← hbefore, List.getElem?_append_left (by omega)]
        · exact hsame p (by omega) hk
      · rw [hsum]
        exact hspans.extend (hpos chunk List.mem_cons_self) fun p h1 h2 => (hat p h1 h2).2 hkeep
    · rw [if_pos hkeep, ← hsum] at h
      refine ih _ _ hbefore' hfree' hpos' hlen (fun p hp hk => ?_) ?_ h
      · rw [hsum] at hp
        by_cases hlt : p < totalSize before
        · exact hsame p hlt hk
        · exact absurd ((hat p (by omega) hp).1 hk) hkeep
      · rw [hsum]
        exact hspans.skip fun p h1 h2 hk => hkeep ((hat p h1 h2).1 hk)

/-- **What is present is the model.** A partial file is as long as the model its manifest describes; the spans returned are
the bytes of the chunks asked for, in runs; and in each span the file is the model. -/
theorem materializePartial_spec {manifest : ModelManifest} {file : List UInt8} {present : List ByteExtent}
    (hparts : List.Forall₂ (Holds sha256) manifest.chunks parts) (hfree : CollisionFree sha256 files parts)
    (h : materializePartial sha256 files manifest keep = .ok (file, present)) :
    file.length = parts.flatten.length ∧ Spans (keptAt keep manifest.chunks) parts.flatten.length present ∧
      ∀ e ∈ present, SameOn e file parts.flatten := by
  simp only [materializePartial, bind_ok, exists_ok_unit_and] at h
  obtain ⟨hvalid, h⟩ := h
  obtain ⟨-, -, hchunks, htotal, -⟩ := (validate_ok_iff manifest).1 hvalid
  have hsize := length_of_holds sha256 hparts
  obtain ⟨h1, h2, h3⟩ := keepChunks_spec [] [] rfl hparts hfree (fun c hc => (hchunks c hc).2)
    (by rw [List.length_replicate, ← htotal, List.nil_append, hsize]) (by simp [totalSize]) (Spans.nil _) h
  simp only [List.nil_append] at h1 h2 h3
  rw [← hsize] at h2 h3
  refine ⟨h1, h3, fun e he p hstart hstop => h2 p ?_ ?_⟩
  · have := (h3.inside e he).2
    omega
  · exact (h3.mem_iff p (by have := (h3.inside e he).2; omega)).2 ⟨e, he, hstart, hstop⟩

theorem keepChunks_ok (chunks : List ChunkRef)
    (hread : ∀ chunk ∈ chunks, chunk.index ∈ keep →
      ∃ part, readChunk sha256 files chunk.sha256 = .ok part ∧ part.length = chunk.sizeBytes)
    (offset : ℕ) (file : List UInt8) (present : List ByteExtent) :
    ∃ result, keepChunks sha256 files keep chunks offset file present = .ok result := by
  induction chunks generalizing offset file present with
  | nil => exact ⟨_, rfl⟩
  | cons chunk rest ih =>
    have hrest := ih fun c hc => hread c (List.mem_cons_of_mem _ hc)
    rw [keepChunks]
    by_cases hkeep : chunk.index ∈ keep
    · obtain ⟨part, hpart, hlen⟩ := hread chunk List.mem_cons_self hkeep
      obtain ⟨result, hresult⟩ := hrest (offset + chunk.sizeBytes) (writeAt file offset part)
        (extend present offset (offset + chunk.sizeBytes))
      refine ⟨result, ?_⟩
      rw [if_neg (not_not.2 hkeep)]
      simp only [bind_ok, bailIf_ok, not_not, exists_const]
      exact ⟨part, hpart, hlen, hresult⟩
    · rw [if_pos hkeep]
      exact hrest _ _ _

/-- a store that holds the chunks asked for is enough -/
theorem materializePartial_ok {manifest : ModelManifest} (hvalid : manifest.validate = .ok ())
    (hread : ∀ chunk ∈ manifest.chunks, chunk.index ∈ keep →
      ∃ part, readChunk sha256 files chunk.sha256 = .ok part ∧ part.length = chunk.sizeBytes) :
    ∃ result, materializePartial sha256 files manifest keep = .ok result := by
  obtain ⟨result, hresult⟩ := keepChunks_ok manifest.chunks hread 0 (List.replicate manifest.totalSizeBytes 0) []
  refine ⟨result, ?_⟩
  simp only [materializePartial, bind_ok]
  exact ⟨(), hvalid, hresult⟩

end

end Hocmesh.Model
