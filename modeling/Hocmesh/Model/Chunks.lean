/-
`hocmesh-model`: the chunk store on a disk, a model cut into chunks, and put back.

A `Disk` has the chunk files under their digests, the temporary files that were not renamed, and the files models were
written to. `put` never changes a chunk file that is there, so whatever fails, a `Disk` only `Grows`.

A file is imported in `pieces` of the chunk size, each stored under its digest. `imported_comes_back`: on a store whose
chunk files are right the import succeeds, and the manifest it returns describes the file: writing all its chunks gives
the file, and writing some of them gives the file in the spans reported and zeros elsewhere.
-/
import Hocmesh.Base.Faulty
import Hocmesh.Model.Store

namespace Hocmesh.Model

open Hocmesh.Base Hocmesh.Base.Faulty

/-! ## The store -/

structure Disk where
  chunks : String → Option (List UInt8)
  /-- the temporary file of a chunk, by its digest and the id of the process that wrote it -/
  temporaries : String → ℕ → Bool
  models : String → Option (List UInt8)

namespace Disk

def store (disk : Disk) (hash : String) (bytes : List UInt8) : Disk :=
  { disk with chunks := Function.update disk.chunks hash (some bytes) }

def leave (disk : Disk) (hash : String) (process : ℕ) : Disk :=
  { disk with temporaries := Function.update disk.temporaries hash (Function.update (disk.temporaries hash) process true) }

def write (disk : Disk) (output : String) (bytes : List UInt8) : Disk :=
  { disk with models := Function.update disk.models output (some bytes) }

def extend (disk : Disk) (output : String) (bytes : List UInt8) : Disk :=
  disk.write output ((disk.models output).getD [] ++ bytes)

@[simp] theorem store_chunks (disk : Disk) (hash : String) (bytes : List UInt8) :
    (disk.store hash bytes).chunks = Function.update disk.chunks hash (some bytes) := rfl

@[simp] theorem store_temporaries (disk : Disk) (hash : String) (bytes : List UInt8) :
    (disk.store hash bytes).temporaries = disk.temporaries := rfl

@[simp] theorem write_models (disk : Disk) (output : String) (bytes : List UInt8) :
    (disk.write output bytes).models = Function.update disk.models output (some bytes) := rfl

/-- no chunk file has gone or changed -/
def Grows (disk disk' : Disk) : Prop := ∀ hash data, disk.chunks hash = some data → disk'.chunks hash = some data

instance : Std.Refl Grows := ⟨fun _ _ _ h => h⟩

instance : IsTrans Disk Grows := ⟨fun _ _ _ h₁ h₂ hash data h => h₂ hash data (h₁ hash data h)⟩

theorem grows_store {disk : Disk} {hash : String} {bytes : List UInt8}
    (h : disk.chunks hash = none ∨ disk.chunks hash = some bytes) : Grows disk (disk.store hash bytes) := by
  intro other data hother
  by_cases heq : other = hash
  · subst heq
    rw [hother] at h
    obtain rfl := Option.some.inj (h.resolve_left (Option.some_ne_none data))
    simp
  · simpa [heq] using hother

end Disk

section

variable (sha256 : List UInt8 → String) (process : ℕ)

/-- `ChunkStore::put`: the bytes go to a temporary file that must be new, and the temporary file gets the chunk's name -/
def putChunk (bytes : List UInt8) (disk : Disk) : Check String × Disk :=
  let hash := sha256 bytes
  if bytes = [] then (.error "cannot store an empty chunk", disk)
  else if ¬ isSha256 hash then (.error "invalid SHA-256 digest", disk)
  else if (disk.chunks hash).isSome then
    (do
      let held ← readChunk sha256 disk.chunks hash
      bailIf (held ≠ bytes) "digest collision or corrupt chunk"
      pure hash, disk)
  else if disk.temporaries hash process then (.error "File exists", disk)
  else (.ok hash, disk.store hash bytes)

/-- what `put` leaves when it is cut short: nothing, a temporary file, or the chunk -/
def putPart (bytes : List UInt8) (n : ℕ) (disk : Disk) : Disk :=
  match putChunk sha256 process bytes disk with
  | (.ok _, disk') =>
    if (disk.chunks (sha256 bytes)).isSome then disk
    else if n = 0 then disk
    else if n = 1 then disk.leave (sha256 bytes) process
    else disk'
  | (.error _, _) => disk

def put (bytes : List UInt8) : Faulty Disk String := operation (putChunk sha256 process bytes) (putPart sha256 process bytes)

def read (hash : String) : Faulty Disk (List UInt8) := look fun disk => readChunk sha256 disk.chunks hash

def contains (chunk : ChunkRef) : Faulty Disk Bool := do
  let data ← attempt (read sha256 chunk.sha256)
  pure (data.any fun data => data.length = chunk.sizeBytes)

/-- `File::create`, which empties a file that is there -/
def create (output : String) : Faulty Disk Unit :=
  operation (fun disk => (.ok (), disk.write output [])) fun n disk => if n = 0 then disk else disk.write output []

/-- `write_all` at the end of the file; cut short, it has not written the last byte -/
def append (output : String) (data : List UInt8) : Faulty Disk Unit :=
  operation (fun disk => (.ok (), disk.extend output data))
    fun n disk => disk.extend output (data.take (min n (data.length - 1)))

def syncAll : Faulty Disk Unit := look fun _ => .ok ()

def writeChunk (output : String) (chunk : ChunkRef) : Faulty Disk Unit := do
  let data ← read sha256 chunk.sha256
  ofCheck (bailIf (data.length ≠ chunk.sizeBytes) "chunk size mismatch")
  append output data

def materialize (manifest : ModelManifest) (output : String) : Faulty Disk Unit := do
  ofCheck manifest.validate
  create output
  forEach (writeChunk sha256 output) manifest.chunks
  syncAll

/-! ## The import -/

/-- the loop of `import_reader` over what is left of the file; every round but the last takes a byte of it or more -/
def importLoop (chunkSize : ℕ) : ℕ → List UInt8 → List ChunkRef → Faulty Disk (List ChunkRef)
  | 0, _, chunks => pure chunks
  | rounds + 1, reader, chunks => do
    -- `Vec::with_capacity` panics beyond `isize::MAX` bytes
    ofCheck (bailIf (2 ^ 63 ≤ chunkSize) "capacity overflow")
    let data := reader.take chunkSize
    if data = [] then pure chunks
    else do
      let hash ← put sha256 process data
      importLoop chunkSize rounds (reader.drop chunkSize)
        (chunks ++ [⟨UInt32.ofNat chunks.length, hash, data.length⟩])

def importReader (reader : List UInt8) (chunkSize : ℕ) : Faulty Disk (List ChunkRef) := do
  ofCheck (bailIf (¬ 0 < chunkSize) "chunk size must be positive")
  let chunks ← importLoop sha256 process chunkSize (reader.length + 1) reader []
  ofCheck (bailIf (chunks = []) "cannot import an empty model")
  pure chunks

/-- the manifest of a file that reads as `reader` -/
def manifestForFile (reader : List UInt8) (modelId revision : String) (format : ModelFormat) (architecture : String)
    (chunkSize : ℕ) : Faulty Disk ModelManifest := do
  let chunks ← importReader sha256 process reader chunkSize
  let manifest : ModelManifest :=
    { schemaVersion := 1, modelId := modelId, revision := revision, format := format, architecture := architecture,
      parameterCount := none, tensorDtype := none, totalSizeBytes := totalSize chunks % 2 ^ 64, chunks := chunks,
      metadata := [] }
  ofCheck manifest.validate
  pure manifest

end

/-! ## What the store keeps -/

section

variable (sha256 : List UInt8 → String) (process : ℕ)

/-- `put` leaves the disk alone, or stores a chunk that was not there -/
theorem putChunk_cases (bytes : List UInt8) (disk : Disk) :
    (∃ c, putChunk sha256 process bytes disk = (c, disk)) ∨
      (disk.chunks (sha256 bytes) = none ∧ disk.temporaries (sha256 bytes) process = false) ∧
      putChunk sha256 process bytes disk = (.ok (sha256 bytes), disk.store (sha256 bytes) bytes) := by
  unfold putChunk
  dsimp only
  split_ifs with hempty hdigest hthere hleft
  · exact .inl ⟨_, rfl⟩
  · exact .inl ⟨_, rfl⟩
  · exact .inl ⟨_, rfl⟩
  · exact .inr ⟨⟨Option.not_isSome_iff_eq_none.1 hthere, by simpa using hleft⟩, rfl⟩
  · exact .inl ⟨_, rfl⟩

/-- what holds between the disk before and after a new chunk or a temporary file, `put` keeps -/
theorem keeps_put {r : Disk → Disk → Prop} [Std.Refl r] {bytes : List UInt8}
    (hstore : ∀ disk, disk.chunks (sha256 bytes) = none → disk.temporaries (sha256 bytes) process = false →
      r disk (disk.store (sha256 bytes) bytes))
    (hleave : ∀ disk, r disk (disk.leave (sha256 bytes) process)) : Keeps r (put sha256 process bytes) := by
  refine keeps_operation (fun disk => ?_) fun n disk => ?_
  · rcases putChunk_cases sha256 process bytes disk with ⟨c, hc⟩ | ⟨⟨hnone, hclear⟩, hput⟩
    · rw [hc]
      exact Std.Refl.refl disk
    · rw [hput]
      exact hstore disk hnone hclear
  · unfold putPart
    rcases putChunk_cases sha256 process bytes disk with ⟨c, hc⟩ | ⟨⟨hnone, hclear⟩, hput⟩
    · rw [hc]
      cases c with
      | error e => exact Std.Refl.refl disk
      | ok hash =>
        dsimp only
        split_ifs
        · exact Std.Refl.refl disk
        · exact Std.Refl.refl disk
        · exact hleave disk
        · exact Std.Refl.refl disk
    · rw [hput]
      dsimp only
      split_ifs
      · exact Std.Refl.refl disk
      · exact Std.Refl.refl disk
      · exact hleave disk
      · exact hstore disk hnone hclear

theorem put_grows (bytes : List UInt8) : Keeps Disk.Grows (put sha256 process bytes) :=
  keeps_put sha256 process (fun _ hnone _ => Disk.grows_store (.inl hnone)) fun _ _ _ h => h

theorem keeps_contains {r : Disk → Disk → Prop} [Std.Refl r] [IsTrans Disk r] (chunk : ChunkRef) :
    Keeps r (contains sha256 chunk) :=
  (keeps_look _).attempt.bind fun _ => keeps_pure _

end

/-! ## What the store does when nothing fails -/

section

variable {sha256 : List UInt8 → String} {process : ℕ}

/-- a chunk that is not in the way is stored, and one that is there already stays -/
theorem runs_put {bytes : List UInt8} {disk : Disk} (hne : bytes ≠ []) (hdigest : isSha256 (sha256 bytes) = true)
    (hthere : ∀ data, disk.chunks (sha256 bytes) = some data → data = bytes)
    (hleft : disk.chunks (sha256 bytes) = none → disk.temporaries (sha256 bytes) process = false) :
    Runs (put sha256 process bytes) disk (sha256 bytes) (disk.store (sha256 bytes) bytes) := by
  refine runs_operation ?_
  unfold putChunk
  dsimp only
  rw [if_neg hne, if_neg (not_not.2 hdigest)]
  cases hfile : disk.chunks (sha256 bytes) with
  | none => rw [if_neg (by simp), if_neg (by simp [hleft hfile])]
  | some data =>
    obtain rfl := hthere data hfile
    have hsame : disk.store (sha256 data) data = disk := by
      rw [Disk.store, ← hfile, Function.update_eq_self]
    rw [if_pos (by simp), hsame]
    simp [readChunk, hdigest, hfile, orBail, bailIf, bind, Except.bind, pure, Except.pure]

theorem readChunk_of {files : String → Option (List UInt8)} {hash : String} {bytes : List UInt8}
    (hdigest : isSha256 hash = true) (hfile : files hash = some bytes) (hsha : sha256 bytes = hash) :
    readChunk sha256 files hash = .ok bytes := by
  simp [readChunk, hdigest, hfile, hsha, orBail, bailIf, bind, Except.bind, pure, Except.pure]

theorem runs_read {disk : Disk} {hash : String} {bytes : List UInt8} (hdigest : isSha256 hash = true)
    (hfile : disk.chunks hash = some bytes) (hsha : sha256 bytes = hash) : Runs (read sha256 hash) disk bytes disk :=
  runs_look (readChunk_of hdigest hfile hsha)

theorem runs_create (output : String) (disk : Disk) : Runs (create output) disk () (disk.write output []) :=
  runs_operation rfl

theorem runs_append (output : String) (data written : List UInt8) (disk : Disk) :
    Runs (append output data) (disk.write output written) () (disk.write output (written ++ data)) := by
  have hextend : (disk.write output written).extend output data = disk.write output (written ++ data) := by
    simp [Disk.extend, Disk.write]
  exact runs_operation (by rw [hextend])

theorem runs_syncAll (disk : Disk) : Runs syncAll disk () disk := runs_look rfl

/-- `contains` reads the chunk and compares its size -/
theorem runs_contains (sha256 : List UInt8 → String) (chunk : ChunkRef) (disk : Disk) :
    ∃ held, Runs (contains sha256 chunk) disk held disk ∧ (held = true ↔
      ∃ data, readChunk sha256 disk.chunks chunk.sha256 = .ok data ∧ data.length = chunk.sizeBytes) := by
  refine ⟨_, (runs_attempt_look _ disk).bind (runs_pure _ disk), ?_⟩
  cases readChunk sha256 disk.chunks chunk.sha256 with
  | ok data => simp
  | error e => simp

/-- the loop of `materialize` appends the chunks -/
theorem runs_writeChunk {chunks : List ChunkRef} {parts : List (List UInt8)} {disk : Disk} (output : String)
    (hparts : List.Forall₂ (Holds sha256) chunks parts) (hdigests : ∀ chunk ∈ chunks, isSha256 chunk.sha256 = true)
    (hfiles : ∀ part ∈ parts, disk.chunks (sha256 part) = some part) (written : List UInt8) :
    Runs (forEach (writeChunk sha256 output) chunks) (disk.write output written) ()
      (disk.write output (written ++ parts.flatten)) := by
  induction hparts generalizing written with
  | nil =>
    rw [List.flatten_nil, List.append_nil]
    exact runs_pure _ _
  | @cons chunk part chunks parts hholds _ ih =>
    have hread : Runs (read sha256 chunk.sha256) (disk.write output written) part (disk.write output written) :=
      runs_read (hdigests chunk List.mem_cons_self) (hholds.1 ▸ hfiles part List.mem_cons_self) hholds.1
    have hsize : bailIf (part.length ≠ chunk.sizeBytes) "chunk size mismatch" = .ok () := by simp [hholds.2]
    have hchunk : Runs (writeChunk sha256 output chunk) (disk.write output written) () (disk.write output (written ++ part)) :=
      hread.bind ((runs_ofCheck hsize _).bind (runs_append output part written disk))
    have hrest := ih (fun c hc => hdigests c (List.mem_cons_of_mem _ hc)) (fun p hp => hfiles p (List.mem_cons_of_mem _ hp))
      (written ++ part)
    rw [List.flatten_cons, ← List.append_assoc]
    exact hchunk.bind hrest

/-- a store with every chunk writes the model -/
theorem runs_materialize {manifest : ModelManifest} {parts : List (List UInt8)} {disk : Disk} (output : String)
    (hvalid : manifest.validate = .ok ()) (hparts : List.Forall₂ (Holds sha256) manifest.chunks parts)
    (hfiles : ∀ part ∈ parts, disk.chunks (sha256 part) = some part) :
    Runs (materialize sha256 manifest output) disk () (disk.write output parts.flatten) := by
  have hchunks := ((validate_ok_iff manifest).1 hvalid).2.2.1
  have hloop := runs_writeChunk output hparts (fun c hc => (hchunks c hc).1) hfiles []
  exact (runs_ofCheck hvalid disk).bind ((runs_create output disk).bind (hloop.bind (runs_syncAll _)))

/-! ## The pieces of a file -/

/-- what `import_reader` reads, round by round -/
def pieces (size : ℕ) (bytes : List UInt8) : List (List UInt8) :=
  if _h : bytes = [] ∨ size = 0 then [] else bytes.take size :: pieces size (bytes.drop size)
termination_by bytes.length
decreasing_by
  have := List.length_pos_iff.2 fun h => _h (.inl h)
  rw [List.length_drop]
  omega

/-- the references to them, from the index `first` on -/
def refs (sha256 : List UInt8 → String) : ℕ → List (List UInt8) → List ChunkRef
  | _, [] => []
  | first, part :: parts => ⟨UInt32.ofNat first, sha256 part, part.length⟩ :: refs sha256 (first + 1) parts

theorem pieces_nil (size : ℕ) : pieces size [] = [] := by
  rw [pieces, dif_pos (.inl rfl)]

theorem pieces_cons {size : ℕ} {bytes : List UInt8} (hne : bytes ≠ []) (hpos : 0 < size) :
    pieces size bytes = bytes.take size :: pieces size (bytes.drop size) := by
  rw [pieces, dif_neg (by rintro (h | h) <;> [exact hne h; omega])]

theorem flatten_pieces {size : ℕ} (hpos : 0 < size) (bytes : List UInt8) : (pieces size bytes).flatten = bytes := by
  fun_induction pieces size bytes with
  | case1 bytes h =>
    obtain rfl := h.resolve_right (by omega)
    rfl
  | case2 bytes h ih => rw [List.flatten_cons, ih, List.take_append_drop]

theorem ne_nil_of_mem_pieces {size : ℕ} {bytes part : List UInt8} (h : part ∈ pieces size bytes) : part ≠ [] := by
  fun_induction pieces size bytes with
  | case1 bytes _ => cases h
  | case2 bytes hmore ih =>
    rcases List.mem_cons.1 h with rfl | h
    · rw [not_or] at hmore
      simp [hmore.1, hmore.2]
    · exact ih h

theorem length_refs (sha256 : List UInt8 → String) (first : ℕ) (parts : List (List UInt8)) :
    (refs sha256 first parts).length = parts.length := by
  induction parts generalizing first with
  | nil => rfl
  | cons part parts ih => rw [refs, List.length_cons, ih, List.length_cons]

theorem holds_refs (sha256 : List UInt8 → String) (first : ℕ) (parts : List (List UInt8)) :
    List.Forall₂ (Holds sha256) (refs sha256 first parts) parts := by
  induction parts generalizing first with
  | nil => exact .nil
  | cons part parts ih => exact .cons ⟨rfl, rfl⟩ (ih (first + 1))

/-- a file of at most `n` full chunks is cut into at most `n` -/
theorem length_pieces_le {size : ℕ} {bytes : List UInt8} {n : ℕ} (h : bytes.length ≤ n * size) :
    (pieces size bytes).length ≤ n := by
  fun_induction pieces size bytes generalizing n with
  | case1 bytes _ => exact Nat.zero_le n
  | case2 bytes hmore ih =>
    rw [not_or] at hmore
    have hlen := List.length_pos_iff.2 hmore.1
    obtain ⟨n, rfl⟩ : ∃ m, n = m + 1 := Nat.exists_eq_succ_of_ne_zero (by rintro rfl; omega)
    have hrest : (bytes.drop size).length ≤ n * size := by
      rw [List.length_drop]
      have : (n + 1) * size = n * size + size := Nat.succ_mul n size
      omega
    have := ih hrest
    rw [List.length_cons]
    omega

/-- as long as indexes fit 32 bits they count up -/
theorem index_refs {first : ℕ} {parts : List (List UInt8)} (hfits : first + parts.length ≤ 2 ^ 32) :
    (refs sha256 first parts).map (fun chunk => chunk.index.toNat) = List.range' first parts.length := by
  induction parts generalizing first with
  | nil => rfl
  | cons part parts ih =>
    rw [List.length_cons] at hfits
    have hfirst : (UInt32.ofNat first).toNat = first := by
      rw [UInt32.toNat_ofNat']
      exact Nat.mod_eq_of_lt (by omega)
    rw [refs, List.map_cons, ih (by omega), List.length_cons, List.range'_succ]
    simp only [hfirst]

/-- what a chunk of an assembled file is a part of -/
theorem exists_part {chunks : List ChunkRef} {parts : List (List UInt8)} (h : List.Forall₂ (Holds sha256) chunks parts)
    {chunk : ChunkRef} (hchunk : chunk ∈ chunks) : ∃ part ∈ parts, Holds sha256 chunk part := by
  induction h with
  | nil => cases hchunk
  | @cons first part chunks parts hholds _ ih =>
    rcases List.mem_cons.1 hchunk with rfl | hchunk
    · exact ⟨part, List.mem_cons_self, hholds⟩
    · obtain ⟨part', hpart, hholds'⟩ := ih hchunk
      exact ⟨part', List.mem_cons_of_mem _ hpart, hholds'⟩

/-- the byte at `p` is in the chunk with the index `p / size` -/
theorem chunkAt_refs (sha256 : List UInt8 → String) {size : ℕ} (hpos : 0 < size) {bytes : List UInt8} (first p : ℕ)
    (hp : p < bytes.length) : ∃ chunk, chunkAt (refs sha256 first (pieces size bytes)) p = some chunk ∧
      chunk.index = UInt32.ofNat (first + p / size) := by
  fun_induction pieces size bytes generalizing first p with
  | case1 bytes h =>
    obtain rfl := h.resolve_right (by omega)
    cases hp
  | case2 bytes hmore ih =>
    rw [refs, chunkAt]
    dsimp only
    rw [List.length_take]
    by_cases hin : p < size
    · rw [if_pos (by omega)]
      exact ⟨_, rfl, by rw [Nat.div_eq_of_lt hin, Nat.add_zero]⟩
    · obtain ⟨chunk, hchunk, hindex⟩ := ih (first + 1) (p - size) (by rw [List.length_drop]; omega)
      refine ⟨chunk, ?_, ?_⟩
      · rw [if_neg (by omega), Nat.min_eq_left (by omega), hchunk]
      · have hdiv : p / size = (p - size) / size + 1 := by
          conv_lhs => rw [← Nat.sub_add_cancel (Nat.le_of_not_lt hin), Nat.add_div_right _ hpos]
        rw [hindex, hdiv]
        congr 1
        omega

/-! ## The import -/

/-- the chunk files are right, what they hold is `known`, and no temporary file is in the way -/
structure Good (sha256 : List UInt8 → String) (process : ℕ) (known : Set (List UInt8)) (disk : Disk) : Prop where
  right : ∀ hash data, disk.chunks hash = some data → sha256 data = hash ∧ data ∈ known
  clear : ∀ hash, disk.temporaries hash process = false

variable {known : Set (List UInt8)}

theorem Good.runs_put {disk : Disk} (h : Good sha256 process known disk) (hinj : Set.InjOn sha256 known)
    (hdigest : ∀ data, isSha256 (sha256 data) = true) {part : List UInt8} (hne : part ≠ []) (hknown : part ∈ known) :
    Runs (put sha256 process part) disk (sha256 part) (disk.store (sha256 part) part) ∧
      Disk.Grows disk (disk.store (sha256 part) part) ∧ Good sha256 process known (disk.store (sha256 part) part) := by
  have hthere : ∀ data, disk.chunks (sha256 part) = some data → data = part := fun data hdata =>
    hinj (h.right _ _ hdata).2 hknown (h.right _ _ hdata).1
  refine ⟨Model.runs_put hne (hdigest part) hthere fun _ => h.clear _, ?_, fun hash data hdata => ?_, h.clear⟩
  · refine Disk.grows_store ?_
    cases hfile : disk.chunks (sha256 part) with
    | none => exact .inl rfl
    | some data => exact .inr (by rw [hthere data hfile])
  · by_cases heq : hash = sha256 part
    · subst heq
      simp only [Disk.store_chunks, Function.update_self, Option.some.injEq] at hdata
      exact ⟨by rw [hdata], hdata ▸ hknown⟩
    · simp only [Disk.store, Function.update_of_ne heq] at hdata
      exact h.right hash data hdata

/-- what the loop of `import_reader` does: the rest of the file is stored, and its pieces are listed -/
theorem runs_importLoop {chunkSize : ℕ} (hpos : 0 < chunkSize) (hroom : chunkSize < 2 ^ 63) (hinj : Set.InjOn sha256 known)
    (hdigest : ∀ data, isSha256 (sha256 data) = true) {rounds : ℕ} {reader : List UInt8} (chunks : List ChunkRef)
    {disk : Disk} (hrounds : reader.length < rounds) (hgood : Good sha256 process known disk)
    (hknown : ∀ part ∈ pieces chunkSize reader, part ∈ known) :
    ∃ disk', Runs (importLoop sha256 process chunkSize rounds reader chunks) disk
        (chunks ++ refs sha256 chunks.length (pieces chunkSize reader)) disk' ∧
      Good sha256 process known disk' ∧ Disk.Grows disk disk' ∧
      ∀ part ∈ pieces chunkSize reader, disk'.chunks (sha256 part) = some part := by
  induction rounds generalizing reader chunks disk with
  | zero => omega
  | succ rounds ih =>
    have hcapacity : bailIf (2 ^ 63 ≤ chunkSize) "capacity overflow" = .ok () := by
      rw [bailIf_ok]
      omega
    unfold importLoop
    by_cases hne : reader = []
    · subst hne
      refine ⟨disk, (runs_ofCheck hcapacity disk).bind ?_, hgood, Std.Refl.refl disk, by simp [pieces_nil]⟩
      rw [List.take_nil, if_pos rfl, pieces_nil, refs, List.append_nil]
      exact runs_pure _ _
    · have hpieces := pieces_cons hne hpos
      have htake : reader.take chunkSize ≠ [] := by
        simp [hne, hpos.ne']
      have hpart : reader.take chunkSize ∈ known := hknown _ (by simp [hpieces])
      obtain ⟨hput, hgrows, hgood'⟩ := hgood.runs_put hinj hdigest htake hpart
      have hshorter : (reader.drop chunkSize).length < rounds := by
        have := List.length_pos_iff.2 hne
        rw [List.length_drop]
        omega
      obtain ⟨disk', hloop, hgood'', hgrows', hstored⟩ := ih
        (chunks ++ [⟨UInt32.ofNat chunks.length, sha256 (reader.take chunkSize), (reader.take chunkSize).length⟩])
        hshorter hgood' (fun part h => hknown part (by simp [hpieces, h]))
      refine ⟨disk', (runs_ofCheck hcapacity disk).bind ?_, hgood'', IsTrans.trans _ _ _ hgrows hgrows', ?_⟩
      · dsimp only
        rw [if_neg htake, hpieces, refs]
        rw [List.append_assoc, List.length_append, List.length_singleton] at hloop
        exact hput.bind hloop
      · rw [hpieces]
        intro part hmem
        rcases List.mem_cons.1 hmem with rfl | hmem
        · exact hgrows' _ _ (by simp)
        · exact hstored part hmem

/-- a manifest made of the pieces of a file -/
def manifestOf (sha256 : List UInt8 → String) (reader : List UInt8) (modelId revision : String) (format : ModelFormat)
    (architecture : String) (chunkSize : ℕ) : ModelManifest :=
  { schemaVersion := 1, modelId := modelId, revision := revision, format := format, architecture := architecture,
    parameterCount := none, tensorDtype := none, totalSizeBytes := reader.length,
    chunks := refs sha256 0 (pieces chunkSize reader), metadata := [] }

variable {reader : List UInt8} {modelId revision architecture : String} {format : ModelFormat} {chunkSize : ℕ}

theorem totalSize_refs (hpos : 0 < chunkSize) :
    totalSize (refs sha256 0 (pieces chunkSize reader)) = reader.length := by
  rw [← length_of_holds sha256 (holds_refs sha256 0 (pieces chunkSize reader)), flatten_pieces hpos]

theorem manifestOf_valid (hne : reader ≠ []) (hlen : reader.length < 2 ^ 64) (hpos : 0 < chunkSize)
    (hcount : reader.length ≤ 2 ^ 32 * chunkSize) (hdigest : ∀ data, isSha256 (sha256 data) = true)
    (hid : isBlank modelId = false) (hrevision : isBlank revision = false) (harchitecture : isBlank architecture = false) :
    (manifestOf sha256 reader modelId revision format architecture chunkSize).validate = .ok () := by
  refine (validate_ok_iff _).2 ⟨⟨rfl, hid, hrevision, harchitecture, ?_⟩, ?_, ?_, totalSize_refs hpos, hlen⟩
  · intro hnil
    have hchunks : refs sha256 0 (pieces chunkSize reader) = [] := hnil
    rw [pieces_cons hne hpos] at hchunks
    cases hchunks
  · have hfits := length_pieces_le hcount
    have hindex : (refs sha256 0 (pieces chunkSize reader)).map (fun chunk => chunk.index.toNat) =
        List.range' 0 (pieces chunkSize reader).length := index_refs (by omega)
    rwa [← length_refs sha256 0 (pieces chunkSize reader)] at hindex
  · intro chunk hchunk
    obtain ⟨part, hpart, hsha, hsize⟩ := exists_part (holds_refs sha256 0 _) hchunk
    exact ⟨hsha ▸ hdigest part, hsize ▸ List.length_pos_iff.2 (ne_nil_of_mem_pieces hpart)⟩

/-- importing a file gives the manifest of its pieces, and the store has them all -/
theorem runs_manifestForFile (format : ModelFormat) {disk : Disk} (hne : reader ≠ [])
    (hlen : reader.length < 2 ^ 64) (hpos : 0 < chunkSize) (hroom : chunkSize < 2 ^ 63) (hcount : reader.length ≤ 2 ^ 32 * chunkSize)
    (hdigest : ∀ data, isSha256 (sha256 data) = true) (hid : isBlank modelId = false) (hrevision : isBlank revision = false)
    (harchitecture : isBlank architecture = false) (hinj : Set.InjOn sha256 known)
    (hgood : Good sha256 process known disk) (hknown : ∀ part ∈ pieces chunkSize reader, part ∈ known) :
    ∃ disk', Runs (manifestForFile sha256 process reader modelId revision format architecture chunkSize) disk
        (manifestOf sha256 reader modelId revision format architecture chunkSize) disk' ∧
      Good sha256 process known disk' ∧ ∀ part ∈ pieces chunkSize reader, disk'.chunks (sha256 part) = some part := by
  obtain ⟨disk', hloop, hgood', -, hstored⟩ := runs_importLoop hpos hroom hinj hdigest []
    (Nat.lt_succ_self reader.length) hgood hknown
  rw [List.nil_append, List.length_nil] at hloop
  have hsome : refs sha256 0 (pieces chunkSize reader) ≠ [] := by
    rw [pieces_cons hne hpos]
    exact List.cons_ne_nil _ _
  have hpositive : bailIf (¬ 0 < chunkSize) "chunk size must be positive" = .ok () := by
    simp [hpos]
  have himported : bailIf (refs sha256 0 (pieces chunkSize reader) = []) "cannot import an empty model" = .ok () := by
    simpa using hsome
  have himport : Runs (importReader sha256 process reader chunkSize) disk (refs sha256 0 (pieces chunkSize reader)) disk' :=
    (runs_ofCheck hpositive disk).bind (hloop.bind ((runs_ofCheck himported disk').bind (runs_pure _ _)))
  have hvalid : (manifestOf sha256 reader modelId revision format architecture chunkSize).validate = .ok () :=
    manifestOf_valid hne hlen hpos hcount hdigest hid hrevision harchitecture
  refine ⟨disk', himport.bind ?_, hgood', hstored⟩
  dsimp only
  rw [totalSize_refs hpos, Nat.mod_eq_of_lt hlen]
  exact (runs_ofCheck hvalid disk').bind (runs_pure _ _)

/-! ## What is not kept -/

/-- the bytes of chunks that are not kept are what they were -/
theorem keepChunks_frame {files : String → Option (List UInt8)} {keep : List UInt32} (chunks : List ChunkRef) {offset : ℕ}
    {file : List UInt8} {present : List ByteExtent} {result : List UInt8 × List ByteExtent}
    (hroom : offset + totalSize chunks ≤ file.length)
    (h : keepChunks sha256 files keep chunks offset file present = .ok result) {p : ℕ}
    (hp : p < offset ∨ ¬ keptAt keep chunks (p - offset)) : result.1[p]? = file[p]? := by
  induction chunks generalizing offset file present with
  | nil =>
    simp only [keepChunks, pure_ok] at h
    rw [← h]
  | cons chunk rest ih =>
    have hsum : totalSize (chunk :: rest) = chunk.sizeBytes + totalSize rest := by simp [totalSize]
    rw [hsum] at hroom
    -- behind this chunk the rest of the loop is the same question
    have hrest : ¬ (offset ≤ p ∧ p < offset + chunk.sizeBytes) →
        p < offset + chunk.sizeBytes ∨ ¬ keptAt keep rest (p - (offset + chunk.sizeBytes)) := by
      intro hout
      by_cases hlt : p < offset + chunk.sizeBytes
      · exact .inl hlt
      · have hbehind := hp.resolve_left (by omega)
        rw [keptAt, chunkAt, if_neg (by omega), Nat.sub_sub] at hbehind
        exact .inr hbehind
    rw [keepChunks] at h
    by_cases hkeep : chunk.index ∈ keep
    · have hout : ¬ (offset ≤ p ∧ p < offset + chunk.sizeBytes) := by
        rintro ⟨hfrom, hto⟩
        refine hp.resolve_left (by omega) ⟨chunk, ?_, hkeep⟩
        rw [chunkAt, if_pos (by omega)]
        rfl
      rw [if_neg (not_not.2 hkeep)] at h
      simp only [bind_ok, bailIf_ok, not_not, exists_const] at h
      obtain ⟨data, -, hsize, h⟩ := h
      have hfits : offset + data.length ≤ file.length := by omega
      rw [ih (by rw [writeAt_length hfits]; omega) h (hrest hout), writeAt_getElem? hfits, if_neg (by rwa [hsize])]
    · rw [if_pos hkeep] at h
      by_cases hin : offset ≤ p ∧ p < offset + chunk.sizeBytes
      · exact ih (by omega) h (.inl hin.2)
      · exact ih (by omega) h (hrest hin)

/-- a hole reads back as zeros -/
theorem materializePartial_zero {files : String → Option (List UInt8)} {keep : List UInt32} {manifest : ModelManifest}
    {file : List UInt8} {present : List ByteExtent}
    (h : materializePartial sha256 files manifest keep = .ok (file, present)) {p : ℕ} (hp : p < manifest.totalSizeBytes)
    (hnot : ¬ keptAt keep manifest.chunks p) : file[p]? = some 0 := by
  simp only [materializePartial, bind_ok, exists_ok_unit_and] at h
  obtain ⟨hvalid, h⟩ := h
  have htotal := ((validate_ok_iff manifest).1 hvalid).2.2.2.1
  have hframe := keepChunks_frame manifest.chunks (by rw [Nat.zero_add, htotal, List.length_replicate]) h (.inr hnot)
  rw [hframe, List.getElem?_replicate, if_pos hp]

/-! ## There and back -/

/-- **An imported model comes back.** On a store whose chunk files are right and hold no bytes that collide with a piece of
the file, the import of a file succeeds and returns a valid manifest. Materialized it is the file; a part of it has the full
length, the file's bytes on the spans returned, which are the bytes of the chunks asked for in runs, and zeros elsewhere. -/
theorem imported_comes_back {disk : Disk} (hne : reader ≠ []) (hlen : reader.length < 2 ^ 64) (hpos : 0 < chunkSize)
    (hroom : chunkSize < 2 ^ 63) (hcount : reader.length ≤ 2 ^ 32 * chunkSize) (hid : isBlank modelId = false)
    (hrevision : isBlank revision = false) (harchitecture : isBlank architecture = false)
    (hdigest : ∀ data, isSha256 (sha256 data) = true)
    (hright : ∀ hash data, disk.chunks hash = some data → sha256 data = hash)
    (hinj : Set.InjOn sha256 {data | data ∈ pieces chunkSize reader ∨ ∃ hash, disk.chunks hash = some data})
    (hclear : ∀ hash, disk.temporaries hash process = false) :
    ∃ manifest disk', Runs (manifestForFile sha256 process reader modelId revision format architecture chunkSize) disk
        manifest disk' ∧ manifest.validate = .ok () ∧
      (∀ output, ∃ disk'', Runs (materialize sha256 manifest output) disk' () disk'' ∧
        disk''.models output = some reader) ∧
      ∀ keep, ∃ file present, materializePartial sha256 disk'.chunks manifest keep = .ok (file, present) ∧
        file.length = reader.length ∧ Spans (fun p => UInt32.ofNat (p / chunkSize) ∈ keep) reader.length present ∧
        (∀ e ∈ present, SameOn e file reader) ∧
        ∀ p < reader.length, (∀ e ∈ present, ¬ (e.start ≤ p ∧ p < e.stop)) → file[p]? = some 0 := by
  have hgood : Good sha256 process {data | data ∈ pieces chunkSize reader ∨ ∃ hash, disk.chunks hash = some data} disk :=
    ⟨fun hash data h => ⟨hright hash data h, .inr ⟨hash, h⟩⟩, hclear⟩
  obtain ⟨disk', himport, hgood', hstored⟩ := runs_manifestForFile format hne hlen hpos hroom hcount hdigest hid
    hrevision harchitecture hinj hgood fun _ h => .inl h
  have hvalid : (manifestOf sha256 reader modelId revision format architecture chunkSize).validate = .ok () :=
    manifestOf_valid hne hlen hpos hcount hdigest hid hrevision harchitecture
  have hparts := holds_refs sha256 0 (pieces chunkSize reader)
  have hfree : CollisionFree sha256 disk'.chunks (pieces chunkSize reader) := fun hash data part hfile hpart hsame =>
    hinj (hgood'.right hash data hfile).2 (.inl hpart) hsame
  have hflat : (pieces chunkSize reader).flatten = reader := flatten_pieces hpos reader
  refine ⟨_, disk', himport, hvalid, fun output => ⟨_, runs_materialize output hvalid hparts hstored, ?_⟩, fun keep => ?_⟩
  · simp [hflat]
  · have hread : ∀ chunk ∈ refs sha256 0 (pieces chunkSize reader), chunk.index ∈ keep →
        ∃ part, readChunk sha256 disk'.chunks chunk.sha256 = .ok part ∧ part.length = chunk.sizeBytes := by
      intro chunk hchunk _
      obtain ⟨part, hpart, hsha, hsize⟩ := exists_part (holds_refs sha256 0 _) hchunk
      exact ⟨part, readChunk_of (hsha ▸ hdigest part) (hsha ▸ hstored part hpart) hsha, hsize⟩
    obtain ⟨⟨file, present⟩, hpartial⟩ := materializePartial_ok hvalid hread
    obtain ⟨hlength, hspans, hsame⟩ := materializePartial_spec hparts hfree hpartial
    rw [hflat] at hlength hspans hsame
    -- the byte at `p` is kept when the chunk `p / chunkSize` is
    have hkept : ∀ p < reader.length, keptAt keep (refs sha256 0 (pieces chunkSize reader)) p ↔
        UInt32.ofNat (p / chunkSize) ∈ keep := by
      intro p hp
      obtain ⟨chunk, hchunk, hindex⟩ := chunkAt_refs sha256 hpos 0 p hp
      rw [Nat.zero_add] at hindex
      rw [keptAt, hchunk, ← hindex]
      simp
    refine ⟨file, present, hpartial, hlength, ⟨hspans.apart, hspans.inside, fun p hp => ?_⟩, hsame, fun p hp hout => ?_⟩
    · rw [← hkept p hp]
      exact hspans.mem_iff p hp
    · refine materializePartial_zero hpartial hp fun hkeep => ?_
      obtain ⟨e, he, hin⟩ := (hspans.mem_iff p hp).1 hkeep
      exact hout e he hin

namespace Sample

/-- the digest of one byte, 0 or not -/
def digest (data : List UInt8) : String :=
  if data = [0] then "6e340b9cffb37a989ca544e6bb780a2c78901d3fb33738768511a30617afa01d"
  else "4bf5122f344554c53bde2ebb8cd2b7e3d1600ad631c385a5d7cce23c7785459a"

def emptyDisk : Disk := ⟨fun _ => none, fun _ _ => false, fun _ => none⟩

theorem isSha256_digest (data : List UInt8) : isSha256 (digest data) = true := by
  unfold digest
  split_ifs
  · decide
  · decide

end Sample

theorem imported_comes_back_repeated :
    ∃ manifest disk', Runs (manifestForFile Sample.digest 7 [0, 1, 0] "m" "1" .gguf "llama" 1) Sample.emptyDisk
        manifest disk' ∧ manifest.validate = .ok () ∧
      (∀ output, ∃ disk'', Runs (materialize Sample.digest manifest output) disk' () disk'' ∧
        disk''.models output = some [0, 1, 0]) ∧
      ∀ keep, ∃ file present, materializePartial Sample.digest disk'.chunks manifest keep = .ok (file, present) ∧
        file.length = 3 ∧ Spans (fun p => UInt32.ofNat (p / 1) ∈ keep) 3 present ∧
        (∀ e ∈ present, SameOn e file [0, 1, 0]) ∧
        ∀ p < 3, (∀ e ∈ present, ¬ (e.start ≤ p ∧ p < e.stop)) → file[p]? = some 0 := by
  have hpieces : pieces 1 [0, 1, 0] = [[0], [1], [0]] := by
    simp [pieces_cons, pieces_nil]
  refine imported_comes_back (by decide) (by decide) (by decide) (by decide) (by decide) (by decide) (by decide) (by decide)
    Sample.isSha256_digest (fun hash data h => by cases h) ?_ fun _ => rfl
  rw [hpieces]
  rintro a ha b hb hab
  have hmem : ∀ {data : List UInt8}, data ∈ {data | data ∈ [[0], [1], [0]] ∨ ∃ hash, Sample.emptyDisk.chunks hash = some data} →
      data = [0] ∨ data = [1] := by
    rintro data (h | ⟨hash, h⟩)
    · simpa [or_comm, or_left_comm] using h
    · cases h
  rcases hmem ha with rfl | rfl <;> rcases hmem hb with rfl | rfl <;> first | rfl | exact absurd hab (by decide)

/-- a chunk size that no buffer can have -/
theorem oversized_chunks_fail : ¬ ∃ manifest disk',
    Runs (manifestForFile Sample.digest 7 [0] "m" "1" .gguf "llama" (2 ^ 63)) Sample.emptyDisk manifest disk' := by
  rintro ⟨manifest, disk', h⟩
  have hfails : (manifestForFile Sample.digest 7 [0] "m" "1" .gguf "llama" (2 ^ 63)).go Sample.emptyDisk [] =
      (.failed "capacity overflow", Sample.emptyDisk, []) := rfl
  rw [Runs, hfails] at h
  cases h

end

end Hocmesh.Model
