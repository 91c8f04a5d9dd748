/-
`hocmesh-transport`: a store filled from a peer.

`seed_from_peer` fetches the chunks of a manifest that the store does not contain. A chunk file with the wrong bytes is not
contained, but it is there, and `put` refuses to store the right bytes in its place; a temporary file left by a process of
the same id stops `put` too. So a store heals exactly when every chunk of the manifest is right or out of the way
(`heals_iff`).
-/
import Hocmesh.Model.Chunks

namespace Hocmesh.Transport

open Hocmesh.Base Hocmesh.Base.Faulty Hocmesh.Model

/-- the trait `PeerSource` -/
structure PeerSource where
  manifest : String → String → Check ModelManifest
  chunk : String → Check (List UInt8)

section

variable (sha256 : List UInt8 → String) (process : ℕ)

/-- `HttpPeerSource` over what the requests return -/
def httpPeerSource (answers : PeerSource) : PeerSource where
  manifest modelId revision := do
    let manifest ← answers.manifest modelId revision
    manifest.validate
    pure manifest
  chunk digest := do
    bailIf (¬ isSha256 digest) "invalid chunk digest"
    let bytes ← answers.chunk digest
    bailIf (sha256 bytes ≠ digest) "peer returned corrupt chunk"
    pure bytes

/-- one round of `seed_from_peer` -/
def seedChunk (source : PeerSource) (chunk : ChunkRef) : Faulty Disk Unit := do
  if ← contains sha256 chunk then pure ()
  else do
    let bytes ← ofCheck (source.chunk chunk.sha256)
    ofCheck (bailIf (bytes.length ≠ chunk.sizeBytes) "peer chunk size mismatch")
    let stored ← put sha256 process bytes
    ofCheck (bailIf (stored ≠ chunk.sha256) "stored chunk digest mismatch")

def seedFromPeer (source : PeerSource) (modelId revision : String) : Faulty Disk ModelManifest := do
  let manifest ← ofCheck (source.manifest modelId revision)
  forEach (seedChunk sha256 process source) manifest.chunks
  pure manifest

/-- a peer that serves the manifest and its chunks -/
structure Serves (source : PeerSource) (modelId revision : String) (manifest : ModelManifest) (parts : List (List UInt8)) :
    Prop where
  manifest_eq : source.manifest modelId revision = .ok manifest
  valid : manifest.validate = .ok ()
  holds : List.Forall₂ (fun chunk part => Holds sha256 chunk part ∧ source.chunk chunk.sha256 = .ok part)
    manifest.chunks parts

/-- seeding succeeds, every chunk is contained then, and the model can be written -/
def Heals (source : PeerSource) (modelId revision : String) (manifest : ModelManifest) (parts : List (List UInt8))
    (disk : Disk) : Prop :=
  ∃ disk', Runs (seedFromPeer sha256 process source modelId revision) disk manifest disk' ∧
    (∀ chunk ∈ manifest.chunks, Runs (contains sha256 chunk) disk' true disk') ∧
    ∀ output, ∃ disk'', Runs (materialize sha256 manifest output) disk' () disk'' ∧
      disk''.models output = some parts.flatten

/-- no chunk of the manifest has a file with other bytes, or no file but a temporary one of this process -/
def Unobstructed (manifest : ModelManifest) (disk : Disk) : Prop :=
  ∀ chunk ∈ manifest.chunks, (∀ data, disk.chunks chunk.sha256 = some data → sha256 data = chunk.sha256) ∧
    (disk.chunks chunk.sha256 = none → disk.temporaries chunk.sha256 process = false)

end

/-! ## What seeding keeps -/

section

variable {sha256 : List UInt8 → String} {process : ℕ} {source : PeerSource} {modelId revision : String}
  {manifest : ModelManifest} {parts : List (List UInt8)} {disk : Disk}

theorem keeps_seedFromPeer {r : Disk → Disk → Prop} [Std.Refl r] [IsTrans Disk r]
    (hput : ∀ bytes, Keeps r (put sha256 process bytes)) : Keeps r (seedFromPeer sha256 process source modelId revision) := by
  refine (keeps_ofCheck _).bind fun manifest => (Keeps.forEach fun chunk _ => ?_).bind fun _ => keeps_pure _
  refine (keeps_contains sha256 chunk).bind fun held => ?_
  split_ifs
  · exact keeps_pure ()
  · exact (keeps_ofCheck _).bind fun bytes => (keeps_ofCheck _).bind fun _ => (hput bytes).bind fun _ => keeps_ofCheck _

/-- a chunk that is missing stays missing as long as its temporary file is in the way -/
def StaysBlocked (hash : String) (process : ℕ) (disk disk' : Disk) : Prop :=
  disk.chunks hash = none ∧ disk.temporaries hash process = true →
    disk'.chunks hash = none ∧ disk'.temporaries hash process = true

instance (hash : String) (process : ℕ) : Std.Refl (StaysBlocked hash process) := ⟨fun _ h => h⟩

instance (hash : String) (process : ℕ) : IsTrans Disk (StaysBlocked hash process) := ⟨fun _ _ _ h₁ h₂ h => h₂ (h₁ h)⟩

theorem put_staysBlocked (sha256 : List UInt8 → String) (process : ℕ) (hash : String) (bytes : List UInt8) :
    Keeps (StaysBlocked hash process) (put sha256 process bytes) := by
  refine keeps_put sha256 process (fun disk hnone hclear h => ?_) fun disk h => ⟨h.1, ?_⟩
  · by_cases heq : hash = sha256 bytes
    · rw [heq, hclear] at h
      exact absurd h.2 Bool.false_ne_true
    · exact ⟨by simp only [Disk.store_chunks, Function.update_of_ne heq, h.1], h.2⟩
  · by_cases heq : hash = sha256 bytes
    · subst heq
      simp [Disk.leave]
    · simp only [Disk.leave, Function.update_of_ne heq, h.2]

/-- a store that heals was not obstructed: what is in the way stays there -/
theorem unobstructed_of_heals (h : Heals sha256 process source modelId revision manifest parts disk) :
    Unobstructed sha256 process manifest disk := by
  obtain ⟨disk', hseed, hcontained, -⟩ := h
  intro chunk hchunk
  obtain ⟨held, hruns, hheld⟩ := runs_contains sha256 chunk disk'
  obtain ⟨data, hread, -⟩ := hheld.1 ((hruns.eq (hcontained chunk hchunk)).1)
  obtain ⟨hfile, hsha⟩ := readChunk_ok hread
  refine ⟨fun data' hdata' => ?_, fun hnone => ?_⟩
  · have hgrows : Disk.Grows disk disk' := hseed.rel (keeps_seedFromPeer (put_grows sha256 process))
    have hstays := hgrows _ _ hdata'
    rw [hfile] at hstays
    rw [← Option.some.inj hstays, hsha]
  · by_contra hblocked
    have hstays : StaysBlocked chunk.sha256 process disk disk' :=
      hseed.rel (keeps_seedFromPeer (put_staysBlocked sha256 process chunk.sha256))
    have hnone' := (hstays ⟨hnone, by simpa using hblocked⟩).1
    rw [hfile] at hnone'
    cases hnone'

/-! ## A store that is not obstructed -/

/-- the chunk files of these chunks are right, or missing and free to be written -/
def Ready (process : ℕ) (disk : Disk) (chunks : List ChunkRef) (parts : List (List UInt8)) : Prop :=
  List.Forall₂ (fun chunk part => disk.chunks chunk.sha256 = some part ∨
    disk.chunks chunk.sha256 = none ∧ disk.temporaries chunk.sha256 process = false) chunks parts

/-- one chunk that is served is in the store after its round -/
theorem runs_seedChunk {chunk : ChunkRef} {part : List UInt8} (hdigest : isSha256 chunk.sha256 = true)
    (hsize : 0 < chunk.sizeBytes) (hholds : Holds sha256 chunk part) (hserved : source.chunk chunk.sha256 = .ok part)
    (hready : disk.chunks chunk.sha256 = some part ∨
      disk.chunks chunk.sha256 = none ∧ disk.temporaries chunk.sha256 process = false) :
    Runs (seedChunk sha256 process source chunk) disk () (disk.store chunk.sha256 part) := by
  obtain ⟨held, hcontains, hheld⟩ := runs_contains sha256 chunk disk
  refine hcontains.bind ?_
  rcases hready with hthere | ⟨hnone, hclear⟩
  · have hsame : disk.store chunk.sha256 part = disk := by
      rw [Disk.store, ← hthere, Function.update_eq_self]
    rw [hheld.2 ⟨part, readChunk_of hdigest hthere hholds.1, hholds.2⟩, if_pos rfl, hsame]
    exact runs_pure () disk
  · have hnot : ¬ held = true := by
      rw [hheld]
      rintro ⟨data, hread, -⟩
      rw [(readChunk_ok hread).1] at hnone
      cases hnone
    have hpart : part ≠ [] := by
      rw [← List.length_pos_iff, hholds.2]
      exact hsize
    have hput : Runs (put sha256 process part) disk chunk.sha256 (disk.store chunk.sha256 part) := by
      obtain ⟨hsha, -⟩ := hholds
      rw [← hsha] at hdigest hnone hclear ⊢
      exact runs_put hpart hdigest (fun data h => absurd h (by simp [hnone])) fun _ => hclear
    have hfits : bailIf (part.length ≠ chunk.sizeBytes) "peer chunk size mismatch" = .ok () := by simp [hholds.2]
    have hstored : bailIf (chunk.sha256 ≠ chunk.sha256) "stored chunk digest mismatch" = .ok () := by simp
    rw [if_neg hnot]
    exact (runs_ofCheck hserved disk).bind ((runs_ofCheck hfits disk).bind (hput.bind (runs_ofCheck hstored _)))

/-- storing what the peer serves under a digest leaves the other chunks ready -/
theorem Ready.store {chunk : ChunkRef} {part : List UInt8} {chunks : List ChunkRef} {parts : List (List UInt8)}
    (hserved : source.chunk chunk.sha256 = .ok part)
    (hall : List.Forall₂ (fun chunk part => source.chunk chunk.sha256 = .ok part) chunks parts)
    (hready : Ready process disk chunks parts) : Ready process (disk.store chunk.sha256 part) chunks parts := by
  induction hready with
  | nil => exact .nil
  | @cons other data chunks parts hother _ ih =>
    rw [List.forall₂_cons] at hall
    refine .cons ?_ (ih hall.2)
    by_cases heq : other.sha256 = chunk.sha256
    · have hsame : data = part := by
        have h := hall.1
        rw [heq, hserved] at h
        exact (Except.ok.inj h).symm
      exact .inl (by rw [heq, hsame, Disk.store_chunks, Function.update_self])
    · simpa only [Disk.store_chunks, Disk.store_temporaries, Function.update_of_ne heq] using hother

/-- the loop of `seed_from_peer` over chunks that are ready stores them all -/
theorem runs_seedChunks {chunks : List ChunkRef} {parts : List (List UInt8)}
    (hholds : List.Forall₂ (fun chunk part => Holds sha256 chunk part ∧ source.chunk chunk.sha256 = .ok part) chunks parts)
    (hvalid : ∀ chunk ∈ chunks, isSha256 chunk.sha256 = true ∧ 0 < chunk.sizeBytes)
    (hready : Ready process disk chunks parts) :
    ∃ disk', Runs (forEach (seedChunk sha256 process source) chunks) disk () disk' ∧ Disk.Grows disk disk' ∧
      ∀ part ∈ parts, disk'.chunks (sha256 part) = some part := by
  induction hholds generalizing disk with
  | nil => exact ⟨disk, runs_pure () disk, Std.Refl.refl disk, by simp⟩
  | @cons chunk part chunks parts hchunk hrest ih =>
    obtain ⟨hfirst, hready⟩ := List.forall₂_cons.1 hready
    obtain ⟨⟨hdigest, hsize⟩, hvalid⟩ := List.forall_mem_cons.1 hvalid
    have hround := runs_seedChunk hdigest hsize hchunk.1 hchunk.2 hfirst
    have hserved : List.Forall₂ (fun chunk part => source.chunk chunk.sha256 = .ok part) chunks parts :=
      hrest.imp fun _ _ h => h.2
    obtain ⟨disk', hloop, hgrows, hstored⟩ := ih hvalid (Ready.store hchunk.2 hserved hready)
    have hstart : Disk.Grows disk (disk.store chunk.sha256 part) :=
      Disk.grows_store (hfirst.elim .inr fun h => .inl h.1)
    refine ⟨disk', hround.bind hloop, IsTrans.trans _ _ _ hstart hgrows, ?_⟩
    intro data hdata
    rcases List.mem_cons.1 hdata with rfl | hdata
    · refine hgrows _ _ ?_
      rw [hchunk.1.1, Disk.store_chunks, Function.update_self]
    · exact hstored data hdata

theorem ready_of_unobstructed (hholds : List.Forall₂ (Holds sha256) manifest.chunks parts)
    (hfree : CollisionFree sha256 disk.chunks parts) (h : Unobstructed sha256 process manifest disk) :
    Ready process disk manifest.chunks parts := by
  unfold Unobstructed at h
  revert h
  generalize manifest.chunks = chunks at hholds ⊢
  intro h
  induction hholds with
  | nil => exact .nil
  | @cons chunk part chunks parts hchunk _ ih =>
    obtain ⟨⟨hright, hclear⟩, hrest⟩ := List.forall_mem_cons.1 h
    refine .cons ?_ (ih (fun hash data p hf hp => hfree hash data p hf (List.mem_cons_of_mem _ hp)) hrest)
    cases hfile : disk.chunks chunk.sha256 with
    | none => exact .inr ⟨rfl, hclear hfile⟩
    | some data =>
      refine .inl ?_
      rw [hfree _ data part hfile List.mem_cons_self ((hright data hfile).trans hchunk.1.symm)]

/-- **A store heals when nothing is in the way, and only then.** With an honest peer, and no chunk file that has the digest
of a part and other bytes, seeding succeeds and the model can be written exactly when each chunk file of the manifest is
right, or missing with no temporary file of this process in its place. -/
theorem heals_iff (hpeer : Serves sha256 source modelId revision manifest parts)
    (hfree : CollisionFree sha256 disk.chunks parts) :
    Heals sha256 process source modelId revision manifest parts disk ↔ Unobstructed sha256 process manifest disk := by
  refine ⟨unobstructed_of_heals, fun h => ?_⟩
  have hvalid := ((validate_ok_iff manifest).1 hpeer.valid).2.2.1
  have hholds : List.Forall₂ (Holds sha256) manifest.chunks parts := hpeer.holds.imp fun _ _ h => h.1
  obtain ⟨disk', hloop, -, hstored⟩ := runs_seedChunks hpeer.holds hvalid (ready_of_unobstructed hholds hfree h)
  refine ⟨disk', ?_, fun chunk hchunk => ?_, fun output => ⟨_, runs_materialize output hpeer.valid hholds hstored, ?_⟩⟩
  · exact (runs_ofCheck hpeer.manifest_eq disk).bind (hloop.bind (runs_pure manifest disk'))
  · obtain ⟨part, hpart, hsha, hsize⟩ := exists_part hholds hchunk
    obtain ⟨held, hruns, hheld⟩ := runs_contains sha256 chunk disk'
    rw [hheld.2 ⟨part, readChunk_of (hvalid chunk hchunk).1 (hsha ▸ hstored part hpart) hsha, hsize⟩] at hruns
    exact hruns
  · simp

/-- the checks of `HttpPeerSource` let an honest peer through -/
theorem Serves.http (h : Serves sha256 source modelId revision manifest parts) :
    Serves sha256 (httpPeerSource sha256 source) modelId revision manifest parts := by
  have hvalid := ((validate_ok_iff manifest).1 h.valid).2.2.1
  refine ⟨?_, h.valid, List.forall₂_iff_get.2 ⟨h.holds.length_eq, fun i h₁ h₂ => ?_⟩⟩
  · simp only [httpPeerSource, bind_ok, pure_ok, exists_ok_unit_and]
    exact ⟨manifest, h.manifest_eq, h.valid, rfl⟩
  · obtain ⟨hholds, hserved⟩ := (List.forall₂_iff_get.1 h.holds).2 i h₁ h₂
    refine ⟨hholds, ?_⟩
    simp only [httpPeerSource, bind_ok, bailIf_ok, not_not, pure_ok, exists_const]
    exact ⟨(hvalid _ (List.get_mem _ _)).1, _, hserved, hholds.1, rfl⟩

end

namespace Sample

open Model.Sample

def manifest : ModelManifest :=
  { schemaVersion := 1, modelId := "m", revision := "1", format := .gguf, architecture := "llama", parameterCount := none,
    tensorDtype := none, totalSizeBytes := 1, chunks := [⟨0, digest [0], 1⟩], metadata := [] }

/-- a peer with the manifest and its one chunk -/
def peer : PeerSource := ⟨fun _ _ => .ok manifest, fun _ => .ok [0]⟩

/-- the chunk file has another byte -/
def wrongDisk : Disk := emptyDisk.store (digest [0]) [1]

theorem serves : Serves digest peer "m" "1" manifest [[0]] :=
  ⟨rfl, rfl, .cons ⟨⟨rfl, rfl⟩, rfl⟩ .nil⟩

end Sample

theorem heals_empty : Heals Model.Sample.digest 7 Sample.peer "m" "1" Sample.manifest [[0]] Model.Sample.emptyDisk := by
  have hfree : CollisionFree Model.Sample.digest Model.Sample.emptyDisk.chunks [[0]] := by
    intro hash data part h
    cases h
  refine (heals_iff Sample.serves hfree).2 fun chunk _ => ⟨?_, fun _ => rfl⟩
  intro data h
  cases h

theorem wrong_chunk_stays :
    ¬ Heals Model.Sample.digest 7 Sample.peer "m" "1" Sample.manifest [[0]] Sample.wrongDisk := by
  rintro ⟨disk', h, -⟩
  have hfails : (seedFromPeer Model.Sample.digest 7 Sample.peer "m" "1").go Sample.wrongDisk [] =
      (.failed "chunk 6e340b9cffb37a989ca544e6bb780a2c78901d3fb33738768511a30617afa01d failed integrity verification",
        Sample.wrongDisk, []) := rfl
  rw [Runs, hfails] at h
  cases h

end Hocmesh.Transport
