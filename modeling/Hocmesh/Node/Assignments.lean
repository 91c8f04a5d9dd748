/-
`execute_inference_assignment` up to the model file: the store is filled from a seed peer if a chunk is missing, and the
model is written to a file of its own, which a later assignment uses if it exists.

The file is created first and filled chunk by chunk. When a chunk is missing after all, because the peer served a manifest
of its own, or when a read, a write or the process fails on the way, what has been written stays, and the next assignment
takes it for the model (`takes_unfinished_file`). `assigned_model_only`: in a run where each file that is written is written
to its end, the file an assignment goes on with is its model.
-/
import Hocmesh.Base.Along
import Hocmesh.Transport.Seeding

namespace Hocmesh.Node

open Hocmesh.Base Hocmesh.Base.Faulty Hocmesh.Model Hocmesh.Transport

/-! ## The assignment -/

/-- what an assignment says about its model; a seed peer is its URL and what it answers this time -/
structure InferenceAssignment where
  manifest : ModelManifest
  seedPeers : List (String × PeerSource)

section

/- `json` is `serde_json::to_vec` of a manifest -/
variable (sha256 : List UInt8 → String) (json : ModelManifest → List UInt8) (process : ℕ)

/-- `HttpPeerSource::new` -/
def connect (peer : String × PeerSource) : Check PeerSource := do
  let baseUrl := (peer.1.toList.reverse.dropWhile (· = '/')).reverse
  bailIf (¬ ("http://".toList <+: baseUrl ∨ "https://".toList <+: baseUrl)) "peer URL must be HTTP(S)"
  pure (httpPeerSource sha256 peer.2)

def anyMissing : List ChunkRef → Faulty Disk Bool
  | [] => pure false
  | chunk :: rest => do
    let held ← contains sha256 chunk
    if held then anyMissing rest else pure true

/-- the loop over the seed peers, up to the first that completes -/
def seedFromAny (manifest : ModelManifest) : List (String × PeerSource) → Faulty Disk Bool
  | [] => pure false
  | peer :: rest => do
    let source ← ofCheck (connect sha256 peer)
    let seeded ← attempt (seedFromPeer sha256 process source manifest.modelId manifest.revision)
    if seeded.isSome then pure true else seedFromAny manifest rest

/-- an operation on files that are not modelled: the directories and the model registry -/
def elsewhere : Faulty Disk Unit := look fun _ => .ok ()

/-- everything before the model file -/
def prepare (assignment : InferenceAssignment) : Faulty Disk Unit := do
  ofCheck assignment.manifest.validate
  elsewhere
  let missing ← anyMissing sha256 assignment.manifest.chunks
  if missing then do
    let seeded ← seedFromAny sha256 process assignment.manifest assignment.seedPeers
    ofCheck (bailIf (¬ seeded) "model chunks are missing and no seed peer completed transfer")
  else pure ()
  elsewhere
  elsewhere

/-- `models/{digest}.gguf` -/
def modelPath (manifest : ModelManifest) : String := s!"models/{sha256 (json manifest)}.gguf"

/-- `if !model.exists()` -/
def writeModel (manifest : ModelManifest) : Faulty Disk Unit := do
  let there ← peek fun disk => (disk.models (modelPath sha256 json manifest)).isSome
  if there then pure () else materialize sha256 manifest (modelPath sha256 json manifest)

def execute (assignment : InferenceAssignment) : Faulty Disk Unit := do
  prepare sha256 process assignment
  writeModel sha256 json assignment.manifest

/-! ## Runs -/

/-- an assignment is handled by a process, and meets faults -/
structure Handling where
  assignment : InferenceAssignment
  process : ℕ
  faults : List Fault

/-- the disk after it -/
def handle (disk : Disk) (h : Handling) : Disk :=
  ((execute sha256 json h.process h.assignment).go disk h.faults).2.1

/-- an assignment that gets past the model file goes on with its model -/
def OwnModel (disk : Disk) (h : Handling) : Prop :=
  ∀ disk' rest, (execute sha256 json h.process h.assignment).go disk h.faults = (.done (), disk', rest) →
    ∃ file, disk'.models (modelPath sha256 json h.assignment.manifest) = some file ∧
      Assembles sha256 h.assignment.manifest.chunks file

/-- the store has the chunk with its size -/
def Stored (disk : Disk) (chunk : ChunkRef) : Prop :=
  ∃ part, readChunk sha256 disk.chunks chunk.sha256 = .ok part ∧ part.length = chunk.sizeBytes

/-- the first operation fails, or the process ends in it, before it has done anything -/
def CutAtOnce (faults : List Fault) : Prop := faults.head? = some (.fail 0) ∨ faults.head? = some (.stop 0)

/-- when the assignment comes to a model file that is not there, the file is not created, or every chunk is in the store
and nothing fails until the last chunk is written: creating the file, and reading and writing each chunk -/
def WritesWhole (disk : Disk) (h : Handling) : Prop :=
  ∀ disk₁ rest, (prepare sha256 h.process h.assignment).go disk h.faults = (.done (), disk₁, rest) →
    disk₁.models (modelPath sha256 json h.assignment.manifest) = none → CutAtOnce rest ∨
      (∀ chunk ∈ h.assignment.manifest.chunks, Stored sha256 disk₁ chunk) ∧
        Calm (1 + 2 * h.assignment.manifest.chunks.length) rest

end

/-! ## What leaves the models alone -/

def SameModels (disk disk' : Disk) : Prop := disk'.models = disk.models

instance : Std.Refl SameModels := ⟨fun _ => rfl⟩

instance : IsTrans Disk SameModels := ⟨fun _ _ _ h₁ h₂ => h₂.trans h₁⟩

section

variable {sha256 : List UInt8 → String} {json : ModelManifest → List UInt8} {process : ℕ}

theorem put_sameModels (bytes : List UInt8) : Keeps SameModels (put sha256 process bytes) :=
  keeps_put sha256 process (fun _ _ _ => rfl) fun _ => rfl

theorem anyMissing_sameModels (chunks : List ChunkRef) : Keeps SameModels (anyMissing sha256 chunks) := by
  induction chunks with
  | nil => exact keeps_pure false
  | cons chunk rest ih =>
    refine (keeps_contains sha256 chunk).bind fun held => ?_
    split_ifs
    · exact ih
    · exact keeps_pure true

theorem seedFromAny_sameModels (manifest : ModelManifest) (peers : List (String × PeerSource)) :
    Keeps SameModels (seedFromAny sha256 process manifest peers) := by
  induction peers with
  | nil => exact keeps_pure false
  | cons peer rest ih =>
    refine (keeps_ofCheck _).bind fun source => (keeps_seedFromPeer put_sameModels).attempt.bind fun seeded => ?_
    split_ifs
    · exact keeps_pure true
    · exact ih

theorem prepare_sameModels (assignment : InferenceAssignment) :
    Keeps SameModels (prepare sha256 process assignment) := by
  refine (keeps_ofCheck _).bind fun _ => (keeps_look _).bind fun _ => (anyMissing_sameModels _).bind fun missing => ?_
  split_ifs
  · exact (seedFromAny_sameModels _ _).bind fun _ => (keeps_ofCheck _).bind fun _ => (keeps_look _).bind fun _ => keeps_look _
  · exact (keeps_look _).bind fun _ => keeps_look _

/-! ## Writing a model -/

theorem read_calm {n : ℕ} {faults : List Fault} {disk : Disk} {hash : String} {bytes : List UInt8}
    (hcalm : Calm (n + 1) faults) (hread : readChunk sha256 disk.chunks hash = .ok bytes) :
    ∃ rest, Calm n rest ∧ (read sha256 hash).go disk faults = (.done bytes, disk, rest) :=
  operation_calm hcalm (Prod.ext hread rfl)

theorem append_calm {n : ℕ} {faults : List Fault} (output : String) (data written : List UInt8) (disk : Disk)
    (hcalm : Calm (n + 1) faults) : ∃ rest, Calm n rest ∧
      (append output data).go (disk.write output written) faults = (.done (), disk.write output (written ++ data), rest) := by
  have hextend : (disk.write output written).extend output data = disk.write output (written ++ data) := by
    simp [Disk.extend, Disk.write]
  exact operation_calm hcalm (by rw [hextend])

/-- the loop of `materialize` writes chunks that are stored, all of them while nothing fails -/
theorem writeChunks_calm {chunks : List ChunkRef} {disk : Disk} {faults : List Fault} (output : String)
    (hstored : ∀ chunk ∈ chunks, Stored sha256 disk chunk) (hcalm : Calm (2 * chunks.length) faults)
    (written : List UInt8) :
    ∃ rest parts, List.Forall₂ (Holds sha256) chunks parts ∧
      (forEach (writeChunk sha256 output) chunks).go (disk.write output written) faults =
        (.done (), disk.write output (written ++ parts.flatten), rest) := by
  induction chunks generalizing written faults with
  | nil => exact ⟨faults, [], .nil, by rw [List.flatten_nil, List.append_nil]; rfl⟩
  | cons chunk chunks ih =>
    obtain ⟨⟨part, hread, hsize⟩, hstored⟩ := List.forall_mem_cons.1 hstored
    have htwo : Calm (2 * chunks.length + 1 + 1) faults := hcalm
    have hkept : readChunk sha256 (disk.write output written).chunks chunk.sha256 = .ok part := hread
    obtain ⟨rest₁, hcalm₁, hgo₁⟩ := read_calm htwo hkept
    obtain ⟨rest₂, hcalm₂, hgo₂⟩ := append_calm output part written disk hcalm₁
    obtain ⟨rest, parts, hparts, hgo⟩ := ih hstored hcalm₂ (written ++ part)
    have hfits : bailIf (part.length ≠ chunk.sizeBytes) "chunk size mismatch" = .ok () := by simp [hsize]
    refine ⟨rest, part :: parts, .cons ⟨(readChunk_ok hread).2, hsize⟩ hparts, ?_⟩
    have hchunk : (writeChunk sha256 output chunk).go (disk.write output written) faults =
        (.done (), disk.write output (written ++ part), rest₂) := by
      rw [writeChunk, bind_of_done hgo₁, hfits]
      exact hgo₂
    rw [forEach, bind_of_done hchunk, hgo, List.flatten_cons, List.append_assoc]

/-- while nothing fails before its last chunk is written, a model file is whole -/
theorem materialize_calm {manifest : ModelManifest} {disk : Disk} {faults : List Fault} (output : String)
    (hvalid : manifest.validate = .ok ()) (hstored : ∀ chunk ∈ manifest.chunks, Stored sha256 disk chunk)
    (hcalm : Calm (1 + 2 * manifest.chunks.length) faults) :
    ∃ file, Assembles sha256 manifest.chunks file ∧
      ((materialize sha256 manifest output).go disk faults).2.1 = disk.write output file := by
  have hone : Calm (2 * manifest.chunks.length + 1) faults := by rwa [Nat.add_comm] at hcalm
  obtain ⟨rest₁, hcalm₁, hcreate⟩ : ∃ rest, Calm (2 * manifest.chunks.length) rest ∧
      (create output).go disk faults = (.done (), disk.write output [], rest) := operation_calm hone rfl
  obtain ⟨rest, parts, hparts, hloop⟩ := writeChunks_calm output hstored hcalm₁ []
  refine ⟨parts.flatten, ⟨parts, hparts, rfl⟩, ?_⟩
  -- the file may still fail to be synchronised, which does not change it
  have hsync : Keeps Eq syncAll := keeps_look _
  rw [materialize, hvalid]
  change ((create output >>= fun _ => _).go disk faults).2.1 = _
  rw [bind_of_done hcreate, bind_of_done hloop, ← hsync]
  rfl

/-- a model file that is cut short before it is created is not there -/
theorem materialize_cutAtOnce {manifest : ModelManifest} {disk : Disk} {faults : List Fault} (output : String)
    (hvalid : manifest.validate = .ok ()) (hcut : CutAtOnce faults) :
    ((materialize sha256 manifest output).go disk faults).2.1 = disk ∧
      ∀ disk' rest, (materialize sha256 manifest output).go disk faults ≠ (.done (), disk', rest) := by
  rw [materialize, hvalid]
  cases faults with
  | nil =>
    rcases hcut with h | h
    · cases h
    · cases h
  | cons fault rest =>
    rcases hcut with h | h
    · obtain rfl := Option.some.inj h
      exact ⟨rfl, fun _ _ h => by cases h⟩
    · obtain rfl := Option.some.inj h
      exact ⟨rfl, fun _ _ h => by cases h⟩

/-! ## Every model file is whole -/

theorem modelPath_inj {a b : ModelManifest} (h : modelPath sha256 json a = modelPath sha256 json b) :
    sha256 (json a) = sha256 (json b) := by
  have hlist := congrArg String.toList h
  simp only [modelPath, toString, String.toList_append] at hlist
  exact String.toList_inj.1 (List.append_cancel_left (List.append_cancel_right hlist))

/-- the model files of these manifests that are there are their models -/
def Whole (sha256 : List UInt8 → String) (json : ModelManifest → List UInt8) (known : Set ModelManifest) (disk : Disk) :
    Prop :=
  ∀ manifest ∈ known, ∀ file, disk.models (modelPath sha256 json manifest) = some file →
    Assembles sha256 manifest.chunks file

variable {known : Set ModelManifest}

theorem Whole.congr {disk disk' : Disk} (h : Whole sha256 json known disk) (hsame : disk'.models = disk.models) :
    Whole sha256 json known disk' := by
  intro manifest hmanifest file hfile
  rw [hsame] at hfile
  exact h manifest hmanifest file hfile

/-- writing the model of a manifest leaves the others alone -/
theorem Whole.write {disk : Disk} {manifest : ModelManifest} {file : List UInt8} (h : Whole sha256 json known disk)
    (hinj : Set.InjOn (fun manifest => sha256 (json manifest)) known) (hknown : manifest ∈ known)
    (hfile : Assembles sha256 manifest.chunks file) :
    Whole sha256 json known (disk.write (modelPath sha256 json manifest) file) := by
  intro other hother held hheld
  rw [Disk.write_models] at hheld
  by_cases hpath : modelPath sha256 json other = modelPath sha256 json manifest
  · obtain rfl := hinj hother hknown (modelPath_inj hpath)
    rw [Function.update_self] at hheld
    obtain rfl := Option.some.inj hheld
    exact hfile
  · rw [Function.update_of_ne hpath] at hheld
    exact h other hother held hheld

/-- a model file that is there is taken as it is -/
theorem writeModel_there {manifest : ModelManifest} {disk : Disk} {file : List UInt8} (faults : List Fault)
    (h : disk.models (modelPath sha256 json manifest) = some file) :
    (writeModel sha256 json manifest).go disk faults = (.done (), disk, faults) := by
  rw [writeModel, bind_go]
  simp only [peek, h, Option.isSome_some, if_true]
  rfl

/-- what is prepared has a manifest that is valid -/
theorem valid_of_prepare {assignment : InferenceAssignment} {disk disk' : Disk} {faults rest : List Fault}
    (h : (prepare sha256 process assignment).go disk faults = (.done (), disk', rest)) :
    assignment.manifest.validate = .ok () := by
  rw [prepare, bind_go] at h
  cases hvalid : assignment.manifest.validate with
  | ok u => rfl
  | error e =>
    rw [hvalid] at h
    cases h

/-- **One assignment.** If the model files there are whole, and the one it writes is written to its end, the assignment goes
on with its own model, and the model files are whole after it. -/
theorem handle_whole {disk : Disk} {h : Handling} (hwhole : Whole sha256 json known disk)
    (hinj : Set.InjOn (fun manifest => sha256 (json manifest)) known) (hknown : h.assignment.manifest ∈ known)
    (hwrites : WritesWhole sha256 json disk h) :
    OwnModel sha256 json disk h ∧ Whole sha256 json known (handle sha256 json disk h) := by
  have hsame : SameModels disk ((prepare sha256 h.process h.assignment).go disk h.faults).2.1 :=
    prepare_sameModels h.assignment disk h.faults
  unfold OwnModel handle execute
  rcases hprepare : (prepare sha256 h.process h.assignment).go disk h.faults with ⟨ending, disk₁, rest₁⟩
  rw [hprepare] at hsame
  have hwhole₁ : Whole sha256 json known disk₁ := hwhole.congr hsame
  cases ending with
  | failed e =>
    rw [bind_go, hprepare]
    exact ⟨fun disk' rest hdone => absurd (congrArg Prod.fst hdone) (by simp), hwhole₁⟩
  | stopped =>
    rw [bind_go, hprepare]
    exact ⟨fun disk' rest hdone => absurd (congrArg Prod.fst hdone) (by simp), hwhole₁⟩
  | done u =>
    have hvalid := valid_of_prepare hprepare
    rw [bind_of_done hprepare]
    cases hthere : disk₁.models (modelPath sha256 json h.assignment.manifest) with
    | some file =>
      rw [writeModel_there rest₁ hthere]
      refine ⟨fun disk' rest hdone => ?_, hwhole₁⟩
      cases hdone
      exact ⟨file, hthere, hwhole₁ _ hknown _ hthere⟩
    | none =>
      have hwrite : (writeModel sha256 json h.assignment.manifest).go disk₁ rest₁ =
          (materialize sha256 h.assignment.manifest (modelPath sha256 json h.assignment.manifest)).go disk₁ rest₁ := by
        rw [writeModel, bind_go]
        simp only [peek, hthere, Option.isSome_none, Bool.false_eq_true, if_false]
      rw [hwrite]
      rcases hwrites disk₁ rest₁ hprepare hthere with hcut | ⟨hstored, hcalm⟩
      · obtain ⟨hdisk, hnot⟩ := materialize_cutAtOnce (modelPath sha256 json h.assignment.manifest) hvalid hcut
        exact ⟨fun disk' rest hdone => absurd hdone (hnot disk' rest), by rwa [hdisk]⟩
      · obtain ⟨file, hfile, hdisk⟩ := materialize_calm (modelPath sha256 json h.assignment.manifest) hvalid hstored hcalm
        refine ⟨fun disk' rest hdone => ⟨file, ?_, hfile⟩, by rw [hdisk]; exact hwhole₁.write hinj hknown hfile⟩
        rw [hdone] at hdisk
        obtain rfl : disk' = _ := hdisk
        rw [Disk.write_models, Function.update_self]

/-- **Inference runs on the assigned model.** Any assignments are handled one after the other, on a disk with no model file
at first; operations fail and processes end anywhere, and the seed peers serve anything. If each model file that is created
is written to its end, every assignment that gets past its model file goes on with the model its manifest describes. -/
theorem assigned_model_only {disk : Disk} {handlings : List Handling} (hnew : ∀ output, disk.models output = none)
    (hinj : Set.InjOn (fun manifest => sha256 (json manifest)) {m | ∃ h ∈ handlings, h.assignment.manifest = m})
    (hwrites : Along (handle sha256 json) (WritesWhole sha256 json) disk handlings) :
    Along (handle sha256 json) (OwnModel sha256 json) disk handlings := by
  have hstart : Whole sha256 json {m | ∃ h ∈ handlings, h.assignment.manifest = m} disk := by
    intro manifest _ file hfile
    rw [hnew] at hfile
    cases hfile
  have hsub : ∀ h ∈ handlings, h.assignment.manifest ∈ {m | ∃ h ∈ handlings, h.assignment.manifest = m} :=
    fun h hh => ⟨h, hh, rfl⟩
  revert hstart hsub hinj
  generalize {m | ∃ h ∈ handlings, h.assignment.manifest = m} = known
  intro hinj hstart hsub
  clear hnew
  induction handlings generalizing disk with
  | nil => trivial
  | cons h handlings ih =>
    obtain ⟨hfirst, hrest⟩ := hwrites
    obtain ⟨hown, hwhole⟩ := handle_whole hstart hinj (hsub h List.mem_cons_self) hfirst
    exact ⟨hown, ih hrest hwhole fun g hg => hsub g (List.mem_cons_of_mem _ hg)⟩

end

namespace OneChunk

/-- the text of the manifest with the one chunk [0] -/
def json (_manifest : ModelManifest) : List UInt8 :=
  ("\x7b\"schema_version\":1,\"model_id\":\"m\",\"revision\":\"1\",\"format\":\"gguf\",\"architecture\":\"llama\"," ++
    "\"parameter_count\":null,\"tensor_dtype\":null,\"total_size_bytes\":1," ++
    "\"chunks\":[\x7b\"index\":0,\"sha256\":\"6e340b9cffb37a989ca544e6bb780a2c78901d3fb33738768511a30617afa01d\"" ++
    ",\"size_bytes\":1\x7d],\"metadata\":\x7b\x7d\x7d").toList.map
    fun c => UInt8.ofNat c.toNat

def digest (data : List UInt8) : String :=
  if data = [0] then "6e340b9cffb37a989ca544e6bb780a2c78901d3fb33738768511a30617afa01d"
  else if data = [1] then "4bf5122f344554c53bde2ebb8cd2b7e3d1600ad631c385a5d7cce23c7785459a"
  else "226447599e701698bf5a923060f0679bfae02a621576723411cba1ce51909b6a"

/-- a manifest of the one chunk -/
def manifest (chunk : List UInt8) : ModelManifest :=
  { schemaVersion := 1, modelId := "m", revision := "1", format := .gguf, architecture := "llama", parameterCount := none,
    tensorDtype := none, totalSizeBytes := 1, chunks := [⟨0, digest chunk, 1⟩], metadata := [] }

/-- a peer that serves the chunk [1] as the model -/
def otherPeer : PeerSource := ⟨fun _ _ => .ok (manifest [1]), fun _ => .ok [1]⟩

def handling (peers : List (String × PeerSource)) : Handling := ⟨⟨manifest [0], peers⟩, 7, []⟩

end OneChunk

theorem assigned_model_only_stored :
    Along (handle OneChunk.digest OneChunk.json) (OwnModel OneChunk.digest OneChunk.json)
      (Model.Sample.emptyDisk.store (OneChunk.digest [0]) [0]) [OneChunk.handling []] := by
  refine assigned_model_only (fun _ => rfl) ?_ ⟨fun disk₁ rest h _ => .inr ?_, trivial⟩
  · rintro a ⟨h, hh, rfl⟩ b ⟨h', hh', rfl⟩ -
    rw [List.mem_singleton.1 hh, List.mem_singleton.1 hh']
  · have hgo : (prepare OneChunk.digest 7 ⟨OneChunk.manifest [0], []⟩).go
        (Model.Sample.emptyDisk.store (OneChunk.digest [0]) [0]) [] =
        (.done (), Model.Sample.emptyDisk.store (OneChunk.digest [0]) [0], []) := rfl
    obtain ⟨rfl, rfl⟩ : Model.Sample.emptyDisk.store (OneChunk.digest [0]) [0] = disk₁ ∧ [] = rest := by
      have heq := hgo.symm.trans h
      simp only [Prod.mk.injEq] at heq
      exact heq.2
    refine ⟨fun chunk hchunk => ?_, by simp [Calm]⟩
    obtain rfl := List.mem_singleton.1 hchunk
    exact ⟨[0], rfl, rfl⟩

/-- the first assignment fails on a chunk that the peer's manifest does not have; the second takes the file it left -/
theorem takes_unfinished_file :
    ¬ Along (handle OneChunk.digest OneChunk.json) (OwnModel OneChunk.digest OneChunk.json) Model.Sample.emptyDisk
      [OneChunk.handling [("http://a", OneChunk.otherPeer)], OneChunk.handling [("http://a", OneChunk.otherPeer)]] := by
  rintro ⟨-, hsecond, -⟩
  have hprepare : (prepare OneChunk.digest 7 (OneChunk.handling [("http://a", OneChunk.otherPeer)]).assignment).go
      (handle OneChunk.digest OneChunk.json Model.Sample.emptyDisk (OneChunk.handling [("http://a", OneChunk.otherPeer)])) [] =
      (.done (), (Model.Sample.emptyDisk.store (OneChunk.digest [1]) [1]).write
        (modelPath OneChunk.digest OneChunk.json (OneChunk.manifest [0])) [], []) := rfl
  have hthere : ((Model.Sample.emptyDisk.store (OneChunk.digest [1]) [1]).write
      (modelPath OneChunk.digest OneChunk.json (OneChunk.manifest [0])) []).models
      (modelPath OneChunk.digest OneChunk.json (OneChunk.manifest [0])) = some [] := by
    rw [Disk.write_models, Function.update_self]
  obtain ⟨file, hfile, parts, hparts, rfl⟩ := hsecond _ _ ((bind_of_done hprepare).trans (writeModel_there [] hthere))
  have hempty : [] = parts.flatten := Option.some.inj (hthere.symm.trans hfile)
  have hlength := length_of_holds OneChunk.digest hparts
  rw [← hempty] at hlength
  exact absurd hlength (by decide)

end Hocmesh.Node
