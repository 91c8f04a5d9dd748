/-
An inference job, from the request to the price of its batches (`submit_inference`, `assignment_claim`).

The requester signs a bill, the coordinator cuts the prompts into the batches of a plan, the provider prices the prompts
it was handed and the ledger prices a slice of the byte counts in the bill. `check_inference_bill` admits a job only
under a bill for the prompts, the model and the token limit that it came with, so both prices are of one list
(`claim_is_reserved`), on every store that holds the escrow.
-/
import Hocmesh.Ai.Plan
import Hocmesh.Books.Routes
import Hocmesh.Coordinator.Failover
import Hocmesh.Model.Store

namespace Hocmesh.Ai

open Hocmesh.Base Hocmesh.Core Hocmesh.Protocol Hocmesh.Compute Hocmesh.Ledger Hocmesh.Books
open Hocmesh.Model (ModelManifest)

/-! ## Requests -/

structure SubmitInferenceRequest where
  auth : AuthProof
  modelId : String
  revision : String
  prompts : List String
  maxTokens : ℕ
  billing : InferenceBilling
  temperatureMilli : ℕ
  seed : ℕ
  requirements : InferenceRequirements
  layerCount : ℕ

def SubmitInferenceRequest.validate (req : SubmitInferenceRequest) : Check Unit := do
  bailIf (req.modelId = "" ∨ req.revision = "") "model reference is empty"
  bailIf (req.prompts.length = 0 ∨ 256 < req.prompts.length) "prompt batch must contain 1..=256 prompts"
  bailIf (∃ prompt ∈ req.prompts, prompt = "" ∨ 1000000 < prompt.utf8ByteSize) "invalid prompt length"
  bailIf (req.maxTokens = 0 ∨ 32768 < req.maxTokens) "max_tokens is out of range"
  bailIf (5000 < req.temperatureMilli) "temperature is out of range"
  bailIf (req.requirements.batchSize ≠ req.prompts.length) "batch_size must match prompts"
  bailIf (req.layerCount = 0) "layer_count must be positive"

/-- the sizes a bill is computed from, one entry per prompt -/
def promptBytes (prompts : List String) : List ℕ := prompts.map String.utf8ByteSize

/-- the model of a request, the peers that seed it, and the devices that may run it, best first -/
structure AiContext where
  manifest : ModelManifest
  seedPeers : List String
  candidates : List CandidateScore

/-- what a request is answered from: the database, the quorum's balances and the clock -/
structure AppState where
  /-- `authenticate_known_node`, with the registered key of the node -/
  authenticate : AuthProof → Check String
  /-- `ai_context` for the requester, a model and a revision, ranked by `rank_candidates` for the requirements -/
  aiContext : String → String → String → InferenceRequirements → Check AiContext
  balanceMcu : String → Check ℤ
  now : ℤ

/-- digests and texts of values: `manifest.digest`, `prompts_digest`, `inference_settings_digest`, and thousandths of a CU
as a float with three places -/
structure Encoding where
  manifestDigest : ModelManifest → String
  promptsDigest : List String → String
  settingsDigest : SubmitInferenceRequest → String
  cu : ℤ → String

/-- the bill a requester signed against the request it arrived with -/
def checkInferenceBill (enc : Encoding) (req : SubmitInferenceRequest) (manifest : ModelManifest) (digest : String) :
    Check ℤ := do
  let billing := req.billing
  bailIf (billing.manifestDigest ≠ digest) "the bill was written for a different model revision"
  let parameterCount ← orBail manifest.parameterCount "a model that does not declare its parameter count cannot be priced"
  bailIf (billing.parameterCount ≠ parameterCount ∨ billing.totalSizeBytes ≠ manifest.totalSizeBytes)
    "the bill does not match the model it names"
  bailIf (¬ parameterCountIsPlausible billing.parameterCount billing.totalSizeBytes)
    "declared parameter count does not fit the bytes of the model"
  bailIf (billing.maxTokens ≠ req.maxTokens ∨ billing.promptBytes ≠ promptBytes req.prompts ∨
      billing.promptsDigest ≠ enc.promptsDigest req.prompts)
    "the bill was written for different prompts"
  let cost := inferenceCostMcu billing.promptBytes billing.maxTokens billing.parameterCount
  bailIf (billing.maxCostMcu < cost) "inference costs more than the requester authorised"
  pure cost

/-! ## Plans that are checked again -/

/-- the last look at a plan, before its escrow is committed -/
def validatePlan (plan : ParallelismPlan) (layerCount batchSize : ℕ) : Check Unit := do
  bailIf (∃ first ∈ plan.pipeline.head?, first.layerStart ≠ 0) "pipeline does not start at layer zero"
  bailIf (∃ last ∈ plan.pipeline.getLast?, last.layerEnd ≠ layerCount) "pipeline does not cover final layer"
  each (fun pair : PipelineStage × PipelineStage =>
    bailIf (pair.1.layerEnd ≠ pair.2.layerStart) "pipeline has a gap or overlap") (plan.pipeline.zip plan.pipeline.tail)
  each (fun member : TensorGroup × ℕ => bailIf (member.1.rank ≠ member.2) "tensor ranks are not contiguous")
    plan.tensorGroup.zipIdx
  bailIf (∃ first ∈ plan.batches.head?, first.batchStart ≠ 0) "batch plan does not start at zero"
  bailIf (∃ last ∈ plan.batches.getLast?, last.batchEnd ≠ batchSize) "batch plan is incomplete"
  each (fun pair : BatchShard × BatchShard =>
    bailIf (pair.1.batchEnd ≠ pair.2.batchStart) "batch plan has a gap or overlap") (plan.batches.zip plan.batches.tail)
  bailIf (plan.pipeline = [] ∧ plan.tensorGroup = [] ∧ plan.batches = []) "parallelism plan has no assignments"

/-! ## Assignments -/

structure InferenceAssignment where
  assignmentId : String
  jobId : String
  manifest : ModelManifest
  seedPeers : List String
  prompts : List (ℕ × String)
  maxTokens : ℕ
  temperatureMilli : ℕ
  seed : ℕ
  deviceId : String
  leaseSeconds : ℤ

/-- what a provider claims for the batch it was handed: its bounds, and the price of its prompts -/
def assignmentClaim (assignment : InferenceAssignment) : Option (ℕ × ℕ × ℤ) := do
  let first ← assignment.prompts.head?
  let last ← assignment.prompts.getLast?
  let parameterCount ← assignment.manifest.parameterCount
  let bytes := assignment.prompts.map fun prompt => prompt.2.utf8ByteSize
  pure (first.1, wrapU32 (last.1 + 1), inferenceCostMcu bytes assignment.maxTokens parameterCount)

/-- the prompts of a batch, each with its index -/
def batchPrompts (prompts : List String) (batch : BatchShard) : Check (List (ℕ × String)) :=
  (List.range' batch.batchStart (batch.batchEnd - batch.batchStart)).mapM' fun promptIndex => do
    let prompt ← orBail prompts[promptIndex]? "index out of bounds"
    pure (promptIndex, prompt)

/-- what `submit_inference` writes: the escrow it proposes, and an assignment for each batch of the plan -/
structure Submission where
  jobId : String
  manifestDigest : String
  plan : ParallelismPlan
  evidence : InferenceReserveEvidence
  escrow : LedgerTransaction
  assignments : List InferenceAssignment

/-- the handler, up to what it writes -/
def submitInference (c : Crypto) (enc : Encoding) (rtt : NetworkCoordinate → NetworkCoordinate → ℕ) (state : AppState)
    (req : SubmitInferenceRequest) : Check Submission := do
  req.validate
  let jobId := inferenceJobIdFromAuth c req.auth
  let requesterPk ← state.authenticate req.auth
  let context ← state.aiContext req.auth.nodeId req.modelId req.revision req.requirements
  let digest := enc.manifestDigest context.manifest
  let totalCostMcu ← checkInferenceBill enc req context.manifest digest
  bailIf (context.candidates.length = 0) "no eligible AI devices are online"
  let plan ← planParallelism rtt context.candidates req.layerCount req.requirements
  validatePlan plan req.layerCount req.requirements.batchSize
  let balanceMcu ← state.balanceMcu req.auth.nodeId
  bailIf (balanceMcu < totalCostMcu) ("insufficient compute credit: need " ++ enc.cu totalCostMcu ++ " CU, have " ++
    enc.cu balanceMcu ++ " CU; contribute first")
  let evidence : InferenceReserveEvidence :=
    { jobId, requesterPublicKeyB64 := requesterPk, requesterAuth := req.auth, billing := req.billing
      settingsDigest := enc.settingsDigest req
      batches := plan.batches.map fun b => ⟨b.batchStart, b.batchEnd, b.nodeId⟩ }
  let assignments ← plan.batches.zipIdx.mapM' fun p => do
    let prompts ← batchPrompts req.prompts p.1
    pure { assignmentId := inferenceAssignmentId c jobId p.2, jobId, manifest := context.manifest
           seedPeers := context.seedPeers, prompts, maxTokens := req.maxTokens
           temperatureMilli := req.temperatureMilli, seed := req.seed, deviceId := p.1.deviceId
           leaseSeconds := defaultLeaseSeconds }
  pure ⟨jobId, digest, plan, evidence, Coordinator.inferenceReserveTransaction evidence state.now, assignments⟩

/-! ## A well-formed plan passes -/

/-- the last look refuses no plan that is complete and well formed -/
theorem validatePlan_ok {candidates : List CandidateScore} {layerCount : ℕ} {requirements : InferenceRequirements}
    {plan : ParallelismPlan} (h : plan.WellFormed candidates layerCount requirements)
    (hbatch : 0 < requirements.batchSize) :
    validatePlan plan layerCount requirements.batchSize = .ok () := by
  obtain ⟨hfirst, hlast, hnext⟩ := h.batches.map
  have hsome : plan.batches ≠ [] := by
    intro hnone
    have htiles := h.batches
    rw [hnone] at htiles
    exact hbatch.ne htiles
  have hlayers : (∀ x ∈ plan.pipeline.head?, x.layerStart = 0) ∧
      (∀ x ∈ plan.pipeline.getLast?, x.layerEnd = layerCount) ∧
      ∀ p ∈ plan.pipeline.zip plan.pipeline.tail, p.1.layerEnd = p.2.layerStart := by
    rcases eq_or_ne plan.pipeline [] with hnone | hstages
    · simp [hnone]
    · exact (h.layers hstages).map
  have hranks : ∀ p ∈ plan.tensorGroup.zipIdx, p.1.rank = p.2 := by
    intro p hp
    have hmember := List.mem_zipIdx_iff_getElem?.1 hp
    have hget := congrArg (fun l : List ℕ => l[p.2]?) h.ranks
    rw [List.getElem?_map, hmember, Option.map_some,
      List.getElem?_range (List.getElem?_eq_some_iff.1 hmember).1] at hget
    exact Option.some.inj hget
  simp only [validatePlan, bind_ok, bailIf_ok, each_ok, exists_const, not_exists, not_and, not_not]
  exact ⟨hlayers.1, hlayers.2.1, hlayers.2.2, hranks, hfirst, hlast, hnext, fun _ _ => hsome⟩

-- a stage without layers passes too
example : validatePlan ⟨[.batch, .pipeline], [⟨0, "a", "1", 0, 0⟩, ⟨1, "b", "1", 0, 1⟩], [], [⟨0, 1, "a", "1"⟩]⟩ 1 1 =
    .ok () := by decide +kernel

/-! ## The prompts of a batch -/

theorem getElem?_of_mapM {α β : Type} (f : α → Check β) (l : List α) (r : List β) (h : l.mapM' f = .ok r) :
    ∀ (i : ℕ) (b : β), r[i]? = some b → ∃ a, l[i]? = some a ∧ f a = .ok b := by
  induction l generalizing r with
  | nil =>
    simp only [List.mapM'_nil, pure_ok] at h
    subst h
    simp
  | cons a l ih =>
    simp only [List.mapM'_cons, bind_ok, pure_ok] at h
    obtain ⟨b, hb, bs, hbs, rfl⟩ := h
    intro i x hx
    cases i with
    | zero =>
      obtain rfl : b = x := by simpa using hx
      exact ⟨a, rfl, hb⟩
    | succ i => exact ih bs hbs i x hx

/-- a batch that lies within the prompts gets the slice it names, each prompt with its index -/
theorem batchPrompts_eq {prompts : List String} {batch : BatchShard} (hbatch : batch.batchStart ≤ batch.batchEnd)
    (hwithin : batch.batchEnd ≤ prompts.length) :
    batchPrompts prompts batch =
      .ok ((List.range' batch.batchStart (batch.batchEnd - batch.batchStart)).zip
        ((prompts.take batch.batchEnd).drop batch.batchStart)) := by
  obtain ⟨n, hn⟩ := Nat.exists_eq_add_of_le hbatch
  have hslice : ∀ n s, s + n ≤ prompts.length →
      (List.range' s n).mapM' (fun promptIndex => do
        let prompt ← orBail prompts[promptIndex]? "index out of bounds"
        pure (promptIndex, prompt)) = (.ok ((List.range' s n).zip ((prompts.drop s).take n)) : Check _) := by
    intro n
    induction n with
    | zero => intro s _; rfl
    | succ n ih =>
      intro s hs
      have hlt : s < prompts.length := by omega
      rw [List.range'_succ, List.mapM'_cons, ih (s + 1) (by omega), List.drop_eq_getElem_cons hlt, List.take_succ_cons,
        List.zip_cons_cons, List.getElem?_eq_getElem hlt]
      rfl
  rw [batchPrompts, List.drop_take, hn, Nat.add_sub_cancel_left]
  exact hslice n batch.batchStart (hn ▸ hwithin)

/-- the bounds and the price that the provider reads off a slice are the slice's -/
theorem assignmentClaim_eq {a : InferenceAssignment} {s e parameterCount : ℕ} {texts : List String}
    (hprompts : a.prompts = (List.range' s (e - s)).zip texts) (hlen : texts.length = e - s) (hse : s < e)
    (he : e ≤ u32Max) (hcount : a.manifest.parameterCount = some parameterCount) :
    assignmentClaim a = some (s, e, inferenceCostMcu (promptBytes texts) a.maxTokens parameterCount) := by
  have hindices : a.prompts.map Prod.fst = List.range' s (e - s) := by
    rw [hprompts, List.map_fst_zip (by rw [List.length_range', hlen])]
  have htexts : a.prompts.map Prod.snd = texts := by
    rw [hprompts, List.map_snd_zip (by rw [List.length_range', hlen])]
  have hhead := congrArg List.head? hindices
  have hlast := congrArg List.getLast? hindices
  rw [List.head?_map, List.head?_range', if_neg (by omega), Option.map_eq_some_iff] at hhead
  rw [List.getLast?_map, List.getLast?_range', if_neg (by omega), Option.map_eq_some_iff] at hlast
  obtain ⟨first, hfirst, hstart⟩ := hhead
  obtain ⟨last, hend, hstop⟩ := hlast
  have hbytes : a.prompts.map (fun prompt => prompt.2.utf8ByteSize) = promptBytes texts := by
    rw [← htexts, promptBytes, List.map_map]
    rfl
  have hbound : wrapU32 (last.1 + 1) = e := by
    rw [hstop, show s + (e - s) - 1 + 1 = e by omega, wrapU32_of_le he]
  unfold assignmentClaim
  simp only [hfirst, hend, hcount, hbytes, hbound, hstart, Option.bind_eq_bind, Option.bind_some, Option.pure_def]

/-- the ledger's slice of the byte counts is the byte counts of the slice -/
theorem inferenceBatchCostMcu_promptBytes {prompts : List String} {s e : ℕ} (hse : s ≤ e) (he : e ≤ prompts.length)
    (maxTokens parameterCount : ℕ) :
    inferenceBatchCostMcu (promptBytes prompts) s e maxTokens parameterCount =
      inferenceCostMcu (promptBytes ((prompts.take e).drop s)) maxTokens parameterCount := by
  have hlen : (promptBytes prompts).length = prompts.length := List.length_map ..
  unfold inferenceBatchCostMcu
  dsimp only
  rw [hlen, min_eq_left (hse.trans he), max_eq_left hse, min_eq_left he]
  simp only [promptBytes, List.map_take, List.map_drop]

/-! ## Admitted jobs -/

section

variable {c : Crypto} {enc : Encoding} {rtt : NetworkCoordinate → NetworkCoordinate → ℕ} {state : AppState}
  {req : SubmitInferenceRequest} {sub : Submission}

/-- a bill that is accepted is for the prompts, the token limit and the model at hand -/
theorem checkInferenceBill_ok {manifest : ModelManifest} {digest : String} {cost : ℤ}
    (h : checkInferenceBill enc req manifest digest = .ok cost) :
    manifest.parameterCount = some req.billing.parameterCount ∧ req.billing.maxTokens = req.maxTokens ∧
      req.billing.promptBytes = promptBytes req.prompts := by
  simp only [checkInferenceBill, bind_ok, bailIf_ok, orBail_ok, exists_const, not_or, not_not, pure_ok] at h
  obtain ⟨-, count, hcount, ⟨hsame, -⟩, -, ⟨htokens, hbytes, -⟩, -⟩ := h
  exact ⟨hsame ▸ hcount, htokens, hbytes⟩

/-- the batches of an admitted plan are not empty, and lie within the prompts -/
theorem planned_batches {candidates : List CandidateScore} {plan : ParallelismPlan} {n : ℕ} (hn : n ≤ 256)
    (h : planParallelism rtt candidates req.layerCount req.requirements = .ok plan)
    (hsize : req.requirements.batchSize = n) :
    plan.batches.length ≤ n ∧ ∀ b ∈ plan.batches, b.batchStart < b.batchEnd ∧ b.batchEnd ≤ n := by
  simp only [planParallelism, bind_ok, bailIf_ok, pure_ok, exists_const] at h
  obtain ⟨-, hbatch, henough, ordered, -, rfl⟩ := h
  rw [hsize] at hbatch ⊢
  have hworkers : 0 < min candidates.length n := by omega
  have hfew : min candidates.length n ≤ n := min_le_right _ _
  have hfits : n * min candidates.length n ≤ u32Max := by
    calc n * min candidates.length n ≤ 256 * 256 := Nat.mul_le_mul hn (hfew.trans hn)
      _ ≤ u32Max := by decide
  have hspans := batchShards_spec hfits
  have htiles := tiles_scaledSpans n hworkers
  refine ⟨?_, fun b hb => ?_⟩
  · have hlen := congrArg List.length hspans
    rw [List.length_map, scaledSpans, List.length_map, List.length_range'] at hlen
    exact hlen.trans_le hfew
  · have hspan : (b.batchStart, b.batchEnd) ∈ scaledSpans n (min candidates.length n) := by
      rw [← hspans]
      exact List.mem_map_of_mem (f := fun b : BatchShard => (b.batchStart, b.batchEnd)) hb
    exact ⟨scaledSpans_nonempty hworkers hfew _ hspan, (htiles.within _ hspan).2.2⟩

/-- whichever way a store came to hold the escrow, it remembers the job under its bill and its batches -/
theorem inferenceReservation_of_route {certs : List QuorumCertificate} {log : List (LedgerCheckpoint × ValidatorSet)}
    {st : LedgerStore} {tx : LedgerTransaction} {e : InferenceReserveEvidence} (h : Route c Reached certs log st)
    (hin : ∃ cert ∈ certs, tx ∈ cert.entry.transactions) (he : tx.evidence = .inferenceReserve e) :
    st.inferenceReservation e.jobId = some (reservationOf tx e) := by
  obtain ⟨base, kept, hold⟩ := h.holds fun _ _ _ hq => hq
  obtain ⟨cert, hcert, htx⟩ := hin
  have hrow : LedgerStore.inferenceRecord tx =
      some (e.jobId, ⟨e.billing, e.batches, e.requesterAuth.nodeId, tx.createdAt⟩) := by
    rw [LedgerStore.inferenceRecord, he]
  have hget := (hold.inference e.jobId _).2 ⟨(cert.entry.sequence, tx), mem_placed.2 ⟨cert, hcert, rfl, htx⟩, _, hrow, rfl⟩
  rw [LedgerStore.inferenceReservation, hget]
  rfl

/-- the index that an assignment id was made from finds its batch -/
theorem reservedBatch_of_index (tx : LedgerTransaction) {e : InferenceReserveEvidence} {i : ℕ} {b : PricedBatch}
    (hlen : e.batches.length < 4294967296) (hb : e.batches[i]? = some b) :
    reservedBatch c (reservationOf tx e) (inferenceAssignmentId c e.jobId i) b.batchStart b.batchEnd =
      .ok (b, batchPrice e.billing b.batchStart b.batchEnd) := by
  have hlt : i < e.batches.length := (List.getElem?_eq_some_iff.1 hb).1
  have hindex := Coordinator.Failover.batchIndex_eq (c := c) (r := reservationOf tx e) hlen hlt
    fun _ _ hsame => (inferenceAssignmentId_inj c hsame).2
  simp only [reservedBatch, bind_ok, orBail_ok, bailIf_ok, exists_const, pure_ok]
  exact ⟨i, hindex, b, hb, by simp, rfl⟩

/-- what an admitted job has been checked for -/
theorem submitInference_admits (h : submitInference c enc rtt state req = .ok sub) :
    req.prompts.length ≤ 256 ∧ sub.plan.batches.length ≤ req.prompts.length ∧
      (∀ b ∈ sub.plan.batches, b.batchStart < b.batchEnd ∧ b.batchEnd ≤ req.prompts.length) ∧
      sub.evidence.billing.maxTokens = req.maxTokens ∧ sub.evidence.billing.promptBytes = promptBytes req.prompts := by
  simp only [submitInference, SubmitInferenceRequest.validate, bind_ok, bailIf_ok, exists_const, exists_ok_unit_and,
    pure_ok, not_or, not_not, not_lt] at h
  obtain ⟨⟨-, ⟨-, hmany⟩, -, -, -, hsize, -⟩, _, -, _, -, _, hbill, -, plan, hplan, -, _, -, -, _, -, rfl⟩ := h
  obtain ⟨-, htokens, hbytes⟩ := checkInferenceBill_ok hbill
  obtain ⟨hfew, hbatches⟩ := planned_batches hmany hplan hsize
  exact ⟨hmany, hfew, hbatches, htokens, hbytes⟩

/-- the escrow that an admitted job proposes carries its plan -/
theorem submitInference_escrow (h : submitInference c enc rtt state req = .ok sub) :
    sub.escrow.evidence = .inferenceReserve sub.evidence ∧ sub.evidence.jobId = sub.jobId ∧
      sub.evidence.batches = sub.plan.batches.map fun b => ⟨b.batchStart, b.batchEnd, b.nodeId⟩ := by
  simp only [submitInference, bind_ok, pure_ok] at h
  obtain ⟨_, -, _, -, _, -, _, -, _, -, _, -, _, -, _, -, _, -, _, -, rfl⟩ := h
  exact ⟨rfl, rfl, rfl⟩

/-- an assignment of an admitted job is made from the batch of its index -/
theorem submitInference_assignment (h : submitInference c enc rtt state req = .ok sub) {i : ℕ} {a : InferenceAssignment}
    (ha : sub.assignments[i]? = some a) :
    ∃ shard, sub.plan.batches[i]? = some shard ∧ batchPrompts req.prompts shard = .ok a.prompts ∧
      a.assignmentId = inferenceAssignmentId c sub.jobId i ∧ a.jobId = sub.jobId ∧ a.maxTokens = req.maxTokens ∧
      a.manifest.parameterCount = some sub.evidence.billing.parameterCount := by
  simp only [submitInference, bind_ok, pure_ok] at h
  obtain ⟨_, -, _, -, context, -, _, hbill, _, -, plan, -, _, -, _, -, _, -, assignments, hassign, rfl⟩ := h
  obtain ⟨⟨shard, j⟩, hget, hmade⟩ := getElem?_of_mapM _ _ _ hassign i a ha
  rw [List.getElem?_zipIdx, Option.map_eq_some_iff] at hget
  obtain ⟨found, hfound, heq⟩ := hget
  obtain ⟨rfl, rfl⟩ := Prod.mk.inj heq
  obtain ⟨prompts, hprompts, hmade⟩ := (bind_ok _ _ _).1 hmade
  obtain rfl := (pure_ok _ _).1 hmade
  exact ⟨found, hfound, hprompts, by rw [Nat.zero_add], rfl, rfl, (checkInferenceBill_ok hbill).1⟩

/-- **The provider signs the price the ledger recomputes.** Whatever an admitted job asks for, and whatever its plan: the
claim of each assignment is the certified batch of the assignment's index, at the price of the certified bill. -/
theorem claim_is_reserved (h : submitInference c enc rtt state req = .ok sub) {i : ℕ} {a : InferenceAssignment}
    (ha : sub.assignments[i]? = some a) :
    ∃ b reward, sub.evidence.batches[i]? = some b ∧
      assignmentClaim a = some (b.batchStart, b.batchEnd, reward) ∧
      reward = inferenceBatchCostMcu sub.evidence.billing.promptBytes b.batchStart b.batchEnd
        sub.evidence.billing.maxTokens sub.evidence.billing.parameterCount ∧
      sub.escrow.evidence = .inferenceReserve sub.evidence ∧
      reservedBatch c (reservationOf sub.escrow sub.evidence) a.assignmentId b.batchStart b.batchEnd = .ok (b, reward) ∧
      ∀ certs log st, Route c Reached certs log st → (∃ cert ∈ certs, sub.escrow ∈ cert.entry.transactions) →
        ∃ r, st.inferenceReservation a.jobId = some r ∧
          reservedBatch c r a.assignmentId b.batchStart b.batchEnd = .ok (b, reward) := by
  obtain ⟨hmany, hfew, hbatches, htokens, hbytes⟩ := submitInference_admits h
  obtain ⟨hevidence, hjob, hplan⟩ := submitInference_escrow h
  obtain ⟨shard, hshard, hprompts, hid, hjobOf, hmax, hcount⟩ := submitInference_assignment h ha
  obtain ⟨hnonempty, hwithin⟩ := hbatches shard (List.mem_of_getElem? hshard)
  rw [batchPrompts_eq hnonempty.le hwithin] at hprompts
  have hslice : ((req.prompts.take shard.batchEnd).drop shard.batchStart).length = shard.batchEnd - shard.batchStart := by
    rw [List.length_drop, List.length_take, min_eq_left hwithin]
  have hrange : shard.batchEnd ≤ u32Max := hwithin.trans (hmany.trans (by decide))
  have hclaim := assignmentClaim_eq (Except.ok.inj hprompts).symm hslice hnonempty hrange hcount
  -- the provider prices the slice it was handed, the ledger a slice of the byte counts
  have hprice : batchPrice sub.evidence.billing shard.batchStart shard.batchEnd =
      inferenceCostMcu (promptBytes ((req.prompts.take shard.batchEnd).drop shard.batchStart)) a.maxTokens
        sub.evidence.billing.parameterCount := by
    rw [batchPrice, hbytes, htokens, hmax, inferenceBatchCostMcu_promptBytes hnonempty.le hwithin]
  have hbatch : sub.evidence.batches[i]? = some ⟨shard.batchStart, shard.batchEnd, shard.nodeId⟩ := by
    rw [hplan, List.getElem?_map, hshard, Option.map_some]
  have hlen : sub.evidence.batches.length < 4294967296 := by
    rw [hplan, List.length_map]
    omega
  have hreserved := reservedBatch_of_index (c := c) sub.escrow hlen hbatch
  rw [hjob, ← hid] at hreserved
  refine ⟨_, batchPrice sub.evidence.billing shard.batchStart shard.batchEnd, hbatch, hprice ▸ hclaim, rfl, hevidence,
    hreserved, fun certs log st hroute hin => ⟨_, ?_, hreserved⟩⟩
  rw [hjobOf, ← hjob]
  exact inferenceReservation_of_route hroute hin hevidence

end

namespace Sample

open Hocmesh.Protocol.Sample

/-- a model of a million parameters -/
def millionModel : ModelManifest :=
  { schemaVersion := 1, modelId := "model", revision := "1", format := .gguf, architecture := "llama"
    parameterCount := some 1000000, tensorDtype := none, totalSizeBytes := 1000000, chunks := [], metadata := [] }

/-- two prompts, billed as they are -/
def twoPrompts : SubmitInferenceRequest :=
  { auth := authProof 5 300 "nonce" "submit_inference" "body", modelId := "model", revision := "1"
    prompts := ["one", "another"], maxTokens := 5, temperatureMilli := 700, seed := 1, requirements := ⟨2, 1, 1⟩
    layerCount := 4
    billing := { manifestDigest := "model", parameterCount := 1000000, totalSizeBytes := 1000000, promptsDigest := "prompts"
                 promptBytes := [3, 7], maxTokens := 5, maxCostMcu := 4000 } }

/-- two devices are online and the requester can pay -/
def openDesk : AppState :=
  { authenticate := fun _ => .ok (publicKeyB64 5), balanceMcu := fun _ => .ok 4000, now := 300
    aiContext := fun _ _ _ _ =>
      .ok ⟨millionModel, [], [{ nodeId := "a", deviceId := "gpu" }, { nodeId := "b", deviceId := "gpu" }]⟩ }

def plainEncoding : Encoding :=
  { manifestDigest := ModelManifest.modelId, promptsDigest := fun _ => "prompts", settingsDigest := fun _ => "settings"
    cu := toString }

end Sample

/-- the second of two prompts is claimed, and reserved, at its own price -/
theorem claim_is_reserved_second :
    ∃ sub a b, submitInference Protocol.Sample.crypto Sample.plainEncoding (fun _ _ => 0) Sample.openDesk
        Sample.twoPrompts = .ok sub ∧
      sub.assignments[1]? = some a ∧ assignmentClaim a = some (1, 2, 1709) ∧
      reservedBatch Protocol.Sample.crypto (reservationOf sub.escrow sub.evidence) a.assignmentId 1 2 = .ok (b, 1709) := by
  have hrun : (submitInference Protocol.Sample.crypto Sample.plainEncoding (fun _ _ => 0) Sample.openDesk
      Sample.twoPrompts).okWith (fun sub => (sub.assignments[1]?.bind assignmentClaim) = some (1, 2, 1709)) = true := by
    decide +kernel
  obtain ⟨sub, hsub, hclaim⟩ := (okWith_iff _ _).1 hrun
  obtain ⟨a, ha, hfound⟩ := Option.bind_eq_some_iff.1 (of_decide_eq_true hclaim)
  obtain ⟨b, reward, -, hsigned, -, -, hreserved, -⟩ := claim_is_reserved hsub ha
  rw [hfound, Option.some.injEq, Prod.mk.injEq, Prod.mk.injEq] at hsigned
  obtain ⟨hstart, hend, rfl⟩ := hsigned
  rw [← hstart, ← hend] at hreserved
  exact ⟨sub, a, b, hsub, ha, hfound, hreserved⟩

end Hocmesh.Ai
