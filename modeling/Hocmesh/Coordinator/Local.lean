/-
The coordinator without a quorum: `local-mvp` mode, where its own tables are the accounts.

Every handler reads and writes in separate statements, so a request is two acts: one that passes its checks and leaves a
`Flight`, the write it decided on, and one that lands it, whatever other requests have done to the row in between. Some
of the writes say again what they expect of the row (`payShard`, `settle`); the others do not, and a shard that was paid
goes back to the queue, a batch that was refunded is refunded again, and two submissions spend one balance. `Exact` is
what the accounts are for; it holds of every run whose writes find the rows as they may be written
(`local_accounting_exact`).
-/
import Hocmesh.Base.Slots
import Hocmesh.Coordinator.Failover

namespace Hocmesh.Coordinator.Local

open Hocmesh.Base Hocmesh.Protocol Hocmesh.Compute Hocmesh.Ledger

/-! ## Tables -/

inductive Category where
  | consumptionReservation
  | contribution
  | refund
  | inferenceReservation
  | inferenceReward
  | inferenceRefund
deriving DecidableEq

/-- a row of the local `ledger` table -/
structure LedgerRow where
  nodeId : String
  deltaMcu : ℤ
  category : Category
  jobId : String
  assignmentId : Option String
deriving DecidableEq

structure Job where
  jobId : String
  requester : Option String
  systemFunded : Bool
  reservedMcu : ℤ
  createdAt : ℤ
deriving DecidableEq

structure Shard where
  assignmentId : String
  jobId : String
  work : WorkSpec
  status : AssignmentStatus
  leasedTo : Option String
  rewardMcu : ℤ
deriving DecidableEq

/-- a row of `ai_jobs`, with the price its request comes to -/
structure InferenceJob where
  jobId : String
  requester : String
  reservedMcu : ℤ
  createdAt : ℤ
deriving DecidableEq

/-- a row of `ai_assignments` with the columns of its delivery -/
structure Batch extends Failover.AiRow where
  /-- the amount of `assignment_claim` -/
  claim : Option ℤ
  /-- the provider of `report_json` -/
  reportedBy : Option String
  receipted : Bool
  settled : Option Verdict
deriving DecidableEq

/-- what a request has decided to write -/
inductive Flight where
  | submit (job : Job) (shards : List Shard)
  /-- `report_result` on a result that does not verify -/
  | rejectShard (assignmentId : String)
  /-- and on one that does -/
  | payShard (assignmentId nodeId jobId : String) (rewardMcu : ℤ)
  /-- minted escrow is paid to nobody -/
  | refundShard (assignmentId jobId : String) (paidTo : Option String) (refundMcu : ℤ)
  | submitInference (job : InferenceJob) (batches : List Batch)
  | reportBatch (assignmentId nodeId : String)
  | receipt (assignmentId : String)
  | settle (assignmentId credit jobId : String) (price : ℤ) (accepted : Bool)
  | failBatch (f : Failover.Reroute)
  | refundBatch (assignmentId jobId nodeId : String) (refundMcu : ℤ)
  /-- `authoritative_balance`, for the answer -/
  | look (nodeId : String)
  /-- `cache_balance` of what was read -/
  | cache (nodeId : String) (balance : ℤ)
deriving DecidableEq

structure Till where
  /-- the row of a node in `balances` -/
  balances : String → Option ℤ
  ledger : List LedgerRow
  jobs : List Job
  shards : List Shard
  aiJobs : List InferenceJob
  batches : List Batch
  flights : List Flight

def Till.opened : Till := ⟨fun _ => none, [], [], [], [], [], []⟩

/-! ## Writes -/

def Till.setBalance (t : Till) (nodeId : String) (balance : ℤ) : Till :=
  { t with balances := Function.update t.balances nodeId (some balance) }

/-- the balance and the journal together; a node without a balance fails the transaction -/
def Till.applyLedgerDelta (t : Till) (nodeId : String) (deltaMcu : ℤ) (category : Category) (jobId : String)
    (assignmentId : Option String) : Option Till :=
  match t.balances nodeId with
  | none => none
  | some b => some { t.setBalance nodeId (b + deltaMcu) with
      ledger := t.ledger ++ [⟨nodeId, deltaMcu, category, jobId, assignmentId⟩] }

def Till.updateShard (t : Till) (assignmentId : String) (g : Shard → Shard) : Till :=
  { t with shards := t.shards.map fun a => if a.assignmentId = assignmentId then g a else a }

def Till.updateBatch (t : Till) (assignmentId : String) (g : Batch → Batch) : Till :=
  { t with batches := t.batches.map fun b => if b.assignmentId = assignmentId then g b else b }

def Till.launch (t : Till) (f : Flight) : Till := { t with flights := t.flights ++ [f] }

/-- the primary keys take the rows of a new job -/
def Till.Takes (t : Till) (jobId : String) (shards : List Shard) : Prop :=
  (∀ j ∈ t.jobs, j.jobId ≠ jobId) ∧ (∀ a ∈ t.shards, a.assignmentId ∉ shards.map Shard.assignmentId) ∧
    (shards.map Shard.assignmentId).Nodup

def Till.TakesBatches (t : Till) (jobId : String) (batches : List Batch) : Prop :=
  (∀ j ∈ t.aiJobs, j.jobId ≠ jobId) ∧ (∀ b ∈ t.batches, b.assignmentId ∉ batches.map (·.assignmentId)) ∧
    (batches.map (·.assignmentId)).Nodup

instance (t : Till) (jobId : String) (shards : List Shard) : Decidable (t.Takes jobId shards) := by
  unfold Till.Takes
  infer_instance

instance (t : Till) (jobId : String) (batches : List Batch) : Decidable (t.TakesBatches jobId batches) := by
  unfold Till.TakesBatches
  infer_instance

/-- one write transaction; where it fails nothing is written -/
def Till.write (t : Till) : Flight → Till
  | .submit job shards =>
    if t.Takes job.jobId shards then
      let opened := { t with jobs := t.jobs ++ [job], shards := t.shards ++ shards }
      match job.requester with
      | none => opened
      | some nodeId =>
        match opened.applyLedgerDelta nodeId (-job.reservedMcu) .consumptionReservation job.jobId none with
        | none => t
        | some t' => t'.launch (.look nodeId)
    else t
  | .rejectShard id => t.updateShard id fun a => { a with status := .pending, leasedTo := none }
  | .payShard id nodeId jobId rewardMcu =>
    -- the update says again what the check found, and fails when it is no longer so
    if ∃ a ∈ t.shards, a.assignmentId = id ∧ a.status = .leased ∧ a.leasedTo = some nodeId then
      match t.applyLedgerDelta nodeId rewardMcu .contribution jobId (some id) with
      | none => t
      | some t' => (t'.updateShard id fun a => { a with status := .completed }).launch (.look nodeId)
    else t
  | .refundShard id jobId paidTo refundMcu =>
    match paidTo with
    | none => t.updateShard id fun a => { a with status := .refunded }
    | some nodeId =>
      match t.applyLedgerDelta nodeId refundMcu .refund jobId (some id) with
      | none => t
      | some t' => t'.updateShard id fun a => { a with status := .refunded }
  | .submitInference job batches =>
    if t.TakesBatches job.jobId batches then
      let opened := { t with aiJobs := t.aiJobs ++ [job], batches := t.batches ++ batches }
      match opened.applyLedgerDelta job.requester (-job.reservedMcu) .inferenceReservation job.jobId none with
      | none => t
      | some t' => t'
    else t
  | .reportBatch id nodeId =>
    (t.updateBatch id fun b => { b with status := .completed, reportedBy := some nodeId }).launch (.look nodeId)
  | .receipt id => t.updateBatch id fun b => { b with receipted := true }
  | .settle id credit jobId price accepted =>
    if ∃ b ∈ t.batches, b.assignmentId = id ∧ b.settled = none then
      if accepted then
        match t.applyLedgerDelta credit price .inferenceReward jobId (some id) with
        | none => t
        | some t' => (t'.updateBatch id fun b => { b with settled := b.settled.or (some .paid) }).launch (.look credit)
      else t.updateBatch id fun b => { b with settled := b.settled.or (some .disputed) }
    else t
  | .failBatch f => t.updateBatch f.assignmentId fun b => { b with toAiRow := f.write b.toAiRow }
  | .refundBatch id jobId nodeId refundMcu =>
    match t.applyLedgerDelta nodeId refundMcu .inferenceRefund jobId (some id) with
    | none => t
    | some t' => (t'.updateBatch id fun b => { b with status := .refunded }).launch (.look nodeId)
  | .look nodeId =>
    match t.balances nodeId with
    | none => t
    | some b => t.launch (.cache nodeId b)
  | .cache nodeId balance => if (t.balances nodeId).isSome then t.setBalance nodeId balance else t

/-! ## Requests -/

section

variable (c : Crypto)

/-- the rows of a job, open for leasing at once -/
def shardsOf (jobId : String) (work : WorkSpec) (shards : ℕ) : List Shard :=
  (splitWork work shards).zipIdx.map fun p =>
    ⟨assignmentId c jobId p.2, jobId, p.1, .pending, none, workCostMcu p.1⟩

def jobOf (jobId : String) (requester : Option String) (work : WorkSpec) (shards : ℕ) (now : ℤ) : Job :=
  ⟨jobId, requester, requester.isNone, jobCostMcu work shards, now⟩

/-- what a batch's own prompts price at; a batch without prompts carries no claim -/
def assignmentClaim (billing : InferenceBilling) (b : Failover.BatchShard) : Option ℤ :=
  if b.batchStart < b.batchEnd then some (batchPrice billing b.batchStart b.batchEnd) else none

def batchesOf (o : Failover.Order) : List Batch :=
  ((o.rows c).zip o.plan).map fun p =>
    { toAiRow := { p.1 with status := .pending }, claim := assignmentClaim o.billing p.2, reportedBy := none,
      receipted := false, settled := none }

def inferenceJobOf (o : Failover.Order) : InferenceJob :=
  ⟨o.jobId c, o.auth.nodeId, inferenceCostMcu o.billing.promptBytes o.billing.maxTokens o.billing.parameterCount, o.now⟩

end

def Till.shard? (t : Till) (id : String) : Option (Shard × Job) := do
  let a ← t.shards.find? fun a => a.assignmentId = id
  let j ← t.jobs.find? fun j => j.jobId = a.jobId
  pure (a, j)

def Till.batch? (t : Till) (id : String) : Option (Batch × InferenceJob) := do
  let b ← t.batches.find? fun b => b.assignmentId = id
  let j ← t.aiJobs.find? fun j => j.jobId = b.jobId
  pure (b, j)

inductive Act where
  | register (nodeId : String)
  | seed (jobId : String) (work : WorkSpec) (shards : ℕ) (now : ℤ)
  /-- a request, up to the write it decides on -/
  | submit (auth : AuthProof) (work : WorkSpec) (shards : ℕ) (now : ℤ)
  | lease (assignmentId nodeId : String)
  | expire (assignmentIds : List String)
  /-- `verified` is the verdict of the audit -/
  | report (assignmentId nodeId : String) (verified : Bool)
  /-- `signer` is the authenticated node, if the request is signed -/
  | refund (assignmentId : String) (signer : Option String) (now : ℤ)
  | submitInference (o : Failover.Order)
  | leaseBatch (assignmentId : String)
  | expireBatches (assignmentIds : List String)
  | reportBatch (assignmentId nodeId : String)
  | receipt (assignmentId nodeId : String)
  | settle (assignmentId nodeId : String) (accepted : Bool)
  | fail (assignmentId nodeId : String) (scoring : Failover.Scoring) (nodes : List Failover.NodeProfile)
  | refundBatch (assignmentId jobId nodeId : String) (now : ℤ)
  /-- a decided write is made -/
  | land (f : Flight)

/-- the request's checks and what it goes on to write -/
def Till.decide (c : Crypto) (t : Till) : Act → Option Flight
  | .submit auth work shards now =>
    let job := jobOf (jobIdFromAuth c auth) (some auth.nodeId) work shards now
    match t.balances auth.nodeId with
    | none => none
    | some b =>
      if 1 ≤ shards ∧ shards ≤ 256 ∧ job.reservedMcu ≤ b then some (.submit job (shardsOf c job.jobId work shards))
      else none
  | .report id nodeId verified => do
    let (a, _) ← t.shard? id
    if a.status = .leased ∧ a.leasedTo = some nodeId then
      pure (if verified then .payShard id nodeId a.jobId a.rewardMcu else .rejectShard id)
    else none
  | .refund id signer now => do
    let (a, j) ← t.shard? id
    if (a.status = .pending ∨ a.status = .leased) ∧ windowEnd j.createdAt < now then
      match signer, j.systemFunded with
      | none, true => pure (.refundShard id a.jobId none (workCostMcu a.work))
      | some nodeId, false =>
        if j.requester = some nodeId then pure (.refundShard id a.jobId (some nodeId) (workCostMcu a.work)) else none
      | _, _ => none
    else none
  | .submitInference o =>
    let job := inferenceJobOf c o
    match t.balances o.auth.nodeId with
    | none => none
    | some b => if o.plan ≠ [] ∧ job.reservedMcu ≤ b then some (.submitInference job (batchesOf c o)) else none
  | .reportBatch id nodeId => do
    let (b, j) ← t.batch? id
    if b.assignedNodeId = nodeId ∧ b.status = .leased ∧ b.claim ≠ none ∧ j.requester ≠ nodeId then
      pure (.reportBatch id nodeId)
    else none
  | .receipt id nodeId => do
    let (b, j) ← t.batch? id
    if b.reportedBy ≠ none ∧ j.requester = nodeId ∧ b.receipted = false then pure (.receipt id) else none
  | .settle id nodeId accepted => do
    let (b, j) ← t.batch? id
    let credit ← b.reportedBy
    let price ← b.claim
    if j.requester = nodeId ∧ b.receipted = true ∧ b.settled = none then pure (.settle id credit b.jobId price accepted)
    else none
  | .fail id nodeId scoring nodes => do
    let b ← t.batches.find? fun b => b.assignmentId = id ∧ b.assignedNodeId = nodeId
    let j ← t.aiJobs.find? fun j => j.jobId = b.jobId
    let excluded := if nodeId ∈ b.failedNodes then b.failedNodes else nodeId :: b.failedNodes
    let next ← (Failover.rankCandidates scoring (Failover.aiContext nodes j.requester) excluded).head?
    pure (.failBatch ⟨id, next, excluded⟩)
  | .refundBatch id jobId nodeId now => do
    let (b, j) ← t.batch? id
    let amount ← b.claim
    if b.jobId = jobId ∧ j.requester = nodeId ∧ b.status ≠ .completed ∧ b.status ≠ .refunded ∧
        windowEnd j.createdAt < now then pure (.refundBatch id jobId nodeId amount)
    else none
  | _ => none

def Till.step (c : Crypto) (t : Till) : Act → Till
  | .register nodeId => if (t.balances nodeId).isSome then t else t.setBalance nodeId 0
  | .seed jobId work shards now =>
    let n := max 1 (min shards 256)
    t.write (.submit (jobOf jobId none work n now) (shardsOf c jobId work n))
  | .lease id nodeId =>
    { t with shards := t.shards.map fun a =>
        if a.assignmentId = id ∧ a.status = .pending then { a with status := .leased, leasedTo := some nodeId } else a }
  | .expire ids =>
    { t with shards := t.shards.map fun a =>
        if a.assignmentId ∈ ids ∧ a.status = .leased then { a with status := .pending, leasedTo := none } else a }
  | .leaseBatch id =>
    { t with batches := t.batches.map fun b =>
        if b.assignmentId = id ∧ b.status = .pending then { b with status := .leased } else b }
  | .expireBatches ids =>
    { t with batches := t.batches.map fun b =>
        if b.assignmentId ∈ ids ∧ b.status = .leased then { b with status := .pending } else b }
  | .land f => if f ∈ t.flights then { t with flights := t.flights.erase f }.write f else t
  | act =>
    match t.decide c act with
    | none => t
    | some f => t.launch f

def Till.run (c : Crypto) (acts : List Act) : Till := acts.foldl (Till.step c) .opened

/-! ## Exact accounts -/

/-- a shard is settled once it is completed or refunded -/
def Shard.slot (a : Shard) : Slot String String :=
  ⟨a.assignmentId, a.jobId, a.rewardMcu, decide (a.status ≠ .completed ∧ a.status ≠ .refunded)⟩

/-- a batch is settled once it is refunded or judged -/
def Batch.slot (b : Batch) : Slot String String :=
  ⟨b.assignmentId, b.jobId, b.claim.getD 0, decide (b.status ≠ .refunded ∧ b.settled = none)⟩

def LedgerRow.shardPayment (e : LedgerRow) : Option (Payment String String) :=
  if e.category = .contribution ∨ e.category = .refund then e.assignmentId.map fun id => ⟨id, e.jobId, e.deltaMcu⟩
  else none

def LedgerRow.batchPayment (e : LedgerRow) : Option (Payment String String) :=
  if e.category = .inferenceReward ∨ e.category = .inferenceRefund then
    e.assignmentId.map fun id => ⟨id, e.jobId, e.deltaMcu⟩
  else none

/-- what the journal says was credited for shards, and for batches -/
def Till.shardPayments (t : Till) : List (Payment String String) := t.ledger.filterMap LedgerRow.shardPayment

def Till.batchPayments (t : Till) : List (Payment String String) := t.ledger.filterMap LedgerRow.batchPayment

/-- **Exact local accounts**: every shard and every batch is credited at most once, no job's credits exceed what it
reserved, and no balance is negative. -/
structure Till.Exact (t : Till) : Prop where
  shards : ∀ id, (paymentsOf t.shardPayments id).length ≤ 1
  batches : ∀ id, (paymentsOf t.batchPayments id).length ≤ 1
  jobs : ∀ j ∈ t.jobs, paid t.shardPayments j.jobId ≤ j.reservedMcu
  aiJobs : ∀ j ∈ t.aiJobs, paid t.batchPayments j.jobId ≤ j.reservedMcu
  balances : ∀ nodeId b, t.balances nodeId = some b → 0 ≤ b

/-- a write finds what it may be made on: a debit is covered when it is made, a job's batches price at no more than the
job, and no write that does not look takes a settled row out of its settlement -/
def Till.MayWrite (t : Till) : Flight → Prop
  | .submit job _ => ∀ nodeId ∈ job.requester, ∀ b ∈ t.balances nodeId, job.reservedMcu ≤ b
  | .submitInference job batches =>
    (∀ b ∈ t.balances job.requester, job.reservedMcu ≤ b) ∧ (batches.map fun b => b.claim.getD 0).sum ≤ job.reservedMcu
  | .rejectShard id | .refundShard id _ _ _ =>
    ∀ a ∈ t.shards, a.assignmentId = id → a.status ≠ .completed ∧ a.status ≠ .refunded
  | .reportBatch id _ => ∀ b ∈ t.batches, b.assignmentId = id → b.status ≠ .refunded
  | .failBatch f => ∀ b ∈ t.batches, b.assignmentId = f.assignmentId → b.status ≠ .completed ∧ b.status ≠ .refunded
  | .refundBatch id _ _ _ => ∀ b ∈ t.batches, b.assignmentId = id → b.status ≠ .completed ∧ b.status ≠ .refunded
  | _ => True

def Till.Orderly (t : Till) : Act → Prop
  | .land f => f ∈ t.flights → t.MayWrite f
  | _ => True

instance (t : Till) (f : Flight) : Decidable (t.MayWrite f) := by
  unfold Till.MayWrite
  split <;> infer_instance

instance (t : Till) (act : Act) : Decidable (t.Orderly act) := by
  unfold Till.Orderly
  split <;> infer_instance

/-! ## What an orderly run keeps -/

/-- the row a flight names, with the columns nothing rewrites -/
def Till.HasShard (t : Till) (id jobId : String) (rewardMcu : ℤ) : Prop :=
  ∃ a ∈ t.shards, a.assignmentId = id ∧ a.jobId = jobId ∧ a.rewardMcu = rewardMcu

def Till.HasBatch (t : Till) (id jobId : String) (price : ℤ) (delivered : Bool) : Prop :=
  ∃ b ∈ t.batches, b.assignmentId = id ∧ b.jobId = jobId ∧ b.claim = some price ∧ (delivered = true → b.reportedBy ≠ none)

/-- rows as a request makes them -/
def NewShards (job : Job) (shards : List Shard) : Prop :=
  (∀ a ∈ shards, a.jobId = job.jobId ∧ a.rewardMcu = workCostMcu a.work) ∧
    (shards.map Shard.rewardMcu).sum = job.reservedMcu

def NewBatches (job : InferenceJob) (batches : List Batch) : Prop :=
  (∀ b ∈ batches, b.jobId = job.jobId ∧ 0 ≤ b.claim.getD 0 ∧ b.reportedBy = none ∧ b.settled = none) ∧
    0 ≤ job.reservedMcu

/-- what a flight in the air may rely on -/
def Till.Holds (t : Till) : Flight → Prop
  | .submit job shards => NewShards job shards
  | .submitInference job batches => NewBatches job batches
  | .payShard id _ jobId rewardMcu => t.HasShard id jobId rewardMcu
  | .refundShard id jobId _ refundMcu => t.HasShard id jobId refundMcu
  | .settle id _ jobId price _ => t.HasBatch id jobId price true
  | .refundBatch id jobId _ refundMcu => t.HasBatch id jobId refundMcu false
  | .cache _ balance => 0 ≤ balance
  | _ => True

/-- the books of the shards: each holds its reward until it is settled -/
structure ShardBooks (jobs : List Job) (shards : List Shard) (payments : List (Payment String String)) : Prop where
  once : (jobs.map Job.jobId).Nodup
  budgeted : Budgeted (shards.map Shard.slot) payments (budgetOf Job.jobId Job.reservedMcu jobs)
  jobOf : ∀ a ∈ shards, ∃ j ∈ jobs, j.jobId = a.jobId
  rewards : ∀ a ∈ shards, a.rewardMcu = workCostMcu a.work

/-- the books of the batches; what was delivered or judged reads completed -/
structure BatchBooks (jobs : List InferenceJob) (batches : List Batch) (payments : List (Payment String String)) :
    Prop where
  once : (jobs.map InferenceJob.jobId).Nodup
  budgeted : Budgeted (batches.map Batch.slot) payments (budgetOf InferenceJob.jobId InferenceJob.reservedMcu jobs)
  jobOf : ∀ b ∈ batches, ∃ j ∈ jobs, j.jobId = b.jobId
  delivered : ∀ b ∈ batches, b.reportedBy ≠ none ∨ b.settled ≠ none → b.status = .completed

structure Till.Inv (t : Till) : Prop where
  shards : ShardBooks t.jobs t.shards t.shardPayments
  batches : BatchBooks t.aiJobs t.batches t.batchPayments
  balances : ∀ nodeId b, t.balances nodeId = some b → 0 ≤ b
  flights : ∀ f ∈ t.flights, t.Holds f

section

variable {jobs : List Job} {shards : List Shard} {payments : List (Payment String String)}

/-- an update of shard rows that settles or leaves them -/
structure ShardUpdate (shards : List Shard) (g : Shard → Shard) : Prop where
  id : ∀ a, (g a).assignmentId = a.assignmentId
  job : ∀ a, (g a).jobId = a.jobId
  work : ∀ a, (g a).work = a.work
  reward : ∀ a, (g a).rewardMcu = a.rewardMcu
  settled : ∀ a ∈ shards, a.status = .completed ∨ a.status = .refunded →
    (g a).status = .completed ∨ (g a).status = .refunded

theorem ShardUpdate.closes {g : Shard → Shard} (h : ShardUpdate shards g) :
    Closes shards Shard.slot fun a => (g a).slot where
  id := fun a _ => h.id a
  account := fun a _ => h.job a
  price := fun a _ => h.reward a
  isOpen := by
    intro a ha hopen
    simp only [Shard.slot, decide_eq_true_eq] at hopen ⊢
    by_contra hclosed
    rw [not_and_or, not_not, not_not] at hclosed
    rcases h.settled a ha hclosed with hst | hst
    · exact hopen.1 hst
    · exact hopen.2 hst

theorem ShardBooks.columns (h : ShardBooks jobs shards payments) {g : Shard → Shard} (hg : ShardUpdate shards g) :
    (∀ a ∈ shards.map g, ∃ j ∈ jobs, j.jobId = a.jobId) ∧ ∀ a ∈ shards.map g, a.rewardMcu = workCostMcu a.work := by
  constructor
  · intro a' ha'
    obtain ⟨a, ha, rfl⟩ := List.mem_map.1 ha'
    rw [hg.job]
    exact h.jobOf a ha
  · intro a' ha'
    obtain ⟨a, ha, rfl⟩ := List.mem_map.1 ha'
    rw [hg.reward, hg.work]
    exact h.rewards a ha

theorem ShardBooks.update (h : ShardBooks jobs shards payments) {g : Shard → Shard} (hg : ShardUpdate shards g) :
    ShardBooks jobs (shards.map g) payments where
  once := h.once
  budgeted := by
    rw [List.map_map]
    exact h.budgeted.close hg.closes
  jobOf := (h.columns hg).1
  rewards := (h.columns hg).2

theorem ShardBooks.credit (h : ShardBooks jobs shards payments) {g : Shard → Shard} (hg : ShardUpdate shards g) {a : Shard}
    (ha : a ∈ shards) (hopen : a.status ≠ .completed ∧ a.status ≠ .refunded)
    (hclosed : (g a).status = .completed ∨ (g a).status = .refunded) :
    ShardBooks jobs (shards.map g) (payments ++ [⟨a.assignmentId, a.jobId, a.rewardMcu⟩]) where
  once := h.once
  budgeted := by
    rw [List.map_map]
    refine h.budgeted.pay hg.closes ha (decide_eq_true hopen) ?_
    simp only [Shard.slot, decide_eq_false_iff_not]
    rintro ⟨hc, hr⟩
    exact hclosed.elim hc hr
  jobOf := (h.columns hg).1
  rewards := (h.columns hg).2

theorem ShardBooks.add (h : ShardBooks jobs shards payments) {job : Job} {new : List Shard}
    (hfresh : ∀ j ∈ jobs, j.jobId ≠ job.jobId) (hids : ∀ a ∈ shards, a.assignmentId ∉ new.map Shard.assignmentId)
    (hnodup : (new.map Shard.assignmentId).Nodup) (hnew : NewShards job new) :
    ShardBooks (jobs ++ [job]) (shards ++ new) payments where
  once := nodup_keys_append h.once hfresh
  budgeted := by
    rw [List.map_append]
    refine h.budgeted.opens (a := job.jobId) ?_ ?_ ?_ ?_ ?_ ?_ ?_
    · rw [List.map_map]
      exact hnodup
    · intro s hs s' hs' heq
      obtain ⟨a, ha, rfl⟩ := List.mem_map.1 hs
      obtain ⟨a', ha', rfl⟩ := List.mem_map.1 hs'
      exact hids a ha (List.mem_map.2 ⟨a', ha', heq.symm⟩)
    · intro s hs
      obtain ⟨a, ha, rfl⟩ := List.mem_map.1 hs
      have hreward := (hnew.1 a ha).2
      have hpos := workCostMcu_pos a.work
      simp only [Shard.slot]
      omega
    · intro s hs
      obtain ⟨a, ha, rfl⟩ := List.mem_map.1 hs
      exact (hnew.1 a ha).1
    · intro s hs heq
      obtain ⟨a, ha, rfl⟩ := List.mem_map.1 hs
      obtain ⟨j, hj, hjob⟩ := h.jobOf a ha
      exact hfresh j hj (hjob.trans heq)
    · intro jobId hne
      rw [budgetOf_append hfresh, if_neg hne]
    · rw [budgetOf_append hfresh, if_pos rfl, List.map_map]
      exact hnew.2.le
  jobOf := by
    intro a ha
    rcases List.mem_append.1 ha with ha | ha
    · obtain ⟨j, hj, hjob⟩ := h.jobOf a ha
      exact ⟨j, List.mem_append_left _ hj, hjob⟩
    · exact ⟨job, List.mem_append_right _ (List.mem_singleton_self _), (hnew.1 a ha).1.symm⟩
  rewards := by
    intro a ha
    rcases List.mem_append.1 ha with ha | ha
    · exact h.rewards a ha
    · exact (hnew.1 a ha).2

/-- the books say what the accounts must -/
theorem ShardBooks.within (h : ShardBooks jobs shards payments) {j : Job} (hj : j ∈ jobs) :
    paid payments j.jobId ≤ j.reservedMcu :=
  (h.budgeted.paid_le j.jobId).trans_eq (budgetOf_of_mem h.once hj)

end

section

variable {jobs : List InferenceJob} {batches : List Batch} {payments : List (Payment String String)}

/-- an update of batch rows that settles or leaves them -/
structure BatchUpdate (batches : List Batch) (g : Batch → Batch) : Prop where
  id : ∀ b, (g b).assignmentId = b.assignmentId
  job : ∀ b, (g b).jobId = b.jobId
  claim : ∀ b, (g b).claim = b.claim
  settled : ∀ b ∈ batches, b.status = .refunded ∨ b.settled ≠ none → (g b).status = .refunded ∨ (g b).settled ≠ none
  delivered : ∀ b ∈ batches, (g b).reportedBy ≠ none ∨ (g b).settled ≠ none → (g b).status = .completed

theorem BatchUpdate.closes {g : Batch → Batch} (h : BatchUpdate batches g) :
    Closes batches Batch.slot fun b => (g b).slot where
  id := fun b _ => h.id b
  account := fun b _ => h.job b
  price := fun b _ => by simp only [Batch.slot, h.claim]
  isOpen := by
    intro b hb hopen
    simp only [Batch.slot, decide_eq_true_eq] at hopen ⊢
    by_contra hclosed
    rw [not_and_or, not_not] at hclosed
    rcases h.settled b hb hclosed with hst | hst
    · exact hopen.1 hst
    · exact hst hopen.2

theorem BatchBooks.columns (h : BatchBooks jobs batches payments) {g : Batch → Batch} (hg : BatchUpdate batches g) :
    (∀ b ∈ batches.map g, ∃ j ∈ jobs, j.jobId = b.jobId) ∧
      ∀ b ∈ batches.map g, b.reportedBy ≠ none ∨ b.settled ≠ none → b.status = .completed := by
  constructor
  · intro b' hb'
    obtain ⟨b, hb, rfl⟩ := List.mem_map.1 hb'
    rw [hg.job]
    exact h.jobOf b hb
  · intro b' hb'
    obtain ⟨b, hb, rfl⟩ := List.mem_map.1 hb'
    exact hg.delivered b hb

theorem BatchBooks.update (h : BatchBooks jobs batches payments) {g : Batch → Batch} (hg : BatchUpdate batches g) :
    BatchBooks jobs (batches.map g) payments where
  once := h.once
  budgeted := by
    rw [List.map_map]
    exact h.budgeted.close hg.closes
  jobOf := (h.columns hg).1
  delivered := (h.columns hg).2

theorem BatchBooks.credit (h : BatchBooks jobs batches payments) {g : Batch → Batch} (hg : BatchUpdate batches g)
    {b : Batch} (hb : b ∈ batches) (hopen : b.status ≠ .refunded ∧ b.settled = none)
    (hclosed : (g b).status = .refunded ∨ (g b).settled ≠ none) {price : ℤ} (hprice : b.claim = some price) :
    BatchBooks jobs (batches.map g) (payments ++ [⟨b.assignmentId, b.jobId, price⟩]) where
  once := h.once
  budgeted := by
    rw [List.map_map]
    have hslot : b.slot.price = price := by simp [Batch.slot, hprice]
    rw [← hslot]
    refine h.budgeted.pay hg.closes hb (decide_eq_true hopen) ?_
    simp only [Batch.slot, decide_eq_false_iff_not]
    rintro ⟨hr, hs⟩
    exact hclosed.elim hr fun hne => hne hs
  jobOf := (h.columns hg).1
  delivered := (h.columns hg).2

theorem BatchBooks.add (h : BatchBooks jobs batches payments) {job : InferenceJob} {new : List Batch}
    (hfresh : ∀ j ∈ jobs, j.jobId ≠ job.jobId) (hids : ∀ b ∈ batches, b.assignmentId ∉ new.map (·.assignmentId))
    (hnodup : (new.map (·.assignmentId)).Nodup) (hnew : NewBatches job new)
    (hcover : (new.map fun b => b.claim.getD 0).sum ≤ job.reservedMcu) :
    BatchBooks (jobs ++ [job]) (batches ++ new) payments where
  once := nodup_keys_append h.once hfresh
  budgeted := by
    rw [List.map_append]
    refine h.budgeted.opens (a := job.jobId) ?_ ?_ ?_ ?_ ?_ ?_ ?_
    · rw [List.map_map]
      exact hnodup
    · intro s hs s' hs' heq
      obtain ⟨b, hb, rfl⟩ := List.mem_map.1 hs
      obtain ⟨b', hb', rfl⟩ := List.mem_map.1 hs'
      exact hids b hb (List.mem_map.2 ⟨b', hb', heq.symm⟩)
    · intro s hs
      obtain ⟨b, hb, rfl⟩ := List.mem_map.1 hs
      exact (hnew.1 b hb).2.1
    · intro s hs
      obtain ⟨b, hb, rfl⟩ := List.mem_map.1 hs
      exact (hnew.1 b hb).1
    · intro s hs heq
      obtain ⟨b, hb, rfl⟩ := List.mem_map.1 hs
      obtain ⟨j, hj, hjob⟩ := h.jobOf b hb
      exact hfresh j hj (hjob.trans heq)
    · intro jobId hne
      rw [budgetOf_append hfresh, if_neg hne]
    · rw [budgetOf_append hfresh, if_pos rfl, List.map_map]
      exact hcover
  jobOf := by
    intro b hb
    rcases List.mem_append.1 hb with hb | hb
    · obtain ⟨j, hj, hjob⟩ := h.jobOf b hb
      exact ⟨j, List.mem_append_left _ hj, hjob⟩
    · exact ⟨job, List.mem_append_right _ (List.mem_singleton_self _), (hnew.1 b hb).1.symm⟩
  delivered := by
    intro b hb
    rcases List.mem_append.1 hb with hb | hb
    · exact h.delivered b hb
    · rintro (hrep | hset)
      · exact absurd (hnew.1 b hb).2.2.1 hrep
      · exact absurd (hnew.1 b hb).2.2.2 hset

theorem BatchBooks.within (h : BatchBooks jobs batches payments) {j : InferenceJob} (hj : j ∈ jobs) :
    paid payments j.jobId ≤ j.reservedMcu :=
  (h.budgeted.paid_le j.jobId).trans_eq (budgetOf_of_mem h.once hj)

end

/-! ## What flights rely on stays -/

/-- every row is still there with the columns nothing rewrites -/
structure Till.Keeps (t t' : Till) : Prop where
  shard : ∀ id jobId rewardMcu, t.HasShard id jobId rewardMcu → t'.HasShard id jobId rewardMcu
  batch : ∀ id jobId price delivered, t.HasBatch id jobId price delivered → t'.HasBatch id jobId price delivered

section

variable {t t' : Till}

theorem Till.Keeps.refl (t : Till) : t.Keeps t := ⟨fun _ _ _ h => h, fun _ _ _ _ h => h⟩

/-- rows are all a flight relies on -/
theorem Till.Keeps.of_rows (hshards : t'.shards = t.shards) (hbatches : t'.batches = t.batches) : t.Keeps t' where
  shard := by
    rintro id jobId rewardMcu ⟨a, ha, hcols⟩
    exact ⟨a, hshards ▸ ha, hcols⟩
  batch := by
    rintro id jobId price delivered ⟨b, hb, hcols⟩
    exact ⟨b, hbatches ▸ hb, hcols⟩

theorem Till.Keeps.of_shards {g : Shard → Shard} (hshards : t'.shards = t.shards.map g) (hbatches : t'.batches = t.batches)
    (hg : ShardUpdate t.shards g) : t.Keeps t' where
  shard := by
    rintro id jobId rewardMcu ⟨a, ha, hid, hjob, hreward⟩
    refine ⟨g a, ?_, (hg.id a).trans hid, (hg.job a).trans hjob, (hg.reward a).trans hreward⟩
    rw [hshards]
    exact List.mem_map_of_mem ha
  batch := by
    rintro id jobId price delivered ⟨b, hb, hcols⟩
    exact ⟨b, hbatches ▸ hb, hcols⟩

theorem Till.Keeps.of_batches {g : Batch → Batch} (hshards : t'.shards = t.shards) (hbatches : t'.batches = t.batches.map g)
    (hg : BatchUpdate t.batches g) (hreport : ∀ b, b.reportedBy ≠ none → (g b).reportedBy ≠ none) : t.Keeps t' where
  shard := by
    rintro id jobId rewardMcu ⟨a, ha, hcols⟩
    exact ⟨a, hshards ▸ ha, hcols⟩
  batch := by
    rintro id jobId price delivered ⟨b, hb, hid, hjob, hclaim, hdel⟩
    refine ⟨g b, ?_, (hg.id b).trans hid, (hg.job b).trans hjob, (hg.claim b).trans hclaim, fun hd => hreport b (hdel hd)⟩
    rw [hbatches]
    exact List.mem_map_of_mem hb

theorem Till.Keeps.of_append {new : List Shard} {newBatches : List Batch} (hshards : t'.shards = t.shards ++ new)
    (hbatches : t'.batches = t.batches ++ newBatches) : t.Keeps t' where
  shard := by
    rintro id jobId rewardMcu ⟨a, ha, hcols⟩
    exact ⟨a, hshards ▸ List.mem_append_left _ ha, hcols⟩
  batch := by
    rintro id jobId price delivered ⟨b, hb, hcols⟩
    exact ⟨b, hbatches ▸ List.mem_append_left _ hb, hcols⟩

theorem Till.Holds.mono {f : Flight} (h : t.Holds f) (hk : t.Keeps t') : t'.Holds f := by
  cases f with
  | payShard id nodeId jobId rewardMcu => exact hk.shard _ _ _ h
  | refundShard id jobId paidTo refundMcu => exact hk.shard _ _ _ h
  | settle id credit jobId price accepted => exact hk.batch _ _ _ _ h
  | refundBatch id jobId nodeId refundMcu => exact hk.batch _ _ _ _ h
  | _ => exact h

/-! ## One write -/

/-- the books of a till and the flights in it, put together again -/
theorem Till.Inv.of (h : t.Inv) (hshards : ShardBooks t'.jobs t'.shards t'.shardPayments)
    (hbatches : BatchBooks t'.aiJobs t'.batches t'.batchPayments)
    (hbalances : ∀ nodeId b, t'.balances nodeId = some b → 0 ≤ b) (hkeeps : t.Keeps t')
    (hflights : ∀ f ∈ t'.flights, f ∈ t.flights ∨ t'.Holds f) : t'.Inv where
  shards := hshards
  batches := hbatches
  balances := hbalances
  flights := by
    intro f hf
    rcases hflights f hf with hold | hnew
    · exact (h.flights f hold).mono hkeeps
    · exact hnew

theorem Till.Inv.launch (h : t.Inv) {f : Flight} (hf : t.Holds f) : (t.launch f).Inv := by
  refine h.of h.shards h.batches h.balances (.of_rows rfl rfl) ?_
  intro f' hf'
  rcases List.mem_append.1 hf' with hold | hnew
  · exact Or.inl hold
  · rw [List.mem_singleton.1 hnew]
    exact Or.inr (hf.mono (.of_rows rfl rfl))

theorem setBalance_nonneg (h : ∀ nodeId b, t.balances nodeId = some b → 0 ≤ b) {nodeId : String} {balance : ℤ}
    (hnew : 0 ≤ balance) : ∀ n b, (t.setBalance nodeId balance).balances n = some b → 0 ≤ b := by
  intro n b hb
  simp only [Till.setBalance, Function.update_apply] at hb
  split_ifs at hb with hn
  · cases hb
    exact hnew
  · exact h n b hb

theorem Till.Inv.setBalance (h : t.Inv) {nodeId : String} {balance : ℤ} (hnew : 0 ≤ balance) :
    (t.setBalance nodeId balance).Inv :=
  h.of h.shards h.batches (setBalance_nonneg h.balances hnew) (.of_rows rfl rfl) fun _ hf => Or.inl hf

/-- what a journal row leaves behind -/
theorem applyLedgerDelta_some {nodeId jobId : String} {deltaMcu : ℤ} {category : Category} {assignmentId : Option String}
    (h : t.applyLedgerDelta nodeId deltaMcu category jobId assignmentId = some t') :
    ∃ b, t.balances nodeId = some b ∧ t' = { t.setBalance nodeId (b + deltaMcu) with
      ledger := t.ledger ++ [⟨nodeId, deltaMcu, category, jobId, assignmentId⟩] } := by
  unfold Till.applyLedgerDelta at h
  split at h
  · cases h
  · rename_i b hb
    exact ⟨b, hb, (Option.some.inj h).symm⟩

/-- the journal of a write that credits no batch -/
theorem shardPayments_append (t : Till) (e : LedgerRow) :
    (t.ledger ++ [e]).filterMap LedgerRow.shardPayment = t.shardPayments ++ e.shardPayment.toList := by
  rw [List.filterMap_append]
  cases h : e.shardPayment <;> simp [Till.shardPayments, h]

theorem batchPayments_append (t : Till) (e : LedgerRow) :
    (t.ledger ++ [e]).filterMap LedgerRow.batchPayment = t.batchPayments ++ e.batchPayment.toList := by
  rw [List.filterMap_append]
  cases h : e.batchPayment <;> simp [Till.batchPayments, h]

/-- an update of the rows it picks -/
theorem ShardUpdate.on {g : Shard → Shard} {picks : Shard → Prop} [DecidablePred picks] (hid : ∀ a, (g a).assignmentId = a.assignmentId)
    (hjob : ∀ a, (g a).jobId = a.jobId) (hwork : ∀ a, (g a).work = a.work) (hreward : ∀ a, (g a).rewardMcu = a.rewardMcu)
    (hsettled : ∀ a ∈ t.shards, picks a → a.status = .completed ∨ a.status = .refunded →
      (g a).status = .completed ∨ (g a).status = .refunded) :
    ShardUpdate t.shards fun a => if picks a then g a else a where
  id := by intro a; split_ifs <;> first | rfl | exact hid a
  job := by intro a; split_ifs <;> first | rfl | exact hjob a
  work := by intro a; split_ifs <;> first | rfl | exact hwork a
  reward := by intro a; split_ifs <;> first | rfl | exact hreward a
  settled := by
    intro a ha hst
    split_ifs with hid
    · exact hsettled a ha hid hst
    · exact hst

theorem BatchUpdate.on (h : t.Inv) {g : Batch → Batch} {picks : Batch → Prop} [DecidablePred picks]
    (hid : ∀ b, (g b).assignmentId = b.assignmentId) (hjob : ∀ b, (g b).jobId = b.jobId)
    (hclaim : ∀ b, (g b).claim = b.claim)
    (hsettled : ∀ b ∈ t.batches, picks b → b.status = .refunded ∨ b.settled ≠ none →
      (g b).status = .refunded ∨ (g b).settled ≠ none)
    (hdelivered : ∀ b ∈ t.batches, picks b → (g b).reportedBy ≠ none ∨ (g b).settled ≠ none →
      (g b).status = .completed) :
    BatchUpdate t.batches fun b => if picks b then g b else b where
  id := by intro b; split_ifs <;> first | rfl | exact hid b
  job := by intro b; split_ifs <;> first | rfl | exact hjob b
  claim := by intro b; split_ifs <;> first | rfl | exact hclaim b
  settled := by
    intro b hb hst
    split_ifs with hid
    · exact hsettled b hb hid hst
    · exact hst
  delivered := by
    intro b hb
    split_ifs with hid
    · exact hdelivered b hb hid
    · exact h.batches.delivered b hb

/-- a write that touches shard rows alone -/
theorem Till.Inv.updateShards (h : t.Inv) {g : Shard → Shard} (hg : ShardUpdate t.shards g) :
    Till.Inv { t with shards := t.shards.map g } :=
  h.of (h.shards.update hg) h.batches h.balances (.of_shards rfl rfl hg) fun _ hf => Or.inl hf

theorem Till.Inv.updateBatches (h : t.Inv) {g : Batch → Batch} (hg : BatchUpdate t.batches g)
    (hreport : ∀ b, b.reportedBy ≠ none → (g b).reportedBy ≠ none) :
    Till.Inv { t with batches := t.batches.map g } :=
  h.of h.shards (h.batches.update hg) h.balances (.of_batches rfl rfl hg hreport) fun _ hf => Or.inl hf

/-- a shard is settled against its reward: by its provider's result, or back to who paid for it -/
theorem Till.Inv.creditShard (h : t.Inv) {id nodeId jobId : String} {amount : ℤ} {category : Category}
    (hcat : category = .contribution ∨ category = .refund) (hrow : t.HasShard id jobId amount)
    (hopen : ∀ a ∈ t.shards, a.assignmentId = id → a.status ≠ .completed ∧ a.status ≠ .refunded)
    {status : AssignmentStatus} (hfinal : status = .completed ∨ status = .refunded)
    (happly : t.applyLedgerDelta nodeId amount category jobId (some id) = some t') :
    (t'.updateShard id fun a => { a with status := status }).Inv := by
  obtain ⟨b, hb, rfl⟩ := applyLedgerDelta_some happly
  obtain ⟨a, ha, haid, hjob, hamount⟩ := hrow
  have hg : ShardUpdate t.shards fun a => if a.assignmentId = id then { a with status := status } else a :=
    .on (fun _ => rfl) (fun _ => rfl) (fun _ => rfl) (fun _ => rfl) fun _ _ _ _ => hfinal
  have hcredit := h.shards.credit hg ha (hopen a ha haid) (by simpa [haid] using hfinal)
  have hpos : 0 ≤ amount := by
    have := workCostMcu_pos a.work
    rw [← hamount, h.shards.rewards a ha]
    omega
  refine h.of ?_ ?_ ?_ (.of_shards rfl rfl hg) fun _ hf => Or.inl hf
  · have hpay : LedgerRow.shardPayment ⟨nodeId, amount, category, jobId, some id⟩ = some ⟨id, jobId, amount⟩ := by
      simp [LedgerRow.shardPayment, hcat]
    simp only [Till.updateShard, Till.setBalance, Till.shardPayments]
    rw [shardPayments_append, hpay]
    rw [haid, hjob, hamount] at hcredit
    exact hcredit
  · have hpay : LedgerRow.batchPayment ⟨nodeId, amount, category, jobId, some id⟩ = none := by
      rcases hcat with rfl | rfl <;> rfl
    simp only [Till.updateShard, Till.setBalance, Till.batchPayments]
    rw [batchPayments_append, hpay]
    simpa using h.batches
  · exact setBalance_nonneg h.balances (by have := h.balances nodeId b hb; omega)

/-- a batch is settled against its price -/
theorem Till.Inv.creditBatch (h : t.Inv) {id nodeId jobId : String} {amount : ℤ} {category : Category}
    (hcat : category = .inferenceReward ∨ category = .inferenceRefund) {delivered : Bool}
    (hrow : t.HasBatch id jobId amount delivered)
    (hopen : ∀ b ∈ t.batches, b.assignmentId = id → b.status ≠ .refunded ∧ b.settled = none) {g : Batch → Batch}
    (hg : BatchUpdate t.batches fun b => if b.assignmentId = id then g b else b)
    (hreport : ∀ b, b.reportedBy ≠ none → (g b).reportedBy ≠ none)
    (hfinal : ∀ b ∈ t.batches, b.assignmentId = id → (g b).status = .refunded ∨ (g b).settled ≠ none)
    (happly : t.applyLedgerDelta nodeId amount category jobId (some id) = some t') : (t'.updateBatch id g).Inv := by
  obtain ⟨bal, hbal, rfl⟩ := applyLedgerDelta_some happly
  obtain ⟨b, hb, hbid, hjob, hclaim, _⟩ := hrow
  have hcredit := h.batches.credit hg hb (hopen b hb hbid) (by simpa [hbid] using hfinal b hb hbid) hclaim
  have hpos : 0 ≤ amount := by
    have := h.batches.budgeted.price b.slot (List.mem_map_of_mem hb)
    simpa [Batch.slot, hclaim] using this
  have hreport' : ∀ b : Batch, b.reportedBy ≠ none → (if b.assignmentId = id then g b else b).reportedBy ≠ none := by
    intro b hrep
    split_ifs
    · exact hreport b hrep
    · exact hrep
  refine h.of ?_ ?_ ?_ (.of_batches rfl rfl hg hreport') fun _ hf => Or.inl hf
  · have hpay : LedgerRow.shardPayment ⟨nodeId, amount, category, jobId, some id⟩ = none := by
      rcases hcat with rfl | rfl <;> rfl
    simp only [Till.updateBatch, Till.setBalance, Till.shardPayments]
    rw [shardPayments_append, hpay]
    simpa using h.shards
  · have hpay : LedgerRow.batchPayment ⟨nodeId, amount, category, jobId, some id⟩ = some ⟨id, jobId, amount⟩ := by
      simp [LedgerRow.batchPayment, hcat]
    simp only [Till.updateBatch, Till.setBalance, Till.batchPayments]
    rw [batchPayments_append, hpay]
    rw [hbid, hjob] at hcredit
    exact hcredit
  · exact setBalance_nonneg h.balances (by have := h.balances nodeId bal hbal; omega)

/-- the row an id names is the only one -/
theorem Till.Inv.onlyShard (h : t.Inv) {a a' : Shard} (ha : a ∈ t.shards) (ha' : a' ∈ t.shards)
    (hid : a.assignmentId = a'.assignmentId) : a = a' := by
  have hids := h.shards.budgeted.ids
  rw [List.map_map] at hids
  exact List.inj_on_of_nodup_map hids ha ha' hid

theorem Till.Inv.onlyBatch (h : t.Inv) {b b' : Batch} (hb : b ∈ t.batches) (hb' : b' ∈ t.batches)
    (hid : b.assignmentId = b'.assignmentId) : b = b' := by
  have hids := h.batches.budgeted.ids
  rw [List.map_map] at hids
  exact List.inj_on_of_nodup_map hids hb hb' hid

/-- a debit the balance covers -/
theorem Till.Inv.debit (h : t.Inv) {nodeId jobId : String} {amount : ℤ} {category : Category}
    (hcover : ∀ b ∈ t.balances nodeId, amount ≤ b)
    (happly : t.applyLedgerDelta nodeId (-amount) category jobId none = some t') : t'.Inv := by
  obtain ⟨b, hb, rfl⟩ := applyLedgerDelta_some happly
  have hnone : ∀ e : LedgerRow, e.assignmentId = none → e.shardPayment = none ∧ e.batchPayment = none := by
    intro e he
    simp [LedgerRow.shardPayment, LedgerRow.batchPayment, he]
  refine h.of ?_ ?_ ?_ (.of_rows rfl rfl) fun _ hf => Or.inl hf
  · simp only [Till.setBalance, Till.shardPayments]
    rw [shardPayments_append, (hnone _ rfl).1]
    simpa using h.shards
  · simp only [Till.setBalance, Till.batchPayments]
    rw [batchPayments_append, (hnone _ rfl).2]
    simpa using h.batches
  · exact setBalance_nonneg h.balances (by have := hcover b hb; omega)

theorem Till.Inv.submit (h : t.Inv) {job : Job} {shards : List Shard} (hnew : NewShards job shards)
    (hcover : t.MayWrite (.submit job shards)) : (t.write (.submit job shards)).Inv := by
  simp only [Till.write]
  split_ifs with htakes
  · obtain ⟨hfresh, hids, hnodup⟩ := htakes
    have hopened : Till.Inv { t with jobs := t.jobs ++ [job], shards := t.shards ++ shards } :=
      h.of (h.shards.add hfresh hids hnodup hnew) h.batches h.balances
        (.of_append rfl (List.append_nil _).symm) fun _ hf => Or.inl hf
    split
    · exact hopened
    · rename_i nodeId hreq
      split
      · exact h
      · rename_i t' happly
        exact (hopened.debit (hcover nodeId hreq) happly).launch trivial
  · exact h

theorem Till.Inv.submitInference (h : t.Inv) {job : InferenceJob} {batches : List Batch} (hnew : NewBatches job batches)
    (hcover : t.MayWrite (.submitInference job batches)) : (t.write (.submitInference job batches)).Inv := by
  simp only [Till.write]
  split_ifs with htakes
  · obtain ⟨hfresh, hids, hnodup⟩ := htakes
    have hopened : Till.Inv { t with aiJobs := t.aiJobs ++ [job], batches := t.batches ++ batches } :=
      h.of h.shards (h.batches.add hfresh hids hnodup hnew hcover.2) h.balances
        (.of_append (List.append_nil _).symm rfl) fun _ hf => Or.inl hf
    split
    · exact h
    · rename_i t' happly
      exact hopened.debit hcover.1 happly
  · exact h

/-- **Write.** A write that finds what it may be made on keeps the books. -/
theorem Till.Inv.write (h : t.Inv) {f : Flight} (hholds : t.Holds f) (hmay : t.MayWrite f) : (t.write f).Inv := by
  cases f with
  | submit job shards => exact h.submit hholds hmay
  | submitInference job batches => exact h.submitInference hholds hmay
  | rejectShard id =>
    refine h.updateShards (.on (fun _ => rfl) (fun _ => rfl) (fun _ => rfl) (fun _ => rfl) ?_)
    intro a ha hid hst
    exact absurd hst (not_or.2 (hmay a ha hid))
  | payShard id nodeId jobId rewardMcu =>
    simp only [Till.write]
    split_ifs with hleased
    · split
      · exact h
      · rename_i t' happly
        refine (h.creditShard (Or.inl rfl) hholds ?_ (Or.inl rfl) happly).launch trivial
        intro a ha hid
        obtain ⟨a', ha', hid', hst, _⟩ := hleased
        rw [h.onlyShard ha ha' (hid.trans hid'.symm), hst]
        decide
    · exact h
  | refundShard id jobId paidTo refundMcu =>
    cases paidTo with
    | none =>
      exact h.updateShards (.on (fun _ => rfl) (fun _ => rfl) (fun _ => rfl) (fun _ => rfl) fun _ _ _ _ => Or.inr rfl)
    | some nodeId =>
      simp only [Till.write]
      split
      · exact h
      · rename_i t' happly
        exact h.creditShard (Or.inr rfl) hholds hmay (Or.inr rfl) happly
  | reportBatch id nodeId =>
    have hinv : (t.updateBatch id fun b => { b with status := .completed, reportedBy := some nodeId }).Inv := by
      refine h.updateBatches (.on h (fun _ => rfl) (fun _ => rfl) (fun _ => rfl) ?_ fun _ _ _ _ => rfl) ?_
      · rintro b hb hid (hst | hset)
        · exact absurd hst (hmay b hb hid)
        · exact Or.inr hset
      · intro b hrep
        split_ifs
        · exact Option.some_ne_none _
        · exact hrep
    exact hinv.launch trivial
  | receipt id =>
    refine h.updateBatches (.on h (fun _ => rfl) (fun _ => rfl) (fun _ => rfl) (fun _ _ _ hst => hst)
      fun b hb _ => h.batches.delivered b hb) ?_
    intro b hrep
    split_ifs <;> exact hrep
  | settle id credit jobId price accepted =>
    obtain ⟨b₀, hb₀, hid₀, hrow⟩ := hholds
    have hdone : ∀ b ∈ t.batches, b.assignmentId = id → b.status = .completed := by
      intro b hb hid
      rw [h.onlyBatch hb hb₀ (hid.trans hid₀.symm)]
      exact h.batches.delivered b₀ hb₀ (Or.inl (hrow.2.2 rfl))
    have hjudge : ∀ v, BatchUpdate t.batches fun b =>
        if b.assignmentId = id then { b with settled := b.settled.or (some v) } else b := by
      intro v
      refine .on h (fun _ => rfl) (fun _ => rfl) (fun _ => rfl) (fun b _ _ _ => Or.inr ?_) fun b hb hid _ => hdone b hb hid
      cases b.settled <;> simp
    simp only [Till.write]
    split_ifs with hopen haccepted
    · split
      · exact h
      · rename_i t' happly
        refine (h.creditBatch (Or.inl rfl) ⟨b₀, hb₀, hid₀, hrow⟩ ?_ (hjudge .paid) (fun _ hrep => hrep) ?_
          happly).launch trivial
        · intro b hb hid
          obtain ⟨b', hb', hid', hset⟩ := hopen
          rw [hdone b hb hid, h.onlyBatch hb hb' (hid.trans hid'.symm)]
          exact ⟨by decide, hset⟩
        · intro b _ _
          cases b.settled <;> simp
    · refine h.updateBatches (hjudge .disputed) ?_
      intro b hrep
      split_ifs <;> exact hrep
    · exact h
  | failBatch f =>
    have hsame : ∀ b : Batch, (f.write b.toAiRow).assignmentId = b.assignmentId ∧ (f.write b.toAiRow).jobId = b.jobId := by
      intro b
      unfold Failover.Reroute.write
      split_ifs <;> exact ⟨rfl, rfl⟩
    refine h.updateBatches (.on h (fun b => (hsame b).1) (fun b => (hsame b).2) (fun _ => rfl) ?_ ?_) ?_
    · rintro b hb hid (hst | hset)
      · exact absurd hst (hmay b hb hid).2
      · exact Or.inr hset
    · intro b hb hid hdel
      exact absurd (h.batches.delivered b hb hdel) (hmay b hb hid).1
    · intro b hrep
      split_ifs <;> exact hrep
  | refundBatch id jobId nodeId refundMcu =>
    simp only [Till.write]
    split
    · exact h
    · rename_i t' happly
      have hfree : ∀ b ∈ t.batches, b.assignmentId = id → b.reportedBy = none ∧ b.settled = none := by
        intro b hb hid
        have hst := (hmay b hb hid).1
        constructor
        · by_contra hrep
          exact hst (h.batches.delivered b hb (Or.inl hrep))
        · by_contra hset
          exact hst (h.batches.delivered b hb (Or.inr hset))
      have hinv : (t'.updateBatch id fun b => { b with status := .refunded }).Inv := by
        refine h.creditBatch (Or.inr rfl) hholds (fun b hb hid => ⟨(hmay b hb hid).2, (hfree b hb hid).2⟩)
          (.on h (fun _ => rfl) (fun _ => rfl) (fun _ => rfl) (fun _ _ _ _ => Or.inl rfl) ?_) (fun _ hrep => hrep)
          (fun _ _ _ => Or.inl rfl) happly
        rintro b hb hid (hrep | hset)
        · exact absurd (hfree b hb hid).1 hrep
        · exact absurd (hfree b hb hid).2 hset
      exact hinv.launch trivial
  | look nodeId =>
    simp only [Till.write]
    split
    · exact h
    · rename_i b hb
      exact h.launch (h.balances nodeId b hb)
  | cache nodeId balance =>
    simp only [Till.write]
    split_ifs
    · exact h.setBalance hholds
    · exact h

/-! ## One act -/

theorem newShards_shardsOf (c : Crypto) {jobId : String} (requester : Option String) (work : WorkSpec) {shards : ℕ}
    (h : shards ≤ 256) (now : ℤ) : NewShards (jobOf jobId requester work shards now) (shardsOf c jobId work shards) := by
  constructor
  · intro a ha
    obtain ⟨p, _, rfl⟩ := List.mem_map.1 ha
    exact ⟨rfl, rfl⟩
  · simp only [shardsOf, jobOf, List.map_map, jobCost_eq_sum h]
    congr 1
    conv_rhs => rw [← List.zipIdx_map_fst 0 (splitWork work shards), List.map_map]
    rfl

theorem newBatches_batchesOf (c : Crypto) (o : Failover.Order) : NewBatches (inferenceJobOf c o) (batchesOf c o) := by
  constructor
  · intro b hb
    obtain ⟨p, hp, rfl⟩ := List.mem_map.1 hb
    have hrow := (List.of_mem_zip hp).1
    obtain ⟨q, _, hq⟩ := List.mem_map.1 hrow
    refine ⟨?_, ?_, rfl, rfl⟩
    · simp only [inferenceJobOf, ← hq]
    · simp only [assignmentClaim]
      split_ifs
      · have := inferenceBatchCostMcu_pos o.billing.promptBytes p.2.batchStart p.2.batchEnd o.billing.maxTokens
          o.billing.parameterCount
        simp only [Option.getD_some, batchPrice]
        omega
      · exact le_rfl
  · have := inferenceCostMcu_pos o.billing.promptBytes o.billing.maxTokens o.billing.parameterCount
    simp only [inferenceJobOf]
    omega

theorem shard?_some {id : String} {a : Shard} {j : Job} (h : t.shard? id = some (a, j)) :
    a ∈ t.shards ∧ a.assignmentId = id := by
  simp only [Till.shard?, Option.bind_eq_bind, Option.bind_eq_some_iff, Option.pure_def, Option.some.injEq,
    Prod.mk.injEq] at h
  obtain ⟨a', ha, _, _, rfl, _⟩ := h
  exact ⟨List.mem_of_find?_eq_some ha, by simpa using List.find?_some ha⟩

theorem batch?_some {id : String} {b : Batch} {j : InferenceJob} (h : t.batch? id = some (b, j)) :
    b ∈ t.batches ∧ b.assignmentId = id := by
  simp only [Till.batch?, Option.bind_eq_bind, Option.bind_eq_some_iff, Option.pure_def, Option.some.injEq,
    Prod.mk.injEq] at h
  obtain ⟨b', hb, _, _, rfl, _⟩ := h
  exact ⟨List.mem_of_find?_eq_some hb, by simpa using List.find?_some hb⟩

/-- a request decides on a write it may rely on -/
theorem Till.Inv.decide {c : Crypto} (h : t.Inv) {act : Act} {f : Flight} (hf : t.decide c act = some f) : t.Holds f := by
  cases act with
  | submit auth work shards now =>
    simp only [Till.decide] at hf
    split at hf
    · cases hf
    · split_ifs at hf with hok
      cases hf
      exact newShards_shardsOf c _ work hok.2.1 now
  | report id nodeId verified =>
    simp only [Till.decide, Option.bind_eq_bind, Option.bind_eq_some_iff] at hf
    obtain ⟨⟨a, j⟩, hrow, hf⟩ := hf
    obtain ⟨ha, hid⟩ := shard?_some hrow
    simp only at hf
    split_ifs at hf with hleased hver
    · cases hf
      exact ⟨a, ha, hid, rfl, rfl⟩
    · cases hf
      trivial
  | refund id signer now =>
    simp only [Till.decide, Option.bind_eq_bind, Option.bind_eq_some_iff] at hf
    obtain ⟨⟨a, j⟩, hrow, hf⟩ := hf
    obtain ⟨ha, hid⟩ := shard?_some hrow
    simp only at hf
    split_ifs at hf
    split at hf
    · cases hf
      exact ⟨a, ha, hid, rfl, h.shards.rewards a ha⟩
    · split_ifs at hf
      cases hf
      exact ⟨a, ha, hid, rfl, h.shards.rewards a ha⟩
    · cases hf
  | submitInference o =>
    simp only [Till.decide] at hf
    split at hf
    · cases hf
    · split_ifs at hf
      cases hf
      exact newBatches_batchesOf c o
  | reportBatch id nodeId =>
    simp only [Till.decide, Option.bind_eq_bind, Option.bind_eq_some_iff] at hf
    obtain ⟨⟨b, j⟩, _, hf⟩ := hf
    simp only at hf
    split_ifs at hf
    cases hf
    trivial
  | receipt id nodeId =>
    simp only [Till.decide, Option.bind_eq_bind, Option.bind_eq_some_iff] at hf
    obtain ⟨⟨b, j⟩, _, hf⟩ := hf
    simp only at hf
    split_ifs at hf
    cases hf
    trivial
  | settle id nodeId accepted =>
    simp only [Till.decide, Option.bind_eq_bind, Option.bind_eq_some_iff] at hf
    obtain ⟨⟨b, j⟩, hrow, credit, hcredit, price, hprice, hf⟩ := hf
    obtain ⟨hb, hid⟩ := batch?_some hrow
    simp only at hf hcredit hprice
    split_ifs at hf
    cases hf
    exact ⟨b, hb, hid, rfl, hprice, fun _ => by rw [hcredit]; exact Option.some_ne_none _⟩
  | fail id nodeId scoring nodes =>
    simp only [Till.decide, Option.bind_eq_bind, Option.bind_eq_some_iff, Option.pure_def, Option.some.injEq] at hf
    obtain ⟨_, _, _, _, _, _, rfl⟩ := hf
    trivial
  | refundBatch id jobId nodeId now =>
    simp only [Till.decide, Option.bind_eq_bind, Option.bind_eq_some_iff] at hf
    obtain ⟨⟨b, j⟩, hrow, amount, hamount, hf⟩ := hf
    obtain ⟨hb, hid⟩ := batch?_some hrow
    simp only at hf hamount
    split_ifs at hf with hok
    cases hf
    exact ⟨b, hb, hid, hok.1, hamount, by simp⟩
  | _ => cases hf

/-- a lease given or taken back touches no settled batch -/
theorem Till.Inv.requeue (h : t.Inv) {picks : Batch → Prop} [DecidablePred picks] {status status' : Failover.AiStatus}
    (hst : status = .pending ∨ status = .leased) :
    Till.Inv { t with
      batches := t.batches.map fun b => if picks b ∧ b.status = status then { b with status := status' } else b } := by
  have hne : status ≠ .completed ∧ status ≠ .refunded := by rcases hst with rfl | rfl <;> decide
  refine h.updateBatches (.on h (fun _ => rfl) (fun _ => rfl) (fun _ => rfl) ?_ ?_) ?_
  · rintro b _ ⟨_, hopen⟩ (hclosed | hset)
    · exact absurd (hopen.symm.trans hclosed) hne.2
    · exact Or.inr hset
  · rintro b hb ⟨_, hopen⟩ hdel
    exact absurd (hopen.symm.trans (h.batches.delivered b hb hdel)) hne.1
  · intro b hrep
    split_ifs <;> exact hrep

/-- **Step.** An orderly act keeps the books. -/
theorem Till.Inv.step {c : Crypto} (h : t.Inv) {act : Act} (hact : t.Orderly act) : (t.step c act).Inv := by
  cases act with
  | register nodeId =>
    simp only [Till.step]
    split_ifs
    · exact h
    · exact h.setBalance le_rfl
  | seed jobId work shards now =>
    refine h.submit (newShards_shardsOf c none work (by omega) now) ?_
    intro nodeId hreq
    cases hreq
  | lease id nodeId =>
    refine h.updateShards (.on (fun _ => rfl) (fun _ => rfl) (fun _ => rfl) (fun _ => rfl) ?_)
    rintro a _ ⟨_, hpending⟩ hst
    simp [hpending] at hst
  | expire ids =>
    refine h.updateShards (.on (fun _ => rfl) (fun _ => rfl) (fun _ => rfl) (fun _ => rfl) ?_)
    rintro a _ ⟨_, hleased⟩ hst
    simp [hleased] at hst
  | leaseBatch id => exact h.requeue (Or.inl rfl)
  | expireBatches ids => exact h.requeue (Or.inr rfl)
  | land f =>
    simp only [Till.step]
    split_ifs with hf
    · have hless : Till.Inv { t with flights := t.flights.erase f } :=
        h.of h.shards h.batches h.balances (.of_rows rfl rfl) fun f' hf' => Or.inl (List.mem_of_mem_erase hf')
      refine hless.write ((h.flights f hf).mono (.of_rows rfl rfl)) ?_
      have := hact hf
      cases f <;> exact this
    · exact h
  | _ =>
    simp only [Till.step]
    split
    · exact h
    · rename_i f hf
      exact h.launch (h.decide hf)

theorem Till.Inv.exact (h : t.Inv) : t.Exact where
  shards := h.shards.budgeted.once
  batches := h.batches.budgeted.once
  jobs := fun _ hj => h.shards.within hj
  aiJobs := fun _ hj => h.batches.within hj
  balances := h.balances

theorem opened_inv : Till.Inv .opened where
  shards := ⟨List.nodup_nil, .empty _ fun _ => le_rfl, by simp [Till.opened], by simp [Till.opened]⟩
  batches := ⟨List.nodup_nil, .empty _ fun _ => le_rfl, by simp [Till.opened], by simp [Till.opened]⟩
  balances := by simp [Till.opened]
  flights := by simp [Till.opened]

/-- **Local accounting is exact.** In every run, in any order of requests and writes, whose writes each find what they
may be made on: every shard and batch is credited at most once, no job's credits exceed its reservation, and no balance
is negative. -/
theorem local_accounting_exact {c : Crypto} {acts : List Act} (hall : Along (Till.step c) Till.Orderly .opened acts) :
    (Till.run c acts).Exact := by
  have hrun := Along.invariant (fun (t : Till) _ => t.Inv) (fun _ _ _ h hact => h.step hact) acts Till.opened [] hall
    opened_inv
  exact hrun.exact

end

namespace Sample

open Hocmesh.Protocol.Sample Hocmesh.Coordinator.Sample

def five : String := "hocmesh_05050505050505050505050505050505"

def six : String := "hocmesh_06060606060606060606060606060606"

def shardId (jobId : String) : String := assignmentId crypto jobId 0

/-- node 5 runs the shard of a seeded job and is paid for it -/
def earned : List Act :=
  [.register five, .register six, .seed "seed" smallWork 1 100, .lease (shardId "seed") five,
    .report (shardId "seed") five true,
    .land (.payShard (shardId "seed") five "seed" (workCostMcu smallWork))]

def jobId (nonce : String) : String := jobIdFromAuth crypto ⟨five, 200, nonce, "signature"⟩

/-- what node 5 earned, spent on a job of its own -/
def spent (nonce : String) : List Act :=
  [.submit ⟨five, 200, nonce, "signature"⟩ smallWork 1 200,
    .land (.submit (jobOf (jobId nonce) (some five) smallWork 1 200) (shardsOf crypto (jobId nonce) smallWork 1))]

/-- the refund of the shard of node 5's job, asked for after its window and written -/
def refundAsked (nonce : String) : Act := .refund (shardId (jobId nonce)) (some five) 3000000

def refundLands (nonce : String) : Act :=
  .land (.refundShard (shardId (jobId nonce)) (jobId nonce) (some five) (workCostMcu smallWork))

def refundedOnce : List Act := earned ++ spent "one" ++ [refundAsked "one", refundLands "one"]

/-- two requests that both looked before either wrote -/
def refundedTwice : List Act :=
  earned ++ spent "one" ++ [refundAsked "one", refundAsked "one", refundLands "one", refundLands "one"]

/-- a second result of node 5 that does not verify puts the paid shard back in the queue, where node 6 takes it -/
def paidAgain : List Act :=
  earned.dropLast ++ [.report (shardId "seed") five false] ++ earned.drop 5 ++
    [.land (.rejectShard (shardId "seed")), .lease (shardId "seed") six, .report (shardId "seed") six true,
      .land (.payShard (shardId "seed") six "seed" (workCostMcu smallWork))]

/-- one balance is found large enough by two submissions -/
def overdrawn : List Act :=
  earned ++ (spent "one").take 1 ++ (spent "two").take 1 ++ (spent "one").drop 1 ++ (spent "two").drop 1

end Sample

theorem refunded_once_exact :
    (Till.run Sample.crypto Sample.refundedOnce).balances Sample.five = some (workCostMcu Sample.smallWork) ∧
      (Till.run Sample.crypto Sample.refundedOnce).Exact := by
  have hrun : (Till.run Sample.crypto Sample.refundedOnce).balances Sample.five = some (workCostMcu Sample.smallWork) ∧
      Along (Till.step Sample.crypto) Till.Orderly .opened Sample.refundedOnce := by decide +kernel
  exact ⟨hrun.1, local_accounting_exact hrun.2⟩

/-- a shard is paid to two nodes, another refunded twice, and a balance runs below zero -/
theorem accounts_inexact :
    ((paymentsOf (Till.run Sample.crypto Sample.paidAgain).shardPayments (Sample.shardId "seed")).length = 2 ∧
      paid (Till.run Sample.crypto Sample.refundedTwice).shardPayments (Sample.jobId "one") =
        2 * workCostMcu Sample.smallWork ∧
      (Till.run Sample.crypto Sample.overdrawn).balances Sample.five = some (-workCostMcu Sample.smallWork)) ∧
    ¬ (Till.run Sample.crypto Sample.paidAgain).Exact ∧ ¬ (Till.run Sample.crypto Sample.refundedTwice).Exact ∧
      ¬ (Till.run Sample.crypto Sample.overdrawn).Exact := by
  obtain ⟨hagain, htwice, hsecond, hbelow⟩ :
      (paymentsOf (Till.run Sample.crypto Sample.paidAgain).shardPayments (Sample.shardId "seed")).length = 2 ∧
      paid (Till.run Sample.crypto Sample.refundedTwice).shardPayments (Sample.jobId "one") =
        2 * workCostMcu Sample.smallWork ∧
      (paymentsOf (Till.run Sample.crypto Sample.refundedTwice).shardPayments
        (Sample.shardId (Sample.jobId "one"))).length = 2 ∧
      (Till.run Sample.crypto Sample.overdrawn).balances Sample.five = some (-workCostMcu Sample.smallWork) := by
    decide +kernel
  refine ⟨⟨hagain, htwice, hbelow⟩, ?_, ?_, ?_⟩
  · intro h
    have := h.shards (Sample.shardId "seed")
    omega
  · intro h
    have := h.shards (Sample.shardId (Sample.jobId "one"))
    omega
  · intro h
    have := h.balances _ _ hbelow
    have := workCostMcu_pos Sample.smallWork
    omega

end Hocmesh.Coordinator.Local
