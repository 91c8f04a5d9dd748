/-
The coordinator's intents (`hocmesh-coordinator/src/db.rs`, the handlers of `api.rs` and `main.rs` that persist them, and
the recovery pass of `main.rs`).

A handler writes the transaction it is about to propose and blocks the objects that wait for it in one database
transaction, then asks the ledger, then finalizes: certifies the intent and unblocks. `recover_pending` is what is left
when it stopped in between. A table is a list of rows; what a request had to pass before anything was written is left
out, and so are the columns nothing here reads. The transaction column holds what reading the stored text back gives.
-/
import Hocmesh.Network.Client
import Mathlib.Data.List.Sort

namespace Hocmesh.Coordinator

open Hocmesh.Base Hocmesh.Protocol Hocmesh.Compute Hocmesh.Ledger Hocmesh.Validator

/-! ## Tables -/

/-- every `intent_kind` a handler writes -/
inductive IntentKind where
  | jobReserve
  | communityReserve
  | providerReward
  | inferenceReserve
  | jobRefund
deriving DecidableEq

def IntentKind.text : IntentKind → String
  | .jobReserve => "job_reserve"
  | .communityReserve => "community_reserve"
  | .providerReward => "provider_reward"
  | .inferenceReserve => "inference_reserve"
  | .jobRefund => "job_refund"

inductive IntentStatus where
  | pending
  | certified
  | unrecoverable
deriving DecidableEq

structure LedgerIntent where
  claimKey : String
  kind : IntentKind
  objectId : String
  transactionJson : Except String LedgerTransaction
  status : IntentStatus
  entryHash : Option String
  attempts : ℕ
  lastError : Option String
  createdAt : ℤ
deriving DecidableEq

inductive JobStatus where
  | pending
  | funding
  | completed
  | closed
deriving DecidableEq

inductive AssignmentStatus where
  | pending
  | blocked
  | leased
  | settling
  | completed
  | refunded
deriving DecidableEq

structure JobRow where
  jobId : String
  status : JobStatus
deriving DecidableEq

/-- a shard, or an inference batch, whose table has no `leased_to` -/
structure AssignmentRow where
  assignmentId : String
  jobId : String
  status : AssignmentStatus
  leasedTo : Option String
deriving DecidableEq

structure Db where
  intents : List LedgerIntent
  jobs : List JobRow
  assignments : List AssignmentRow
  aiJobs : List JobRow
  aiAssignments : List AssignmentRow
deriving DecidableEq

namespace Db

def empty : Db := ⟨[], [], [], [], []⟩

/-- a row that is there keeps its kind, its object and its status, and takes the new transaction -/
def persistLedgerIntent (db : Db) (ck : String) (kind : IntentKind) (objectId : String) (tx : LedgerTransaction)
    (now : ℤ) : Db :=
  if ∃ r ∈ db.intents, r.claimKey = ck then
    { db with intents := db.intents.map fun r => if r.claimKey = ck then { r with transactionJson := .ok tx } else r }
  else
    { db with intents := db.intents ++ [⟨ck, kind, objectId, .ok tx, .pending, none, 0, none, now⟩] }

def certifyLedgerIntent (db : Db) (ck entryHash : String) : Db :=
  { db with intents := db.intents.map fun r =>
      if r.claimKey = ck then { r with status := .certified, entryHash := some entryHash, lastError := none } else r }

def maxIntentAttempts : ℕ := 240

/-- note that an intent could not be settled this pass, and say how many passes it has now cost -/
def deferLedgerIntent (db : Db) (ck reason : String) : Db × ℕ :=
  let intents := db.intents.map fun r =>
    if r.claimKey = ck ∧ r.status = .pending then { r with attempts := r.attempts + 1, lastError := some reason } else r
  ({ db with intents := intents }, ((intents.find? fun r => r.claimKey = ck).map (·.attempts)).getD 0)

/-- park an intent for an operator -/
def abandonLedgerIntent (db : Db) (ck reason : String) : Db :=
  { db with intents := db.intents.map fun r =>
      if r.claimKey = ck ∧ r.status = .pending then
        { r with status := .unrecoverable, attempts := r.attempts + 1, lastError := some reason }
      else r }

/-! ## Finalizing -/

/-- `UPDATE … SET status='pending' WHERE job_id=… AND status='funding'` -/
def fund (jobs : List JobRow) (jobId : String) : List JobRow :=
  jobs.map fun x => if x.jobId = jobId ∧ x.status = .funding then { x with status := .pending } else x

/-- `UPDATE … SET status='pending' WHERE job_id=… AND status='blocked'` -/
def unblock (assignments : List AssignmentRow) (jobId : String) : List AssignmentRow :=
  assignments.map fun a => if a.jobId = jobId ∧ a.status = .blocked then { a with status := .pending } else a

/-- `finalize_reservation_db`, and `finalize_reservation` of the live path -/
def finalizeReservationDb (db : Db) (jobId ck entryHash : String) : Db :=
  let db := db.certifyLedgerIntent ck entryHash
  { db with jobs := fund db.jobs jobId, assignments := unblock db.assignments jobId }

def finalizeInferenceReservation (db : Db) (jobId ck entryHash : String) : Db :=
  let db := db.certifyLedgerIntent ck entryHash
  { db with aiJobs := fund db.aiJobs jobId, aiAssignments := unblock db.aiAssignments jobId }

/-- a job is over once no shard is still waiting on a settlement, and only completed if every shard produced work -/
def closeSettledJob (db : Db) (jobId : String) : Db :=
  let own := db.assignments.filter fun a => a.jobId = jobId
  if ∃ a ∈ own, a.status ≠ .completed ∧ a.status ≠ .refunded then db
  else
    let status := if ∃ a ∈ own, a.status = .refunded then JobStatus.closed else .completed
    { db with jobs := db.jobs.map fun x => if x.jobId = jobId then { x with status := status } else x }

/-- `finalize_reward_db`; `finalize_reward` of the live path differs in the text of its error -/
def finalizeRewardDb (db : Db) (assignmentId ck entryHash : String) : Check Db :=
  let db := db.certifyLedgerIntent ck entryHash
  match db.assignments.find? fun a => a.assignmentId = assignmentId with
  | none => .error s!"recovery assignment missing: {assignmentId}"
  | some found =>
    let assignments := db.assignments.map fun a =>
      if a.assignmentId = assignmentId ∧ a.status = .settling then { a with status := .completed } else a
    .ok ({ db with assignments := assignments }.closeSettledJob found.jobId)

end Db

/-! ## The handlers -/

/-- what each handler proposes -/
def jobReserveTransaction (e : JobReserveEvidence) (now : ℤ) : LedgerTransaction :=
  let cost := jobCostMcu e.work e.shards
  { transactionId := "reserve_" ++ e.jobId, kind := .jobReserve, evidence := .jobReserve e, createdAt := now
    postings := [⟨e.requesterAuth.nodeId, -cost⟩, ⟨escrowAccount e.jobId, cost⟩] }

def communityReserveTransaction (e : CommunityReserveEvidence) (now : ℤ) : LedgerTransaction :=
  let cost := jobCostMcu e.work e.shards
  { transactionId := "community_reserve_" ++ e.jobId, kind := .communityReserve, evidence := .communityReserve e
    createdAt := now, postings := [⟨communityIssuanceAccount, -cost⟩, ⟨escrowAccount e.jobId, cost⟩] }

def inferenceReserveTransaction (e : InferenceReserveEvidence) (now : ℤ) : LedgerTransaction :=
  let cost := inferenceCostMcu e.billing.promptBytes e.billing.maxTokens e.billing.parameterCount
  { transactionId := "reserve_" ++ e.jobId, kind := .inferenceReserve, evidence := .inferenceReserve e, createdAt := now
    postings := [⟨e.requesterAuth.nodeId, -cost⟩, ⟨escrowAccount e.jobId, cost⟩] }

def providerRewardTransaction (e : ProviderRewardEvidence) (now : ℤ) : LedgerTransaction :=
  { transactionId := "reward_" ++ e.assignmentId, kind := .providerReward, evidence := .providerReward e, createdAt := now
    postings := [⟨escrowAccount e.jobId, -e.rewardMcu⟩, ⟨e.providerAuth.nodeId, e.rewardMcu⟩] }

/-- community escrow goes back to the issuance account, paid escrow to the requester who signed for it -/
def jobRefundTransaction (e : JobRefundEvidence) (now : ℤ) : LedgerTransaction :=
  let paidTo := match e.requesterAuth with
    | some auth => auth.nodeId
    | none => communityIssuanceAccount
  { transactionId := "refund_" ++ e.assignmentId, kind := .jobRefund, evidence := .jobRefund e, createdAt := now
    postings := [⟨escrowAccount e.jobId, -e.refundMcu⟩, ⟨paidTo, e.refundMcu⟩] }

section

variable (c : Crypto)

/-- rows of a new job and its shards; the primary keys refuse a row that is already there -/
def insertJob (jobs : List JobRow) (assignments : List AssignmentRow) (jobId : String) (ids : List String) :
    Option (List JobRow × List AssignmentRow) :=
  if (∃ x ∈ jobs, x.jobId = jobId) ∨ (∃ a ∈ assignments, a.assignmentId ∈ ids) ∨ ¬ ids.Nodup then none
  else some (jobs ++ [⟨jobId, .funding⟩], assignments ++ ids.map fun id => ⟨id, jobId, .blocked, none⟩)

/-- the local transaction of `submit_job` -/
def submitJob (db : Db) (e : JobReserveEvidence) (now : ℤ) : Option Db := do
  let ids := (List.range (splitWork e.work e.shards).length).map (assignmentId c e.jobId)
  let (jobs, assignments) ← insertJob db.jobs db.assignments e.jobId ids
  let tx := jobReserveTransaction e now
  pure ({ db with jobs := jobs, assignments := assignments }.persistLedgerIntent (claimKey tx) .jobReserve e.jobId tx now)

/-- the local transaction of `seed` -/
def seed (db : Db) (e : CommunityReserveEvidence) (now : ℤ) : Option Db := do
  let ids := (List.range (splitWork e.work e.shards).length).map (assignmentId c e.jobId)
  let (jobs, assignments) ← insertJob db.jobs db.assignments e.jobId ids
  let tx := communityReserveTransaction e now
  pure ({ db with jobs := jobs, assignments := assignments }.persistLedgerIntent (claimKey tx) .communityReserve e.jobId tx
    now)

/-- the local transaction of `submit_inference` -/
def submitInference (db : Db) (e : InferenceReserveEvidence) (now : ℤ) : Option Db := do
  let ids := (List.range e.batches.length).map (inferenceAssignmentId c e.jobId)
  let (aiJobs, aiAssignments) ← insertJob db.aiJobs db.aiAssignments e.jobId ids
  let tx := inferenceReserveTransaction e now
  pure ({ db with aiJobs := aiJobs, aiAssignments := aiAssignments }.persistLedgerIntent (claimKey tx) .inferenceReserve
    e.jobId tx now)

end

/-- the local transaction of `submit_result`: a shard that is no longer leased to the provider is not settled -/
def submitResult (db : Db) (e : ProviderRewardEvidence) (now : ℤ) : Option Db :=
  let leased (a : AssignmentRow) : Prop :=
    a.assignmentId = e.assignmentId ∧ a.status = .leased ∧ a.leasedTo = some e.providerAuth.nodeId
  if ∃ a ∈ db.assignments, leased a then
    let assignments := db.assignments.map fun a => if leased a then { a with status := .settling } else a
    let tx := providerRewardTransaction e now
    some ({ db with assignments := assignments }.persistLedgerIntent (claimKey tx) .providerReward e.assignmentId tx now)
  else none

/-- what `refund_shard` writes once the ledger has decided: intent, certificate and shard together -/
def refundShard (db : Db) (e : JobRefundEvidence) (entryHash : String) (now : ℤ) : Db :=
  let tx := jobRefundTransaction e now
  let db := (db.persistLedgerIntent (claimKey tx) .jobRefund e.assignmentId tx now).certifyLedgerIntent (claimKey tx)
    entryHash
  let assignments := db.assignments.map fun a =>
    if a.assignmentId = e.assignmentId then { a with status := .refunded } else a
  { db with assignments := assignments }.closeSettledJob e.jobId

/-! ## The recovery pass -/

/-- why one intent did not settle on this pass -/
inductive IntentFault where
  | transient (why : String)
  | terminal (why : String)
deriving DecidableEq

/-- what the network says about one intent: the claim lookup, and the answer to a proposal -/
structure IntentAnswers where
  claim : Check ClaimProof
  reply : Except String QuorumCertificate

/-- the entry that carries a claim: the one the lookup found, or the one a proposal made -/
def IntentAnswers.entryHash (w : IntentAnswers) : (found : Option String) → Except String String
  | some hash => .ok hash
  | none => w.reply.map (·.entry.entryHash)

/-- the bookkeeping of an entry that is on the chain -/
def recordSettled (db : Db) (r : LedgerIntent) (entryHash : String) : Check Db :=
  match r.kind with
  | .providerReward => db.finalizeRewardDb r.objectId r.claimKey entryHash
  | _ => .ok (db.finalizeReservationDb r.objectId r.claimKey entryHash)

/-- settle one persisted intent, or say why it could not be settled; the list is what it proposed -/
def recoverOne (db : Db) (r : LedgerIntent) (w : IntentAnswers) :
    Db × List LedgerTransaction × Except IntentFault String :=
  match r.transactionJson with
  | .error e => (db, [], .error (.terminal s!"persisted transaction is unreadable: {e}"))
  | .ok tx =>
    if claimKey tx ≠ r.claimKey then (db, [], .error (.terminal s!"persisted intent claim mismatch for {r.claimKey}"))
    else if r.kind ≠ .jobReserve ∧ r.kind ≠ .communityReserve ∧ r.kind ≠ .providerReward then
      (db, [], .error (.terminal s!"unknown ledger intent kind {r.kind.text}"))
    else
      match w.claim with
      | .error e => (db, [], .error (.transient s!"claim not confirmable yet: {e}"))
      | .ok existing =>
        let proposed := if existing.entryHash = none then [tx] else []
        match w.entryHash existing.entryHash with
        | .error e => (db, proposed, .error (.transient s!"settlement did not go through: {e}"))
        | .ok hash =>
          match recordSettled db r hash with
          | .error e => (db, proposed, .error (.transient s!"settled but not recorded: {e}"))
          | .ok db' => (db', proposed, .ok hash)

structure ReconcileReport where
  recovered : ℕ
  deferred : ℕ
  abandoned : ℕ
deriving DecidableEq

/-- a pass: the database, its report, and what it proposed under which claim -/
structure Pass where
  db : Db
  report : ReconcileReport
  proposed : List (String × LedgerTransaction)
deriving DecidableEq

def recoverStep (answers : String → IntentAnswers) (p : Pass) (r : LedgerIntent) : Pass :=
  let (db, txs, outcome) := recoverOne p.db r (answers r.claimKey)
  let proposed := p.proposed ++ txs.map fun tx => (r.claimKey, tx)
  match outcome with
  | .ok _ => ⟨db, { p.report with recovered := p.report.recovered + 1 }, proposed⟩
  | .error (.transient why) =>
    let (db, attempts) := db.deferLedgerIntent r.claimKey why
    if Db.maxIntentAttempts ≤ attempts then
      ⟨db.abandonLedgerIntent r.claimKey s!"gave up after {attempts} attempts: {why}",
        { p.report with abandoned := p.report.abandoned + 1 }, proposed⟩
    else ⟨db, { p.report with deferred := p.report.deferred + 1 }, proposed⟩
  | .error (.terminal why) =>
    ⟨db.abandonLedgerIntent r.claimKey why, { p.report with abandoned := p.report.abandoned + 1 }, proposed⟩

/-- `ORDER BY created_at, claim_key` -/
def Db.pendingIntents (db : Db) : List LedgerIntent :=
  (db.intents.filter fun r => r.status = .pending).insertionSort fun a b =>
    a.createdAt < b.createdAt ∨ a.createdAt = b.createdAt ∧ a.claimKey ≤ b.claimKey

/-- `recover_pending` up to its sweep of expired batches -/
def recoverPending (db : Db) (answers : String → IntentAnswers) : Pass :=
  db.pendingIntents.foldl (recoverStep answers) ⟨db, ⟨0, 0, 0⟩, []⟩

end Hocmesh.Coordinator
