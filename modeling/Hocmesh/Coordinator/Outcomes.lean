/-
What the coordinator writes down about settlements, against what the chain says.

Rival settlements share one claim: a shard's reward and its refund, a batch's acceptance, dispute and expiry. The ledger
certifies one of them, and the coordinator records which. It learns the outcome on three ways: its own proposal came
back certified, a recovery pass finds the claim of a reward spent, or the sweep finds the claim of a payout spent. The
last two look at the claim alone.

An `Office` is the coordinator's tables together with the chain and the clock; an `Act` is one database transaction of a
handler, of the recovery pass or of the sweep, or something the ledger or the clock does. Acts come in any order, so
handlers interleave, stop half way and race with other clients. What a request had to pass before anything was written is
left out except where a result here is about it (`refundGate`). Whether `transact` returned a certificate is stated on
the chain: the transaction is on it.
-/
import Hocmesh.Coordinator.Recovery

namespace Hocmesh.Coordinator

open Hocmesh.Base Hocmesh.Protocol Hocmesh.Compute Hocmesh.Ledger Hocmesh.Validator

/-! ## Tables, chain and clock -/

/-- the `settled` column of a batch -/
inductive Verdict where
  | paid
  | disputed
  | expired
deriving DecidableEq

/-- a row of `ai_assignments` after delivery; the bounds are the ones its assignment prices -/
structure Batch where
  assignmentId : String
  jobId : String
  batchStart : ℕ
  batchEnd : ℕ
  /-- `report_json IS NOT NULL` -/
  delivered : Bool
  receipted : Bool
  settled : Option Verdict
deriving DecidableEq

def Batch.payoutKey (b : Batch) : String := inferencePayoutKey b.jobId b.batchStart b.batchEnd

/-- the columns of a shard and of its job that no handler rewrites -/
structure ShardFacts where
  assignmentId : String
  jobId : String
  shardIndex : ℕ
  work : WorkSpec
  systemFunded : Bool
  requester : Option String
  createdAt : ℤ
deriving DecidableEq

structure Office where
  db : Db
  facts : List ShardFacts
  batches : List Batch
  /-- every certified transaction, oldest first -/
  chain : List LedgerTransaction
  now : ℤ
deriving DecidableEq

def Office.opened : Office := ⟨.empty, [], [], [], 0⟩

/-- some transaction is certified under a claim -/
def Office.Spent (o : Office) (ck : String) : Prop := ∃ tx ∈ o.chain, claimKey tx = ck

instance (o : Office) (ck : String) : Decidable (o.Spent ck) := by unfold Office.Spent; infer_instance

/-- a transaction with this evidence is certified: what `transact` returning a certificate means -/
def Office.Certified (o : Office) (evidence : TransactionEvidence) : Prop := ∃ tx ∈ o.chain, tx.evidence = evidence

instance (o : Office) (evidence : TransactionEvidence) : Decidable (o.Certified evidence) := by
  unfold Office.Certified
  infer_instance

/-- the claim a shard's reward and its refund share -/
def rewardKey (assignmentId : String) : String := "reward:" ++ assignmentId

def reserveKey (jobId : String) : String := "reserve:" ++ jobId

/-! ## Acts -/

inductive Act where
  /-- the quorum certifies a transaction, whoever proposed it -/
  | certify (tx : LedgerTransaction)
  | tick (now : ℤ)
  | submitJob (e : JobReserveEvidence)
  | seed (e : CommunityReserveEvidence)
  /-- `submit_job` or `seed` after its reservation was certified -/
  | finalizeReservation (tx : LedgerTransaction) (entryHash : String)
  /-- `poll_work` hands a pending shard out -/
  | lease (assignmentId nodeId : String)
  /-- `poll_work` takes expired leases back -/
  | expire (assignmentIds : List String)
  /-- `report_result` on a result that does not verify -/
  | reject (assignmentId : String)
  /-- `report_result` on one that does, up to its proposal -/
  | reportResult (e : ProviderRewardEvidence)
  /-- `report_result` after its reward was certified -/
  | finalizeReward (e : ProviderRewardEvidence) (entryHash : String)
  /-- `refund_shard` after its refund was certified -/
  | refundShard (e : JobRefundEvidence) (entryHash : String)
  /-- one intent of a recovery pass, as the pass read it, and what the network said about it -/
  | recover (r : LedgerIntent) (w : IntentAnswers)
  | submitInference (e : InferenceReserveEvidence)
  | reportInference (assignmentId : String)
  /-- `receipt_inference` after its receipt was certified -/
  | receiptInference (e : InferenceReceiptEvidence)
  /-- `settle_inference` after the acceptance or the dispute was certified -/
  | acceptInference (e : InferenceRewardEvidence)
  | disputeInference (e : InferenceDisputeEvidence)
  /-- one candidate of `sweep_expired_batches`: its claim was found spent, or its expiry was certified -/
  | sweep (e : InferenceExpiryEvidence) (found : Bool)

/-- the job a reservation is for -/
def reservedJob (tx : LedgerTransaction) : Option String :=
  match tx.evidence with
  | .jobReserve e => some e.jobId
  | .communityReserve e => some e.jobId
  | _ => none

/-- the rows of a new job's shards -/
def shardFacts (c : Crypto) (jobId : String) (work : WorkSpec) (shards : ℕ) (systemFunded : Bool)
    (requester : Option String) (createdAt : ℤ) : List ShardFacts :=
  (splitWork work shards).zipIdx.map fun p =>
    ⟨assignmentId c jobId p.2, jobId, p.2, p.1, systemFunded, requester, createdAt⟩

/-- what the network says about an intent is about this chain -/
def AboutChain (o : Office) (r : LedgerIntent) (w : IntentAnswers) : Prop :=
  (match w.claim with
    | .error _ => True
    | .ok existing => existing.entryHash = none ∨ o.Spent r.claimKey) ∧
  (match w.reply, r.transactionJson with
    | .ok _, .ok tx => tx ∈ o.chain
    | _, _ => True)

instance (o : Office) (r : LedgerIntent) (w : IntentAnswers) : Decidable (AboutChain o r w) := by
  unfold AboutChain
  refine @instDecidableAnd _ _ ?_ ?_ <;> split <;> infer_instance

/-- `UPDATE … SET settled=… WHERE assignment_id=… AND settled IS NULL`, on the row a verdict was built from -/
def markSettled (batches : List Batch) (assignmentId jobId : String) (batchStart batchEnd : ℕ) (v : Verdict) :
    List Batch :=
  batches.map fun b =>
    if (b.assignmentId = assignmentId ∧ b.jobId = jobId ∧ b.batchStart = batchStart ∧ b.batchEnd = batchEnd) ∧
        b.delivered ∧ b.receipted ∧ b.settled = none then
      { b with settled := some v }
    else b

/-- `UPDATE assignments SET status=… WHERE …` -/
def setStatus (db : Db) (picks : AssignmentRow → Bool) (status : AssignmentStatus) (leasedTo : Option String) : Db :=
  { db with assignments := db.assignments.map fun a =>
      if picks a then { a with status := status, leasedTo := leasedTo } else a }

/-- the sweep goes on to its update -/
def Office.SweepSettles (o : Office) (e : InferenceExpiryEvidence) (found : Bool) : Prop :=
  found = true ∧ o.Spent (inferencePayoutKey e.jobId e.batchStart e.batchEnd) ∨
    found = false ∧ o.Certified (.inferenceExpiry e)

instance (o : Office) (e : InferenceExpiryEvidence) (found : Bool) : Decidable (o.SweepSettles e found) := by
  unfold Office.SweepSettles
  infer_instance

def Office.step (c : Crypto) (o : Office) : Act → Office
  | .certify tx => if o.Spent (claimKey tx) then o else { o with chain := o.chain ++ [tx] }
  | .tick now => if o.now ≤ now then { o with now := now } else o
  | .submitJob e =>
    match submitJob c o.db e o.now with
    | none => o
    | some db => { o with
        db := db
        facts := o.facts ++ shardFacts c e.jobId e.work e.shards false (some e.requesterAuth.nodeId) o.now }
  | .seed e =>
    match seed c o.db e o.now with
    | none => o
    | some db => { o with db := db, facts := o.facts ++ shardFacts c e.jobId e.work e.shards true none o.now }
  | .finalizeReservation tx entryHash =>
    match reservedJob tx with
    | none => o
    | some jobId =>
      if tx ∈ o.chain then { o with db := o.db.finalizeReservationDb jobId (claimKey tx) entryHash } else o
  | .lease id nodeId =>
    { o with db := setStatus o.db (fun a => a.assignmentId = id ∧ a.status = .pending) .leased (some nodeId) }
  | .expire ids =>
    { o with db := setStatus o.db (fun a => a.assignmentId ∈ ids ∧ a.status = .leased) .pending none }
  | .reject id => { o with db := setStatus o.db (fun a => a.assignmentId = id) .pending none }
  | .reportResult e =>
    match submitResult o.db e o.now with
    | none => o
    | some db => { o with db := db }
  | .finalizeReward e entryHash =>
    if o.Certified (.providerReward e) then
      match o.db.finalizeRewardDb e.assignmentId (rewardKey e.assignmentId) entryHash with
      | .error _ => o
      | .ok db => { o with db := db }
    else o
  | .refundShard e entryHash =>
    if o.Certified (.jobRefund e) then { o with db := refundShard o.db e entryHash o.now } else o
  | .recover r w =>
    if (∃ s ∈ o.db.intents, s.claimKey = r.claimKey ∧ s.kind = r.kind ∧ s.objectId = r.objectId) ∧ AboutChain o r w then
      { o with db := (recoverStep (fun _ => w) ⟨o.db, ⟨0, 0, 0⟩, []⟩ r).db }
    else o
  | .submitInference e =>
    match submitInference c o.db e o.now with
    | none => o
    | some db => { o with
        db := db
        batches := o.batches ++ e.batches.zipIdx.map fun p =>
          ⟨inferenceAssignmentId c e.jobId p.2, e.jobId, p.1.batchStart, p.1.batchEnd, false, false, none⟩ }
  | .reportInference id =>
    { o with batches := o.batches.map fun b => if b.assignmentId = id then { b with delivered := true } else b }
  | .receiptInference e =>
    if o.Certified (.inferenceReceipt e) then
      { o with batches := o.batches.map fun b =>
          if b.assignmentId = e.assignmentId ∧ b.delivered then { b with receipted := true } else b }
    else o
  | .acceptInference e =>
    if o.Certified (.inferenceReward e) then
      { o with batches := markSettled o.batches e.assignmentId e.jobId e.batchStart e.batchEnd .paid }
    else o
  | .disputeInference e =>
    if o.Certified (.inferenceDispute e) then
      { o with batches := markSettled o.batches e.assignmentId e.jobId e.batchStart e.batchEnd .disputed }
    else o
  | .sweep e found =>
    if o.SweepSettles e found then
      { o with batches := markSettled o.batches e.assignmentId e.jobId e.batchStart e.batchEnd .expired }
    else o

def Office.run (c : Crypto) (acts : List Act) : Office := acts.foldl (Office.step c) .opened

/-! ## What one act does to one shard -/

/-- every way an act can move the shard `id` from one status to another -/
inductive ShardMove (o : Office) : Act → String → AssignmentStatus → AssignmentStatus → Prop
  | stay (act : Act) (id : String) (status : AssignmentStatus) : ShardMove o act id status status
  | unblock (act : Act) (id : String) : ShardMove o act id .blocked .pending
  | lease (id nodeId : String) : ShardMove o (.lease id nodeId) id .pending .leased
  | expire (ids : List String) (id : String) : ShardMove o (.expire ids) id .leased .pending
  | reject (id : String) (status : AssignmentStatus) : ShardMove o (.reject id) id status .pending
  | settle (e : ProviderRewardEvidence) : ShardMove o (.reportResult e) e.assignmentId .leased .settling
  | pay {e : ProviderRewardEvidence} (entryHash : String) (h : o.Certified (.providerReward e)) :
      ShardMove o (.finalizeReward e entryHash) e.assignmentId .settling .completed
  | recover {r : LedgerIntent} (w : IntentAnswers) (hkind : r.kind = .providerReward)
      (hrow : ∃ s ∈ o.db.intents, s.claimKey = r.claimKey ∧ s.kind = r.kind ∧ s.objectId = r.objectId)
      (hspent : o.Spent r.claimKey) : ShardMove o (.recover r w) r.objectId .settling .completed
  | refund {e : JobRefundEvidence} (entryHash : String) (status : AssignmentStatus) (h : o.Certified (.jobRefund e)) :
      ShardMove o (.refundShard e entryHash) e.assignmentId status .refunded

section

variable {c : Crypto} {o : Office} {db db' : Db}

@[simp] theorem persist_assignments (db : Db) (ck : String) (kind : IntentKind) (id : String) (tx : LedgerTransaction)
    (now : ℤ) : (db.persistLedgerIntent ck kind id tx now).assignments = db.assignments := by
  unfold Db.persistLedgerIntent
  split_ifs <;> rfl

@[simp] theorem certify_assignments (db : Db) (ck entryHash : String) :
    (db.certifyLedgerIntent ck entryHash).assignments = db.assignments := rfl

theorem finalizeReward_assignments {id ck entryHash : String} (h : db.finalizeRewardDb id ck entryHash = .ok db') :
    db'.assignments = db.assignments.map fun a =>
      if a.assignmentId = id ∧ a.status = .settling then { a with status := .completed } else a := by
  unfold Db.finalizeRewardDb at h
  dsimp only at h
  split at h
  · cases h
  · cases h
    simp [closeSettledJob_assignments]

theorem refundShard_assignments (db : Db) (e : JobRefundEvidence) (entryHash : String) (now : ℤ) :
    (refundShard db e entryHash now).assignments = db.assignments.map fun a =>
      if a.assignmentId = e.assignmentId then { a with status := .refunded } else a := by
  simp [refundShard, closeSettledJob_assignments]

theorem submitResult_assignments {e : ProviderRewardEvidence} {now : ℤ} (h : submitResult db e now = some db') :
    db'.assignments = db.assignments.map fun a =>
      if a.assignmentId = e.assignmentId ∧ a.status = .leased ∧ a.leasedTo = some e.providerAuth.nodeId then
        { a with status := .settling }
      else a := by
  simp only [submitResult] at h
  split_ifs at h with hleased
  cases h
  simp

theorem insertJob_assignments {jobs jobs' : List JobRow} {rows rows' : List AssignmentRow} {jobId : String}
    {ids : List String} (h : insertJob jobs rows jobId ids = some (jobs', rows')) :
    rows' = rows ++ (ids.map fun id => ⟨id, jobId, .blocked, none⟩) ∧ ∀ a ∈ rows, a.assignmentId ∉ ids := by
  unfold insertJob at h
  split_ifs at h with hclash
  cases h
  refine ⟨rfl, ?_⟩
  intro a ha hin
  exact hclash (Or.inr (Or.inl ⟨a, ha, hin⟩))

theorem recoverStep_rows (w : IntentAnswers) (db : Db) (r : LedgerIntent) :
    (recoverStep (fun _ => w) ⟨db, ⟨0, 0, 0⟩, []⟩ r).db.assignments = (recoverOne db r w).1.assignments := by
  unfold recoverStep
  dsimp only
  split
  · rfl
  · split_ifs <;> rfl
  · rfl

/-- a pass changes something for an intent only when the network vouches for an entry under its claim -/
theorem recoverOne_cases (db : Db) (r : LedgerIntent) (w : IntentAnswers) :
    (recoverOne db r w).1 = db ∨ ∃ tx existing hash db', r.transactionJson = .ok tx ∧ claimKey tx = r.claimKey ∧
      w.claim = .ok existing ∧ w.entryHash existing.entryHash = .ok hash ∧ recordSettled db r hash = .ok db' ∧
      (recoverOne db r w).1 = db' := by
  unfold recoverOne
  split
  · exact Or.inl rfl
  · rename_i tx htx
    split_ifs with hck hkind
    · exact Or.inl rfl
    · exact Or.inl rfl
    · split
      · exact Or.inl rfl
      · rename_i existing hclaim
        dsimp only
        split
        · exact Or.inl rfl
        · rename_i hash hhash
          split
          · exact Or.inl rfl
          · rename_i db' hrec
            exact Or.inr ⟨tx, existing, hash, db', htx, by simpa using hck, hclaim, hhash, hrec, rfl⟩

theorem recordSettled_assignments {r : LedgerIntent} {hash : String} (h : recordSettled db r hash = .ok db')
    {a' : AssignmentRow} (ha' : a' ∈ db'.assignments) :
    ∃ a ∈ db.assignments, a'.assignmentId = a.assignmentId ∧
      (a'.status = a.status ∨ a.status = .blocked ∧ a'.status = .pending ∨
        r.kind = .providerReward ∧ a.assignmentId = r.objectId ∧ a.status = .settling ∧ a'.status = .completed) := by
  unfold recordSettled at h
  split at h
  · rename_i hkind
    rw [finalizeReward_assignments h] at ha'
    obtain ⟨a, ha, rfl⟩ := List.mem_map.1 ha'
    refine ⟨a, ha, ?_⟩
    split_ifs with hpick
    · exact ⟨rfl, Or.inr (Or.inr ⟨hkind, hpick.1, hpick.2, rfl⟩)⟩
    · exact ⟨rfl, Or.inl rfl⟩
  · cases h
    obtain ⟨a, ha, rfl⟩ := List.mem_map.1 ha'
    refine ⟨a, ha, ?_⟩
    split_ifs with hpick
    · exact ⟨rfl, Or.inr (Or.inl ⟨hpick.2, rfl⟩)⟩
    · exact ⟨rfl, Or.inl rfl⟩

/-- an entry the network vouches for is on the chain -/
theorem AboutChain.spent {r : LedgerIntent} {w : IntentAnswers} (h : AboutChain o r w) {tx : LedgerTransaction}
    {existing : ClaimProof} {hash : String} (htx : r.transactionJson = .ok tx) (hck : claimKey tx = r.claimKey)
    (hclaim : w.claim = .ok existing) (hhash : w.entryHash existing.entryHash = .ok hash) : o.Spent r.claimKey := by
  obtain ⟨hfound, hreply⟩ := h
  rw [hclaim] at hfound
  rw [htx] at hreply
  cases hentry : existing.entryHash with
  | some _ => exact hfound.resolve_left (by simp [hentry])
  | none =>
    rw [hentry] at hhash
    cases hcert : w.reply with
    | error e => simp [IntentAnswers.entryHash, hcert] at hhash; cases hhash
    | ok cert =>
      rw [hcert] at hreply
      exact ⟨tx, hreply, hck⟩

/-- the act writes a new job down -/
def Act.opens : Act → Prop
  | .submitJob _ | .seed _ => True
  | _ => False

/-- rows of a new job -/
theorem insertJob_fresh {jobs jobs' : List JobRow} {rows rows' : List AssignmentRow} {jobId : String} {ids : List String}
    (h : insertJob jobs rows jobId ids = some (jobs', rows')) {a' : AssignmentRow} (ha' : a' ∈ rows') :
    a' ∈ rows ∨ a'.status = .blocked ∧ ∀ a ∈ rows, a.assignmentId ≠ a'.assignmentId := by
  obtain ⟨rfl, hfresh⟩ := insertJob_assignments h
  rcases List.mem_append.1 ha' with hold | hnew
  · exact Or.inl hold
  · obtain ⟨id, hid, rfl⟩ := List.mem_map.1 hnew
    refine Or.inr ⟨rfl, ?_⟩
    intro a ha heq
    exact hfresh a ha (heq ▸ hid)

theorem submitJob_ok {e : JobReserveEvidence} {now : ℤ} (h : submitJob c db e now = some db') :
    ∃ jobs rows ids, insertJob db.jobs db.assignments e.jobId ids = some (jobs, rows) ∧
      ids = (List.range (splitWork e.work e.shards).length).map (assignmentId c e.jobId) ∧
      db' = { db with jobs := jobs, assignments := rows }.persistLedgerIntent (claimKey (jobReserveTransaction e now))
        .jobReserve e.jobId (jobReserveTransaction e now) now := by
  simp only [submitJob, Option.bind_eq_bind, Option.bind_eq_some_iff, Option.pure_def, Option.some.injEq] at h
  obtain ⟨⟨jobs, rows⟩, hins, rfl⟩ := h
  exact ⟨jobs, rows, _, hins, rfl, rfl⟩

theorem seed_ok {e : CommunityReserveEvidence} {now : ℤ} (h : seed c db e now = some db') :
    ∃ jobs rows ids, insertJob db.jobs db.assignments e.jobId ids = some (jobs, rows) ∧
      ids = (List.range (splitWork e.work e.shards).length).map (assignmentId c e.jobId) ∧
      db' = { db with jobs := jobs, assignments := rows }.persistLedgerIntent
        (claimKey (communityReserveTransaction e now)) .communityReserve e.jobId (communityReserveTransaction e now) now := by
  simp only [seed, Option.bind_eq_bind, Option.bind_eq_some_iff, Option.pure_def, Option.some.injEq] at h
  obtain ⟨⟨jobs, rows⟩, hins, rfl⟩ := h
  exact ⟨jobs, rows, _, hins, rfl, rfl⟩

theorem submitInference_ok {e : InferenceReserveEvidence} {now : ℤ} (h : submitInference c db e now = some db') :
    ∃ aiJobs aiRows, db' = { db with aiJobs := aiJobs, aiAssignments := aiRows }.persistLedgerIntent
      (claimKey (inferenceReserveTransaction e now)) .inferenceReserve e.jobId (inferenceReserveTransaction e now) now := by
  simp only [submitInference, Option.bind_eq_bind, Option.bind_eq_some_iff, Option.pure_def, Option.some.injEq] at h
  obtain ⟨⟨aiJobs, aiRows⟩, _, rfl⟩ := h
  exact ⟨aiJobs, aiRows, rfl⟩

/-- **Step.** The shards after an act: one of a job that has just been written down, still blocked, or one that was there,
moved in one of the ways of `ShardMove`. -/
theorem step_shard {act : Act} {a' : AssignmentRow} (h : a' ∈ (o.step c act).db.assignments) :
    (act.opens ∧ a'.status = .blocked ∧ ∀ a ∈ o.db.assignments, a.assignmentId ≠ a'.assignmentId) ∨
      ∃ a ∈ o.db.assignments, a'.assignmentId = a.assignmentId ∧ ShardMove o act a.assignmentId a.status a'.status := by
  have hstay : a' ∈ o.db.assignments → (act.opens ∧ a'.status = .blocked ∧
      ∀ a ∈ o.db.assignments, a.assignmentId ≠ a'.assignmentId) ∨
      ∃ a ∈ o.db.assignments, a'.assignmentId = a.assignmentId ∧ ShardMove o act a.assignmentId a.status a'.status :=
    fun ha => Or.inr ⟨a', ha, rfl, .stay ..⟩
  cases act with
  | certify tx =>
    simp only [Office.step] at h
    split_ifs at h <;> exact hstay h
  | tick now =>
    simp only [Office.step] at h
    split_ifs at h <;> exact hstay h
  | submitJob e =>
    simp only [Office.step] at h
    split at h
    · exact hstay h
    · rename_i db hdb
      obtain ⟨jobs, rows, ids, hins, _, rfl⟩ := submitJob_ok hdb
      rw [persist_assignments] at h
      rcases insertJob_fresh hins h with hold | hnew
      · exact hstay hold
      · exact Or.inl ⟨trivial, hnew⟩
  | seed e =>
    simp only [Office.step] at h
    split at h
    · exact hstay h
    · rename_i db hdb
      obtain ⟨jobs, rows, ids, hins, _, rfl⟩ := seed_ok hdb
      rw [persist_assignments] at h
      rcases insertJob_fresh hins h with hold | hnew
      · exact hstay hold
      · exact Or.inl ⟨trivial, hnew⟩
  | finalizeReservation tx entryHash =>
    simp only [Office.step] at h
    split at h
    · exact hstay h
    · split_ifs at h
      · obtain ⟨a, ha, rfl⟩ := List.mem_map.1 h
        refine Or.inr ⟨a, ha, ?_⟩
        split_ifs with hpick
        · exact ⟨rfl, hpick.2 ▸ .unblock ..⟩
        · exact ⟨rfl, .stay ..⟩
      · exact hstay h
  | lease id nodeId =>
    obtain ⟨a, ha, rfl⟩ := List.mem_map.1 h
    refine Or.inr ⟨a, ha, ?_⟩
    split_ifs with hpick
    · obtain ⟨rfl, hp⟩ := of_decide_eq_true hpick
      exact ⟨rfl, hp ▸ .lease ..⟩
    · exact ⟨rfl, .stay ..⟩
  | expire ids =>
    obtain ⟨a, ha, rfl⟩ := List.mem_map.1 h
    refine Or.inr ⟨a, ha, ?_⟩
    split_ifs with hpick
    · obtain ⟨_, hl⟩ := of_decide_eq_true hpick
      exact ⟨rfl, hl ▸ .expire ..⟩
    · exact ⟨rfl, .stay ..⟩
  | reject id =>
    obtain ⟨a, ha, rfl⟩ := List.mem_map.1 h
    refine Or.inr ⟨a, ha, ?_⟩
    split_ifs with hpick
    · obtain rfl := of_decide_eq_true hpick
      exact ⟨rfl, .reject ..⟩
    · exact ⟨rfl, .stay ..⟩
  | reportResult e =>
    simp only [Office.step] at h
    split at h
    · exact hstay h
    · rename_i db hdb
      rw [submitResult_assignments hdb] at h
      obtain ⟨a, ha, rfl⟩ := List.mem_map.1 h
      refine Or.inr ⟨a, ha, ?_⟩
      split_ifs with hpick
      · obtain ⟨hid, hl, _⟩ := hpick
        exact ⟨rfl, hid ▸ hl ▸ .settle e⟩
      · exact ⟨rfl, .stay ..⟩
  | finalizeReward e entryHash =>
    simp only [Office.step] at h
    split_ifs at h with hcert
    · split at h
      · exact hstay h
      · rename_i db hdb
        rw [finalizeReward_assignments hdb] at h
        obtain ⟨a, ha, rfl⟩ := List.mem_map.1 h
        refine Or.inr ⟨a, ha, ?_⟩
        split_ifs with hpick
        · exact ⟨rfl, hpick.1 ▸ hpick.2 ▸ .pay entryHash hcert⟩
        · exact ⟨rfl, .stay ..⟩
    · exact hstay h
  | refundShard e entryHash =>
    simp only [Office.step] at h
    split_ifs at h with hcert
    · rw [refundShard_assignments] at h
      obtain ⟨a, ha, rfl⟩ := List.mem_map.1 h
      refine Or.inr ⟨a, ha, ?_⟩
      split_ifs with hpick
      · exact ⟨rfl, hpick ▸ .refund entryHash _ hcert⟩
      · exact ⟨rfl, .stay ..⟩
    · exact hstay h
  | recover r w =>
    simp only [Office.step] at h
    split_ifs at h with hguard
    · rw [recoverStep_rows] at h
      rcases recoverOne_cases o.db r w with hsame | ⟨tx, existing, hash, db', htx, hck, hclaim, hhash, hrec, hout⟩
      · rw [hsame] at h
        exact hstay h
      · rw [hout] at h
        obtain ⟨a, ha, hid, hmove⟩ := recordSettled_assignments hrec h
        refine Or.inr ⟨a, ha, hid, ?_⟩
        rcases hmove with heq | ⟨hb, hp⟩ | ⟨hkind, hobj, hs, hc⟩
        · exact heq ▸ .stay ..
        · exact hb ▸ hp ▸ .unblock ..
        · exact hobj ▸ hs ▸ hc ▸ .recover w hkind hguard.1 (hguard.2.spent htx hck hclaim hhash)
    · exact hstay h
  | submitInference e =>
    simp only [Office.step] at h
    split at h
    · exact hstay h
    · rename_i db hdb
      obtain ⟨_, _, rfl⟩ := submitInference_ok hdb
      rw [persist_assignments] at h
      exact hstay h
  | reportInference id => exact hstay h
  | receiptInference e =>
    simp only [Office.step] at h
    split_ifs at h <;> exact hstay h
  | acceptInference e =>
    simp only [Office.step] at h
    split_ifs at h <;> exact hstay h
  | disputeInference e =>
    simp only [Office.step] at h
    split_ifs at h <;> exact hstay h
  | sweep e found =>
    simp only [Office.step] at h
    split_ifs at h <;> exact hstay h

/-! ## Which claim an intent is filed under -/

/-- the same intent, whatever became of it -/
structure SameIntent (r r' : LedgerIntent) : Prop where
  claimKey : r'.claimKey = r.claimKey
  kind : r'.kind = r.kind
  objectId : r'.objectId = r.objectId

theorem persist_intents {ck id : String} {kind : IntentKind} {tx : LedgerTransaction} {now : ℤ} {r' : LedgerIntent}
    (h : r' ∈ (db.persistLedgerIntent ck kind id tx now).intents) :
    (∃ r ∈ db.intents, SameIntent r r') ∨ r'.claimKey = ck ∧ r'.kind = kind ∧ r'.objectId = id := by
  unfold Db.persistLedgerIntent at h
  split_ifs at h
  · obtain ⟨r, hr, rfl⟩ := List.mem_map.1 h
    refine Or.inl ⟨r, hr, ?_⟩
    split_ifs <;> exact ⟨rfl, rfl, rfl⟩
  · rcases List.mem_append.1 h with hold | hnew
    · exact Or.inl ⟨r', hold, rfl, rfl, rfl⟩
    · rw [List.mem_singleton.1 hnew]
      exact Or.inr ⟨rfl, rfl, rfl⟩

theorem Eases.sameIntent {keys : List String} (he : Eases keys db db') {r' : LedgerIntent} (h : r' ∈ db'.intents) :
    ∃ r ∈ db.intents, SameIntent r r' := by
  obtain ⟨r, hr, hkept, _⟩ := he.intents.before h
  exact ⟨r, hr, hkept.claimKey, hkept.kind, hkept.objectId⟩

theorem refundShard_intents (db : Db) (e : JobRefundEvidence) (entryHash : String) (now : ℤ) :
    (refundShard db e entryHash now).intents =
      ((db.persistLedgerIntent (claimKey (jobRefundTransaction e now)) .jobRefund e.assignmentId
        (jobRefundTransaction e now) now).certifyLedgerIntent (claimKey (jobRefundTransaction e now)) entryHash).intents := by
  simp only [refundShard, Db.closeSettledJob]
  split_ifs <;> rfl

/-- **Step.** A reward's intent is filed under its own shard's claim. -/
theorem step_intent {act : Act} {r' : LedgerIntent} (h : r' ∈ (o.step c act).db.intents) :
    (∃ r ∈ o.db.intents, SameIntent r r') ∨ (r'.kind = .providerReward → r'.claimKey = rewardKey r'.objectId) := by
  have hstay : r' ∈ o.db.intents → (∃ r ∈ o.db.intents, SameIntent r r') ∨
      (r'.kind = .providerReward → r'.claimKey = rewardKey r'.objectId) := fun hr => Or.inl ⟨r', hr, rfl, rfl, rfl⟩
  have hother : ∀ kind, kind ≠ IntentKind.providerReward → r'.kind = kind →
      (∃ r ∈ o.db.intents, SameIntent r r') ∨ (r'.kind = .providerReward → r'.claimKey = rewardKey r'.objectId) :=
    fun kind hne hkind => Or.inr fun hrew => absurd (hkind.symm.trans hrew) hne
  cases act with
  | certify tx =>
    simp only [Office.step] at h
    split_ifs at h <;> exact hstay h
  | tick now =>
    simp only [Office.step] at h
    split_ifs at h <;> exact hstay h
  | submitJob e =>
    simp only [Office.step] at h
    split at h
    · exact hstay h
    · rename_i db hdb
      obtain ⟨jobs, rows, ids, _, _, rfl⟩ := submitJob_ok hdb
      rcases persist_intents h with hold | ⟨_, hkind, _⟩
      · exact Or.inl hold
      · exact hother _ (by decide) hkind
  | seed e =>
    simp only [Office.step] at h
    split at h
    · exact hstay h
    · rename_i db hdb
      obtain ⟨jobs, rows, ids, _, _, rfl⟩ := seed_ok hdb
      rcases persist_intents h with hold | ⟨_, hkind, _⟩
      · exact Or.inl hold
      · exact hother _ (by decide) hkind
  | finalizeReservation tx entryHash =>
    simp only [Office.step] at h
    split at h
    · exact hstay h
    · split_ifs at h
      · exact Or.inl ((eases_finalizeReservation _ _ _ _).sameIntent h)
      · exact hstay h
  | lease id nodeId => exact hstay h
  | expire ids => exact hstay h
  | reject id => exact hstay h
  | reportResult e =>
    simp only [Office.step] at h
    split at h
    · exact hstay h
    · rename_i db hdb
      simp only [submitResult] at hdb
      split_ifs at hdb
      cases hdb
      rcases persist_intents h with hold | ⟨hck, _, hid⟩
      · exact Or.inl hold
      · refine Or.inr fun _ => ?_
        rw [hck, hid]
        rfl
  | finalizeReward e entryHash =>
    simp only [Office.step] at h
    split_ifs at h
    · split at h
      · exact hstay h
      · rename_i db hdb
        exact Or.inl ((eases_finalizeReward hdb).sameIntent h)
    · exact hstay h
  | refundShard e entryHash =>
    simp only [Office.step] at h
    split_ifs at h
    · rw [refundShard_intents] at h
      obtain ⟨s, hs, hsame⟩ := (eases_certify _ _ _).sameIntent h
      rcases persist_intents hs with ⟨r, hr, hkept⟩ | ⟨_, hkind, _⟩
      · exact Or.inl ⟨r, hr, hsame.claimKey.trans hkept.claimKey, hsame.kind.trans hkept.kind,
          hsame.objectId.trans hkept.objectId⟩
      · exact hother _ (by decide) (hsame.kind.trans hkind)
    · exact hstay h
  | recover r w =>
    simp only [Office.step] at h
    split_ifs at h
    · exact Or.inl ((eases_recoverStep _ _ _).sameIntent h)
    · exact hstay h
  | submitInference e =>
    simp only [Office.step] at h
    split at h
    · exact hstay h
    · rename_i db hdb
      obtain ⟨_, _, rfl⟩ := submitInference_ok hdb
      rcases persist_intents h with hold | ⟨_, hkind, _⟩
      · exact Or.inl hold
      · exact hother _ (by decide) hkind
  | reportInference id => exact hstay h
  | receiptInference e =>
    simp only [Office.step] at h
    split_ifs at h <;> exact hstay h
  | acceptInference e =>
    simp only [Office.step] at h
    split_ifs at h <;> exact hstay h
  | disputeInference e =>
    simp only [Office.step] at h
    split_ifs at h <;> exact hstay h
  | sweep e found =>
    simp only [Office.step] at h
    split_ifs at h <;> exact hstay h

/-! ## What an act does to the chain and to a batch -/

theorem step_chain (c : Crypto) (o : Office) (act : Act) : (o.step c act).chain = o.chain ∨
    ∃ tx, act = .certify tx ∧ ¬ o.Spent (claimKey tx) ∧ (o.step c act).chain = o.chain ++ [tx] := by
  cases act with
  | certify tx =>
    simp only [Office.step]
    split_ifs with hspent
    · exact Or.inl rfl
    · exact Or.inr ⟨tx, rfl, hspent, rfl⟩
  | _ =>
    left
    simp only [Office.step]
    repeat' split
    all_goals rfl

/-- what a certified settlement of a batch says -/
def Verdict.kind : Verdict → TransactionKind
  | .paid => .inferenceReward
  | .disputed => .inferenceDispute
  | .expired => .inferenceExpiry

/-- the kind of a transaction, by its evidence; what is certified has the `kind` field of its evidence -/
def kindOf (tx : LedgerTransaction) : TransactionKind :=
  match tx.evidence with
  | .jobReserve _ => .jobReserve
  | .communityReserve _ => .communityReserve
  | .providerReward _ => .providerReward
  | .jobRefund _ => .jobRefund
  | .inferenceReserve _ => .inferenceReserve
  | .inferenceReceipt _ => .inferenceReceipt
  | .inferenceReward _ => .inferenceReward
  | .inferenceDispute _ => .inferenceDispute
  | .inferenceExpiry _ => .inferenceExpiry
  | .inferenceRefund _ => .inferenceRefund
  | .membershipChange _ => .membershipChange

/-- the row the sweep has a candidate from -/
def Batch.SweptBy (b : Batch) (e : InferenceExpiryEvidence) : Prop :=
  (b.assignmentId = e.assignmentId ∧ b.jobId = e.jobId ∧ b.batchStart = e.batchStart ∧ b.batchEnd = e.batchEnd) ∧
    b.delivered ∧ b.receipted ∧ b.settled = none

/-- every way an act can write a verdict down -/
inductive BatchMove (o : Office) : Act → Batch → Verdict → Prop
  | ruled {act : Act} {b : Batch} {v : Verdict} (h : ∃ tx ∈ o.chain, claimKey tx = b.payoutKey ∧ kindOf tx = v.kind) :
      BatchMove o act b v
  | found {e : InferenceExpiryEvidence} {b : Batch} (hswept : b.SweptBy e) (h : o.Spent b.payoutKey) :
      BatchMove o (.sweep e true) b .expired

theorem markSettled_batch {batches : List Batch} {id jobId : String} {first last : ℕ} {v : Verdict} {b' : Batch}
    (h : b' ∈ markSettled batches id jobId first last v) : ∃ b ∈ batches, b'.payoutKey = b.payoutKey ∧
      (b'.settled = b.settled ∨ b'.settled = some v ∧ b.payoutKey = inferencePayoutKey jobId first last ∧
        (b.assignmentId = id ∧ b.jobId = jobId ∧ b.batchStart = first ∧ b.batchEnd = last) ∧ b.delivered ∧ b.receipted ∧
          b.settled = none) := by
  obtain ⟨b, hb, rfl⟩ := List.mem_map.1 h
  refine ⟨b, hb, ?_⟩
  split_ifs with hpick
  · refine ⟨rfl, Or.inr ⟨rfl, ?_, hpick⟩⟩
    obtain ⟨⟨_, rfl, rfl, rfl⟩, _⟩ := hpick
    rfl
  · exact ⟨rfl, Or.inl rfl⟩

/-- **Step.** The batches after an act: one of a job that has just been written down, unsettled, or one that was there,
with the verdict it had or one of the ways of `BatchMove`. -/
theorem step_batch {act : Act} {b' : Batch} (h : b' ∈ (o.step c act).batches) :
    b'.settled = none ∨ ∃ b ∈ o.batches, b'.payoutKey = b.payoutKey ∧
      (b'.settled = b.settled ∨ ∃ v, b'.settled = some v ∧ BatchMove o act b v) := by
  have hstay : b' ∈ o.batches → b'.settled = none ∨ ∃ b ∈ o.batches, b'.payoutKey = b.payoutKey ∧
      (b'.settled = b.settled ∨ ∃ v, b'.settled = some v ∧ BatchMove o act b v) :=
    fun hb => Or.inr ⟨b', hb, rfl, Or.inl rfl⟩
  cases act with
  | submitInference e =>
    simp only [Office.step] at h
    split at h
    · exact hstay h
    · rcases List.mem_append.1 h with hold | hnew
      · exact hstay hold
      · obtain ⟨p, _, rfl⟩ := List.mem_map.1 hnew
        exact Or.inl rfl
  | reportInference id =>
    obtain ⟨b, hb, rfl⟩ := List.mem_map.1 h
    refine Or.inr ⟨b, hb, ?_⟩
    split_ifs <;> exact ⟨rfl, Or.inl rfl⟩
  | receiptInference e =>
    simp only [Office.step] at h
    split_ifs at h
    · obtain ⟨b, hb, rfl⟩ := List.mem_map.1 h
      refine Or.inr ⟨b, hb, ?_⟩
      split_ifs <;> exact ⟨rfl, Or.inl rfl⟩
    · exact hstay h
  | acceptInference e =>
    simp only [Office.step] at h
    split_ifs at h with hcert
    · obtain ⟨b, hb, hkey, hset | ⟨hset, hnames, _⟩⟩ := markSettled_batch h
      · exact Or.inr ⟨b, hb, hkey, Or.inl hset⟩
      · obtain ⟨tx, htx, hev⟩ := hcert
        refine Or.inr ⟨b, hb, hkey, Or.inr ⟨.paid, hset, .ruled ⟨tx, htx, ?_, ?_⟩⟩⟩
        · simp only [claimKey, hev, hnames]
        · simp only [kindOf, hev, Verdict.kind]
    · exact hstay h
  | disputeInference e =>
    simp only [Office.step] at h
    split_ifs at h with hcert
    · obtain ⟨b, hb, hkey, hset | ⟨hset, hnames, _⟩⟩ := markSettled_batch h
      · exact Or.inr ⟨b, hb, hkey, Or.inl hset⟩
      · obtain ⟨tx, htx, hev⟩ := hcert
        refine Or.inr ⟨b, hb, hkey, Or.inr ⟨.disputed, hset, .ruled ⟨tx, htx, ?_, ?_⟩⟩⟩
        · simp only [claimKey, hev, hnames]
        · simp only [kindOf, hev, Verdict.kind]
    · exact hstay h
  | sweep e found =>
    simp only [Office.step] at h
    split_ifs at h with hgo
    · obtain ⟨b, hb, hkey, hset | ⟨hset, hnames, hswept⟩⟩ := markSettled_batch h
      · exact Or.inr ⟨b, hb, hkey, Or.inl hset⟩
      · refine Or.inr ⟨b, hb, hkey, Or.inr ⟨.expired, hset, ?_⟩⟩
        rcases hgo with ⟨rfl, hspent⟩ | ⟨_, tx, htx, hev⟩
        · exact .found hswept (hnames ▸ hspent)
        · refine .ruled ⟨tx, htx, ?_, ?_⟩
          · simp only [claimKey, hev, hnames]
          · simp only [kindOf, hev, Verdict.kind]
    · exact hstay h
  | _ =>
    apply hstay
    simp only [Office.step] at h
    repeat' split at h
    all_goals exact h

/-! ## The record is the chain's -/

/-- what is certified under the claim, and all that is, has this kind -/
def Office.SettledAs (o : Office) (ck : String) (kind : TransactionKind) : Prop :=
  o.Spent ck ∧ ∀ tx ∈ o.chain, claimKey tx = ck → kindOf tx = kind

/-- every outcome the coordinator has written down is the chain's -/
structure Office.Faithful (o : Office) : Prop where
  completed : ∀ a ∈ o.db.assignments, a.status = .completed → o.SettledAs (rewardKey a.assignmentId) .providerReward
  refunded : ∀ a ∈ o.db.assignments, a.status = .refunded → o.SettledAs (rewardKey a.assignmentId) .jobRefund
  settled : ∀ b ∈ o.batches, ∀ v, b.settled = some v → o.SettledAs b.payoutKey v.kind

/-- the two acts that learn of an entry without looking at it: a recovery pass on a shard that is settling, and the sweep
on a batch nobody settled here; what they find is what they write down -/
def Office.Corresponds (o : Office) : Act → Prop
  | .recover r _ => r.kind = .providerReward → (∃ a ∈ o.db.assignments, a.assignmentId = r.objectId ∧ a.status = .settling) →
      ∀ tx ∈ o.chain, claimKey tx = r.claimKey → kindOf tx = .providerReward
  | .sweep e true => (∃ b ∈ o.batches, b.SweptBy e) →
      ∀ tx ∈ o.chain, claimKey tx = inferencePayoutKey e.jobId e.batchStart e.batchEnd → kindOf tx = .inferenceExpiry
  | _ => True

/-- what every act keeps: one transaction a claim, and rewards filed under their shard's claim -/
structure Office.Filed (o : Office) : Prop where
  claims : (o.chain.map claimKey).Nodup
  intents : ∀ r ∈ o.db.intents, r.kind = .providerReward → r.claimKey = rewardKey r.objectId

theorem Office.Filed.step (h : o.Filed) (act : Act) : (o.step c act).Filed where
  claims := by
    rcases step_chain c o act with heq | ⟨tx, _, hfree, heq⟩
    · rw [heq]
      exact h.claims
    · rw [heq, List.map_append, List.map_singleton]
      refine List.nodup_append.2 ⟨h.claims, List.nodup_singleton _, ?_⟩
      intro x hx y hy hxy
      obtain ⟨t, ht, rfl⟩ := List.mem_map.1 hx
      exact hfree ⟨t, ht, hxy.trans (List.mem_singleton.1 hy)⟩
  intents := by
    intro r' hr' hkind
    rcases step_intent hr' with ⟨r, hr, hsame⟩ | hnew
    · rw [hsame.claimKey, hsame.objectId]
      exact h.intents r hr (hsame.kind ▸ hkind)
    · exact hnew hkind

/-- a certified transaction decides its claim -/
theorem Office.Filed.settledAs (h : o.Filed) {tx : LedgerTransaction} (htx : tx ∈ o.chain) {ck : String}
    (hck : claimKey tx = ck) {kind : TransactionKind} (hkind : kindOf tx = kind) : o.SettledAs ck kind := by
  refine ⟨⟨tx, htx, hck⟩, ?_⟩
  intro t ht hkey
  have : t = tx := List.inj_on_of_nodup_map h.claims ht htx (hkey.trans hck.symm)
  rw [this, hkind]

/-- what a claim was settled as, it stays -/
theorem Office.SettledAs.step {ck : String} {kind : TransactionKind} (h : o.SettledAs ck kind) (act : Act) :
    (o.step c act).SettledAs ck kind := by
  obtain ⟨⟨tx, htx, hck⟩, hall⟩ := h
  rcases step_chain c o act with heq | ⟨t, _, hfree, heq⟩
  · refine ⟨⟨tx, heq ▸ htx, hck⟩, ?_⟩
    rw [heq]
    exact hall
  · refine ⟨⟨tx, heq ▸ List.mem_append_left _ htx, hck⟩, ?_⟩
    rw [heq]
    intro s hs hkey
    rcases List.mem_append.1 hs with hold | hnew
    · exact hall s hold hkey
    · rw [List.mem_singleton.1 hnew] at hkey
      exact absurd ⟨tx, htx, hck.trans hkey.symm⟩ hfree

theorem Office.Faithful.step (h : o.Faithful) (hf : o.Filed) {act : Act} (hc : o.Corresponds act) :
    (o.step c act).Faithful where
  completed := by
    intro a' ha' hst
    rcases step_shard ha' with ⟨_, hblocked, _⟩ | ⟨a, ha, hid, hmove⟩
    · rw [hblocked] at hst
      cases hst
    · apply Office.SettledAs.step
      rw [hst] at hmove
      rw [hid]
      generalize hstatus : a.status = status at hmove
      generalize hname : a.assignmentId = id at hmove
      cases hmove with
      | stay => exact hname ▸ h.completed a ha hstatus
      | @pay e entryHash hcert =>
        obtain ⟨tx, htx, hev⟩ := hcert
        exact hf.settledAs htx (by simp only [claimKey, hev, rewardKey]) (by simp only [kindOf, hev])
      | @recover r w hkind hrow hspent =>
        obtain ⟨s, hs, hck, hk, hobj⟩ := hrow
        have hkey : r.claimKey = rewardKey r.objectId := by
          rw [← hck, ← hobj]
          exact hf.intents s hs (hk.trans hkind)
        refine ⟨hkey ▸ hspent, ?_⟩
        rw [← hkey]
        exact hc hkind ⟨a, ha, hname, hstatus⟩
  refunded := by
    intro a' ha' hst
    rcases step_shard ha' with ⟨_, hblocked, _⟩ | ⟨a, ha, hid, hmove⟩
    · rw [hblocked] at hst
      cases hst
    · apply Office.SettledAs.step
      rw [hst] at hmove
      rw [hid]
      generalize hstatus : a.status = status at hmove
      generalize hname : a.assignmentId = id at hmove
      cases hmove with
      | stay => exact hname ▸ h.refunded a ha hstatus
      | @refund e entryHash _ hcert =>
        obtain ⟨tx, htx, hev⟩ := hcert
        exact hf.settledAs htx (by simp only [claimKey, hev, rewardKey]) (by simp only [kindOf, hev])
  settled := by
    intro b' hb' v hv
    rcases step_batch hb' with hnone | ⟨b, hb, hkey, hsame | ⟨v', hv', hmove⟩⟩
    · rw [hnone] at hv
      cases hv
    · rw [hkey]
      exact (h.settled b hb v (hsame ▸ hv)).step act
    · obtain rfl : v' = v := Option.some.inj (hv'.symm.trans hv)
      rw [hkey]
      apply Office.SettledAs.step
      cases hmove with
      | ruled hruled =>
        obtain ⟨tx, htx, hck, hkind⟩ := hruled
        exact hf.settledAs htx hck hkind
      | @found e _ hswept hspent =>
        have hnames := hswept.1
        obtain ⟨_, hjob, hfirst, hlast⟩ := hnames
        refine ⟨hspent, ?_⟩
        simp only [Batch.payoutKey, hjob, hfirst, hlast]
        exact hc ⟨b, hb, hswept⟩

theorem run_snoc (c : Crypto) (acts : List Act) (act : Act) :
    Office.run c (acts ++ [act]) = (Office.run c acts).step c act := by
  rw [Office.run, List.foldl_append]
  rfl

/-- the acts of a run meet a condition, each in the state it meets -/
def EachAct (c : Crypto) (meets : Office → Act → Prop) (acts : List Act) : Prop :=
  ∀ i act, acts[i]? = some act → meets (Office.run c (acts.take i)) act

theorem EachAct.snoc {meets : Office → Act → Prop} {acts : List Act} {act : Act} (h : EachAct c meets (acts ++ [act])) :
    EachAct c meets acts ∧ meets (Office.run c acts) act := by
  constructor
  · intro i a hi
    have hlt := (List.getElem?_eq_some_iff.1 hi).1
    have := h i a (by rw [List.getElem?_append_left hlt]; exact hi)
    rwa [List.take_append_of_le_length hlt.le] at this
  · have := h acts.length act (by simp)
    rwa [List.take_left] at this

theorem Office.filed_run (c : Crypto) (acts : List Act) : (Office.run c acts).Filed := by
  induction acts using List.reverseRecOn with
  | nil => exact ⟨by simp [Office.run, Office.opened], by simp [Office.run, Office.opened, Db.empty]⟩
  | append_singleton acts act ih => exact run_snoc c acts act ▸ ih.step act

/-- **The record is the chain's.** However handlers, recovery passes, sweeps and other clients interleave: as long as what
a pass or a sweep finds under a claim is of the kind it is about to write down, every outcome written down is the one the
chain certified under the claim. -/
theorem record_faithful {acts : List Act} (hall : EachAct c Office.Corresponds acts) : (Office.run c acts).Faithful := by
  induction acts using List.reverseRecOn with
  | nil =>
    exact ⟨by simp [Office.run, Office.opened, Db.empty], by simp [Office.run, Office.opened, Db.empty],
      by simp [Office.run, Office.opened]⟩
  | append_singleton acts act ih =>
    obtain ⟨hbefore, hlast⟩ := hall.snoc
    rw [run_snoc]
    exact (ih hbefore).step (Office.filed_run c acts) hlast

end

namespace Sample

open Hocmesh.Protocol.Sample

/-- node 5's result for the seeded shard -/
def seedReward : ProviderRewardEvidence :=
  { jobId := "seed", assignmentId := assignmentId crypto "seed" 0, shardIndex := 0, rewardMcu := workCostMcu smallWork
    providerPublicKeyB64 := publicKeyB64 5, work := smallWork, result := executeWork smallWork 5, systemFunded := true
    provisionalAuditNonce := 0
    providerAuth := authProof 5 200 "result-nonce-0001" "result"
      (resultBodyHash crypto (assignmentId crypto "seed" 0) "seed" 0 smallWork (workCostMcu smallWork) true
        (executeWork smallWork 5)) }

/-- the seeded job, funded, and its shard reported by node 5; the reward has not been certified -/
def reported : List Act :=
  [.tick 100, .seed mintEvidence, .certify mint, .finalizeReservation mint "mint",
    .lease (assignmentId crypto "seed" 0) (nodeId 5), .tick 200, .reportResult seedReward]

/-- the intent `report_result` leaves, as a recovery pass reads it -/
def rewardIntent : LedgerIntent :=
  written .providerReward (assignmentId crypto "seed" 0) (providerRewardTransaction seedReward 200) 200

/-- the only batch of node 5's inference job, delivered by node 6, and what node 5 signs for it -/
def receiptEvidence : InferenceReceiptEvidence :=
  ⟨smallJob, smallAssignment, 0, 1, 1, "outputs", publicKeyB64 5, authProof 5 400 "receipt-nonce-01" "receipt_inference"
    (inferenceReceiptBodyHash crypto smallAssignment smallJob 0 1 1 "outputs")⟩

def rewardEvidence : InferenceRewardEvidence :=
  { jobId := smallJob, assignmentId := smallAssignment, batchStart := 0, batchEnd := 1, rewardMcu := 1
    outputsDigest := "outputs", providerPublicKeyB64 := publicKeyB64 6, requesterPublicKeyB64 := publicKeyB64 5
    providerAuth := authProof 6 350 "report-nonce-001" "report_inference"
      (inferenceRewardBodyHash crypto smallAssignment smallJob 0 1 1 "outputs")
    requesterAcceptance := authProof 5 500 "accept-nonce-001" "accept_inference"
      (inferenceVerdictBodyHash crypto true smallAssignment smallJob 0 1 1 "outputs") }

def expiryEvidence : InferenceExpiryEvidence :=
  ⟨smallJob, smallAssignment, 0, 1, 1, "outputs", publicKeyB64 5, receiptEvidence.requesterAuth⟩

/-- a transaction as a settlement of the batch files it -/
def payout (kind : TransactionKind) (evidence : TransactionEvidence) (createdAt : ℤ) : LedgerTransaction :=
  ⟨"settle_" ++ smallAssignment, kind, [⟨inferenceHoldingAccount smallAssignment, -1⟩, ⟨nodeId 6, 1⟩], evidence, createdAt⟩

/-- the claim is on the chain -/
def foundOnChain : IntentAnswers where
  claim := .ok ⟨rewardIntent.claimKey, some 2, some "entry", none, ⟨2, "entry", "members"⟩, nodeId 0, "signature"⟩
  reply := .error "not asked"

end Sample

/-- the reward was certified but its handler stopped: the pass finds it and completes the shard -/
theorem recovered_reward_faithful :
    let acts := Sample.reported ++ [.certify (providerRewardTransaction Sample.seedReward 200),
      .recover Sample.rewardIntent Sample.foundOnChain]
    (∃ a ∈ (Office.run Sample.crypto acts).db.assignments, a.status = .completed) ∧
      (Office.run Sample.crypto acts).Faithful := by
  intro acts
  refine ⟨by decide +kernel, record_faithful ?_⟩
  intro i act hact
  have hlen : i < 9 := (List.getElem?_eq_some_iff.1 hact).1
  rcases (by omega : i = 8 ∨ i < 8) with rfl | hi
  · cases hact
    intro _ _
    decide +kernel
  · interval_cases i <;> (cases hact; trivial)

/-- the shard was refunded on the chain while the reward was pending: the pass finds the claim spent and completes it -/
def refundRecovered : List Act :=
  Sample.reported ++ [.tick 3000000, .certify (jobRefundTransaction Sample.seedRefund 3000000),
    .recover Sample.rewardIntent Sample.foundOnChain]

/-- node 5 accepted the batch on the chain and the handler stopped: the sweep finds the claim spent and expires it -/
def acceptedSwept : List Act :=
  [.tick 300, .submitInference Sample.inferenceEvidence, .certify Sample.reserve, .reportInference Sample.smallAssignment,
    .certify (Sample.payout .inferenceReceipt (.inferenceReceipt Sample.receiptEvidence) 400),
    .receiptInference Sample.receiptEvidence,
    .certify (Sample.payout .inferenceReward (.inferenceReward Sample.rewardEvidence) 500), .tick 3000000,
    .sweep Sample.expiryEvidence true]

/-- a shard reads `completed` whose escrow the chain gave back, and a batch `expired` that the chain paid for -/
theorem record_contradicts_chain :
    (∃ a ∈ (Office.run Sample.crypto refundRecovered).db.assignments, a.status = .completed ∧
      ∃ tx ∈ (Office.run Sample.crypto refundRecovered).chain, claimKey tx = rewardKey a.assignmentId ∧
        kindOf tx = .jobRefund) ∧
    (∃ b ∈ (Office.run Sample.crypto acceptedSwept).batches, b.settled = some .expired ∧
      ∃ tx ∈ (Office.run Sample.crypto acceptedSwept).chain, claimKey tx = b.payoutKey ∧ kindOf tx = .inferenceReward) ∧
    ¬ (Office.run Sample.crypto refundRecovered).Faithful ∧ ¬ (Office.run Sample.crypto acceptedSwept).Faithful := by
  have hshard : ∃ a ∈ (Office.run Sample.crypto refundRecovered).db.assignments, a.status = .completed ∧
      ∃ tx ∈ (Office.run Sample.crypto refundRecovered).chain, claimKey tx = rewardKey a.assignmentId ∧
        kindOf tx = .jobRefund := by decide +kernel
  have hbatch : ∃ b ∈ (Office.run Sample.crypto acceptedSwept).batches, b.settled = some .expired ∧
      ∃ tx ∈ (Office.run Sample.crypto acceptedSwept).chain, claimKey tx = b.payoutKey ∧
        kindOf tx = .inferenceReward := by decide +kernel
  refine ⟨hshard, hbatch, ?_, ?_⟩
  · intro h
    obtain ⟨a, ha, hst, tx, htx, hck, hkind⟩ := hshard
    exact absurd (hkind.symm.trans ((h.completed a ha hst).2 tx htx hck)) (by decide)
  · intro h
    obtain ⟨b, hb, hset, tx, htx, hck, hkind⟩ := hbatch
    exact absurd (hkind.symm.trans ((h.settled b hb _ hset).2 tx htx hck)) (by decide)

end Hocmesh.Coordinator
