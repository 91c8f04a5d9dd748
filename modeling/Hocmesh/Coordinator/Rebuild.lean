/-
Rebuilding a coordinator's tables from the ledger (`hocmesh-coordinator/src/rebuild.rs`).

The coordinator is a cache: a reservation names the job, its work and its shard count, a reward or a refund names the
shard it settled. `replay` reads the chain page by page, checks every entry against the set that signed it, and writes
the rows; `finalize_jobs` then closes every job that has nothing open. Only the columns a rebuild writes are here, and
the watermark is kept as the pair it is.

`rebuild_from_ledger` refreshes the validator set before it starts at entry 1, and starts with the refreshed set.
-/
import Hocmesh.Coordinator.Recovery
import Hocmesh.Network.Follow

namespace Hocmesh.Coordinator.Rebuild

open Hocmesh.Base Hocmesh.Protocol Hocmesh.Compute Hocmesh.Ledger Hocmesh.Network

/-! ## Tables -/

structure JobRecord where
  jobId : String
  requesterNodeId : Option String
  systemFunded : Bool
  work : WorkSpec
  status : JobStatus
  reservedMcu : ℤ
  createdAt : ℤ
  completedAt : Option ℤ
deriving DecidableEq

structure ShardRow where
  assignmentId : String
  jobId : String
  shardIndex : ℕ
  work : WorkSpec
  status : AssignmentStatus
  rewardMcu : ℤ
  result : Option WorkResult
  completedAt : Option ℤ
  leasedTo : Option String
deriving DecidableEq

structure Tables where
  /-- node ids with their public keys -/
  nodes : List (String × String)
  jobs : List JobRecord
  shards : List ShardRow
  watermark : Option (ℕ × ValidatorSet)
deriving DecidableEq

def Tables.empty : Tables := ⟨[], [], [], none⟩

/-- the columns the live handlers and the recovery pass look at -/
def Tables.db (t : Tables) : Db :=
  { Db.empty with
    jobs := t.jobs.map fun x => ⟨x.jobId, x.status⟩
    assignments := t.shards.map fun a => ⟨a.assignmentId, a.jobId, a.status, a.leasedTo⟩ }

/-- what one rebuild put back -/
structure RebuildReport where
  entries : ℕ
  jobs : ℕ
  settledShards : ℕ
  openShards : ℕ
deriving DecidableEq

/-! ## One transaction -/

section

variable (c : Crypto)

/-- the node id behind a base64 public key, or `none` if it is not one -/
def nodeIdFromPublicKeyB64 (publicKeyB64 : String) : Option String :=
  (c.decode publicKeyB64).bind fun raw => if raw.length = 32 then some (nodeIdFromPublicKey c raw) else none

/-- make sure the requester exists as a node row -/
def requesterNode (t : Tables) (publicKeyB64 : String) : Check (Tables × String) := do
  let nodeId ← orBail (nodeIdFromPublicKeyB64 c publicKeyB64)
    "a requester public key on the chain is not a valid Ed25519 key"
  pure (if ∃ n ∈ t.nodes, n.1 = nodeId then t else { t with nodes := t.nodes ++ [(nodeId, publicKeyB64)] }, nodeId)

/-- `INSERT INTO assignments … ON CONFLICT(assignment_id) DO NOTHING` -/
def insertShard (jobId : String) (shards : List ShardRow) (part : WorkSpec × ℕ) : List ShardRow :=
  if ∃ a ∈ shards, a.assignmentId = assignmentId c jobId part.2 then shards
  else shards ++ [⟨assignmentId c jobId part.2, jobId, part.2, part.1, .pending, workCostMcu part.1, none, none, none⟩]

/-- recreate a job and its shard schedule from one reservation -/
def insertJob (t : Tables) (jobId : String) (requester : Option String) (systemFunded : Bool) (work : WorkSpec)
    (shards : ℕ) (createdAt : ℤ) : Tables :=
  let jobs := if ∃ x ∈ t.jobs, x.jobId = jobId then t.jobs
    else t.jobs ++ [⟨jobId, requester, systemFunded, work, .pending, jobCostMcu work shards, createdAt, none⟩]
  { t with jobs := jobs, shards := (splitWork work shards).zipIdx.foldl (insertShard c jobId) t.shards }

/-- mark one shard as already settled on the chain -/
def settleShard (t : Tables) (assignmentId : String) (status : AssignmentStatus) (result : Option WorkResult)
    (completedAt : ℤ) : Check Tables :=
  if ∃ a ∈ t.shards, a.assignmentId = assignmentId then
    .ok { t with shards := t.shards.map fun a =>
      if a.assignmentId = assignmentId then
        { a with status := status, result := result.or a.result, completedAt := some completedAt, leasedTo := none }
      else a }
  else .error s!"ledger settles {assignmentId}, which no reservation created"

/-- put one settled transaction back into the scheduling tables -/
def applyTransaction (t : Tables) (report : RebuildReport) (tx : LedgerTransaction) : Check (Tables × RebuildReport) :=
  match tx.evidence with
  | .jobReserve e => do
    let (t, requester) ← requesterNode c t e.requesterPublicKeyB64
    pure (insertJob c t e.jobId (some requester) false e.work e.shards tx.createdAt, { report with jobs := report.jobs + 1 })
  | .communityReserve e =>
    pure (insertJob c t e.jobId none true e.work e.shards tx.createdAt, { report with jobs := report.jobs + 1 })
  | .providerReward e => do
    let t ← settleShard t e.assignmentId .completed (some e.result) tx.createdAt
    pure (t, { report with settledShards := report.settledShards + 1 })
  | .jobRefund e => do
    let t ← settleShard t e.assignmentId .refunded none tx.createdAt
    pure (t, { report with settledShards := report.settledShards + 1 })
  | _ => pure (t, report)

/-! ## The chain -/

/-- what the replay carries from entry to entry -/
structure Replaying where
  tables : Tables
  report : RebuildReport
  next : ℕ
  set : ValidatorSet
deriving DecidableEq

/-- one transaction of an entry: its evidence, the set it leaves, its rows -/
def replayTransaction (previousHash : String) (signatures : List ValidatorSignature) (p : Replaying)
    (tx : LedgerTransaction) : Check Replaying := do
  verifyHistoricalEvidence c tx previousHash signatures
  let set ← match tx.evidence with
    | .membershipChange e => verifyMembershipChange c p.set e
    | _ => pure p.set
  let (tables, report) ← applyTransaction c p.tables p.report tx
  pure { p with tables := tables, report := report, set := set }

/-- one entry: the chain is verified before it is believed -/
def replayEntry (p : Replaying) (cert : QuorumCertificate) : Check Replaying := do
  bailIf (cert.entry.sequence ≠ p.next) s!"ledger returned entry {cert.entry.sequence} where {p.next} was expected"
  verifyCertificate c cert p.set
  let p ← cert.entry.transactions.foldlM (replayTransaction c cert.entry.previousHash cert.signatures) p
  pure { p with report := { p.report with entries := p.report.entries + 1 }, next := cert.entry.sequence + 1 }

/-- apply entries up to the head, for at most `fuel` fetches -/
def replay (seats : Seats) (members : List ValidatorMember) (head : ℕ) : (fuel fetch : ℕ) → Replaying →
    Option (Check Replaying)
  | 0, _, _ => none
  | fuel + 1, fetch, p =>
    if head < p.next then some (.ok p)
    else
      match fetchCertificates c p.set p.next (members.map fun m => (m, seats fetch p.next m)) with
      | .error e => some (.error e)
      | .ok [] => some (.error s!"validators report head {head} but returned nothing at {p.next}")
      | .ok (cert :: page) =>
        match (cert :: page).foldlM (replayEntry c) p with
        | .error e => some (.error e)
        | .ok p' => replay seats members head fuel (fetch + 1) p'

/-- nothing about the job is still open -/
def allSettled (shards : List ShardRow) (jobId : String) : Prop :=
  ¬ ∃ a ∈ shards, a.jobId = jobId ∧ a.status ≠ .completed ∧ a.status ≠ .refunded

instance (shards : List ShardRow) (jobId : String) : Decidable (allSettled shards jobId) := by
  unfold allSettled
  infer_instance

/-- `SELECT MAX(completed_at) FROM assignments WHERE job_id=…` -/
def lastCompletion (shards : List ShardRow) (jobId : String) : Option ℤ :=
  ((shards.filter fun a => a.jobId = jobId).filterMap (·.completedAt)).max?

/-- close out every job whose shards have all settled -/
def finalizeJobs (t : Tables) : Tables :=
  { t with jobs := t.jobs.map fun x =>
      if allSettled t.shards x.jobId then
        { x with status := .completed, completedAt := lastCompletion t.shards x.jobId }
      else x }

/-- `rebuild_from_ledger`: what `refresh_set` says is ignored, the set it leaves is not; `head` is what `head_quorum`
answered, and the tables are those of a rebuild that succeeds -/
def rebuildFromLedger (seats : Seats) (fuel : ℕ) (n : LedgerNetwork) (head : Check ℕ) (t : Tables) :
    Option (Check (Tables × RebuildReport)) :=
  match refreshSet c seats fuel n with
  | none => none
  | some (n, _) =>
    match head with
    | .error e => some (.error e)
    | .ok head =>
      (replay c seats n.set.members head fuel 0 ⟨t, ⟨0, 0, 0, 0⟩, 1, n.set⟩).map fun done => do
        let p ← done
        let t := { finalizeJobs p.tables with watermark := some (p.next, p.set) }
        pure (t, { p.report with openShards := (t.shards.filter fun a => a.status = .pending).length })

end

/-! ## One meaning of a job's status -/

/-- what the `jobs` table says about a job -/
def jobStatus (db : Db) (jobId : String) : Option JobStatus := (db.jobs.find? fun x => x.jobId = jobId).map (·.status)

/-- nothing is open and some shard was refunded -/
def ClosedShort (t : Tables) (jobId : String) : Prop :=
  allSettled t.shards jobId ∧ ∃ a ∈ t.shards, a.jobId = jobId ∧ a.status = .refunded

/-- `db'` is what recovering one of the job's rewards leaves, the shards now standing as in `t` -/
def RecoversTo (t : Tables) (jobId : String) (db' : Db) : Prop :=
  ∃ (db : Db) (id ck hash : String), db.jobs = t.db.jobs ∧
    (db.assignments.find? fun a => a.assignmentId = id).map (·.jobId) = some jobId ∧
    db.finalizeRewardDb id ck hash = .ok db' ∧ db'.assignments = t.db.assignments

/-- the live path, the recovery of a reward and a rebuild leave one status for a job whose shards stand as in `t` -/
def StatusesAgree (t : Tables) (jobId : String) : Prop :=
  jobStatus (t.db.closeSettledJob jobId) jobId = jobStatus (finalizeJobs t).db jobId ∧
    ∀ db', RecoversTo t jobId db' → jobStatus db' jobId = jobStatus (finalizeJobs t).db jobId

/-- an update keyed on the job id, as the row of one job reads afterwards -/
theorem find?_map_status {jobs : List JobRow} {f : JobRow → JobRow} (hid : ∀ x, (f x).jobId = x.jobId) (jobId : String) :
    ((jobs.map f).find? fun x => x.jobId = jobId).map (·.status) =
      (jobs.find? fun x => x.jobId = jobId).map fun x => (f x).status := by
  have hcomp : ((fun x => decide (x.jobId = jobId)) ∘ f) = fun x : JobRow => decide (x.jobId = jobId) := by
    funext x
    simp [hid]
  rw [List.find?_map, hcomp, Option.map_map]
  rfl

section

variable {t : Tables} {db db' : Db} {jobId : String}

theorem found_of_job (hjob : ∃ x ∈ db.jobs, x.jobId = jobId) :
    ∃ x, (db.jobs.find? fun x => x.jobId = jobId) = some x ∧ x.jobId = jobId := by
  obtain ⟨x, hx, hid⟩ := hjob
  obtain ⟨y, hy⟩ := Option.isSome_iff_exists.1 (List.find?_isSome.2 ⟨x, hx, by simpa using hid⟩ :
    (db.jobs.find? fun x => x.jobId = jobId).isSome)
  exact ⟨y, hy, by simpa using List.find?_some hy⟩

/-- the live path's summary of the shards -/
theorem closeSettledJob_status (hjob : ∃ x ∈ db.jobs, x.jobId = jobId) :
    jobStatus (db.closeSettledJob jobId) jobId =
      if ∃ a ∈ db.assignments, a.jobId = jobId ∧ a.status ≠ .completed ∧ a.status ≠ .refunded then jobStatus db jobId
      else if ∃ a ∈ db.assignments, a.jobId = jobId ∧ a.status = .refunded then some .closed else some .completed := by
  have hown : ∀ P : AssignmentRow → Prop, (∃ a ∈ db.assignments.filter fun a => a.jobId = jobId, P a) ↔
      ∃ a ∈ db.assignments, a.jobId = jobId ∧ P a := by
    intro P
    simp only [List.mem_filter, decide_eq_true_eq, and_assoc]
  obtain ⟨x, hx, hid⟩ := found_of_job hjob
  simp only [Db.closeSettledJob, hown]
  split_ifs
  · rfl
  · rw [jobStatus, find?_map_status (by intro y; split_ifs <;> rfl), hx]
    simp [hid]
  · rw [jobStatus, find?_map_status (by intro y; split_ifs <;> rfl), hx]
    simp [hid]

theorem finalizeJobs_jobs (t : Tables) : (finalizeJobs t).db.jobs =
    t.db.jobs.map fun x => if allSettled t.shards x.jobId then { x with status := .completed } else x := by
  simp only [finalizeJobs, Tables.db, List.map_map]
  refine List.map_congr_left ?_
  intro x _
  simp only [Function.comp_apply]
  split_ifs <;> rfl

/-- the rebuild's summary of the shards -/
theorem finalizeJobs_status (hjob : ∃ x ∈ t.db.jobs, x.jobId = jobId) :
    jobStatus (finalizeJobs t).db jobId = if allSettled t.shards jobId then some .completed else jobStatus t.db jobId := by
  obtain ⟨x, hx, hid⟩ := found_of_job hjob
  rw [jobStatus, finalizeJobs_jobs, find?_map_status (by intro y; split_ifs <;> rfl), jobStatus, hx]
  simp only [Option.map_some, hid]
  split_ifs <;> rfl

/-- the recovery's summary is the live path's -/
theorem RecoversTo.status (h : RecoversTo t jobId db') :
    jobStatus db' jobId = jobStatus (t.db.closeSettledJob jobId) jobId := by
  obtain ⟨db, id, ck, hash, hjobs, hfound, hok, hrows⟩ := h
  unfold Db.finalizeRewardDb at hok
  dsimp only [Db.certifyLedgerIntent] at hok
  cases hfind : db.assignments.find? fun a => a.assignmentId = id with
  | none => simp [hfind] at hfound
  | some a =>
    obtain rfl : a.jobId = jobId := by simpa [hfind] using hfound
    rw [hfind] at hok
    cases hok
    simp only [closeSettledJob_assignments] at hrows
    simp only [jobStatus, Db.closeSettledJob, hrows, hjobs]
    split_ifs <;> rfl

/-- **One meaning of a job's status.** The three summaries agree on every job that has a shard open or none refunded, and
only on those. -/
theorem statuses_agree_iff (hjob : ∃ x ∈ t.jobs, x.jobId = jobId) : StatusesAgree t jobId ↔ ¬ ClosedShort t jobId := by
  have hjob' : ∃ x ∈ t.db.jobs, x.jobId = jobId := by
    obtain ⟨x, hx, hid⟩ := hjob
    exact ⟨_, List.mem_map.2 ⟨x, hx, rfl⟩, hid⟩
  have hopen : (∃ a ∈ t.db.assignments, a.jobId = jobId ∧ a.status ≠ .completed ∧ a.status ≠ .refunded) ↔
      ¬ allSettled t.shards jobId := by
    simp [Tables.db, allSettled]
  have hshort : (∃ a ∈ t.db.assignments, a.jobId = jobId ∧ a.status = .refunded) ↔
      ∃ a ∈ t.shards, a.jobId = jobId ∧ a.status = .refunded := by
    simp [Tables.db]
  have hlive : jobStatus (t.db.closeSettledJob jobId) jobId = jobStatus (finalizeJobs t).db jobId ↔ ¬ ClosedShort t jobId := by
    rw [closeSettledJob_status hjob', finalizeJobs_status hjob']
    simp only [hopen, hshort]
    by_cases hset : allSettled t.shards jobId
    · by_cases href : ∃ a ∈ t.shards, a.jobId = jobId ∧ a.status = .refunded
      · simp [ClosedShort, hset, href]
      · simp [ClosedShort, hset, href]
    · simp [ClosedShort, hset]
  constructor
  · intro h
    exact hlive.1 h.1
  · intro h
    refine ⟨hlive.2 h, ?_⟩
    intro db' hrec
    rw [hrec.status]
    exact hlive.2 h

end

/-- the seeded job of one shard, as a rebuild finds it -/
def seedTables (job : JobStatus) (shard : AssignmentStatus) : Tables :=
  { Tables.empty with
    jobs := [⟨"seed", none, true, Sample.smallWork, job, jobCostMcu Sample.smallWork 1, 100, none⟩]
    shards := [⟨assignmentId Sample.crypto "seed" 0, "seed", 0, Sample.smallWork, shard, workCostMcu Sample.smallWork, none,
      none, none⟩] }

theorem completed_job_agrees : StatusesAgree (seedTables .pending .completed) "seed" := by
  have hjob : ∃ x ∈ (seedTables .pending .completed).jobs, x.jobId = "seed" := ⟨_, List.mem_singleton.2 rfl, rfl⟩
  refine (statuses_agree_iff hjob).2 ?_
  rintro ⟨_, a, ha, _, hstatus⟩
  rw [List.mem_singleton.1 ha] at hstatus
  cases hstatus

/-- a job whose only shard the coordinator refunded reads `closed`, and `completed` after a rebuild over the same rows -/
theorem refunded_job_reads_completed : ∃ db, Run Sample.crypto db ∧ jobStatus db "seed" = some .closed ∧
    db.jobs = (seedTables .closed .refunded).db.jobs ∧ db.assignments = (seedTables .closed .refunded).db.assignments ∧
    jobStatus (finalizeJobs (seedTables .closed .refunded)).db "seed" = some .completed ∧
    ¬ StatusesAgree (seedTables .closed .refunded) "seed" := by
  have hrun := Run.refundShard Sample.seedRefund "refund" 3000000
    (Run.finalizeReservation "seed" (claimKey Sample.mint) "mint" Sample.seeded_run)
  refine ⟨_, hrun, ?_, ?_, ?_, ?_, ?_⟩
  · decide +kernel
  · decide +kernel
  · decide +kernel
  · decide +kernel
  · intro h
    have := h.1
    revert this
    decide +kernel

end Hocmesh.Coordinator.Rebuild
