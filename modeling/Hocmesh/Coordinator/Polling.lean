/-
What a polling node is offered (`hocmesh-coordinator/src/api.rs`, `schedule.rs`): `pending_work`, `fit`, `best`, `poll_work`.

A poll reads the `POLL_WINDOW` oldest pending shards that the node did not request, and only then leaves out the jobs of
other coordinators and the shards the node is not fit for. `Scoring` is the floating-point half of the scheduler; the gates
around it are written out. `poll_offers_iff` says that the window is the only thing a runnable shard can be hidden by.
-/
import Hocmesh.Coordinator.Federation
import Hocmesh.Coordinator.Intents
import Hocmesh.Coordinator.Standing
import Hocmesh.Network.Quorums
import Hocmesh.Protocol.Sample
import Mathlib.Data.List.Sort

namespace Hocmesh.Coordinator.Polling

open Hocmesh.Base Hocmesh.Protocol Hocmesh.Network

/-! ## The scheduler -/

/-- of `NodeCapabilities`, what the scheduler reads -/
structure Capabilities where
  sharedLogicalCpus : ℕ
  sharedMemoryBytes : ℕ
  sharedGpuPercent : ℕ
  gpus : ℕ
  cpuBenchmarkScore : ℕ
  coordinatorLatencyMicros : ℕ
  cachedModelManifests : List String

structure WorkerProfile where
  nodeId : String
  region : Option String
  caps : Capabilities
  reputation : Reputation

structure ShardCandidate where
  assignmentId : String
  jobId : String
  shardIndex : ℕ
  rewardMcu : ℤ
  memoryBytes : ℕ
  createdAt : ℤ
  shardsDoneHere : ℕ
  nearestDoneShard : Option ℕ
  requiredManifests : List String

/-- the spread of the candidates, and how many nodes compete for them -/
structure Scale where
  maxRewardMcu : ℤ
  pendingShards : ℕ
  recentPollers : ℕ

def Scale.of (candidates : List ShardCandidate) (recentPollers : ℕ) : Scale where
  maxRewardMcu := max ((candidates.map (·.rewardMcu)).max?.getD 1) 1
  pendingShards := candidates.length
  recentPollers := recentPollers

def Scale.contended (s : Scale) : Bool := s.pendingShards < s.recentPollers

inductive Unfit where
  | noSharedCpu
  | notEnoughMemory
  | slowerThanLease
  | stillReservedForFasterNodes
deriving DecidableEq

/-- what the scheduler computes in floating point -/
structure Scoring where
  /-- the predicted seconds exceed `MAX_LEASE_SECONDS` -/
  slowerThanLease : Capabilities → ℤ → Bool
  /-- `HEAD_START_SECONDS` less the node's share of it -/
  headStart : Capabilities → ℤ → ℤ
  /-- `Fit::total`, as `total_cmp` orders it -/
  total : WorkerProfile → ShardCandidate → Scale → ℤ → Option String → ℤ
  /-- `lease_seconds_for` -/
  leaseSeconds : Capabilities → ℤ → ℤ

section

variable (sc : Scoring)

/-- the score of a candidate, or the gate that turns it away -/
def fit (worker : WorkerProfile) (candidate : ShardCandidate) (scale : Scale) (now : ℤ) (coordinatorRegion : Option String) :
    Except Unfit ℤ :=
  if worker.caps.sharedLogicalCpus = 0 then .error .noSharedCpu
  else if worker.caps.sharedMemoryBytes < candidate.memoryBytes then .error .notEnoughMemory
  else if sc.slowerThanLease worker.caps candidate.rewardMcu then .error .slowerThanLease
  else if scale.contended ∧
      max i64Min (min (now - candidate.createdAt) i64Max) < sc.headStart worker.caps candidate.rewardMcu then
    .error .stillReservedForFasterNodes
  else .ok (sc.total worker candidate scale now coordinatorRegion)

/-- a higher total, or the same and the earlier assignment id -/
def outscores (l r : ShardCandidate × ℤ) : Bool :=
  r.2 < l.2 ∨ l.2 = r.2 ∧ l.1.assignmentId < r.1.assignmentId

def best (worker : WorkerProfile) (candidates : List ShardCandidate) (now : ℤ) (coordinatorRegion : Option String)
    (recentPollers : ℕ) : Option (ShardCandidate × ℤ) :=
  let scale := Scale.of candidates recentPollers
  maxBy outscores (candidates.filterMap fun c => (fit sc worker c scale now coordinatorRegion).toOption.map fun f => (c, f))

end

/-! ## The database -/

/-- a row of `assignments` -/
structure Assignment where
  rowid : ℕ
  assignmentId : String
  jobId : String
  shardIndex : ℤ
  work : WorkSpec
  rewardMcu : ℤ
  status : AssignmentStatus
  leasedTo : Option String
  leaseUntil : Option ℤ
  leasedBy : Option String
deriving DecidableEq

/-- a row of `jobs` -/
structure Job where
  jobId : String
  requesterNodeId : Option String
  systemFunded : ℤ
  createdAt : ℤ
deriving DecidableEq

structure Db where
  assignments : List Assignment
  jobs : List Job
  /-- `nodes.last_seen` -/
  lastSeen : List (String × ℤ)

def pollWindow : ℕ := 256

def headStartSeconds : ℤ := 30

def satU64 (n : ℕ) : ℕ := min n (2 ^ 64 - 1)

/-- what a shard's working set is taken to be; the arithmetic saturates -/
def shardMemoryBytes : WorkSpec → ℕ
  | .primeCount _ _ | .collatzPeak _ _ => 2 ^ 20
  | .matrixMultiply _ _ dim rowStart rowEnd =>
    let span := rowEnd - rowStart
    let elements := satU64 (satU64 (dim * dim) + satU64 (span * dim))
    satU64 (2 ^ 20 + satU64 (elements * 4))

/-- `clamp(0, u32::MAX) as u32` -/
def clampU32 (x : ℤ) : ℕ := (max 0 (min x (2 ^ 32 - 1))).toNat

/-- of the coordinator's state, the federation it is part of -/
structure AppState where
  crypto : Crypto
  federation : Option Federation

namespace AppState

variable (co : AppState)

/-- outside a federation every job is one's own -/
def offers (jobId : String) : Bool := co.federation.all fun f => f.owns co.crypto jobId

def region : Option String := co.federation.bind fun f => if f.me.region.isEmpty then none else some f.me.region

def coordinatorId : Option String := co.federation.map fun f => f.me.coordinatorId

end AppState

namespace Db

variable (db : Db)

/-- leases that ran out go back to the queue -/
def reclaim (now : ℤ) : Db :=
  { db with
    assignments := db.assignments.map fun a =>
      if a.status = .leased ∧ (a.leaseUntil.any fun until_ => until_ < now) then
        { a with status := .pending, leasedTo := none, leaseUntil := none, leasedBy := none }
      else a }

def touch (nodeId : String) (now : ℤ) : Db :=
  { db with lastSeen := db.lastSeen.map fun n => if n.1 = nodeId then (n.1, now) else n }

def recentPollers (now : ℤ) : ℕ := db.lastSeen.countP fun n => now - headStartSeconds ≤ n.2

/-- every pending shard of a job the node did not request, the oldest first -/
def backlog (nodeId : String) : List (Assignment × Job) :=
  ((db.assignments.flatMap fun a => (db.jobs.filter fun j => j.jobId = a.jobId).map fun j => (a, j)).filter fun row =>
    row.1.status = .pending ∧ row.2.requesterNodeId ≠ some nodeId).insertionSort fun x y =>
      toLex (x.2.createdAt, x.1.rowid) ≤ toLex (y.2.createdAt, y.1.rowid)

/-- the shards of a job this node has finished -/
def completedShards (nodeId jobId : String) : List ℕ :=
  (db.assignments.filter fun a => a.jobId = jobId ∧ a.leasedTo = some nodeId ∧
    (a.status = .completed ∨ a.status = .settling)).map fun a => clampU32 a.shardIndex

/-- a row of the backlog as the scheduler sees it -/
def candidate (nodeId : String) (row : Assignment × Job) : ShardCandidate :=
  let shardIndex := clampU32 row.1.shardIndex
  let done := db.completedShards nodeId row.1.jobId
  { assignmentId := row.1.assignmentId, jobId := row.1.jobId, shardIndex, rewardMcu := row.1.rewardMcu
    memoryBytes := shardMemoryBytes row.1.work, createdAt := row.2.createdAt, shardsDoneHere := done.length % 2 ^ 32
    nearestDoneShard := maxBy (fun a b => ((a : ℤ) - shardIndex).natAbs ≤ ((b : ℤ) - shardIndex).natAbs) done, requiredManifests := [] }

/-- the rows one poll considers -/
def considered (co : AppState) (nodeId : String) : List (Assignment × Job) :=
  ((db.backlog nodeId).take pollWindow).filter fun row => co.offers row.1.jobId

/-- `pending_work`, with what the answer needs of each shard -/
def pendingWork (co : AppState) (nodeId : String) : List ShardCandidate × List (String × WorkSpec × Bool) :=
  let rows := db.considered co nodeId
  (rows.map (db.candidate nodeId), rows.map fun row => (row.1.assignmentId, row.1.work, row.2.systemFunded ≠ 0))

end Db

structure WorkAssignment where
  assignmentId : String
  jobId : String
  shardIndex : ℕ
  work : WorkSpec
  rewardMcu : ℤ
  leaseSeconds : ℤ
  systemFunded : Bool

/-- the database a poll scores, its node counted among those that ask -/
def polled (db : Db) (nodeId : String) (now : ℤ) : Db := (db.reclaim now).touch nodeId now

/-- `poll_work`, for a node whose request is authenticated -/
def pollWork (sc : Scoring) (co : AppState) (db : Db) (worker : WorkerProfile) (now : ℤ) : Option WorkAssignment × Db :=
  let db := polled db worker.nodeId now
  let pending := db.pendingWork co worker.nodeId
  match best sc worker pending.1 now co.region (db.recentPollers now) with
  | none => (none, db)
  | some (chosen, _) =>
    match pending.2.reverse.lookup chosen.assignmentId with
    | none => (none, db)
    | some (work, systemFunded) =>
      let leaseSeconds := sc.leaseSeconds worker.caps chosen.rewardMcu
      let free : Assignment → Bool := fun a => a.assignmentId = chosen.assignmentId ∧ a.status = .pending
      if db.assignments.countP free = 0 then (none, db)
      else
        (some { assignmentId := chosen.assignmentId, jobId := chosen.jobId, shardIndex := chosen.shardIndex, work
                rewardMcu := chosen.rewardMcu, leaseSeconds, systemFunded },
          { db with
            assignments := db.assignments.map fun a =>
              if free a then
                { a with
                  status := .leased, leasedTo := some worker.nodeId, leaseUntil := some (now + leaseSeconds)
                  leasedBy := co.coordinatorId }
              else a })

/-! ## What is chosen -/

section

variable {sc : Scoring} {worker : WorkerProfile}

/-- what `max_by` compares -/
def rank (x : ShardCandidate × ℤ) : ℤ ×ₗ Stringᵒᵈ := toLex (x.2, OrderDual.toDual x.1.assignmentId)

theorem outscores_iff (l r : ShardCandidate × ℤ) : outscores l r = true ↔ rank r < rank l := by
  rw [outscores, decide_eq_true_iff, rank, rank, Prod.Lex.lt_iff, eq_comm (a := l.2)]
  rfl

/-- the candidate chosen is fit, and ranks highest of those that are -/
theorem best_spec {candidates : List ShardCandidate} {now : ℤ} {region : Option String} {pollers : ℕ}
    {chosen : ShardCandidate} {score : ℤ} (h : best sc worker candidates now region pollers = some (chosen, score)) :
    chosen ∈ candidates ∧ fit sc worker chosen (Scale.of candidates pollers) now region = .ok score ∧
      ∀ other ∈ candidates, ∀ s, fit sc worker other (Scale.of candidates pollers) now region = .ok s →
        rank (other, s) ≤ rank (chosen, score) := by
  have htop : AtTop rank _ (chosen, score) := maxBy_atTop outscores_iff h
  obtain ⟨c, hc, hfit⟩ := List.mem_filterMap.1 htop.mem
  obtain ⟨s, hs, heq⟩ := Option.map_eq_some_iff.1 hfit
  obtain ⟨rfl, rfl⟩ := Prod.mk.inj heq
  refine ⟨hc, ?_, fun other hother t ht => htop.top (other, t) ?_⟩
  · cases hval : fit sc worker c (Scale.of candidates pollers) now region with
    | error e => rw [hval] at hs; cases hs
    | ok x => rw [hval] at hs; exact congrArg Except.ok (Option.some.inj hs)
  · exact List.mem_filterMap.2 ⟨other, hother, by rw [ht]; rfl⟩

/-- a candidate is chosen as soon as one is fit -/
theorem best_isSome {candidates : List ShardCandidate} {now : ℤ} {region : Option String} {pollers : ℕ}
    {c : ShardCandidate} (hc : c ∈ candidates) {score : ℤ}
    (hfit : fit sc worker c (Scale.of candidates pollers) now region = .ok score) :
    ∃ x, best sc worker candidates now region pollers = some x :=
  exists_maxBy (List.ne_nil_of_mem (List.mem_filterMap.2 ⟨c, hc, by rw [hfit]; rfl⟩))

end

/-! ## The rows behind a candidate -/

section

variable {db : Db} {co : AppState} {nodeId : String}

theorem mem_backlog {row : Assignment × Job} :
    row ∈ db.backlog nodeId ↔ row.1 ∈ db.assignments ∧ row.2 ∈ db.jobs ∧ row.2.jobId = row.1.jobId ∧
      row.1.status = .pending ∧ row.2.requesterNodeId ≠ some nodeId := by
  simp only [Db.backlog, List.mem_insertionSort, List.mem_filter, List.mem_flatMap, List.mem_map, decide_eq_true_eq]
  constructor
  · rintro ⟨⟨a, ha, j, ⟨hj, hjob⟩, rfl⟩, hstatus, hnode⟩
    exact ⟨ha, hj, hjob, hstatus, hnode⟩
  · rintro ⟨ha, hj, hjob, hstatus, hnode⟩
    exact ⟨⟨row.1, ha, row.2, ⟨hj, hjob⟩, rfl⟩, hstatus, hnode⟩

theorem mem_considered {row : Assignment × Job} :
    row ∈ db.considered co nodeId ↔ row ∈ (db.backlog nodeId).take pollWindow ∧ co.offers row.1.jobId = true := by
  rw [Db.considered, List.mem_filter]

/-- every candidate has its spec, and its row is still in the queue -/
theorem candidate_kept {row : Assignment × Job} (hrow : row ∈ db.considered co nodeId) :
    (∃ spec, (db.pendingWork co nodeId).2.reverse.lookup row.1.assignmentId = some spec) ∧
      db.assignments.countP (fun a => a.assignmentId = row.1.assignmentId ∧ a.status = .pending) ≠ 0 := by
  obtain ⟨ha, -, -, hstatus, -⟩ := mem_backlog.1 (List.mem_of_mem_take (mem_considered.1 hrow).1)
  constructor
  · refine Option.isSome_iff_exists.1 (List.lookup_isSome_iff.2 ?_)
    refine ⟨_, List.mem_reverse.2 (List.mem_map.2 ⟨row, hrow, rfl⟩), ?_⟩
    exact beq_self_eq_true _
  · exact (List.countP_pos_iff.2 ⟨row.1, ha, decide_eq_true ⟨rfl, hstatus⟩⟩).ne'

end

/-- a shard the node could be given: one that this coordinator offers, of a job the node did not request, and that it is fit
for -/
def Runnable (sc : Scoring) (co : AppState) (db : Db) (worker : WorkerProfile) (now : ℤ) (row : Assignment × Job) : Prop :=
  co.offers row.1.jobId = true ∧
    ∃ score, fit sc worker (db.candidate worker.nodeId row)
      (Scale.of (db.pendingWork co worker.nodeId).1 (db.recentPollers now)) now co.region = .ok score

/-- **Nothing in the window is hidden.** A poll offers the node a shard exactly when one of the `POLL_WINDOW` oldest pending
shards that the node did not request is of a job this coordinator owns and passes the scheduler's test for it. The shard it
offers is one of these. -/
theorem poll_offers_iff (sc : Scoring) (co : AppState) (db : Db) (worker : WorkerProfile) (now : ℤ) :
    let seen := polled db worker.nodeId now
    ((pollWork sc co db worker now).1.isSome = true ↔
      ∃ row ∈ (seen.backlog worker.nodeId).take pollWindow, Runnable sc co seen worker now row) ∧
    ∀ offered, (pollWork sc co db worker now).1 = some offered →
      ∃ row ∈ (seen.backlog worker.nodeId).take pollWindow, Runnable sc co seen worker now row ∧
        row.1.assignmentId = offered.assignmentId := by
  intro seen
  have hmem : ∀ c ∈ (seen.pendingWork co worker.nodeId).1, ∃ row ∈ seen.considered co worker.nodeId,
      seen.candidate worker.nodeId row = c := fun c hc => List.mem_map.1 hc
  have hoffered : ∀ offered, (pollWork sc co db worker now).1 = some offered →
      ∃ row ∈ (seen.backlog worker.nodeId).take pollWindow, Runnable sc co seen worker now row ∧
        row.1.assignmentId = offered.assignmentId := by
    intro offered h
    unfold pollWork at h
    dsimp only at h
    split at h
    · cases h
    · next chosen score hbest =>
      obtain ⟨hin, hfit, -⟩ := best_spec hbest
      obtain ⟨row, hrow, rfl⟩ := hmem _ hin
      obtain ⟨hwindow, howned⟩ := mem_considered.1 hrow
      split at h
      · cases h
      · split_ifs at h
        · rw [← Option.some.inj h]
          exact ⟨row, hwindow, ⟨howned, score, hfit⟩, rfl⟩
  refine ⟨⟨fun h => ?_, ?_⟩, hoffered⟩
  · obtain ⟨offered, hoffer⟩ := Option.isSome_iff_exists.1 h
    obtain ⟨row, hrow, hrunnable, -⟩ := hoffered offered hoffer
    exact ⟨row, hrow, hrunnable⟩
  · rintro ⟨row, hwindow, howned, score, hfit⟩
    have hrow : row ∈ seen.considered co worker.nodeId := mem_considered.2 ⟨hwindow, howned⟩
    have hsome : ∃ x, best sc worker (seen.pendingWork co worker.nodeId).1 now co.region (seen.recentPollers now) = some x :=
      best_isSome (List.mem_map_of_mem hrow) hfit
    obtain ⟨⟨chosen, s⟩, hbest⟩ := hsome
    obtain ⟨hin, -, -⟩ := best_spec hbest
    obtain ⟨picked, hpicked, rfl⟩ := hmem _ hin
    obtain ⟨⟨⟨work, funded⟩, hspec⟩, hfree⟩ := candidate_kept hpicked
    have hfree' : seen.assignments.countP
        (fun a => a.assignmentId = (seen.candidate worker.nodeId picked).assignmentId ∧ a.status = .pending) ≠ 0 := hfree
    have hspec' : List.lookup (seen.candidate worker.nodeId picked).assignmentId
        (seen.pendingWork co worker.nodeId).2.reverse = some (work, funded) := hspec
    unfold pollWork
    simp only [show polled db worker.nodeId now = seen from rfl, hbest, hspec']
    rw [if_neg hfree', Option.isSome_some]

/-! ## A full window -/

/-- a machine that shares 16 MiB -/
def smallWorker : WorkerProfile where
  nodeId := "small"
  region := none
  caps := ⟨1, 2 ^ 24, 0, 0, 1, 0, []⟩
  reputation := ⟨0, 0, 0⟩

/-- a score that tells nothing apart, and the lease of a fast machine -/
def evenScoring : Scoring := ⟨fun _ _ => false, fun _ _ => 15, fun _ _ _ _ _ => 0, fun _ _ => 300⟩

def pendingShard (rowid : ℕ) (work : WorkSpec) : Assignment :=
  ⟨rowid, "a" ++ toString rowid, "job", rowid, work, 1, .pending, none, none, none⟩

/-- one job whose first 256 shards each need a whole 4096 × 4096 matrix, and whose last needs next to nothing -/
def cloggedDb : Db where
  assignments := (List.range pollWindow).map (fun i => pendingShard i (.matrixMultiply 1 2 4096 0 64)) ++
    [pendingShard pollWindow (.primeCount 0 10)]
  jobs := [⟨"job", none, 0, 0⟩]
  lastSeen := [("small", 0)]

/-- the last shard of `cloggedDb` is pending and fits the small machine, which is offered nothing -/
theorem window_hides_runnable : ¬ ∀ (sc : Scoring) (co : AppState) (db : Db) (worker : WorkerProfile) (now : ℤ),
    (∃ row ∈ (polled db worker.nodeId now).backlog worker.nodeId, Runnable sc co (polled db worker.nodeId now) worker now row) →
      (pollWork sc co db worker now).1.isSome = true := by
  intro h
  have hlast : (pendingShard pollWindow (.primeCount 0 10), (⟨"job", none, 0, 0⟩ : Job)) ∈
      (polled cloggedDb "small" 0).backlog "small" :=
    mem_backlog.2 (by decide +kernel)
  have hfit : Runnable evenScoring ⟨Sample.crypto, none⟩ (polled cloggedDb "small" 0) smallWorker 0
      (pendingShard pollWindow (.primeCount 0 10), ⟨"job", none, 0, 0⟩) :=
    ⟨rfl, 0, by decide +kernel⟩
  have hoffer := h evenScoring ⟨Sample.crypto, none⟩ cloggedDb smallWorker 0 ⟨_, hlast, hfit⟩
  exact absurd hoffer (by decide +kernel)

end Hocmesh.Coordinator.Polling
