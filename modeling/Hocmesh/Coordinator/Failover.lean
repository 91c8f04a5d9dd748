/-
Who is handed an inference batch, against who the ledger will pay for it.

`submit_inference` ranks the devices that are online, cuts the job into batches and has the plan certified with the
escrow: a batch belongs to the node named there. A node that cannot run its batch calls `fail_inference`, which ranks
again without the nodes that failed and gives the row to the best one left. The certified plan stays as it is, so the
second node works for nothing: every validator turns its reward away. `work_payable` is what holds of a run in which no
rerouted batch is handed out, `rerouted_unpayable` that a rerouted one never pays.

The handlers do not hold one transaction across their statements, so each `Act` is one statement: a poll selects a row
and updates it later, a failure is read, decided and written later. The ledger certifies in between.
-/
import Hocmesh.Base.Along
import Hocmesh.Coordinator.Outcomes

namespace Hocmesh.Coordinator.Failover

open Hocmesh.Base Hocmesh.Protocol Hocmesh.Compute Hocmesh.Ledger Hocmesh.Validator

/-! ## Ranking and planning -/

structure NodeProfile where
  nodeId : String
  /-- stable ids of its devices -/
  devices : List String
  online : Bool
deriving DecidableEq

/-- the floating-point half of `rank_candidates` for one model and one set of requirements; a score is taken by its place
in the total order `total_cmp` puts on the numbers -/
structure Scoring where
  validMetric : NodeProfile → Bool
  deviceMatches : NodeProfile → String → Bool
  score : NodeProfile → String → ℤ

structure CandidateScore where
  nodeId : String
  deviceId : String
  score : ℤ
deriving DecidableEq

/-- score first, node id among equals -/
def CandidateScore.before (a b : CandidateScore) : Bool :=
  decide (a.score < b.score ∨ a.score = b.score ∧ a.nodeId ≤ b.nodeId)

def rankCandidates (s : Scoring) (nodes : List NodeProfile) (excludedNodes : List String) : List CandidateScore :=
  let eligible := nodes.filter fun n => n.online && !excludedNodes.contains n.nodeId && s.validMetric n
  (eligible.flatMap fun n => (n.devices.filter (s.deviceMatches n)).map fun d => ⟨n.nodeId, d, s.score n d⟩).insertionSort
    fun a b => a.before b = true

/-- the nodes `ai_context` reads: everyone but the requester -/
def aiContext (nodes : List NodeProfile) (requester : String) : List NodeProfile :=
  nodes.filter fun n => n.nodeId ≠ requester

structure BatchShard where
  batchStart : ℕ
  batchEnd : ℕ
  nodeId : String
  deviceId : String
deriving DecidableEq

/-- the batches of `plan_parallelism`: one run of prompts for each of the best devices, in `u32` arithmetic -/
def planBatches (candidates : List CandidateScore) (batchSize : UInt32) : List BatchShard :=
  let workers := min candidates.length batchSize.toNat
  (candidates.take workers).zipIdx.map fun p =>
    ⟨batchSize.toNat * p.2 % 4294967296 / workers, batchSize.toNat * (p.2 + 1) % 4294967296 / workers, p.1.nodeId,
      p.1.deviceId⟩

/-! ## Tables and acts -/

inductive AiStatus where
  | blocked
  | pending
  | leased
  | completed
  | refunded
deriving DecidableEq

/-- a row of `ai_assignments`; the device stands for the rewritten part of `assignment_json` -/
structure AiRow where
  assignmentId : String
  jobId : String
  assignedNodeId : String
  deviceId : String
  status : AiStatus
  failedNodes : List String
  failureCount : ℕ
deriving DecidableEq

/-- a row of `ai_jobs`: the requester of `request_json` -/
structure AiJob where
  jobId : String
  requester : String
deriving DecidableEq

/-- an assignment on its way to a node: selected by its poll, or handed out -/
structure Lease where
  nodeId : String
  assignmentId : String
  jobId : String
deriving DecidableEq

def AiRow.lease (a : AiRow) : Lease := ⟨a.assignedNodeId, a.assignmentId, a.jobId⟩

/-- what `fail_inference` decided, before it is written -/
structure Reroute where
  assignmentId : String
  next : CandidateScore
  excluded : List String
deriving DecidableEq

structure Desk where
  jobs : List AiJob
  rows : List AiRow
  /-- the reservations of `ledger_intents` -/
  proposed : List LedgerTransaction
  chain : List LedgerTransaction
  /-- polls between their select and their update -/
  polls : List Lease
  /-- failures between their read and their write -/
  reroutes : List Reroute
  /-- every assignment a poll was answered with -/
  leases : List Lease
deriving DecidableEq

def Desk.opened : Desk := ⟨[], [], [], [], [], [], []⟩

/-- what `submit_inference` works on: the signed request, and the nodes and scores of that moment -/
structure Order where
  requesterPublicKeyB64 : String
  auth : AuthProof
  billing : InferenceBilling
  settingsDigest : String
  batchSize : UInt32
  scoring : Scoring
  nodes : List NodeProfile
  now : ℤ

inductive Act where
  /-- the quorum certifies a transaction, whoever proposed it -/
  | certify (tx : LedgerTransaction)
  /-- the local transaction of `submit_inference` -/
  | submit (o : Order)
  /-- `finalize_inference_reservation`, once `transact` returned the certificate of this reservation -/
  | finalize (tx : LedgerTransaction)
  /-- `poll_inference` takes expired leases back -/
  | expire (assignmentIds : List String)
  | pollSelect (nodeId : String)
  | pollUpdate (l : Lease)
  | failRead (nodeId assignmentId : String) (scoring : Scoring) (nodes : List NodeProfile)
  | failWrite (f : Reroute)
  /-- the last statement of `report_inference` -/
  | report (assignmentId : String)
  /-- the last statement of `refund_inference` -/
  | refund (assignmentId : String)

/-- the inference job a transaction reserves for -/
def reservedFor (tx : LedgerTransaction) : Option String :=
  match tx.evidence with
  | .inferenceReserve e => some e.jobId
  | _ => none

/-- `UPDATE ai_assignments SET status=… WHERE …` -/
def Desk.setStatus (d : Desk) (picks : AiRow → Bool) (status : AiStatus) : Desk :=
  { d with rows := d.rows.map fun a => if picks a then { a with status := status } else a }

section

variable (c : Crypto)

def Order.jobId (o : Order) : String := inferenceJobIdFromAuth c o.auth

def Order.plan (o : Order) : List BatchShard :=
  planBatches (rankCandidates o.scoring (aiContext o.nodes o.auth.nodeId) []) o.batchSize

/-- the escrow, with the plan as it is certified -/
def Order.reservation (o : Order) : LedgerTransaction :=
  inferenceReserveTransaction
    ⟨o.jobId c, o.requesterPublicKeyB64, o.auth, o.billing, o.settingsDigest,
      o.plan.map fun b => ⟨b.batchStart, b.batchEnd, b.nodeId⟩⟩ o.now

/-- the rows of a plan -/
def Order.rows (o : Order) : List AiRow :=
  o.plan.zipIdx.map fun p =>
    ⟨inferenceAssignmentId c (o.jobId c) p.2, o.jobId c, p.1.nodeId, p.1.deviceId, .blocked, [], 0⟩

/-- nothing to plan with, or a primary key is taken -/
def Desk.Refuses (d : Desk) (o : Order) : Prop :=
  o.plan = [] ∨ (∃ j ∈ d.jobs, j.jobId = o.jobId c) ∨
    (∃ a ∈ d.rows, a.assignmentId ∈ (o.rows c).map AiRow.assignmentId) ∨ ¬ ((o.rows c).map AiRow.assignmentId).Nodup

instance (d : Desk) (o : Order) : Decidable (d.Refuses c o) := by
  unfold Desk.Refuses
  infer_instance

def Desk.submit (d : Desk) (o : Order) : Desk :=
  if d.Refuses c o then d
  else { d with
    jobs := d.jobs ++ [⟨o.jobId c, o.auth.nodeId⟩]
    rows := d.rows ++ o.rows c
    proposed := d.proposed ++ [o.reservation c] }

/-- the row a poll of this node picks -/
def Desk.offered (d : Desk) (nodeId : String) : Option AiRow :=
  d.rows.find? fun a => a.assignedNodeId = nodeId ∧ a.status = .pending

/-- `fail_inference` up to its update -/
def Desk.failRead (d : Desk) (nodeId assignmentId : String) (scoring : Scoring) (nodes : List NodeProfile) :
    Option Reroute := do
  let a ← d.rows.find? fun a => a.assignmentId = assignmentId ∧ a.assignedNodeId = nodeId
  let j ← d.jobs.find? fun j => j.jobId = a.jobId
  let excluded := if nodeId ∈ a.failedNodes then a.failedNodes else nodeId :: a.failedNodes
  let next ← (rankCandidates scoring (aiContext nodes j.requester) excluded).head?
  pure ⟨assignmentId, next, excluded⟩

/-- the update of `fail_inference`, whatever has become of the row -/
def Reroute.write (f : Reroute) (a : AiRow) : AiRow :=
  if a.assignmentId = f.assignmentId then
    { a with
      assignedNodeId := f.next.nodeId
      deviceId := f.next.deviceId
      failedNodes := f.excluded
      status := .pending
      failureCount := a.failureCount + 1 }
  else a

def Desk.step (d : Desk) : Act → Desk
  | .certify tx => if ∃ t ∈ d.chain, claimKey t = claimKey tx then d else { d with chain := d.chain ++ [tx] }
  | .submit o => d.submit c o
  | .finalize tx =>
    if tx ∈ d.proposed ∧ tx ∈ d.chain then
      d.setStatus (fun a => reservedFor tx = some a.jobId ∧ a.status = .blocked) .pending
    else d
  | .expire ids => d.setStatus (fun a => a.assignmentId ∈ ids ∧ a.status = .leased) .pending
  | .pollSelect nodeId =>
    match d.offered nodeId with
    | none => d
    | some a => { d with polls := d.polls ++ [a.lease] }
  | .pollUpdate l =>
    if l ∈ d.polls ∧ ∃ a ∈ d.rows, a.assignmentId = l.assignmentId ∧ a.status = .pending then
      { d.setStatus (fun a => a.assignmentId = l.assignmentId ∧ a.status = .pending) .leased with
        polls := d.polls.erase l
        leases := d.leases ++ [l] }
    else { d with polls := d.polls.erase l }
  | .failRead nodeId id scoring nodes =>
    match d.failRead nodeId id scoring nodes with
    | none => d
    | some f => { d with reroutes := d.reroutes ++ [f] }
  | .failWrite f =>
    if f ∈ d.reroutes then { d with rows := d.rows.map f.write, reroutes := d.reroutes.erase f } else d
  | .report id => d.setStatus (fun a => a.assignmentId = id) .completed
  | .refund id => d.setStatus (fun a => a.assignmentId = id) .refunded

def Desk.run (acts : List Act) : Desk := acts.foldl (Desk.step c) .opened

end

/-! ## What pays -/

/-- the reservation the validators judge a claim of the job against -/
def reservedOn (chain : List LedgerTransaction) (jobId : String) : Option InferenceReservation :=
  chain.findSome? fun tx =>
    match tx.evidence with
    | .inferenceReserve e => if e.jobId = jobId then some (reservationOf tx e) else none
    | _ => none

/-- the batch is certified for the node it was handed to, and a reward for it is let through inside the window: by the
assigned-node checks of `validate_inference_reward` and of `validate_inference_membership` -/
def Payable (c : Crypto) (chain : List LedgerTransaction) (l : Lease) : Prop :=
  ∃ r b, reservedOn chain l.jobId = some r ∧ b.nodeId = l.nodeId ∧
    reservedBatch c r l.assignmentId b.batchStart b.batchEnd =
      .ok (b, batchPrice r.billing b.batchStart b.batchEnd) ∧
    ∀ createdAt ≤ windowEnd r.reservedAt,
      inferenceMembership c (reservedOn chain) createdAt l.jobId l.assignmentId b.batchStart b.batchEnd
        (batchPrice r.billing b.batchStart b.batchEnd) l.nodeId false = .ok ()

section

variable {c : Crypto} {chain : List LedgerTransaction}

theorem reservedOn_some {jobId : String} {r : InferenceReservation} (h : reservedOn chain jobId = some r) :
    ∃ tx ∈ chain, ∃ e, tx.evidence = .inferenceReserve e ∧ e.jobId = jobId ∧ r = reservationOf tx e := by
  obtain ⟨tx, htx, hval⟩ := List.exists_of_findSome?_eq_some h
  refine ⟨tx, htx, ?_⟩
  split at hval
  · rename_i e he
    split_ifs at hval with hjob
    cases hval
    exact ⟨e, he, hjob, rfl⟩
  · cases hval

/-- one claim, one entry: what certification keeps -/
def KeysApart (chain : List LedgerTransaction) : Prop :=
  ∀ t ∈ chain, ∀ t' ∈ chain, claimKey t = claimKey t' → t = t'

theorem reservedOn_of_mem (hkeys : KeysApart chain) {tx : LedgerTransaction} {e : InferenceReserveEvidence}
    (htx : tx ∈ chain) (he : tx.evidence = .inferenceReserve e) : reservedOn chain e.jobId = some (reservationOf tx e) := by
  cases hr : reservedOn chain e.jobId with
  | none =>
    have := List.findSome?_eq_none_iff.1 hr tx htx
    simp [he] at this
  | some r =>
    obtain ⟨t, ht, e', he', hjob, rfl⟩ := reservedOn_some hr
    have hsame : t = tx := hkeys t ht tx htx (by simp only [claimKey, he, he', hjob])
    subst hsame
    rw [he] at he'
    cases he'
    rfl

theorem reservedOn_append {jobId : String} {r : InferenceReservation} (h : reservedOn chain jobId = some r)
    (tx : LedgerTransaction) : reservedOn (chain ++ [tx]) jobId = some r := by
  unfold reservedOn at h ⊢
  rw [List.findSome?_append, h]
  rfl

theorem Payable.append {l : Lease} (h : Payable c chain l) (tx : LedgerTransaction) : Payable c (chain ++ [tx]) l := by
  obtain ⟨r, b, hr, hnode, hbatch, hmem⟩ := h
  have hr' := reservedOn_append hr tx
  refine ⟨r, b, hr', hnode, hbatch, ?_⟩
  intro createdAt hin
  have := hmem createdAt hin
  unfold inferenceMembership at this ⊢
  rw [hr'] at ⊢
  rwa [hr] at this

/-- the batch an assignment id stands for in a reservation -/
def batchOf (c : Crypto) (r : InferenceReservation) (assignmentId : String) : Option PricedBatch :=
  (batchIndex c r assignmentId).bind fun i => r.batches[i]?

/-- a batch reserved for a node other than the requester pays that node -/
theorem payable_of_batch {l : Lease} {r : InferenceReservation} {b : PricedBatch}
    (hr : reservedOn chain l.jobId = some r) (hb : batchOf c r l.assignmentId = some b) (hnode : b.nodeId = l.nodeId)
    (hother : r.requester ≠ l.nodeId) : Payable c chain l := by
  obtain ⟨tx, _, e, he, hjob, rfl⟩ := reservedOn_some hr
  obtain ⟨i, hi, hget⟩ := Option.bind_eq_some_iff.1 hb
  have hindex : certifiedIndex c l.jobId e.batches l.assignmentId = some i := by
    rw [← hjob]
    exact hi
  refine ⟨reservationOf tx e, b, hr, hnode, ?_, ?_⟩
  · simp only [reservedBatch, bind_ok, orBail_ok, bailIf_ok, exists_const, pure_ok]
    exact ⟨i, hi, b, hget, by simp, rfl⟩
  · intro createdAt hin
    simp only [inferenceMembership, Bool.false_eq_true, if_false, bind_ok, orBail_ok, bailIf_ok, exists_const]
    refine ⟨reservationOf tx e, hr, i, hindex, b, hget, by simp, ⟨fun hne => hne hnode, hother⟩, by simp, by simp, ?_⟩
    rintro ⟨_, hlate⟩
    exact absurd hin (not_le.2 hlate)

/-- what pays names the reserved batch -/
theorem Payable.batch {l : Lease} (h : Payable c chain l) :
    ∃ r b, reservedOn chain l.jobId = some r ∧ batchOf c r l.assignmentId = some b ∧ b.nodeId = l.nodeId := by
  obtain ⟨r, b, hr, hnode, hbatch, _⟩ := h
  simp only [reservedBatch, bind_ok, orBail_ok, bailIf_ok, exists_const, pure_ok, Prod.mk.injEq] at hbatch
  obtain ⟨i, hi, b', hget, _, rfl, _⟩ := hbatch
  exact ⟨r, b', hr, Option.bind_eq_some_iff.2 ⟨i, hi, hget⟩, hnode⟩

end

/-! ## What planning promises -/

section

variable {c : Crypto}

theorem mem_rankCandidates {s : Scoring} {nodes : List NodeProfile} {excluded : List String} {x : CandidateScore}
    (h : x ∈ rankCandidates s nodes excluded) : x.nodeId ∉ excluded ∧ ∃ n ∈ nodes, n.nodeId = x.nodeId := by
  simp only [rankCandidates, List.mem_insertionSort, List.mem_flatMap, List.mem_filter, List.mem_map, Bool.and_eq_true,
    Bool.not_eq_true', List.contains_eq_mem, decide_eq_false_iff_not] at h
  obtain ⟨n, ⟨hn, ⟨_, hout⟩, _⟩, _, _, rfl⟩ := h
  exact ⟨hout, n, hn, rfl⟩

theorem mem_plan {o : Order} {b : BatchShard} (h : b ∈ o.plan) : b.nodeId ≠ o.auth.nodeId := by
  simp only [Order.plan, planBatches, List.mem_map] at h
  obtain ⟨p, hp, rfl⟩ := h
  have hmem := List.mem_of_mem_take (List.fst_mem_of_mem_zipIdx hp)
  obtain ⟨_, n, hn, hid⟩ := mem_rankCandidates hmem
  have hother := (List.mem_filter.1 hn).2
  simp only [decide_eq_true_eq] at hother
  rw [← hid]
  exact hother

theorem plan_length (o : Order) : o.plan.length < 4294967296 := by
  simp only [Order.plan, planBatches, List.length_map, List.length_zipIdx, List.length_take]
  have := o.batchSize.toNat_lt
  omega

theorem find?_range_eq {n i : ℕ} {f : ℕ → Bool} (hi : i < n) (hf : f i = true) (honly : ∀ j < n, f j = true → j = i) :
    (List.range n).find? f = some i := by
  cases hfind : (List.range n).find? f with
  | none => exact absurd hf (List.find?_eq_none.1 hfind i (List.mem_range.2 hi))
  | some j => rw [honly j (List.mem_range.1 (List.mem_of_find?_eq_some hfind)) (List.find?_some hfind)]

/-- the search for a batch stops at the first index with the id, and no other index has it -/
theorem batchIndex_eq {r : InferenceReservation} {i : ℕ} (hlen : r.batches.length < 4294967296)
    (hi : i < r.batches.length)
    (hid : ∀ j < r.batches.length, inferenceAssignmentId c r.jobId j = inferenceAssignmentId c r.jobId i → j = i) :
    batchIndex c r (inferenceAssignmentId c r.jobId i) = some i := by
  rw [batchIndex, Nat.mod_eq_of_lt hlen]
  exact find?_range_eq hi (by simp) fun j hj hsame => hid j hj (by simpa using hsame)

/-- the rows of an order are the batches of its own reservation -/
theorem order_row {o : Order} (hnodup : ((o.rows c).map AiRow.assignmentId).Nodup) {a : AiRow} (ha : a ∈ o.rows c) :
    ∃ e b, (o.reservation c).evidence = .inferenceReserve e ∧ e.jobId = a.jobId ∧
      batchOf c (reservationOf (o.reservation c) e) a.assignmentId = some b ∧ b.nodeId = a.assignedNodeId ∧
      b.nodeId ≠ e.requesterAuth.nodeId := by
  obtain ⟨p, hp, rfl⟩ := List.mem_map.1 ha
  obtain ⟨shard, i⟩ := p
  have hget : o.plan[i]? = some shard := List.mk_mem_zipIdx_iff_getElem?.1 hp
  have hlt : i < o.plan.length := (List.getElem?_eq_some_iff.1 hget).1
  refine ⟨_, ⟨shard.batchStart, shard.batchEnd, shard.nodeId⟩, rfl, rfl, ?_, rfl, ?_⟩
  · refine Option.bind_eq_some_iff.2 ⟨i, batchIndex_eq ?_ ?_ ?_, ?_⟩
    · simpa [reservationOf] using plan_length o
    · simpa [reservationOf] using hlt
    · intro j hj hid
      simp only [reservationOf, List.length_map] at hj
      rw [Order.rows, List.map_map] at hnodup
      have hq : (o.plan[j], j) ∈ o.plan.zipIdx := List.mk_mem_zipIdx_iff_getElem?.2 (List.getElem?_eq_getElem hj)
      exact (Prod.mk.inj (List.inj_on_of_nodup_map hnodup hq hp hid)).2
    · simp [reservationOf, hget]
  · exact mem_plan (List.mem_of_getElem? hget)

end

/-! ## What every run keeps -/

/-- where a row stands against the plan it was made from: untouched, or rerouted away from the planned node -/
structure RowPlanned (c : Crypto) (d : Desk) (a : AiRow) (r : InferenceReservation) (b : PricedBatch) : Prop where
  proposed : reservedOn d.proposed a.jobId = some r
  batch : batchOf c r a.assignmentId = some b
  other : b.nodeId ≠ r.requester
  fresh : a.failedNodes = [] → a.assignedNodeId = b.nodeId ∧
    (a.status = .pending ∨ a.status = .leased → reservedOn d.chain a.jobId = some r)
  rerouted : a.failedNodes ≠ [] → b.nodeId ∈ a.failedNodes ∧ a.assignedNodeId ∉ a.failedNodes

structure Desk.Inv (c : Crypto) (d : Desk) : Prop where
  certified : KeysApart d.chain
  own : KeysApart d.proposed
  known : ∀ tx ∈ d.proposed, ∃ e, tx.evidence = .inferenceReserve e ∧ ∃ j ∈ d.jobs, j.jobId = e.jobId
  ids : (d.rows.map AiRow.assignmentId).Nodup
  rows : ∀ a ∈ d.rows, ∃ r b, RowPlanned c d a r b
  /-- a decision on its way names a node outside the failed ones, and these hold the planned node -/
  reroutes : ∀ f ∈ d.reroutes, f.next.nodeId ∉ f.excluded ∧
    ∃ a ∈ d.rows, a.assignmentId = f.assignmentId ∧ ∃ r b, RowPlanned c d a r b ∧ b.nodeId ∈ f.excluded

section

variable {c : Crypto} {d : Desk}

/-- the reservation a row was planned in is the one it still has -/
theorem RowPlanned.same {a a' : AiRow} {r r' : InferenceReservation} {b b' : PricedBatch}
    (h : RowPlanned c d a r b) (h' : RowPlanned c d a' r' b') (hid : a'.assignmentId = a.assignmentId)
    (hjob : a'.jobId = a.jobId) : r' = r ∧ b' = b := by
  have hr := h'.proposed
  rw [hjob, h.proposed] at hr
  cases hr
  have hb := h'.batch
  rw [hid, h.batch] at hb
  cases hb
  exact ⟨rfl, rfl⟩

/-- **Payable rows.** A row that was not rerouted and is or was handed out pays the node it is assigned to. -/
theorem RowPlanned.payable {a : AiRow} {r : InferenceReservation} {b : PricedBatch} (h : RowPlanned c d a r b)
    (hfresh : a.failedNodes = []) (hst : a.status = .pending ∨ a.status = .leased) : Payable c d.chain a.lease := by
  obtain ⟨hnode, hchain⟩ := h.fresh hfresh
  refine payable_of_batch (hchain hst) h.batch hnode.symm ?_
  rw [AiRow.lease, hnode]
  exact h.other.symm

/-- a status a row may be given without leaving its plan: `pending` and `leased` only once the reservation is certified -/
theorem RowPlanned.status {a : AiRow} {r : InferenceReservation} {b : PricedBatch} (h : RowPlanned c d a r b)
    {status : AiStatus} (hst : status = .pending ∨ status = .leased →
      (a.status = .pending ∨ a.status = .leased) ∨ reservedOn d.chain a.jobId = some r) :
    RowPlanned c d { a with status := status } r b where
  proposed := h.proposed
  batch := h.batch
  other := h.other
  fresh := by
    intro hfresh
    obtain ⟨hnode, hchain⟩ := h.fresh hfresh
    refine ⟨hnode, fun hopen => ?_⟩
    exact (hst hopen).elim hchain id
  rerouted := h.rerouted

theorem mem_setStatus {picks : AiRow → Bool} {status : AiStatus} {a' : AiRow}
    (h : a' ∈ (d.setStatus picks status).rows) :
    ∃ a ∈ d.rows, a' = a ∨ picks a = true ∧ a' = { a with status := status } := by
  obtain ⟨a, ha, rfl⟩ := List.mem_map.1 h
  refine ⟨a, ha, ?_⟩
  split_ifs with hpick
  · exact Or.inr ⟨hpick, rfl⟩
  · exact Or.inl rfl

/-- an update of the status keeps the plan of every row -/
theorem Desk.Inv.setStatus (h : d.Inv c) {picks : AiRow → Bool} {status : AiStatus}
    (hst : ∀ a ∈ d.rows, picks a = true → status = .pending ∨ status = .leased →
      (a.status = .pending ∨ a.status = .leased) ∨ reservedOn d.chain a.jobId = reservedOn d.proposed a.jobId) :
    (d.setStatus picks status).Inv c where
  certified := h.certified
  own := h.own
  known := h.known
  ids := by
    have hmap : (d.setStatus picks status).rows.map AiRow.assignmentId = d.rows.map AiRow.assignmentId := by
      simp only [Desk.setStatus, List.map_map]
      refine List.map_congr_left fun a _ => ?_
      simp only [Function.comp_apply]
      split_ifs <;> rfl
    rw [hmap]
    exact h.ids
  rows := by
    intro a' ha'
    obtain ⟨a, ha, rfl | ⟨hpick, rfl⟩⟩ := mem_setStatus ha'
    · obtain ⟨r, b, hp⟩ := h.rows _ ha
      exact ⟨r, b, hp.proposed, hp.batch, hp.other, hp.fresh, hp.rerouted⟩
    · obtain ⟨r, b, hp⟩ := h.rows a ha
      have := hp.status fun hopen => (hst a ha hpick hopen).imp_right fun heq => heq.trans hp.proposed
      exact ⟨r, b, this.proposed, this.batch, this.other, this.fresh, this.rerouted⟩
  reroutes := by
    intro f hf
    obtain ⟨hnext, a, ha, hid, r, b, hp, hin⟩ := h.reroutes f hf
    refine ⟨hnext, if picks a then { a with status := status } else a, List.mem_map_of_mem ha, ?_, r, b, ?_, hin⟩
    · split_ifs <;> exact hid
    · split_ifs with hpick
      · have := hp.status fun hopen => (hst a ha hpick hopen).imp_right fun heq => heq.trans hp.proposed
        exact ⟨this.proposed, this.batch, this.other, this.fresh, this.rerouted⟩
      · exact ⟨hp.proposed, hp.batch, hp.other, hp.fresh, hp.rerouted⟩

/-- the columns the plan is about are the only ones that matter -/
theorem RowPlanned.congr {d' : Desk} {a : AiRow} {r : InferenceReservation} {b : PricedBatch} (h : RowPlanned c d a r b)
    (hproposed : reservedOn d'.proposed a.jobId = some r)
    (hchain : reservedOn d.chain a.jobId = some r → reservedOn d'.chain a.jobId = some r) : RowPlanned c d' a r b where
  proposed := hproposed
  batch := h.batch
  other := h.other
  fresh := fun hfresh => ⟨(h.fresh hfresh).1, fun hst => hchain ((h.fresh hfresh).2 hst)⟩
  rerouted := h.rerouted

/-! ## One act -/

theorem Desk.Inv.certify (h : d.Inv c) {tx : LedgerTransaction} (hfree : ¬ ∃ t ∈ d.chain, claimKey t = claimKey tx) :
    Desk.Inv c { d with chain := d.chain ++ [tx] } where
  certified := by
    intro t ht t' ht' hkey
    rcases List.mem_append.1 ht with ht | ht <;> rcases List.mem_append.1 ht' with ht' | ht'
    · exact h.certified t ht t' ht' hkey
    · exact absurd ⟨t, ht, hkey.trans (by rw [List.mem_singleton.1 ht'])⟩ hfree
    · exact absurd ⟨t', ht', hkey.symm.trans (by rw [List.mem_singleton.1 ht])⟩ hfree
    · rw [List.mem_singleton.1 ht, List.mem_singleton.1 ht']
  own := h.own
  known := h.known
  ids := h.ids
  rows := by
    intro a ha
    obtain ⟨r, b, hp⟩ := h.rows a ha
    exact ⟨r, b, hp.congr hp.proposed fun hr => reservedOn_append hr tx⟩
  reroutes := by
    intro f hf
    obtain ⟨hnext, a, ha, hid, r, b, hp, hin⟩ := h.reroutes f hf
    exact ⟨hnext, a, ha, hid, r, b, hp.congr hp.proposed fun hr => reservedOn_append hr tx, hin⟩

theorem Desk.Inv.submit (h : d.Inv c) {o : Order} (hok : ¬ d.Refuses c o) :
    Desk.Inv c { d with
      jobs := d.jobs ++ [⟨o.jobId c, o.auth.nodeId⟩]
      rows := d.rows ++ o.rows c
      proposed := d.proposed ++ [o.reservation c] } := by
  simp only [Desk.Refuses, not_or, not_not] at hok
  obtain ⟨_, hjob, hids, hnodup⟩ := hok
  have hnone : ∀ tx ∈ d.proposed, claimKey tx ≠ claimKey (o.reservation c) := by
    intro tx htx hkey
    obtain ⟨e, he, j, hj, hid⟩ := h.known tx htx
    refine hjob ⟨j, hj, hid.trans ?_⟩
    simp only [claimKey, he] at hkey
    exact (String.append_right_inj _).1 hkey
  have hown : KeysApart (d.proposed ++ [o.reservation c]) := by
    intro t ht t' ht' hkey
    rcases List.mem_append.1 ht with ht | ht <;> rcases List.mem_append.1 ht' with ht' | ht'
    · exact h.own t ht t' ht' hkey
    · exact absurd (hkey.trans (by rw [List.mem_singleton.1 ht'])) (hnone t ht)
    · exact absurd (hkey.symm.trans (by rw [List.mem_singleton.1 ht])) (hnone t' ht')
    · rw [List.mem_singleton.1 ht, List.mem_singleton.1 ht']
  refine ⟨h.certified, hown, ?_, ?_, ?_, ?_⟩
  · intro tx htx
    rcases List.mem_append.1 htx with htx | htx
    · obtain ⟨e, he, j, hj, hid⟩ := h.known tx htx
      exact ⟨e, he, j, List.mem_append_left _ hj, hid⟩
    · rw [List.mem_singleton.1 htx]
      exact ⟨_, rfl, _, List.mem_append_right _ (List.mem_singleton_self _), rfl⟩
  · rw [List.map_append]
    refine List.nodup_append.2 ⟨h.ids, hnodup, ?_⟩
    intro id hold id' hnew heq
    obtain ⟨a, ha, rfl⟩ := List.mem_map.1 hold
    exact hids ⟨a, ha, heq ▸ hnew⟩
  · intro a ha
    rcases List.mem_append.1 ha with ha | ha
    · obtain ⟨r, b, hp⟩ := h.rows a ha
      exact ⟨r, b, hp.congr (reservedOn_append hp.proposed _) id⟩
    · obtain ⟨e, b, he, hsame, hb, hnode, hother⟩ := order_row hnodup ha
      refine ⟨_, b, ?_, hb, hother, ?_, ?_⟩
      · rw [← hsame]
        exact reservedOn_of_mem hown (List.mem_append_right _ (List.mem_singleton_self _)) he
      · obtain ⟨p, _, rfl⟩ := List.mem_map.1 ha
        exact fun _ => ⟨hnode.symm, by rintro (hst | hst) <;> cases hst⟩
      · obtain ⟨p, _, rfl⟩ := List.mem_map.1 ha
        exact fun hne => absurd rfl hne
  · intro f hf
    obtain ⟨hnext, a, ha, hid, r, b, hp, hin⟩ := h.reroutes f hf
    exact ⟨hnext, a, List.mem_append_left _ ha, hid, r, b, hp.congr (reservedOn_append hp.proposed _) id, hin⟩

/-- the row an assignment id names is the only one -/
theorem Desk.Inv.only (h : d.Inv c) {a a' : AiRow} (ha : a ∈ d.rows) (ha' : a' ∈ d.rows)
    (hid : a.assignmentId = a'.assignmentId) : a = a' :=
  List.inj_on_of_nodup_map h.ids ha ha' hid

theorem Desk.Inv.failRead (h : d.Inv c) {nodeId assignmentId : String} {scoring : Scoring} {nodes : List NodeProfile}
    {f : Reroute} (hf : d.failRead nodeId assignmentId scoring nodes = some f) : Desk.Inv c { d with reroutes := d.reroutes ++ [f] } := by
  refine ⟨h.certified, h.own, h.known, h.ids, ?_, ?_⟩
  · intro a ha
    obtain ⟨r, b, hp⟩ := h.rows a ha
    exact ⟨r, b, hp.congr hp.proposed id⟩
  · intro f' hf'
    rcases List.mem_append.1 hf' with hf' | hf'
    · obtain ⟨hnext, a, ha, hid, r, b, hp, hin⟩ := h.reroutes f' hf'
      exact ⟨hnext, a, ha, hid, r, b, hp.congr hp.proposed id, hin⟩
    · rw [List.mem_singleton.1 hf']
      simp only [Desk.failRead, Option.bind_eq_bind, Option.bind_eq_some_iff, Option.pure_def, Option.some.injEq] at hf
      obtain ⟨a, ha, j, _, next, hnext, rfl⟩ := hf
      have hain := List.mem_of_find?_eq_some ha
      have hwho : a.assignmentId = assignmentId ∧ a.assignedNodeId = nodeId := by simpa using List.find?_some ha
      obtain ⟨r, b, hp⟩ := h.rows a hain
      refine ⟨(mem_rankCandidates (List.mem_of_head? hnext)).1, a, hain, hwho.1, r, b, hp.congr hp.proposed id, ?_⟩
      -- the node that gave up is the planned one unless that one gave up before
      by_cases hfresh : a.failedNodes = []
      · rw [← (hp.fresh hfresh).1, hwho.2]
        split_ifs with hin
        · exact hin
        · exact List.mem_cons_self
      · have hin := (hp.rerouted hfresh).1
        split_ifs
        · exact hin
        · exact List.mem_cons_of_mem _ hin

theorem Desk.Inv.failWrite (h : d.Inv c) {f : Reroute} (hf : f ∈ d.reroutes) :
    Desk.Inv c { d with rows := d.rows.map f.write, reroutes := d.reroutes.erase f } := by
  have hid : ∀ a, (f.write a).assignmentId = a.assignmentId := by
    intro a
    unfold Reroute.write
    split_ifs <;> rfl
  have hrow : ∀ a ∈ d.rows, ∀ r b, RowPlanned c d a r b →
      RowPlanned c { d with rows := d.rows.map f.write, reroutes := d.reroutes.erase f } (f.write a) r b := by
    intro a ha r b hp
    unfold Reroute.write
    split_ifs with hsame
    · obtain ⟨hnext, a', ha', hid', r', b', hp', hin⟩ := h.reroutes f hf
      have heq : a' = a := h.only ha' ha (hid'.trans hsame.symm)
      subst heq
      obtain ⟨rfl, rfl⟩ := hp'.same hp rfl rfl
      refine ⟨hp.proposed, hp.batch, hp.other, ?_, fun _ => ⟨hin, hnext⟩⟩
      intro hempty
      simp only at hempty
      rw [hempty] at hin
      cases hin
    · exact hp.congr hp.proposed id
  refine ⟨h.certified, h.own, h.known, ?_, ?_, ?_⟩
  · have hmap : (d.rows.map f.write).map AiRow.assignmentId = d.rows.map AiRow.assignmentId := by
      rw [List.map_map]
      exact List.map_congr_left fun a _ => hid a
    rw [hmap]
    exact h.ids
  · intro a' ha'
    obtain ⟨a, ha, rfl⟩ := List.mem_map.1 ha'
    obtain ⟨r, b, hp⟩ := h.rows a ha
    exact ⟨r, b, hrow a ha r b hp⟩
  · intro f' hf'
    obtain ⟨hnext, a, ha, hid', r, b, hp, hin⟩ := h.reroutes f' (List.mem_of_mem_erase hf')
    exact ⟨hnext, f.write a, List.mem_map_of_mem ha, (hid a).trans hid', r, b, hrow a ha r b hp, hin⟩

/-- what polls and leases hold is no part of the invariant -/
theorem Desk.Inv.answer (h : d.Inv c) (polls leases : List Lease) :
    Desk.Inv c { d with polls := polls, leases := leases } where
  certified := h.certified
  own := h.own
  known := h.known
  ids := h.ids
  rows := by
    intro a ha
    obtain ⟨r, b, hp⟩ := h.rows a ha
    exact ⟨r, b, hp.congr hp.proposed id⟩
  reroutes := by
    intro f hf
    obtain ⟨hnext, a, ha, hid, r, b, hp, hin⟩ := h.reroutes f hf
    exact ⟨hnext, a, ha, hid, r, b, hp.congr hp.proposed id, hin⟩

/-- **Step.** No act leaves the plan of a row behind. -/
theorem Desk.Inv.step (h : d.Inv c) (act : Act) : (d.step c act).Inv c := by
  cases act with
  | certify tx =>
    simp only [Desk.step]
    split_ifs with hspent
    · exact h
    · exact h.certify hspent
  | submit o =>
    simp only [Desk.step, Desk.submit]
    split_ifs with hrefused
    · exact h
    · exact h.submit hrefused
  | finalize tx =>
    simp only [Desk.step]
    split_ifs with hown
    · refine h.setStatus fun a _ hpick _ => Or.inr ?_
      simp only [decide_eq_true_eq] at hpick
      obtain ⟨e, he, _⟩ := h.known tx hown.1
      have hjob : e.jobId = a.jobId := by simpa [reservedFor, he] using hpick.1
      rw [← hjob, reservedOn_of_mem h.certified hown.2 he, reservedOn_of_mem h.own hown.1 he]
    · exact h
  | expire ids =>
    refine h.setStatus fun a _ hpick _ => Or.inl (Or.inr ?_)
    simp only [decide_eq_true_eq] at hpick
    exact hpick.2
  | pollSelect nodeId =>
    simp only [Desk.step]
    split
    · exact h
    · exact h.answer _ _
  | pollUpdate l =>
    simp only [Desk.step]
    split_ifs
    · refine (h.setStatus fun a _ hpick _ => Or.inl (Or.inl ?_)).answer _ _
      simp only [decide_eq_true_eq] at hpick
      exact hpick.2
    · exact h.answer _ _
  | failRead nodeId assignmentId scoring nodes =>
    simp only [Desk.step]
    split
    · exact h
    · rename_i f hf
      exact h.failRead hf
  | failWrite f =>
    simp only [Desk.step]
    split_ifs with hf
    · exact h.failWrite hf
    · exact h
  | report assignmentId => exact h.setStatus fun _ _ _ hst => by rcases hst with hst | hst <;> cases hst
  | refund assignmentId => exact h.setStatus fun _ _ _ hst => by rcases hst with hst | hst <;> cases hst

theorem opened_inv (c : Crypto) : Desk.Inv c .opened := by
  constructor
  all_goals simp [Desk.opened, KeysApart]

theorem run_inv (c : Crypto) (acts : List Act) : (Desk.run c acts).Inv c := by
  induction acts using List.reverseRecOn with
  | nil => exact opened_inv c
  | append_singleton acts act ih =>
    rw [Desk.run, List.foldl_append]
    exact ih.step act

/-! ## Work handed out -/

/-- the batch a poll picks has not been rerouted -/
def Desk.Unrouted (d : Desk) : Act → Prop
  | .pollSelect nodeId => ∀ a ∈ d.offered nodeId, a.failedNodes = []
  | _ => True

instance (d : Desk) (act : Act) : Decidable (d.Unrouted act) := by
  unfold Desk.Unrouted
  split <;> infer_instance

/-- every answer to a poll, given or on its way, pays the node that asked -/
def Desk.AllPayable (c : Crypto) (d : Desk) : Prop := ∀ l, l ∈ d.polls ∨ l ∈ d.leases → Payable c d.chain l

theorem step_chain (c : Crypto) (d : Desk) (act : Act) :
    (d.step c act).chain = d.chain ∨ ∃ tx, (d.step c act).chain = d.chain ++ [tx] := by
  cases act with
  | certify tx =>
    simp only [Desk.step]
    split_ifs
    · exact Or.inl rfl
    · exact Or.inr ⟨tx, rfl⟩
  | submit o =>
    simp only [Desk.step, Desk.submit]
    split_ifs <;> exact Or.inl rfl
  | _ =>
    left
    simp only [Desk.step]
    repeat' split
    all_goals rfl

/-- an answer is an old one, or comes from the row the act's poll picked -/
theorem step_answers {act : Act} {l : Lease} (h : l ∈ (d.step c act).polls ∨ l ∈ (d.step c act).leases) :
    (l ∈ d.polls ∨ l ∈ d.leases) ∨ ∃ nodeId a, act = .pollSelect nodeId ∧ d.offered nodeId = some a ∧ l = a.lease := by
  cases act with
  | pollSelect nodeId =>
    simp only [Desk.step] at h
    split at h
    · exact Or.inl h
    · rename_i a ha
      rcases h with h | h
      · rcases List.mem_append.1 h with h | h
        · exact Or.inl (Or.inl h)
        · exact Or.inr ⟨nodeId, a, rfl, ha, List.mem_singleton.1 h⟩
      · exact Or.inl (Or.inr h)
  | pollUpdate l' =>
    left
    simp only [Desk.step] at h
    split_ifs at h with hrow
    · rcases h with h | h
      · exact Or.inl (List.mem_of_mem_erase h)
      · rcases List.mem_append.1 h with h | h
        · exact Or.inr h
        · rw [List.mem_singleton.1 h]
          exact Or.inl hrow.1
    · exact h.imp_left List.mem_of_mem_erase
  | submit o =>
    simp only [Desk.step, Desk.submit] at h
    split_ifs at h <;> exact Or.inl h
  | _ =>
    left
    simp only [Desk.step] at h
    repeat' split at h
    all_goals exact h

theorem Desk.AllPayable.step (h : d.AllPayable c) (hinv : d.Inv c) {act : Act} (hact : d.Unrouted act) :
    (d.step c act).AllPayable c := by
  intro l hl
  have hbefore : Payable c d.chain l := by
    rcases step_answers hl with hold | ⟨nodeId, a, rfl, ha, rfl⟩
    · exact h l hold
    · obtain ⟨r, b, hp⟩ := hinv.rows a (List.mem_of_find?_eq_some ha)
      have hpending : a.assignedNodeId = nodeId ∧ a.status = .pending := by simpa using List.find?_some ha
      exact hp.payable (hact a ha) (Or.inl hpending.2)
  rcases step_chain c d act with heq | ⟨tx, heq⟩
  · rw [heq]
    exact hbefore
  · rw [heq]
    exact hbefore.append tx

/-- **Work handed out is payable.** In every run in which no poll is answered with a rerouted batch, every node that was
handed a batch is the one certified for it, and its reward passes the assigned-node checks inside the window. -/
theorem work_payable {acts : List Act} (hall : Along (Desk.step c) Desk.Unrouted .opened acts) :
    ∀ l ∈ (Desk.run c acts).leases, Payable c (Desk.run c acts).chain l := by
  have hrun := Along.invariant (fun (d : Desk) _ => d.Inv c ∧ d.AllPayable c)
    (fun d _ act h hact => ⟨h.1.step act, h.2.step h.1 hact⟩) acts Desk.opened [] hall
    ⟨opened_inv c, by simp [Desk.AllPayable, Desk.opened]⟩
  exact fun l hl => hrun.2 l (Or.inr hl)

/-- **Rerouted work never pays.** Whatever happened before, a batch that was rerouted does not pay the node it is
assigned to, if the reservation certified for its job is the coordinator's own. -/
theorem rerouted_unpayable {acts : List Act} {a : AiRow} (ha : a ∈ (Desk.run c acts).rows) (hrerouted : a.failedNodes ≠ [])
    (hown : reservedOn (Desk.run c acts).chain a.jobId = reservedOn (Desk.run c acts).proposed a.jobId) :
    ¬ Payable c (Desk.run c acts).chain a.lease := by
  intro hpay
  obtain ⟨r, b, hp⟩ := (run_inv c acts).rows a ha
  obtain ⟨r', b', hr', hb', hnode⟩ := hpay.batch
  have hr : r = r' := Option.some.inj (by rw [← hp.proposed, ← hown]; exact hr')
  subst hr
  have hb : b = b' := Option.some.inj (hp.batch.symm.trans hb')
  subst hb
  obtain ⟨hin, hout⟩ := hp.rerouted hrerouted
  rw [hnode] at hin
  exact hout hin

end

namespace Sample

open Hocmesh.Protocol.Sample Hocmesh.Coordinator.Sample

/-- nodes 6 and 7 are online with one device each, and node 6 scores better -/
def twoNodes : List NodeProfile := [⟨nodeId 6, ["gpu"], true⟩, ⟨nodeId 7, ["gpu"], true⟩]

def scoring : Scoring where
  validMetric := fun _ => true
  deviceMatches := fun _ _ => true
  score := fun n _ => if n.nodeId = nodeId 6 then 0 else 1

/-- node 5's request for one prompt -/
def order : Order where
  requesterPublicKeyB64 := inferenceEvidence.requesterPublicKeyB64
  auth := inferenceEvidence.requesterAuth
  billing := inferenceEvidence.billing
  settingsDigest := inferenceEvidence.settingsDigest
  batchSize := 1
  scoring := scoring
  nodes := twoNodes
  now := 300

/-- planned for node 6, certified, and handed to node 6 -/
def handedOut : List Act :=
  [.submit order, .certify (order.reservation crypto), .finalize (order.reservation crypto), .pollSelect (nodeId 6),
    .pollUpdate ⟨nodeId 6, smallAssignment, smallJob⟩]

/-- node 6 gives up, and the batch goes to node 7 -/
def rerouted : List Act :=
  handedOut ++ [.failRead (nodeId 6) smallAssignment scoring twoNodes,
    .failWrite ⟨smallAssignment, ⟨nodeId 7, "gpu", 1⟩, [nodeId 6]⟩, .pollSelect (nodeId 7),
    .pollUpdate ⟨nodeId 7, smallAssignment, smallJob⟩]

end Sample

theorem handed_out_payable :
    (Desk.run Sample.crypto Sample.handedOut).leases = [⟨Sample.nodeId 6, Sample.smallAssignment, Sample.smallJob⟩] ∧
      Payable Sample.crypto (Desk.run Sample.crypto Sample.handedOut).chain
        ⟨Sample.nodeId 6, Sample.smallAssignment, Sample.smallJob⟩ := by
  have hrun : (Desk.run Sample.crypto Sample.handedOut).leases =
        [⟨Sample.nodeId 6, Sample.smallAssignment, Sample.smallJob⟩] ∧
      Along (Desk.step Sample.crypto) Desk.Unrouted .opened Sample.handedOut := by decide +kernel
  exact ⟨hrun.1, work_payable hrun.2 _ (by rw [hrun.1]; exact List.mem_singleton_self _)⟩

/-- node 7 holds a lease for the batch that is certified for node 6: a validator turns its reward away -/
theorem rerouted_lease_unpaid :
    let d := Desk.run Sample.crypto Sample.rerouted
    (⟨Sample.nodeId 7, Sample.smallAssignment, Sample.smallJob⟩ : Lease) ∈ d.leases ∧
      inferenceMembership Sample.crypto (reservedOn d.chain) 400 Sample.smallJob Sample.smallAssignment 0 1 1
        (Sample.nodeId 7) false = .error "inference reward paid to a node the batch was not assigned to" ∧
      ¬ ∀ l ∈ d.leases, Payable Sample.crypto d.chain l := by
  obtain ⟨hlease, hrefused, hbatch, hnodes⟩ :
      (⟨Sample.nodeId 7, Sample.smallAssignment, Sample.smallJob⟩ : Lease) ∈
        (Desk.run Sample.crypto Sample.rerouted).leases ∧
      inferenceMembership Sample.crypto (reservedOn (Desk.run Sample.crypto Sample.rerouted).chain) 400 Sample.smallJob
        Sample.smallAssignment 0 1 1 (Sample.nodeId 7) false =
          .error "inference reward paid to a node the batch was not assigned to" ∧
      (reservedOn (Desk.run Sample.crypto Sample.rerouted).chain Sample.smallJob).bind
        (fun r => batchOf Sample.crypto r Sample.smallAssignment) = some ⟨0, 1, Sample.nodeId 6⟩ ∧
      Sample.nodeId 6 ≠ Sample.nodeId 7 := by decide +kernel
  refine ⟨hlease, hrefused, ?_⟩
  intro hall
  obtain ⟨r, b, hr, hb, hnode⟩ := (hall _ hlease).batch
  rw [hr] at hbatch
  cases hb.symm.trans hbatch
  exact hnodes hnode

end Hocmesh.Coordinator.Failover
