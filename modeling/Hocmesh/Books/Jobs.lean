/-
Jobs in the books: which transactions touch the escrow of a job, and what the history says about its claims.

A job's escrow is filled by the one reserve that booked it and emptied only by settlements that name it and were checked
against its reservation (`escrow_out`). `Ledgered` collects what every argument about a job starts from: the claims are
exactly the history's, none was taken twice, a job nobody reserved has nothing in escrow, and no job is both a CPU job
and an inference job.
-/
import Hocmesh.Books.Chain

namespace Hocmesh.Books

open Hocmesh.Base Hocmesh.Protocol Hocmesh.Compute Hocmesh.Ledger Hocmesh.Validator

/-! ## What a transaction settles -/

/-- the shard a CPU reward or refund settles -/
def settlesShard (tx : LedgerTransaction) : Option (String × ℕ) :=
  match tx.evidence with
  | .providerReward e => some (e.jobId, e.shardIndex)
  | .jobRefund e => some (e.jobId, e.shardIndex)
  | _ => none

/-- job, assignment id and bounds of the batch a receipt or a refund takes out of escrow -/
def takesBatch (tx : LedgerTransaction) : Option (String × String × ℕ × ℕ) :=
  match tx.evidence with
  | .inferenceReceipt e => some (e.jobId, e.assignmentId, e.batchStart, e.batchEnd)
  | .inferenceRefund e => some (e.jobId, e.assignmentId, e.batchStart, e.batchEnd)
  | _ => none

section

variable {c : Crypto} {limit : ℤ} {s : LedgerState} {tx : LedgerTransaction}

/-- the flow of an admitted transaction -/
theorem Admitted.flows (h : Admitted c limit s tx) {f : Transfer} (hf : flow tx = some f) :
    Flows tx f ∧ Covered s.balances.entry limit f := by
  obtain ⟨prev, set, hset, rfl, hv⟩ := h.valid
  rcases flow_of_valid hv with ⟨hnone, _⟩ | ⟨f', hf', hflows, hcov⟩
  · rw [hf] at hnone
    cases hnone
  · rw [hf] at hf'
    cases hf'
    rw [abs_of_pos hset.limit_pos] at hcov
    exact ⟨hflows, hcov⟩

theorem Admitted.rule (h : Admitted c limit s tx) :
    ∃ prev set, set.Valid ∧ tx.kind = kindOf tx.evidence ∧ kindRule c tx prev (reservedIn s) set = .ok () := by
  obtain ⟨prev, set, hset, _, hv⟩ := h.valid
  obtain ⟨hk, hr, _⟩ := validateTransaction_ok hv
  exact ⟨prev, set, hset, hk, hr⟩

/-- what the membership check of a CPU settlement established -/
theorem shardMembership_ok {res : String → Option ReservationRecord} {at_ : ℤ} {jobId : String} {i : ℕ}
    {work : WorkSpec} {funded refund : Bool} {payee : Option String}
    (h : shardMembership res at_ jobId i work funded payee refund = .ok ()) :
    ∃ r, res jobId = some r ∧ (splitWork r.work r.shards)[i]? = some work := by
  simp only [shardMembership, bind_ok, orBail_ok, bailIf_ok, exists_const, not_not] at h
  obtain ⟨r, hr, _, _, _, expected, hexp, rfl, _⟩ := h
  exact ⟨r, hr, hexp⟩

/-- **A CPU settlement, inverted.** It settles one shard of a certified reservation, for that shard's price. -/
theorem shard_of_rule {prev : String} {res : String → Option ReservationRecord}
    {inf inf' : String → Option InferenceReservation} {set : ValidatorSet} (hr : kindRule c tx prev inf' set = .ok ())
    (hm : validateSettlementMembership c res inf tx = .ok ()) {j : String} {i : ℕ}
    (hs : settlesShard tx = some (j, i)) :
    ∃ r work dst, res j = some r ∧ (splitWork r.work r.shards)[i]? = some work ∧
      flow tx = some ⟨.escrow j, dst, workCostMcu work⟩ ∧ claimKey tx = "reward:" ++ assignmentId c j i := by
  unfold settlesShard at hs
  cases he : tx.evidence with
  | providerReward e =>
    simp only [he, Option.some.injEq, Prod.mk.injEq, validateSettlementMembership, kindRule, validateReward, bind_ok,
      bailIf_ok, exists_const, exists_ok_unit_and, not_not] at hs hm hr
    obtain ⟨rfl, rfl⟩ := hs
    obtain ⟨r, hres, hpart⟩ := shardMembership_ok hm
    obtain ⟨_, _, _, _, hid, _⟩ := hr
    exact ⟨r, e.work, .node e.providerAuth.nodeId, hres, hpart, by simp only [flow, he], by simp only [claimKey, he, hid]⟩
  | jobRefund e =>
    simp only [he, Option.some.injEq, Prod.mk.injEq, validateSettlementMembership, kindRule, validateRefund, bind_ok,
      bailIf_ok, exists_const, exists_ok_unit_and, not_not] at hs hm hr
    obtain ⟨rfl, rfl⟩ := hs
    obtain ⟨r, hres, hpart⟩ := shardMembership_ok hm
    obtain ⟨_, hid, _, _, _⟩ := hr
    exact ⟨r, e.work, refundAccount e.requesterAuth, hres, hpart, by simp only [flow, he], by simp only [claimKey, he, hid]⟩
  | _ => simp [he] at hs

theorem Admitted.shard (h : Admitted c limit s tx) {j : String} {i : ℕ} (hs : settlesShard tx = some (j, i)) :
    ∃ r work dst, s.reservations[j]? = some r ∧ (splitWork r.work r.shards)[i]? = some work ∧
      flow tx = some ⟨.escrow j, dst, workCostMcu work⟩ ∧ claimKey tx = "reward:" ++ assignmentId c j i := by
  obtain ⟨prev, set, _, _, hr⟩ := h.rule
  exact shard_of_rule hr h.member hs

/-- **A receipt or a batch refund, inverted.** It takes one batch of a certified reservation, for that batch's price. -/
theorem batch_of_rule {prev : String} {set : ValidatorSet} (hr : kindRule c tx prev (reservedIn s) set = .ok ())
    {j id : String} {b e : ℕ} (hs : takesBatch tx = some (j, id, b, e)) :
    ∃ r i batch dst, s.inference[j]? = some r ∧ NamesBatch c j r.batches id b e i batch ∧
      flow tx = some ⟨.escrow j, dst, batchPrice r.billing b e⟩ ∧ claimKey tx = inferenceClaimKey j b e := by
  unfold takesBatch at hs
  cases he : tx.evidence with
  | inferenceReceipt ev =>
    simp only [he, Option.some.injEq, Prod.mk.injEq, kindRule, validateInferenceReceipt, bind_ok, bailIf_ok,
      exists_const, exists_ok_unit_and, not_not, Prod.exists, orBail_ok, reservedBatch_ok, reservedIn,
      Option.map_eq_some_iff] at hs hr
    obtain ⟨rfl, rfl, rfl, rfl⟩ := hs
    obtain ⟨_, _, ⟨r, hres, rfl⟩, _, batch, price, ⟨⟨i, hi⟩, rfl⟩, hp, _⟩ := hr
    refine ⟨r, i, batch, .holding ev.assignmentId, hres, hi, ?_, by simp only [claimKey, he]⟩
    simp only [flow, he, hp]
    rfl
  | inferenceRefund ev =>
    simp only [he, Option.some.injEq, Prod.mk.injEq, kindRule, validateInferenceRefund, bind_ok, bailIf_ok,
      exists_const, exists_ok_unit_and, not_not, Prod.exists, orBail_ok, reservedBatch_ok, reservedIn,
      Option.map_eq_some_iff] at hs hr
    obtain ⟨rfl, rfl, rfl, rfl⟩ := hs
    obtain ⟨_, _, _, ⟨r, hres, rfl⟩, batch, price, ⟨⟨i, hi⟩, rfl⟩, _, hp, _⟩ := hr
    refine ⟨r, i, batch, .node ev.requesterAuth.nodeId, hres, hi, ?_, by simp only [claimKey, he]⟩
    simp only [flow, he, hp]
    rfl
  | _ => simp [he] at hs

theorem Admitted.batch (h : Admitted c limit s tx) {j id : String} {b e : ℕ}
    (hs : takesBatch tx = some (j, id, b, e)) :
    ∃ r i batch dst, s.inference[j]? = some r ∧ NamesBatch c j r.batches id b e i batch ∧
      flow tx = some ⟨.escrow j, dst, batchPrice r.billing b e⟩ ∧ claimKey tx = inferenceClaimKey j b e := by
  obtain ⟨prev, set, _, _, hr⟩ := h.rule
  exact batch_of_rule hr hs

/-! ## Who touches an escrow -/

/-- only the reserve of a job pays into its escrow -/
theorem escrow_in {f : Transfer} {j : String} (hf : flow tx = some f) (hd : f.dst = .escrow j) :
    (∃ r, LedgerStore.jobRecord tx = some (j, r) ∧ f.amount = jobCostMcu r.work r.shards) ∨
      ∃ r, LedgerStore.inferenceRecord tx = some (j, r) ∧ f.amount = jobPrice r.billing := by
  unfold flow at hf
  cases he : tx.evidence with
  | jobReserve e =>
    simp only [he, Option.some.injEq] at hf
    subst hf
    cases hd
    left
    exact ⟨⟨e.work, e.shards, false, some e.requesterAuth.nodeId, tx.createdAt⟩, by simp only [LedgerStore.jobRecord, he],
      rfl⟩
  | communityReserve e =>
    simp only [he, Option.some.injEq] at hf
    subst hf
    cases hd
    left
    exact ⟨⟨e.work, e.shards, true, none, tx.createdAt⟩, by simp only [LedgerStore.jobRecord, he], rfl⟩
  | inferenceReserve e =>
    simp only [he, Option.some.injEq] at hf
    subst hf
    cases hd
    right
    exact ⟨⟨e.billing, e.batches, e.requesterAuth.nodeId, tx.createdAt⟩, by simp only [LedgerStore.inferenceRecord, he],
      rfl⟩
  | jobRefund e =>
    simp only [he, Option.some.injEq] at hf
    subst hf
    exact absurd hd.symm (refundAccount_ne_escrow _ _)
  | membershipChange e => simp [he] at hf
  | _ =>
    simp only [he, Option.some.injEq] at hf
    subst hf
    cases hd

/-- only settlements that name a job pay out of its escrow -/
theorem escrow_out {f : Transfer} {j : String} (hf : flow tx = some f) (hs : f.src = .escrow j) :
    (∃ i, settlesShard tx = some (j, i)) ∨ ∃ id b e, takesBatch tx = some (j, id, b, e) := by
  unfold flow at hf
  cases he : tx.evidence with
  | providerReward e =>
    simp only [he, Option.some.injEq] at hf
    subst hf
    cases hs
    exact Or.inl ⟨_, by simp only [settlesShard, he]; rfl⟩
  | jobRefund e =>
    simp only [he, Option.some.injEq] at hf
    subst hf
    cases hs
    exact Or.inl ⟨_, by simp only [settlesShard, he]; rfl⟩
  | inferenceReceipt e =>
    simp only [he, Option.some.injEq] at hf
    subst hf
    cases hs
    exact Or.inr ⟨_, _, _, by simp only [takesBatch, he]; rfl⟩
  | inferenceRefund e =>
    simp only [he, Option.some.injEq] at hf
    subst hf
    cases hs
    exact Or.inr ⟨_, _, _, by simp only [takesBatch, he]; rfl⟩
  | membershipChange e => simp [he] at hf
  | _ =>
    simp only [he, Option.some.injEq] at hf
    subst hf
    cases hs

theorem flow_of_jobRecord {j : String} {r : ReservationRecord} (h : LedgerStore.jobRecord tx = some (j, r)) :
    ∃ f, flow tx = some f ∧ f.dst = .escrow j ∧ LedgerStore.inferenceRecord tx = none := by
  unfold LedgerStore.jobRecord at h
  unfold flow LedgerStore.inferenceRecord
  cases he : tx.evidence <;> rw [he] at h <;> simp_all

theorem flow_of_inferenceRecord {j : String} {r : InferenceRecord}
    (h : LedgerStore.inferenceRecord tx = some (j, r)) : ∃ f, flow tx = some f ∧ f.dst = .escrow j := by
  unfold LedgerStore.inferenceRecord at h
  unfold flow
  cases he : tx.evidence <;> rw [he] at h <;> simp_all

theorem flow_of_settlesShard {j : String} {i : ℕ} (h : settlesShard tx = some (j, i)) :
    ∃ f, flow tx = some f ∧ f.src = .escrow j := by
  unfold settlesShard at h
  unfold flow
  cases he : tx.evidence <;> rw [he] at h <;> simp_all

theorem flow_of_takesBatch {j id : String} {b e : ℕ} (h : takesBatch tx = some (j, id, b, e)) :
    ∃ f, flow tx = some f ∧ f.src = .escrow j := by
  unfold takesBatch at h
  unfold flow
  cases he : tx.evidence <;> rw [he] at h <;> simp_all

/-- a transaction that leaves the escrow of a job alone -/
structure Untouched (tx : LedgerTransaction) (j : String) : Prop where
  not_job : ∀ r, LedgerStore.jobRecord tx ≠ some (j, r)
  not_inference : ∀ r, LedgerStore.inferenceRecord tx ≠ some (j, r)
  not_shard : ∀ i, settlesShard tx ≠ some (j, i)
  not_batch : ∀ id b e, takesBatch tx ≠ some (j, id, b, e)

/-- what an admitted transaction does to the escrow of one job -/
inductive EscrowStep (c : Crypto) (s : LedgerState) (tx : LedgerTransaction) (j : String) : ℤ → Prop
  | reserve (r : ReservationRecord) (h : LedgerStore.jobRecord tx = some (j, r)) :
      EscrowStep c s tx j (jobCostMcu r.work r.shards)
  | reserveInference (r : InferenceRecord) (h : LedgerStore.inferenceRecord tx = some (j, r)) :
      EscrowStep c s tx j (jobPrice r.billing)
  | shard (i : ℕ) (r : ReservationRecord) (work : WorkSpec) (h : settlesShard tx = some (j, i))
      (hr : s.reservations[j]? = some r) (hw : (splitWork r.work r.shards)[i]? = some work) :
      EscrowStep c s tx j (-workCostMcu work)
  | batch (id : String) (b e i : ℕ) (r : InferenceRecord) (plan : PricedBatch)
      (h : takesBatch tx = some (j, id, b, e)) (hr : s.inference[j]? = some r)
      (hb : NamesBatch c j r.batches id b e i plan) : EscrowStep c s tx j (-batchPrice r.billing b e)
  | untouched (h : Untouched tx j) : EscrowStep c s tx j 0

/-- **What one transaction does to an escrow.** Every case of every invariant about escrows is one of these five. -/
theorem Admitted.escrow_step (ha : Admitted c limit s tx) (j : String) :
    ∃ d, (record s tx).balances.entry (escrowAccount j) = s.balances.entry (escrowAccount j) + d ∧
      EscrowStep c s tx j d := by
  cases hf : flow tx with
  | none =>
    have hp : tx.postings = [] := by
      obtain ⟨prev, set, _, _, hv⟩ := ha.valid
      rcases flow_of_valid hv with ⟨_, hp⟩ | ⟨f, hf', _⟩
      · exact hp
      · rw [hf] at hf'
        cases hf'
    refine ⟨0, by rw [balances_record_of_none hp, add_zero], .untouched ⟨?_, ?_, ?_, ?_⟩⟩
    · intro r hr
      obtain ⟨f, hf', _⟩ := flow_of_jobRecord hr
      rw [hf] at hf'; cases hf'
    · intro r hr
      obtain ⟨f, hf', _⟩ := flow_of_inferenceRecord hr
      rw [hf] at hf'; cases hf'
    · intro i hi
      obtain ⟨f, hf', _⟩ := flow_of_settlesShard hi
      rw [hf] at hf'; cases hf'
    · intro id b e hb
      obtain ⟨f, hf', _⟩ := flow_of_takesBatch hb
      rw [hf] at hf'; cases hf'
  | some f =>
    obtain ⟨hflows, _⟩ := ha.flows hf
    have hentry := entry_record_account (s := s) hflows (a := .escrow j) trivial
    simp only [Account.name] at hentry
    rw [hentry]
    refine ⟨_, rfl, ?_⟩
    by_cases hd : f.dst = .escrow j
    · have hs : f.src ≠ .escrow j := fun hs => hflows.ne (hs.trans hd.symm)
      rw [if_pos hd, if_neg hs, sub_zero]
      rcases escrow_in hf hd with ⟨r, hr, hamt⟩ | ⟨r, hr, hamt⟩
      · rw [hamt]
        exact .reserve r hr
      · rw [hamt]
        exact .reserveInference r hr
    · rw [if_neg hd]
      by_cases hs : f.src = .escrow j
      · rw [if_pos hs, zero_sub]
        rcases escrow_out hf hs with ⟨i, hi⟩ | ⟨id, b, e, hb⟩
        · obtain ⟨r, work, dst, hr, hw, hfl, _⟩ := ha.shard hi
          rw [hf] at hfl
          cases hfl
          exact .shard i r work hi hr hw
        · obtain ⟨r, i, plan, dst, hr, hn, hfl, _⟩ := ha.batch hb
          rw [hf] at hfl
          cases hfl
          exact .batch id b e i r plan hb hr hn
      · rw [if_neg hs, sub_zero]
        refine .untouched ⟨?_, ?_, ?_, ?_⟩
        · intro r hr
          obtain ⟨f', hf', hd', _⟩ := flow_of_jobRecord hr
          rw [hf] at hf'; cases hf'
          exact hd hd'
        · intro r hr
          obtain ⟨f', hf', hd'⟩ := flow_of_inferenceRecord hr
          rw [hf] at hf'; cases hf'
          exact hd hd'
        · intro i hi
          obtain ⟨f', hf', hs'⟩ := flow_of_settlesShard hi
          rw [hf] at hf'; cases hf'
          exact hs hs'
        · intro id b e hb
          obtain ⟨f', hf', hs'⟩ := flow_of_takesBatch hb
          rw [hf] at hf'; cases hf'
          exact hs hs'

/-! ## The history of a run -/

/-- what every argument about jobs starts from -/
structure Ledgered (s : LedgerState) (H : List LedgerTransaction) : Prop where
  claims : ∀ k, k ∈ s.claims ↔ ∃ t ∈ H, claimKey t = k
  nodup : (H.map claimKey).Nodup
  booked : Booked s
  idle : ∀ j, "reserve:" ++ j ∉ s.claims → s.balances.entry (escrowAccount j) = 0
  exclusive : ∀ j ∈ s.reservations, j ∉ s.inference

theorem ledgered_empty : Ledgered LedgerState.empty [] where
  claims := by simp [LedgerState.empty]
  nodup := by simp
  booked := ⟨by simp [LedgerState.empty], by simp [LedgerState.empty]⟩
  idle := by simp [LedgerState.empty, Table.entry]
  exclusive := by simp [LedgerState.empty]

theorem Ledgered.record {H : List LedgerTransaction} (h : Ledgered s H) (ha : Admitted c limit s tx) :
    Ledgered (record s tx) (H ++ [tx]) where
  claims := by
    intro k
    rw [mem_claims_record, h.claims k]
    simp [or_comm]
  nodup := by
    rw [List.map_append, List.nodup_append]
    refine ⟨h.nodup, by simp, ?_⟩
    intro a ha' b hb heq
    obtain ⟨t, ht, rfl⟩ := List.mem_map.1 ha'
    simp only [List.map_cons, List.map_nil, List.mem_singleton] at hb
    exact ha.fresh ((h.claims _).2 ⟨t, ht, heq.trans hb⟩)
  booked := h.booked.record tx
  idle := by
    intro j hj
    rw [mem_claims_record, not_or] at hj
    obtain ⟨d, hd, hstep⟩ := ha.escrow_step j
    rw [hd, h.idle j hj.2]
    cases hstep with
    | reserve r hr => exact absurd (claimKey_of_jobRecord hr) hj.1
    | reserveInference r hr => exact absurd (claimKey_of_inferenceRecord hr) hj.1
    | shard i r work hi hr hw => exact absurd (h.booked.jobs j (mem_of_get hr)) hj.2
    | batch id b e i r plan hb hr hn => exact absurd (h.booked.inference j (mem_of_get hr)) hj.2
    | untouched => rfl
  exclusive := by
    intro j hj hi
    rw [record_reservations] at hj
    rw [record_inference] at hi
    rcases mem_upsert hj with hj | ⟨v, hv⟩
    · rcases mem_upsert hi with hi | ⟨w, hw⟩
      · exact h.exclusive j hj hi
      · exact ha.fresh (claimKey_of_inferenceRecord hw ▸ h.booked.jobs j hj)
    · rcases mem_upsert hi with hi | ⟨w, hw⟩
      · exact ha.fresh (claimKey_of_jobRecord hv ▸ h.booked.inference j hi)
      · obtain ⟨_, _, _, hnone⟩ := flow_of_jobRecord hv
        rw [hnone] at hw
        cases hw

end

/-- a claim new to the store and to a batch is new to the books behind the batch -/
theorem Chain.fresh_behind {c : Crypto} {genesis : ValidatorSet} {Q : LedgerStore → QuorumCertificate → Prop}
    {st : LedgerStore} (h : Chain c genesis Q st) (hg : validateValidatorSet genesis = .ok ())
    {pre : List LedgerTransaction} (hpre : proposeChecks c st (sittingSet genesis st) pre = .ok ()) {k : String}
    (hclaim : ¬ st.hasClaim k) (hkeys : k ∉ pre.map claimKey) : k ∉ (recordAll (view st) pre).claims := by
  obtain ⟨hnow, hnext⟩ := h.books hg Ledgered ledgered_empty fun _ _ _ hs ha => hs.record ha
  rw [(hnext pre hpre).claims]
  rintro ⟨t, ht, hkey⟩
  rcases List.mem_append.1 ht with ht | ht
  · exact hclaim ((mem_view_claims st _).1 ((hnow.claims _).2 ⟨t, ht, hkey⟩))
  · exact hkeys (List.mem_map.2 ⟨t, ht, hkey⟩)

end Hocmesh.Books
