/-
Settlement windows: when a reward and when a refund is on time.

A deadline is computed as `reserved_at + SETTLEMENT_WINDOW_SECS` in `i64`, once by each of the four propose-time checks
and once by each of the four bindings of the replay. `settlesAt` separates the clock from everything else such a check
asks, so that all eight copies are one rule, `onTime`. The rule is the one over exact integers as long as the sum does not
overflow, and only then.
-/
import Hocmesh.Books.Inference

namespace Hocmesh.Books

open Hocmesh.Base Hocmesh.Protocol Hocmesh.Compute Hocmesh.Ledger Hocmesh.Validator

/-! ## The clock of a settlement -/

/-- the same transaction, dated at another moment -/
def datedAt (tx : LedgerTransaction) (t : ℤ) : LedgerTransaction := { tx with createdAt := t }

/-- when the job a settlement draws on was reserved, and whether the settlement is a refund -/
def windowOf (s : LedgerState) (tx : LedgerTransaction) : Option (ℤ × Bool) :=
  match tx.evidence with
  | .providerReward e => s.reservations[e.jobId]?.map fun r => (r.reservedAt, false)
  | .jobRefund e => s.reservations[e.jobId]?.map fun r => (r.reservedAt, true)
  | .inferenceReward e => s.inference[e.jobId]?.map fun r => (r.reservedAt, false)
  | .inferenceRefund e => s.inference[e.jobId]?.map fun r => (r.reservedAt, true)
  | _ => none

/-- what the code's clock says: a reward up to the deadline, a refund after it -/
def onTime (reservedAt : ℤ) (isRefund : Bool) (t : ℤ) : Prop :=
  if isRefund then windowEnd reservedAt < t else t ≤ windowEnd reservedAt

/-- the propose-time check lets the settlement through when dated at `t` -/
def ProposedAt (c : Crypto) (st : LedgerStore) (tx : LedgerTransaction) (t : ℤ) : Prop :=
  validateSettlementMembership c st.reservation st.inferenceReservation (datedAt tx t) = .ok ()

instance (c : Crypto) (st : LedgerStore) (tx : LedgerTransaction) (t : ℤ) : Decidable (ProposedAt c st tx t) := by
  unfold ProposedAt; infer_instance

/-- the replay binds the settlement when dated at `t` -/
def ReplayedAt (c : Crypto) (r : Replay) (tx : LedgerTransaction) (t : ℤ) : Prop :=
  ∃ r', bindEvidence c r (datedAt tx t) = .ok r'

section

variable {c : Crypto} {st : LedgerStore} {r : Replay} {tx : LedgerTransaction} {reservedAt : ℤ} {isRefund : Bool}

/-- **One rule in eight places.** Whatever else the propose-time check and the replay ask of a settlement, they ask the
same of it at every moment, and the clock besides. -/
theorem settlesAt (hw : windowOf (view st) tx = some (reservedAt, isRefund))
    (hres : r.state.reservations = (view st).reservations) (hinf : r.state.inference = (view st).inference) :
    ∃ rest : Prop, ∀ t, (ProposedAt c st tx t ↔ rest ∧ onTime reservedAt isRefund t) ∧
      (ReplayedAt c r tx t ↔ rest ∧ onTime reservedAt isRefund t) := by
  unfold windowOf at hw
  unfold ProposedAt ReplayedAt onTime
  rw [reservation_eq, inferenceReservation_eq]
  cases he : tx.evidence with
  | providerReward e =>
    simp only [he, Option.map_eq_some_iff, Prod.mk.injEq] at hw
    obtain ⟨rec, hrec, rfl, rfl⟩ := hw
    refine ⟨rec.systemFunded = e.systemFunded ∧ rec.requester ≠ some e.providerAuth.nodeId ∧
      (splitWork rec.work rec.shards)[e.shardIndex]? = some e.work, fun t => ⟨?_, ?_⟩⟩
    · simp only [datedAt, he, validateSettlementMembership, shardMembership, hrec, bind_ok, bailIf_ok, exists_const,
        orBail_ok, not_not, Option.some.injEq, exists_eq_left', Bool.false_eq_true, if_false, false_and, not_false_eq_true,
        true_and, not_lt, gt_iff_lt]
      grind
    · simp only [datedAt, he, bindEvidence, bindReward, hres, hrec, bind_ok, bailIf_ok, exists_const, orBail_ok, not_not,
        Option.some.injEq, exists_eq_left', pure_ok, Bool.false_eq_true, if_false, not_lt, gt_iff_lt]
      grind
  | jobRefund e =>
    simp only [he, Option.map_eq_some_iff, Prod.mk.injEq] at hw
    obtain ⟨rec, hrec, rfl, rfl⟩ := hw
    refine ⟨rec.systemFunded = e.systemFunded ∧ rec.requester = e.requesterAuth.map (·.nodeId) ∧
      (splitWork rec.work rec.shards)[e.shardIndex]? = some e.work, fun t => ⟨?_, ?_⟩⟩
    · simp only [datedAt, he, validateSettlementMembership, shardMembership, hrec, bind_ok, bailIf_ok, exists_const,
        orBail_ok, not_not, Option.some.injEq, exists_eq_left', if_true, true_and, Bool.true_eq_false, false_and,
        not_false_eq_true, and_true, not_le]
      grind
    · simp only [datedAt, he, bindEvidence, bindRefund, hres, hrec, bind_ok, bailIf_ok, exists_const, orBail_ok, not_not,
        Option.some.injEq, exists_eq_left', pure_ok, if_true, not_le]
      grind
  | inferenceReward e =>
    simp only [he, Option.map_eq_some_iff, Prod.mk.injEq] at hw
    obtain ⟨rec, hrec, rfl, rfl⟩ := hw
    refine ⟨∃ i plan, certifiedIndex c e.jobId rec.batches e.assignmentId = some i ∧ rec.batches[i]? = some plan ∧
      plan.batchStart = e.batchStart ∧ plan.batchEnd = e.batchEnd ∧ plan.nodeId = e.providerAuth.nodeId ∧
      rec.requester ≠ e.providerAuth.nodeId ∧ batchPrice rec.billing e.batchStart e.batchEnd = e.rewardMcu,
      fun t => ⟨?_, ?_⟩⟩
    · simp only [datedAt, he, validateSettlementMembership, validateInferenceMembership, inferenceMembership, reservedIn,
        hrec, Option.map_some, LedgerStore.InferenceRecord.under, bind_ok, bailIf_ok, exists_const, orBail_ok, not_not,
        not_or, Option.some.injEq, exists_eq_left', Bool.false_eq_true, if_false, false_and, not_false_eq_true, true_and,
        not_lt, gt_iff_lt]
      grind
    · simp only [datedAt, he, bindEvidence, bindInferenceReward, hinf, hrec, bind_ok, bailIf_ok, exists_const, orBail_ok,
        not_not, not_or, Option.some.injEq, exists_eq_left', pure_ok, Bool.false_eq_true, if_false,
        not_lt, gt_iff_lt]
      grind
  | inferenceRefund e =>
    simp only [he, Option.map_eq_some_iff, Prod.mk.injEq] at hw
    obtain ⟨rec, hrec, rfl, rfl⟩ := hw
    refine ⟨∃ i plan, certifiedIndex c e.jobId rec.batches e.assignmentId = some i ∧ rec.batches[i]? = some plan ∧
      plan.batchStart = e.batchStart ∧ plan.batchEnd = e.batchEnd ∧ rec.requester = e.requesterAuth.nodeId ∧
      batchPrice rec.billing e.batchStart e.batchEnd = e.refundMcu, fun t => ⟨?_, ?_⟩⟩
    · simp only [datedAt, he, validateSettlementMembership, validateInferenceMembership, inferenceMembership, reservedIn,
        hrec, Option.map_some, LedgerStore.InferenceRecord.under, bind_ok, bailIf_ok, exists_const, orBail_ok, not_not,
        not_or, Option.some.injEq, exists_eq_left', if_true, true_and, Bool.true_eq_false, false_and, not_false_eq_true,
        and_true, not_le]
      grind
    · simp only [datedAt, he, bindEvidence, bindInferenceRefund, hinf, hrec, bind_ok, bailIf_ok, exists_const, orBail_ok,
        not_not, not_or, Option.some.injEq, exists_eq_left', pure_ok, if_true, not_le]
      grind
  | _ => simp [he] at hw

/-- a reward and a refund share no moment and leave none out, with the deadline between them -/
def SplitsTime (reward refund : ℤ → Prop) (deadline : ℤ) : Prop :=
  ∀ t, FitsI64 t → (reward t ↔ t ≤ deadline) ∧ (refund t ↔ ¬ t ≤ deadline)

theorem windowEnd_eq_iff (hfits : FitsI64 reservedAt) :
    windowEnd reservedAt = reservedAt + settlementWindowSecs ↔ reservedAt + settlementWindowSecs ≤ i64Max := by
  obtain ⟨hmin, hmax⟩ := hfits
  have hw : 0 ≤ settlementWindowSecs := by decide
  constructor
  · intro h
    have hle : windowEnd reservedAt < 9223372036854775808 := by
      have := Int.bmod_lt (x := reservedAt + settlementWindowSecs) (m := 18446744073709551616) (by decide)
      unfold windowEnd wrap64
      omega
    unfold i64Max
    omega
  · intro h
    exact wrap64_of_fits ⟨by omega, h⟩

/-- a deadline that overflows is before the reservation itself -/
theorem windowEnd_lt (hfits : FitsI64 reservedAt) (hover : i64Max < reservedAt + settlementWindowSecs) :
    windowEnd reservedAt < reservedAt := by
  obtain ⟨hmin, hmax⟩ := hfits
  have hw : settlementWindowSecs < 18446744073709551616 := by decide
  unfold i64Max at hover hmax
  have heq : windowEnd reservedAt = reservedAt + settlementWindowSecs - 18446744073709551616 := by
    unfold windowEnd wrap64
    rw [← Int.sub_bmod_right, Int.bmod_eq_of_le] <;> omega
  omega

theorem splitsTime_iff (hfits : FitsI64 reservedAt) {reward refund : ℤ → Prop}
    (hreward : ∀ t, reward t ↔ t ≤ windowEnd reservedAt) (hrefund : ∀ t, refund t ↔ windowEnd reservedAt < t) :
    SplitsTime reward refund (reservedAt + settlementWindowSecs) ↔ reservedAt + settlementWindowSecs ≤ i64Max := by
  constructor
  · intro h
    by_contra hover
    -- the moment of the reservation itself is inside the window, and the wrapped deadline is before it
    have hlt := windowEnd_lt hfits (not_le.1 hover)
    have hw : 0 ≤ settlementWindowSecs := by decide
    have := (hreward reservedAt).1 (((h reservedAt hfits).1).2 (by omega))
    omega
  · intro h t _
    rw [hreward, hrefund, (windowEnd_eq_iff hfits).2 h, not_le]
    exact ⟨Iff.rfl, Iff.rfl⟩

/-- **When the windows are exact.** A reward and a refund of a certified reservation that nothing but the clock can stop
split time at the exact deadline, at propose time and in the replay, exactly when the deadline is an `i64`; then it is
computed without overflow. -/
theorem settlement_windows_exact_iff {reward refund : LedgerTransaction}
    (hrew : windowOf (view st) reward = some (reservedAt, false))
    (href : windowOf (view st) refund = some (reservedAt, true)) (hfits : FitsI64 reservedAt)
    (hopen : ∃ t, ProposedAt c st reward t) (hopen' : ∃ t, ProposedAt c st refund t)
    (hres : r.state.reservations = (view st).reservations) (hinf : r.state.inference = (view st).inference) :
    (SplitsTime (ProposedAt c st reward) (ProposedAt c st refund) (reservedAt + settlementWindowSecs) ↔
      reservedAt + settlementWindowSecs ≤ i64Max) ∧
    (SplitsTime (ReplayedAt c r reward) (ReplayedAt c r refund) (reservedAt + settlementWindowSecs) ↔
      reservedAt + settlementWindowSecs ≤ i64Max) ∧
    (windowEnd reservedAt = reservedAt + settlementWindowSecs ↔ reservedAt + settlementWindowSecs ≤ i64Max) := by
  obtain ⟨rest, hclock⟩ := settlesAt (c := c) hrew hres hinf
  obtain ⟨rest', hclock'⟩ := settlesAt (c := c) href hres hinf
  have hrest : rest := by
    obtain ⟨t, ht⟩ := hopen
    exact ((hclock t).1.1 ht).1
  have hrest' : rest' := by
    obtain ⟨t, ht⟩ := hopen'
    exact ((hclock' t).1.1 ht).1
  simp only [hrest, hrest', true_and, onTime, Bool.false_eq_true, if_false, if_true] at hclock hclock'
  refine ⟨?_, ?_, windowEnd_eq_iff hfits⟩
  · exact splitsTime_iff hfits (fun t => (hclock t).1) (fun t => (hclock' t).1)
  · exact splitsTime_iff hfits (fun t => (hclock t).2) (fun t => (hclock' t).2)

end

/-! ## A reservation dated at the end of time -/

namespace Sample

open Hocmesh.Protocol.Sample

/-- the community job of the sample run, minted at another moment -/
def mintAt (t : ℤ) : LedgerTransaction := communityReserve "seed" smallWork 1 [0] t

/-- its only shard returned to the commons -/
def seedRefund : LedgerTransaction :=
  let id := assignmentId crypto "seed" 0
  let refund := workCostMcu smallWork
  { transactionId := "refund-" ++ id, kind := .jobRefund, createdAt := 0
    postings := transfer (escrowAccount "seed") communityIssuanceAccount refund
    evidence := .jobRefund { jobId := "seed", assignmentId := id, shardIndex := 0, refundMcu := refund, work := smallWork
                             systemFunded := true, requesterPublicKeyB64 := none, requesterAuth := none } }

/-- a replay that has reached the books of a store -/
def replayOf (st : LedgerStore) : Replay := ⟨st.headSequence, st.headHash, view st, committee 1⟩

/-- the stores that have minted the job at the last `i64` second and at second 100 -/
theorem minted_at :
    ((commitBatches (committee 1) [0] [[mintAt i64Max]]).okWith (fun st =>
      windowOf (view st) (smallReward 5) = some (i64Max, false) ∧ windowOf (view st) seedRefund = some (i64Max, true) ∧
        ¬ ProposedAt crypto st (smallReward 5) i64Max ∧ ProposedAt crypto st seedRefund i64Max)) = true ∧
    ((commitBatches (committee 1) [0] [[mintAt 100]]).okWith (fun st =>
      windowOf (view st) (smallReward 5) = some (100, false) ∧ windowOf (view st) seedRefund = some (100, true) ∧
        ProposedAt crypto st (smallReward 5) 200 ∧ ProposedAt crypto st seedRefund i64Max)) = true := by
  refine ⟨?_, ?_⟩
  · decide +kernel
  · decide +kernel

end Sample

/-- the job is certified as reserved at the last `i64` second; at that second its reward is refused and its refund taken,
by the propose-time check and by the replay, although the exact deadline is still ahead -/
theorem late_reservation_refunded :
    ∃ st, Reachable Sample.crypto (Sample.committee 1) st ∧
      windowOf (view st) (Sample.smallReward 5) = some (i64Max, false) ∧
      windowOf (view st) Sample.seedRefund = some (i64Max, true) ∧ i64Max ≤ i64Max + settlementWindowSecs ∧
      ¬ ProposedAt Sample.crypto st (Sample.smallReward 5) i64Max ∧ ProposedAt Sample.crypto st Sample.seedRefund i64Max ∧
      ¬ ReplayedAt Sample.crypto (Sample.replayOf st) (Sample.smallReward 5) i64Max ∧
      ReplayedAt Sample.crypto (Sample.replayOf st) Sample.seedRefund i64Max := by
  obtain ⟨st, hst, hfacts⟩ := (okWith_iff _ _).1 Sample.minted_at.1
  obtain ⟨hrew, href, hno, hyes⟩ := of_decide_eq_true hfacts
  obtain ⟨rest, hclock⟩ := settlesAt (c := Sample.crypto) (r := Sample.replayOf st) hrew rfl rfl
  obtain ⟨rest', hclock'⟩ := settlesAt (c := Sample.crypto) (r := Sample.replayOf st) href rfl rfl
  refine ⟨st, Sample.reachable_of_commitBatches hst, hrew, href, by decide, hno, hyes, ?_, ?_⟩
  · rw [(hclock i64Max).2, ← (hclock i64Max).1]
    exact hno
  · rw [(hclock' i64Max).2, ← (hclock' i64Max).1]
    exact hyes

/-- the same job minted at second 100 is rewarded and refunded by the exact clock -/
theorem seed_windows_exact :
    ∃ st, Reachable Sample.crypto (Sample.committee 1) st ∧
      SplitsTime (ProposedAt Sample.crypto st (Sample.smallReward 5)) (ProposedAt Sample.crypto st Sample.seedRefund)
        (100 + settlementWindowSecs) := by
  obtain ⟨st, hst, hfacts⟩ := (okWith_iff _ _).1 Sample.minted_at.2
  obtain ⟨hrew, href, hyes, hyes'⟩ := of_decide_eq_true hfacts
  have h := settlement_windows_exact_iff (r := Sample.replayOf st) hrew href (by decide) ⟨_, hyes⟩ ⟨_, hyes'⟩ rfl rfl
  exact ⟨st, Sample.reachable_of_commitBatches hst, h.1.2 (by decide)⟩

/-! ## Being paid and being swept -/

/-- a reward of the batch a receipt took delivery of: over the same outputs and the same price, claimed by the provider
the batch was planned for, accepted by the requester, and moving the price out of holding -/
structure AcceptedClaim (c : Crypto) (r : InferenceReservation) (receipt : InferenceReceiptEvidence)
    (tx : LedgerTransaction) (e : InferenceRewardEvidence) : Prop where
  kind : tx.kind = .inferenceReward
  evidence : tx.evidence = .inferenceReward e
  job : e.jobId = receipt.jobId
  assignment : e.assignmentId = receipt.assignmentId
  starts : e.batchStart = receipt.batchStart
  ends : e.batchEnd = receipt.batchEnd
  price : e.rewardMcu = receipt.priceMcu
  outputs : e.outputsDigest = receipt.outputsDigest
  reported : verifyReportAuth c e = .ok ()
  planned : ∃ plan ∈ r.batches, plan.batchStart = receipt.batchStart ∧ plan.batchEnd = receipt.batchEnd ∧
    plan.nodeId = e.providerAuth.nodeId
  not_self : r.requester ≠ e.providerAuth.nodeId
  accepted : requesterVerdict c true e.requesterPublicKeyB64 e.requesterAcceptance r.requester e.assignmentId e.jobId
    e.batchStart e.batchEnd e.rewardMcu e.outputsDigest = .ok ()
  postings : Moves tx (inferenceHoldingAccount e.assignmentId) e.providerAuth.nodeId e.rewardMcu

section

variable {c : Crypto} {genesis : ValidatorSet} {st : LedgerStore} {receipt : LedgerTransaction}
  {er : InferenceReceiptEvidence} {r : InferenceReservation}

/-- what the books know of a receipted batch: its plan, and the price the receipt moved -/
theorem receipted_plan (hg : validateValidatorSet genesis = .ok ()) (h : Reachable c genesis st)
    (hin : receipt ∈ history st) (he : receipt.evidence = .inferenceReceipt er)
    (hr : st.inferenceReservation er.jobId = some r) :
    ∃ i plan, NamesBatch c er.jobId r.batches er.assignmentId er.batchStart er.batchEnd i plan ∧ r.jobId = er.jobId ∧
      (view st).inference[er.jobId]? = some ⟨r.billing, r.batches, r.requester, r.reservedAt⟩ ∧
      er.priceMcu = batchPrice r.billing er.batchStart er.batchEnd := by
  obtain ⟨s₀, ha, hkept⟩ := (h.batchBooks hg).1.origin receipt hin
  obtain ⟨prev, set, _, _, hrule⟩ := ha.rule
  simp only [he, kindRule, validateInferenceReceipt, bind_ok, bailIf_ok, exists_const, exists_ok_unit_and, not_not,
    Prod.exists, orBail_ok, reservedBatch_ok, reservedIn, Option.map_eq_some_iff] at hrule
  obtain ⟨_, _, ⟨rec, hrec, rfl⟩, _, plan, price, ⟨⟨i, hn⟩, hbatch⟩, hprice, _⟩ := hrule
  have hnow := hkept _ _ hrec
  rw [inferenceReservation_eq, reservedIn, hnow, Option.map_some, Option.some.injEq] at hr
  subst hr
  exact ⟨i, plan, hn, rfl, hnow, hprice.trans hbatch.symm⟩

/-- a receipted batch whose payout is open has its price in holding -/
theorem held_of_receipted (hg : validateValidatorSet genesis = .ok ()) (h : Reachable c genesis st)
    (hin : receipt ∈ history st) (he : receipt.evidence = .inferenceReceipt er)
    (hunpaid : ¬ st.hasClaim (inferencePayoutKey er.jobId er.batchStart er.batchEnd))
    (hr : st.inferenceReservation er.jobId = some r)
    (hids : ∀ j', st.inferenceReservation j' ≠ none → jobDigest c j' = jobDigest c er.jobId → j' = er.jobId) :
    st.balance (inferenceHoldingAccount er.assignmentId) = er.priceMcu := by
  have hb := (h.batchBooks hg).1
  obtain ⟨i, plan, hn, _, hres, hprice⟩ := receipted_plan hg h hin he hr
  have halone : Alone c (view st) er.jobId := by
    intro j' hj' hdig
    refine hids j' ?_ hdig
    obtain ⟨r', hr'⟩ := Option.isSome_iff_exists.1 (Std.ExtTreeMap.mem_iff_isSome_getElem?.1 hj')
    rw [inferenceReservation_eq, reservedIn, hr']
    simp
  have hrec : 0 < receiptsOf er.jobId er.batchStart er.batchEnd (history st) :=
    List.countP_pos_iff.2 ⟨receipt, hin, ofBatch_iff.2 ⟨er.assignmentId, by simp only [receiptsBatch, he]⟩⟩
  have hpaid : payoutsOf er.jobId er.batchStart er.batchEnd (history st) = 0 := by
    by_contra hne
    obtain ⟨t, ht, hs⟩ := List.countP_pos_iff.1 (Nat.pos_of_ne_zero hne)
    have hkey := hb.pays_key ht hs
    exact hunpaid ((mem_view_claims st _).1 ((hb.ledgered.claims _).2 ⟨t, ht, hkey⟩))
  have hone := hb.taken_le_one er.jobId er.batchStart er.batchEnd
  have hle := receipts_le_taken er.jobId er.batchStart er.batchEnd (history st)
  have hheld := hb.holding_eq halone hres hn.at_index
  rw [hn.starts, hn.ends, hn.id, hpaid] at hheld
  have hreceipts : receiptsOf er.jobId er.batchStart er.batchEnd (history st) = 1 := by omega
  rw [hreceipts] at hheld
  simpa [hprice] using hheld

/-- **The whole verdict on an accepted claim is the clock's.** -/
theorem accepted_claim_iff (hg : validateValidatorSet genesis = .ok ()) (h : Reachable c genesis st)
    (hin : receipt ∈ history st) (he : receipt.evidence = .inferenceReceipt er)
    (hunpaid : ¬ st.hasClaim (inferencePayoutKey er.jobId er.batchStart er.batchEnd))
    (hr : st.inferenceReservation er.jobId = some r)
    (hids : ∀ j', st.inferenceReservation j' ≠ none → jobDigest c j' = jobDigest c er.jobId → j' = er.jobId)
    {tx : LedgerTransaction} {e : InferenceRewardEvidence} (hclaim : AcceptedClaim c r er tx e) (t : ℤ) :
    proposeChecks c st (sittingSet genesis st) [datedAt tx t] = .ok () ↔ t ≤ windowEnd r.reservedAt := by
  obtain ⟨i, plan, hn, hjob, hres, hprice⟩ := receipted_plan hg h hin he hr
  have hplanned := ((h.batchBooks hg).1.planned _ _ hres).tiled
  have hnode : plan.nodeId = e.providerAuth.nodeId := by
    obtain ⟨plan', hin', hs', _, hnode'⟩ := hclaim.planned
    obtain ⟨i', hi'⟩ := List.getElem?_of_mem hin'
    have hsame := hplanned.index_unique hi' hn.at_index (hs'.trans hn.starts.symm)
    rw [hsame, hn.at_index] at hi'
    cases hi'
    exact hnode'
  have hmem : validateSettlementMembership c st.reservation st.inferenceReservation (datedAt tx t) = .ok () ↔
      t ≤ windowEnd r.reservedAt := by
    simp only [datedAt, hclaim.evidence, validateSettlementMembership, validateInferenceMembership, inferenceMembership,
      hclaim.job, hr, bind_ok, bailIf_ok, exists_const, orBail_ok, not_not, not_or, Option.some.injEq, exists_eq_left',
      Bool.false_eq_true, if_false, false_and, not_false_eq_true, true_and, not_lt, gt_iff_lt]
    constructor
    · rintro ⟨_, _, _, _, _, _, _, hclock⟩
      exact hclock
    · intro hclock
      exact ⟨i, hclaim.assignment ▸ hn.found, plan, hn.at_index,
        ⟨hn.starts.trans hclaim.starts.symm, hn.ends.trans hclaim.ends.symm⟩, ⟨hnode, hclaim.not_self⟩,
        by rw [hclaim.starts, hclaim.ends, hclaim.price, hprice], hclock⟩
  constructor
  · intro hp
    simp only [proposeChecks, bind_ok, exists_ok_unit_and] at hp
    exact hmem.1 ((settleLoop_ok _ _ hp.1).1 _ List.mem_cons_self).2.1
  · intro hclock
    have hpos := batchPrice_pos r.billing er.batchStart er.batchEnd
    have hkind : validateKind c (datedAt tx t) st.headHash (reservedIn (view st)) (sittingSet genesis st) = .ok () := by
      have hreserved : reservedIn (view st) e.jobId = some r := by
        rw [← inferenceReservation_eq, hclaim.job, hr]
      have hbatch : reservedBatch c r e.assignmentId e.batchStart e.batchEnd = .ok (plan, e.rewardMcu) := by
        refine reservedBatch_ok.2 ⟨⟨i, ?_⟩, ?_⟩
        · rw [hjob, hclaim.assignment, hclaim.starts, hclaim.ends]
          exact hn
        · rw [hclaim.starts, hclaim.ends, hclaim.price, hprice]
      simp only [validateKind, datedAt, hclaim.kind, hclaim.evidence, validateInferenceReward, hreserved, bind_ok,
        bailIf_ok, exists_const, exists_ok_unit_and, not_not, orBail_ok, Option.some.injEq, exists_eq_left', hbatch,
        Except.ok.injEq, not_le]
      exact ⟨hclaim.reported, by rw [hclaim.price, hprice]; exact hpos, hnode, trivial, hclaim.not_self, hclaim.accepted,
        hclaim.postings⟩
    have hvalid : ValidAt c st.headHash (sittingSet genesis st) (view st) (datedAt tx t) := by
      obtain ⟨_, hrule⟩ := validateKind_ok hkind
      have hflow : flow (datedAt tx t) = some ⟨.holding e.assignmentId, .node e.providerAuth.nodeId, e.rewardMcu⟩ := by
        simp only [flow, datedAt, hclaim.evidence]
      have hheld : e.rewardMcu ≤ (view st).balances.entry (inferenceHoldingAccount e.assignmentId) := by
        have := held_of_receipted hg h hin he hunpaid hr hids
        rw [hclaim.price, hclaim.assignment]
        exact this.ge
      have hpost : validatePostings "insufficient balance for" (datedAt tx t) (view st).balances.entry
          (sittingSet genesis st) = .ok () := postings_of_covered (kindRule_flow hrule hflow) (by simp) hheld
      have hevidence : (datedAt tx t).evidence = .inferenceReward e := hclaim.evidence
      unfold ValidAt validateTransaction
      rw [hevidence]
      exact (bind_ok _ _ _).2 ⟨(), hpost, hkind⟩
    have hkey : claimKey (datedAt tx t) = inferencePayoutKey er.jobId er.batchStart er.batchEnd := by
      simp only [claimKey, datedAt, hclaim.evidence, hclaim.job, hclaim.starts, hclaim.ends]
    have hnothing : proposeChecks c st (sittingSet genesis st) [] = .ok () := rfl
    exact h.propose_snoc hg hnothing (hkey ▸ hunpaid) (by simp) (hmem.2 hclock) hvalid

/-- **When the provider's interval is honoured.** Take a receipted batch whose payout is open, and a reward of it that the
provider claims and the requester accepts. The reward is admissible at every `i64` moment at which the batch cannot be
swept yet, exactly when the last of those moments is inside the reservation's own window. -/
theorem paid_until_swept_iff (hg : validateValidatorSet genesis = .ok ()) (h : Reachable c genesis st)
    (hin : receipt ∈ history st) (he : receipt.evidence = .inferenceReceipt er)
    (hstamp : FitsI64 er.requesterAuth.timestamp)
    (hunpaid : ¬ st.hasClaim (inferencePayoutKey er.jobId er.batchStart er.batchEnd))
    (hr : st.inferenceReservation er.jobId = some r)
    (hids : ∀ j', st.inferenceReservation j' ≠ none → jobDigest c j' = jobDigest c er.jobId → j' = er.jobId)
    {tx : LedgerTransaction} {e : InferenceRewardEvidence} (hclaim : AcceptedClaim c r er tx e) :
    (∀ t, FitsI64 t → t < er.requesterAuth.timestamp + settlementWindowSecs →
      proposeChecks c st (sittingSet genesis st) [datedAt tx t] = .ok ()) ↔
    min (er.requesterAuth.timestamp + settlementWindowSecs - 1) i64Max ≤ windowEnd r.reservedAt := by
  simp only [accepted_claim_iff hg h hin he hunpaid hr hids hclaim]
  obtain ⟨hmin, hmax⟩ := hstamp
  have hw : 0 < settlementWindowSecs := by decide
  have hlast : i64Min ≤ i64Max := by decide
  constructor
  · intro hall
    exact hall _ ⟨by omega, min_le_right _ _⟩ (by omega)
  · intro hle t ht hbefore
    obtain ⟨_, htmax⟩ := ht
    omega

end

namespace Sample

open Hocmesh.Protocol.Sample

/-- node 6 claims the batch that node 5 took delivery of, and node 5 accepts it -/
def smallClaim : InferenceRewardEvidence :=
  { jobId := smallJob, assignmentId := smallAssignment, batchStart := 0, batchEnd := 1, rewardMcu := 1
    outputsDigest := "outputs", providerPublicKeyB64 := publicKeyB64 6
    providerAuth := authProof 6 450 "report" "report_inference"
      (inferenceRewardBodyHash crypto smallAssignment smallJob 0 1 1 "outputs")
    requesterPublicKeyB64 := publicKeyB64 5
    requesterAcceptance := authProof 5 450 "accept" "accept_inference"
      (inferenceVerdictBodyHash crypto true smallAssignment smallJob 0 1 1 "outputs") }

def smallPayout : LedgerTransaction :=
  { transactionId := "payout", kind := .inferenceReward, createdAt := 450
    postings := transfer (inferenceHoldingAccount smallAssignment) (nodeId 6) 1, evidence := .inferenceReward smallClaim }

/-- what the run of the sample leaves of the batch -/
structure Delivered (st : LedgerStore) (er : InferenceReceiptEvidence) (r : InferenceReservation) : Prop where
  reachable : Reachable crypto (committee 1) st
  receipted : smallReceipt ∈ history st
  evidence : smallReceipt.evidence = .inferenceReceipt er
  stamp : er.requesterAuth.timestamp = 400
  unpaid : ¬ st.hasClaim (inferencePayoutKey er.jobId er.batchStart er.batchEnd)
  reserved : st.inferenceReservation er.jobId = some r
  dated : r.reservedAt = 300
  alone : ∀ j', st.inferenceReservation j' ≠ none → jobDigest crypto j' = jobDigest crypto er.jobId → j' = er.jobId
  claimed : AcceptedClaim crypto r er smallPayout smallClaim

theorem small_delivered : ∃ st er r, Delivered st er r := by
  obtain ⟨st, hr, hhist, _⟩ := small_run
  have hb := (hr.batchBooks (by decide +kernel)).1
  have hreserve : smallReserve ∈ history st := by
    rw [hhist]
    simp [smallHistory]
  have hreceipt : smallReceipt ∈ history st := by
    rw [hhist]
    simp [smallHistory]
  have hres : (view st).inference[smallJob]? = some ⟨smallBilling, [smallBatch], nodeId 5, 300⟩ :=
    (hb.certified _ _).2 ⟨smallReserve, hreserve, by decide +kernel⟩
  refine ⟨st, _, ⟨smallJob, smallBilling, [smallBatch], nodeId 5, 300⟩, hr, hreceipt, rfl, rfl, ?_, ?_, rfl, ?_, ?_⟩
  · intro hpaid
    obtain ⟨t, ht, hkey⟩ := (hb.ledgered.claims _).1 ((mem_view_claims st _).2 hpaid)
    rw [hhist] at ht
    revert hkey
    simp only [smallHistory, List.mem_cons, List.not_mem_nil, or_false] at ht
    rcases ht with rfl | rfl | rfl | rfl <;> decide +kernel
  · rw [inferenceReservation_eq, reservedIn]
    exact congrArg (Option.map _) hres
  · -- the only certified inference job of the run is this one
    intro j' hj' _
    rw [inferenceReservation_eq, reservedIn] at hj'
    obtain ⟨r, hres'⟩ := Option.ne_none_iff_exists'.1 (Option.map_eq_none_iff.not.1 hj')
    obtain ⟨t, ht, hrec⟩ := (hb.certified j' r).1 hres'
    rw [hhist] at ht
    simp only [smallHistory, List.mem_cons, List.not_mem_nil, or_false] at ht
    rcases ht with rfl | rfl | rfl | rfl
    · cases hrec
    · cases hrec
    · cases hrec
      decide +kernel
    · cases hrec
  · exact ⟨rfl, rfl, rfl, rfl, rfl, rfl, rfl, rfl, by decide +kernel, ⟨smallBatch, by simp, rfl, rfl, by decide +kernel⟩,
      by decide +kernel, by decide +kernel, by decide +kernel⟩

end Sample

/-- delivered a hundred seconds after its reservation, the batch cannot be paid in the last hundred seconds before it can
be swept -/
theorem late_receipt_unpayable :
    ∃ st er r t, Sample.Delivered st er r ∧ FitsI64 t ∧ t < er.requesterAuth.timestamp + settlementWindowSecs ∧
      proposeChecks Sample.crypto st (sittingSet (Sample.committee 1) st) [datedAt Sample.smallPayout t] ≠ .ok () := by
  obtain ⟨st, er, r, h⟩ := Sample.small_delivered
  refine ⟨st, er, r, 300 + settlementWindowSecs + 50, h, by decide, by rw [h.stamp]; decide, ?_⟩
  rw [Ne, accepted_claim_iff (by decide +kernel) h.reachable h.receipted h.evidence h.unpaid h.reserved h.alone h.claimed,
    h.dated]
  decide

/-- so the interval the provider was promised is not honoured there -/
theorem late_receipt_interval_broken :
    ∃ st er r, Sample.Delivered st er r ∧ ¬ ∀ t, FitsI64 t →
      t < er.requesterAuth.timestamp + settlementWindowSecs →
      proposeChecks Sample.crypto st (sittingSet (Sample.committee 1) st) [datedAt Sample.smallPayout t] = .ok () := by
  obtain ⟨st, er, r, h⟩ := Sample.small_delivered
  refine ⟨st, er, r, h, ?_⟩
  rw [paid_until_swept_iff (by decide +kernel) h.reachable h.receipted h.evidence (by rw [h.stamp]; decide) h.unpaid
    h.reserved h.alone h.claimed, h.stamp, h.dated]
  decide

end Hocmesh.Books
