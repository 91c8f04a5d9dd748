/-
What the participant audit knows about inference settlements.

`audit_from` has one block per settlement kind. Rewards and refunds look their assignment id up in the certified plan and
compare the bounds; a receipt only has to name the bounds of some batch, and a dispute or an expiry only a price. What the
audit does establish for all five is `ReplayBooks`: the plan is the one certified, the postings stay on the job's escrow
and on the holding account the assignment id names, and nothing leaves a holding account that no receipt has filled.
-/
import Hocmesh.Books.Audit

namespace Hocmesh.Books

open Hocmesh.Base Hocmesh.Protocol Hocmesh.Compute Hocmesh.Ledger

/-! ## Bound to the certified plan -/

/-- every transaction an audit from genesis replays, oldest first -/
def audited (st : LedgerStore) : List LedgerTransaction := (st.certificatesFrom 1).flatMap (·.entry.transactions)

/-- `r` is what the chain certifies for job `j`, and all it certifies for it -/
def Certifies (H : List LedgerTransaction) (j : String) (r : InferenceRecord) : Prop :=
  ∀ r', (∃ t ∈ H, LedgerStore.inferenceRecord t = some (j, r')) ↔ r' = r

/-- the assignment id is that of some index of the plan, and the bounds are the ones planned there -/
def InPlan (c : Crypto) (j : String) (batches : List PricedBatch) (id : String) (b e : ℕ) : Prop :=
  ∃ i plan, inferenceAssignmentId c j i = id ∧ batches[i]? = some plan ∧ plan.batchStart = b ∧ plan.batchEnd = e

/-- no escrow but this job's and no holding account but this batch's is touched -/
def Confined (tx : LedgerTransaction) (j id : String) : Prop :=
  ∀ p ∈ tx.postings, (∀ j', p.accountId = escrowAccount j' → j' = j) ∧
    ∀ id', p.accountId = inferenceHoldingAccount id' → id' = id

/-- every inference settlement is bound to a batch of the plan certified for its job -/
def SettlementsBound (c : Crypto) (H : List LedgerTransaction) : Prop :=
  ∀ tx ∈ H, ∀ j id b e, settlesBatch tx = some (j, id, b, e) →
    (∃ r, Certifies H j r ∧ InPlan c j r.batches id b e) ∧ Confined tx j id

/-! ## What the audit leaves to the signers -/

/-- the batch a dispute or an expiry returns to issuance -/
def closesBatch (tx : LedgerTransaction) : Option (String × String × ℕ × ℕ) :=
  match tx.evidence with
  | .inferenceDispute e => some (e.jobId, e.assignmentId, e.batchStart, e.batchEnd)
  | .inferenceExpiry e => some (e.jobId, e.assignmentId, e.batchStart, e.batchEnd)
  | _ => none

/-- the batch a reward or a refund looks up by its index -/
def indexedBatch (tx : LedgerTransaction) : Option (String × String × ℕ × ℕ) :=
  match tx.evidence with
  | .inferenceReward e => some (e.jobId, e.assignmentId, e.batchStart, e.batchEnd)
  | .inferenceRefund e => some (e.jobId, e.assignmentId, e.batchStart, e.batchEnd)
  | _ => none

/-- every receipt carries the assignment id of the batch whose bounds it names -/
def ReceiptsNameTheirBatch (c : Crypto) (H : List LedgerTransaction) : Prop :=
  ∀ tx ∈ H, ∀ j id b e, receiptsBatch tx = some (j, id, b, e) → ∀ r, Certifies H j r →
    ∀ i plan, r.batches[i]? = some plan → plan.batchStart = b → plan.batchEnd = e → inferenceAssignmentId c j i = id

/-- every dispute and every expiry repeats job, assignment id and bounds of a receipt -/
def ClosingsRepeatReceipts (H : List LedgerTransaction) : Prop :=
  ∀ tx ∈ H, ∀ k, closesBatch tx = some k → ∃ t ∈ H, receiptsBatch t = some k

/-- no two certified jobs share the digest their assignment ids are built from -/
def DigestsApart (c : Crypto) (H : List LedgerTransaction) : Prop :=
  ∀ t ∈ H, ∀ t' ∈ H, ∀ j j' r r', LedgerStore.inferenceRecord t = some (j, r) →
    LedgerStore.inferenceRecord t' = some (j', r') → jobDigest c j = jobDigest c j' → j = j'

section

variable {c : Crypto} {tx : LedgerTransaction} {j id : String} {b e : ℕ}

theorem settlesBatch_split (h : settlesBatch tx = some (j, id, b, e)) :
    receiptsBatch tx = some (j, id, b, e) ∨ closesBatch tx = some (j, id, b, e) ∨
      indexedBatch tx = some (j, id, b, e) := by
  unfold settlesBatch takesBatch paysBatch at h
  unfold receiptsBatch closesBatch indexedBatch
  cases he : tx.evidence <;> rw [he] at h <;> simp_all

theorem flow_of_settles (h : settlesBatch tx = some (j, id, b, e)) : ∃ f, flow tx = some f := by
  unfold settlesBatch takesBatch paysBatch at h
  unfold flow
  cases he : tx.evidence <;> rw [he] at h <;> simp_all

theorem pays_of_closes (h : closesBatch tx = some (j, id, b, e)) : paysBatch tx = some (j, id, b, e) := by
  unfold closesBatch at h
  unfold paysBatch
  cases he : tx.evidence <;> rw [he] at h <;> simp_all

/-! ## One replayed transaction -/

/-- the historical rule a transaction's evidence answers to, whatever kind it declares -/
def historicalRule (c : Crypto) (tx : LedgerTransaction) (set : ValidatorSet) : Check Unit :=
  match tx.evidence with
  | .jobReserve e => historicalReserve c tx e
  | .communityReserve e => validateCommunityReserve c tx e set
  | .providerReward e => historicalReward c tx e
  | .jobRefund e => historicalRefund c tx e
  | .inferenceReserve e => historicalInferenceReserve c tx e
  | .inferenceReward e => historicalInferenceReward c tx e
  | .inferenceRefund e => historicalInferenceRefund c tx e
  | .inferenceReceipt e => historicalInferenceReceipt c tx e
  | .inferenceDispute e => historicalInferenceDispute c tx e
  | .inferenceExpiry e => historicalInferenceExpiry c tx e
  | .membershipChange _ => .ok ()

theorem historicalKind_ok {set : ValidatorSet} (h : historicalKind c tx set = .ok ()) :
    historicalRule c tx set = .ok () := by
  unfold historicalKind at h
  unfold historicalRule
  cases he : tx.evidence <;> cases hk : tx.kind <;> simp_all

/-- the historical rule pins the two postings and the accounts they are on, though not the size of every transfer -/
theorem historicalRule_posted {prev : String} {sigs : List ValidatorSignature} {set : ValidatorSet}
    (hev : verifyHistoricalEvidence c tx prev sigs = .ok ()) (h : historicalRule c tx set = .ok ()) {f : Transfer}
    (hf : flow tx = some f) : Posted tx f := by
  unfold verifyHistoricalEvidence at hev
  unfold historicalRule at h
  unfold flow at hf
  cases he : tx.evidence with
  | jobReserve e =>
    simp only [he, Option.some.injEq, historicalReserve, bind_ok, bailIf_ok, exists_const, not_not] at hev h hf
    subst hf
    exact ⟨h.2, by simp, nodeId_of_verified c hev, trivial⟩
  | communityReserve e =>
    simp only [he, Option.some.injEq, validateCommunityReserve, issuable, bind_ok, bailIf_ok, exists_const,
      exists_ok_unit_and, not_not] at h hf
    obtain ⟨_, _, _, hm, _⟩ := h
    subst hf
    exact ⟨hm, by simp, trivial, trivial⟩
  | providerReward e =>
    simp only [he, Option.some.injEq, historicalReward, verifyProviderAuth, bind_ok, bailIf_ok, exists_const,
      exists_ok_unit_and, not_not] at hev h hf
    subst hf
    exact ⟨h.2, by simp, trivial, nodeId_of_verified c hev.1⟩
  | jobRefund e =>
    simp only [he, Option.some.injEq, historicalRefund, bind_ok, bailIf_ok, exists_const, not_not] at h hf
    obtain ⟨_, payee, hpay, hm⟩ := h
    obtain ⟨rfl, hproper⟩ := refundPayee_ok hpay
    subst hf
    exact ⟨hm, refundAccount_ne_escrow _ _, trivial, hproper⟩
  | inferenceReserve e =>
    simp only [he, Option.some.injEq, historicalInferenceReserve, verifyBillAuth, bind_ok, bailIf_ok, exists_const,
      exists_ok_unit_and, not_not] at hev h hf
    obtain ⟨_, _, _, _, hm⟩ := h
    subst hf
    exact ⟨hm, by simp, nodeId_of_verified c hev.1, trivial⟩
  | inferenceReceipt e =>
    simp only [he, Option.some.injEq, historicalInferenceReceipt, bind_ok, bailIf_ok, exists_const,
      exists_ok_unit_and, not_not] at h hf
    obtain ⟨_, _, _, hm⟩ := h
    subst hf
    exact ⟨hm, by simp, trivial, trivial⟩
  | inferenceReward e =>
    simp only [he, Option.some.injEq, historicalInferenceReward, verifyReportAuth, bind_ok, bailIf_ok, exists_const,
      exists_ok_unit_and, not_not] at h hf
    obtain ⟨_, _, _, hsig, _, hm⟩ := h
    subst hf
    exact ⟨hm, by simp, trivial, nodeId_of_verified c hsig⟩
  | inferenceDispute e =>
    simp only [he, Option.some.injEq, historicalInferenceDispute, bind_ok, bailIf_ok, exists_const,
      exists_ok_unit_and, not_not] at h hf
    obtain ⟨_, _, _, _, hm⟩ := h
    subst hf
    exact ⟨hm, by simp, trivial, trivial⟩
  | inferenceExpiry e =>
    simp only [he, Option.some.injEq, historicalInferenceExpiry, bind_ok, bailIf_ok, exists_ok_unit_and,
      not_not] at h hf
    subst hf
    exact ⟨h.2, by simp, trivial, trivial⟩
  | inferenceRefund e =>
    simp only [he, Option.some.injEq, historicalInferenceRefund, verifyRefundAuth, bind_ok, bailIf_ok, exists_const,
      exists_ok_unit_and, not_not] at h hf
    obtain ⟨_, hsig, hm⟩ := h
    subst hf
    exact ⟨hm, by simp, trivial, nodeId_of_verified c hsig⟩
  | membershipChange e => simp [he] at hf

theorem historical_posted {prev : String} {sigs : List ValidatorSignature} {bal : String → ℤ} {set : ValidatorSet}
    (h : validateHistoricalTransaction c tx prev sigs bal set = .ok ()) {f : Transfer} (hf : flow tx = some f) :
    Posted tx f ∧ validatePostings "insufficient historical balance for" tx bal set = .ok () := by
  simp only [validateHistoricalTransaction, bind_ok, exists_ok_unit_and] at h
  obtain ⟨hev, h⟩ := h
  have hsplit : validatePostings "insufficient historical balance for" tx bal set = .ok () ∧
      historicalKind c tx set = .ok () := by
    cases he : tx.evidence with
    | membershipChange e => simp [flow, he] at hf
    | _ => simpa only [he, bind_ok, exists_ok_unit_and] using h
  exact ⟨historicalRule_posted hev (historicalKind_ok hsplit.2) hf, hsplit.1⟩

/-! ## What each block of the replay binds -/

/-- a reward or a refund is looked up in the plan of its job -/
theorem bind_indexed {r r' : Replay} (h : bindEvidence c r tx = .ok r') (hs : indexedBatch tx = some (j, id, b, e)) :
    ∃ rec, r.state.inference[j]? = some rec ∧ InPlan c j rec.batches id b e := by
  unfold bindEvidence at h
  unfold indexedBatch at hs
  cases he : tx.evidence with
  | inferenceReward ev =>
    simp only [he, Option.some.injEq, bindInferenceReward, bind_ok, orBail_ok, bailIf_ok, exists_const,
      not_or, not_not] at h hs
    cases hs
    obtain ⟨⟨rec, hrec, i, hi, plan, hplan, ⟨hb, he⟩, _⟩, _⟩ := h
    have hid := List.find?_some hi
    exact ⟨rec, hrec, i, plan, by simpa using hid, hplan, hb, he⟩
  | inferenceRefund ev =>
    simp only [he, Option.some.injEq, bindInferenceRefund, bind_ok, orBail_ok, bailIf_ok, exists_const,
      not_or, not_not] at h hs
    cases hs
    obtain ⟨⟨rec, hrec, i, hi, plan, hplan, ⟨hb, he⟩, _⟩, _⟩ := h
    have hid := List.find?_some hi
    exact ⟨rec, hrec, i, plan, by simpa using hid, hplan, hb, he⟩
  | _ => simp [he] at hs

/-- a receipt names the bounds of some batch of its job, under whatever id -/
theorem bind_receipt {r r' : Replay} (h : bindEvidence c r tx = .ok r') (hs : receiptsBatch tx = some (j, id, b, e)) :
    ∃ rec, r.state.inference[j]? = some rec ∧ ∃ plan ∈ rec.batches, plan.batchStart = b ∧ plan.batchEnd = e := by
  unfold bindEvidence at h
  unfold receiptsBatch at hs
  cases he : tx.evidence with
  | inferenceReceipt ev =>
    simp only [he, Option.some.injEq, bindInferenceReceipt, bind_ok, orBail_ok, bailIf_ok, exists_const,
      not_not] at h hs
    cases hs
    obtain ⟨⟨rec, hrec, _, hplan, _⟩, _⟩ := h
    exact ⟨rec, hrec, hplan⟩
  | _ => simp [he] at hs

/-- what leaves a holding account is a batch price of the job it is charged to -/
theorem bind_price {r r' : Replay} (h : bindEvidence c r tx = .ok r') (hs : paysBatch tx = some (j, id, b, e)) :
    ∃ f billing, flow tx = some f ∧ f.src = .holding id ∧ f.amount = batchPrice billing b e := by
  unfold bindEvidence at h
  unfold paysBatch at hs
  cases he : tx.evidence with
  | inferenceReward ev =>
    simp only [he, Option.some.injEq, bindInferenceReward, bind_ok, orBail_ok, bailIf_ok, exists_const,
      not_not] at h hs
    cases hs
    obtain ⟨⟨rec, _, _, _, _, _, _, _, _, hp, _⟩, _⟩ := h
    exact ⟨_, rec.billing, by simp only [flow, he]; rfl, rfl, hp.symm⟩
  | inferenceDispute ev =>
    simp only [he, Option.some.injEq, bindInferenceDispute, bind_ok, orBail_ok, bailIf_ok, exists_const,
      not_not] at h hs
    cases hs
    obtain ⟨⟨rec, _, _, hp⟩, _⟩ := h
    exact ⟨_, rec.billing, by simp only [flow, he]; rfl, rfl, hp.symm⟩
  | inferenceExpiry ev =>
    simp only [he, Option.some.injEq, bindInferenceExpiry, bind_ok, orBail_ok, bailIf_ok, exists_const,
      not_not] at h hs
    cases hs
    obtain ⟨⟨rec, _, _, hp⟩, _⟩ := h
    exact ⟨_, rec.billing, by simp only [flow, he]; rfl, rfl, hp.symm⟩
  | _ => simp [he] at hs

end

/-- the block records a new plan, and leaves the balances alone -/
theorem bind_state {c : Crypto} {tx : LedgerTransaction} {r r' : Replay} (h : bindEvidence c r tx = .ok r') :
    r'.state.inference = LedgerStore.upsert r.state.inference (LedgerStore.inferenceRecord tx) id ∧
      r'.state.balances = r.state.balances ∧
      ∀ j rec, LedgerStore.inferenceRecord tx = some (j, rec) → r.state.inference[j]? = none := by
  unfold bindEvidence at h
  unfold LedgerStore.inferenceRecord
  cases he : tx.evidence with
  | inferenceReserve ev =>
    simp only [he, bind_ok, bailIf_ok, exists_const, pure_ok, LedgerStore.inferenceRecord] at h
    obtain ⟨hnew, rfl⟩ := h
    refine ⟨rfl, rfl, ?_⟩
    intro j rec hrec
    cases hrec
    exact Std.ExtTreeMap.getElem?_eq_none hnew
  | membershipChange ev =>
    simp only [he, bind_ok, pure_ok] at h
    obtain ⟨_, _, rfl⟩ := h
    exact ⟨rfl, rfl, by simp⟩
  | _ =>
    simp only [he, bind_ok, bailIf_ok, exists_const, exists_ok_unit_and, pure_ok] at h
    obtain ⟨_, rfl⟩ := h
    exact ⟨rfl, rfl, by simp⟩

/-- postings leave the plans alone, and only a credit makes a balance positive -/
theorem replayPostings_state (ps : List Posting) {s s' : LedgerState} (h : ps.foldlM replayPosting s = .ok s') :
    s'.inference = s.inference ∧ ∀ a, 0 < s'.balances.entry a →
      0 < s.balances.entry a ∨ ∃ p ∈ ps, p.accountId = a ∧ 0 < p.deltaMcu := by
  refine foldlM_inv replayPosting (fun pre t => t.inference = s.inference ∧ ∀ a, 0 < t.balances.entry a →
    0 < s.balances.entry a ∨ ∃ p ∈ pre, p.accountId = a ∧ 0 < p.deltaMcu) ?_ ps [] s s' ⟨rfl, fun a ha => Or.inl ha⟩ h
  intro pre t p t' ⟨hinf, hbal⟩ hstep
  simp only [replayPosting, bind_ok, orBail_ok, checkedAdd64_some, bailIf_ok, exists_const, pure_ok] at hstep
  obtain ⟨next, ⟨rfl, _⟩, _, rfl⟩ := hstep
  refine ⟨hinf, ?_⟩
  intro a ha
  have hkeep : 0 < t.balances.entry a → 0 < s.balances.entry a ∨ ∃ q ∈ pre ++ [p], q.accountId = a ∧ 0 < q.deltaMcu := by
    intro hpos
    rcases hbal a hpos with h | ⟨q, hq, hcredit⟩
    · exact Or.inl h
    · exact Or.inr ⟨q, by simp [hq], hcredit⟩
  rw [Table.entry_insert] at ha
  split_ifs at ha with hacc
  · by_cases hcredit : 0 < p.deltaMcu
    · exact Or.inr ⟨p, by simp, hacc, hcredit⟩
    · rw [hacc] at ha
      exact hkeep (by omega)
  · exact hkeep ha

/-! ## The invariant of the replay -/

/-- what the replay has checked of one settlement, against the plans of its own books -/
structure Replayed (c : Crypto) (inference : Table String InferenceRecord) (tx : LedgerTransaction) : Prop where
  confined : ∀ j id b e, settlesBatch tx = some (j, id, b, e) → Confined tx j id
  indexed : ∀ j id b e, indexedBatch tx = some (j, id, b, e) →
    ∃ r, inference[j]? = some r ∧ InPlan c j r.batches id b e
  receipt : ∀ j id b e, receiptsBatch tx = some (j, id, b, e) →
    ∃ r, inference[j]? = some r ∧ ∃ plan ∈ r.batches, plan.batchStart = b ∧ plan.batchEnd = e

structure ReplayBooks (c : Crypto) (s : LedgerState) (H : List LedgerTransaction) : Prop where
  certified : ∀ j r, s.inference[j]? = some r ↔ ∃ t ∈ H, LedgerStore.inferenceRecord t = some (j, r)
  tiled : ∀ (j : String) r, s.inference[j]? = some r → Tiled 0 r.batches r.billing.promptBytes.length
  replayed : ∀ t ∈ H, Replayed c s.inference t
  /-- a holding account has something in it only because a receipt filled it -/
  filled : ∀ id, 0 < s.balances.entry (inferenceHoldingAccount id) →
    ∃ t ∈ H, ∃ j b e, receiptsBatch t = some (j, id, b, e)
  /-- and nothing was drawn from one that no receipt had filled -/
  drawn : ∀ t ∈ H, ∀ j id b e, paysBatch t = some (j, id, b, e) →
    ∃ t' ∈ H, ∃ j' b' e', receiptsBatch t' = some (j', id, b', e')

theorem replayBooks_empty (c : Crypto) : ReplayBooks c LedgerState.empty [] where
  certified := by simp [LedgerState.empty]
  tiled := by simp [LedgerState.empty]
  replayed := by simp
  filled := by simp [LedgerState.empty, Table.entry]
  drawn := by simp

theorem Replayed.mono {c : Crypto} {plans plans' : Table String InferenceRecord} {tx : LedgerTransaction}
    (h : Replayed c plans tx) (hle : ∀ (j : String) r, plans[j]? = some r → plans'[j]? = some r) :
    Replayed c plans' tx where
  confined := h.confined
  indexed := by
    intro j id b e hs
    obtain ⟨r, hr, hin⟩ := h.indexed j id b e hs
    exact ⟨r, hle j r hr, hin⟩
  receipt := by
    intro j id b e hs
    obtain ⟨r, hr, hplan⟩ := h.receipt j id b e hs
    exact ⟨r, hle j r hr, hplan⟩

section

variable {c : Crypto} {tx : LedgerTransaction} {r r' : Replay} {prev : String} {sigs : List ValidatorSignature}

/-- the escrow and the holding account a settlement may touch are the ones its flow names -/
theorem confined_of_posted {f : Transfer} (hf : flow tx = some f) (hp : Posted tx f) {j id : String} {b e : ℕ}
    (hs : settlesBatch tx = some (j, id, b, e)) : Confined tx j id := by
  have hends : (∀ j', f.src = .escrow j' ∨ f.dst = .escrow j' → j' = j) ∧
      ∀ id', f.src = .holding id' ∨ f.dst = .holding id' → id' = id := by
    unfold flow at hf
    unfold settlesBatch takesBatch paysBatch at hs
    cases he : tx.evidence with
    | inferenceReceipt ev | inferenceReward ev | inferenceDispute ev | inferenceExpiry ev | inferenceRefund ev =>
      simp only [he, Option.some.injEq, Option.or_some, Option.or_none] at hf hs
      cases hf
      cases hs
      simp [eq_comm]
    | _ => simp [he] at hs
  intro p hpost
  have hname : ∀ a : Account, a.Proper → p.accountId = a.name → f.src = a ∨ f.dst = a := by
    intro a ha hacc
    rcases hp.posting_account hpost with h | h
    · exact Or.inl ((Account.name_inj hp.src_proper ha).1 (h.symm.trans hacc))
    · exact Or.inr ((Account.name_inj hp.dst_proper ha).1 (h.symm.trans hacc))
  constructor
  · intro j' hacc
    exact hends.1 j' (hname (.escrow j') trivial hacc)
  · intro id' hacc
    exact hends.2 id' (hname (.holding id') trivial hacc)

theorem replayTransaction_ok (h : replayTransaction c prev sigs r tx = .ok r') :
    validateHistoricalTransaction c tx prev sigs r.state.balances.entry r.active = .ok () ∧
      ∃ r₁ r₂, r₁.state.inference = r.state.inference ∧ bindEvidence c r₁ tx = .ok r₂ ∧
        r₂.state.balances = r.state.balances ∧ tx.postings.foldlM replayPosting r₂.state = .ok r'.state := by
  simp only [replayTransaction, bind_ok, bailIf_ok, exists_const, exists_ok_unit_and, pure_ok] at h
  obtain ⟨_, hhist, r₂, hbind, s', hpost, rfl⟩ := h
  refine ⟨hhist, _, r₂, ?_, hbind, (bind_state hbind).2.1, hpost⟩
  rfl

/-- the historical rule has read the plan of a new job -/
theorem tiled_of_reserve {bal : String → ℤ} {set : ValidatorSet}
    (h : validateHistoricalTransaction c tx prev sigs bal set = .ok ()) {j : String} {rec : InferenceRecord}
    (hrec : LedgerStore.inferenceRecord tx = some (j, rec)) : Tiled 0 rec.batches rec.billing.promptBytes.length := by
  unfold LedgerStore.inferenceRecord at hrec
  cases he : tx.evidence with
  | inferenceReserve ev =>
    simp only [he, Option.some.injEq] at hrec
    cases hrec
    simp only [validateHistoricalTransaction, verifyHistoricalEvidence, he, bind_ok, exists_ok_unit_and] at h
    obtain ⟨_, ⟨_, hpart⟩, _⟩ := h
    exact tiled_of_partition hpart
  | _ => simp [he] at hrec

/-- a payout leaves a holding account that had something in it -/
theorem holding_covered {r₁ r₂ : Replay} {bal : String → ℤ} {set : ValidatorSet}
    (hhist : validateHistoricalTransaction c tx prev sigs bal set = .ok ()) (hbind : bindEvidence c r₁ tx = .ok r₂)
    {j id : String} {b e : ℕ} (hs : paysBatch tx = some (j, id, b, e)) : 0 < bal (inferenceHoldingAccount id) := by
  obtain ⟨f, billing, hf, hsrc, hamt⟩ := bind_price hbind hs
  obtain ⟨hposted, hpost⟩ := historical_posted hhist hf
  have hpos : 1 ≤ f.amount := hamt ▸ batchPrice_pos billing b e
  have hfits : f.amount ≤ i64Max := hamt ▸ batchPrice_fits billing b e
  have hcov := (covered_of_postings hpost ⟨hposted, hpos, hfits⟩).source (by simp [hsrc])
  rw [hsrc] at hcov
  exact lt_of_lt_of_le (by omega) hcov

/-- only a receipt credits a holding account -/
theorem receipt_of_credit {r₁ r₂ : Replay} {bal : String → ℤ} {set : ValidatorSet}
    (hhist : validateHistoricalTransaction c tx prev sigs bal set = .ok ()) (hbind : bindEvidence c r₁ tx = .ok r₂)
    {p : Posting} (hp : p ∈ tx.postings) {id : String} (hacc : p.accountId = inferenceHoldingAccount id)
    (hcredit : 0 < p.deltaMcu) : ∃ j b e, receiptsBatch tx = some (j, id, b, e) := by
  cases hf : flow tx with
  | none =>
    cases he : tx.evidence with
    | membershipChange ev =>
      simp only [validateHistoricalTransaction, he, validateMembershipShape, bind_ok, bailIf_ok, exists_const,
        exists_ok_unit_and, not_not] at hhist
      simp [hhist.2.2] at hp
    | _ => simp [flow, he] at hf
  | some f =>
    obtain ⟨hposted, _⟩ := historical_posted hhist hf
    have hproper : (Account.holding id).Proper := trivial
    have hmem : p = ⟨f.src.name, -f.amount⟩ ∨ p = ⟨f.dst.name, f.amount⟩ := by
      rcases moves_postings hposted.moves hposted.name_ne with hps | hps <;> rw [hps] at hp <;> simp at hp <;> tauto
    rcases hmem with rfl | rfl
    · have hsrc : f.src = .holding id := (Account.name_inj hposted.src_proper hproper).1 hacc
      obtain ⟨j, b, e, hpays⟩ := holding_out hf hsrc
      obtain ⟨f', billing, hf', _, hamt⟩ := bind_price hbind hpays
      cases hf.symm.trans hf'
      have := batchPrice_pos billing b e
      simp only [hamt] at hcredit
      omega
    · exact holding_in hf ((Account.name_inj hposted.dst_proper hproper).1 hacc)

/-- **Replay step.** -/
theorem ReplayBooks.step {H : List LedgerTransaction} (h : ReplayBooks c r.state H)
    (hstep : replayTransaction c prev sigs r tx = .ok r') : ReplayBooks c r'.state (H ++ [tx]) := by
  obtain ⟨hhist, r₁, r₂, hsame, hbind, hbal, hpost⟩ := replayTransaction_ok hstep
  obtain ⟨hplans, _, hnew⟩ := bind_state hbind
  obtain ⟨hinf, hcredit⟩ := replayPostings_state _ hpost
  rw [hsame] at hplans hnew
  rw [← hinf] at hplans
  have hkept : ∀ (j : String) rec, r.state.inference[j]? = some rec → r'.state.inference[j]? = some rec := by
    intro j rec hrec
    rw [hplans]
    refine upsert_kept hrec ?_
    intro w hw
    rw [hnew j w hw] at hrec
    cases hrec
  have hdrawn : ∀ j id b e, paysBatch tx = some (j, id, b, e) →
      ∃ t ∈ H, ∃ j' b' e', receiptsBatch t = some (j', id, b', e') :=
    fun j id b e hs => h.filled id (holding_covered hhist hbind hs)
  have hrow : ∀ (j : String) rec, r'.state.inference[j]? = some rec →
      LedgerStore.inferenceRecord tx = some (j, rec) ∨ r.state.inference[j]? = some rec := by
    intro j rec hrec
    exact upsert_cases (hplans ▸ hrec)
  constructor
  case certified =>
    intro j rec
    constructor
    · intro hrec
      rcases hrow j rec hrec with htx | hold
      · exact ⟨tx, by simp, htx⟩
      · obtain ⟨t, ht, hrec'⟩ := (h.certified j rec).1 hold
        exact ⟨t, by simp [ht], hrec'⟩
    · rintro ⟨t, ht, hrec⟩
      rcases List.mem_append.1 ht with ht | ht
      · exact hkept j rec ((h.certified j rec).2 ⟨t, ht, hrec⟩)
      · obtain rfl := List.mem_singleton.1 ht
        rw [hplans, hrec]
        simp [LedgerStore.upsert]
  case tiled =>
    intro j rec hrec
    rcases hrow j rec hrec with htx | hold
    · exact tiled_of_reserve hhist htx
    · exact h.tiled j rec hold
  case replayed =>
    intro t ht
    rcases List.mem_append.1 ht with ht | ht
    · exact (h.replayed t ht).mono hkept
    · obtain rfl := List.mem_singleton.1 ht
      constructor
      case confined =>
        intro j id b e hs
        obtain ⟨f, hf⟩ := flow_of_settles hs
        exact confined_of_posted hf (historical_posted hhist hf).1 hs
      case indexed =>
        intro j id b e hs
        obtain ⟨rec, hrec, hin⟩ := bind_indexed hbind hs
        exact ⟨rec, hkept j rec (hsame ▸ hrec), hin⟩
      case receipt =>
        intro j id b e hs
        obtain ⟨rec, hrec, hplan⟩ := bind_receipt hbind hs
        exact ⟨rec, hkept j rec (hsame ▸ hrec), hplan⟩
  case filled =>
    intro id hpos
    rcases hcredit _ hpos with hold | ⟨p, hp, hacc, hdelta⟩
    · obtain ⟨t, ht, hrec⟩ := h.filled id (hbal ▸ hold)
      exact ⟨t, by simp [ht], hrec⟩
    · exact ⟨tx, by simp, receipt_of_credit hhist hbind hp hacc hdelta⟩
  case drawn =>
    intro t ht j id b e hs
    rcases List.mem_append.1 ht with ht | ht
    · obtain ⟨t', ht', hrec⟩ := h.drawn t ht j id b e hs
      exact ⟨t', by simp [ht'], hrec⟩
    · obtain rfl := List.mem_singleton.1 ht
      obtain ⟨t', ht', hrec⟩ := hdrawn j id b e hs
      exact ⟨t', by simp [ht'], hrec⟩

/-- **Replay run.** -/
theorem replayBooks_of_certificates {certs : List QuorumCertificate} {start r : Replay} (hs : start.state = LedgerState.empty)
    (h : certs.foldlM (replayCertificate c) start = .ok r) :
    ReplayBooks c r.state (certs.flatMap (·.entry.transactions)) := by
  refine foldlM_inv (replayCertificate c)
    (fun pre r => ReplayBooks c r.state (pre.flatMap (·.entry.transactions))) ?_ certs [] start r ?_ h
  · intro pre r cert r' hbooks hcert
    simp only [replayCertificate, bind_ok, bailIf_ok, exists_const, exists_ok_unit_and, pure_ok] at hcert
    obtain ⟨_, _, r₁, htxs, rfl⟩ := hcert
    rw [List.flatMap_append, List.flatMap_singleton]
    exact foldlM_inv (replayTransaction c cert.entry.previousHash cert.signatures)
      (fun H r => ReplayBooks c r.state H) (fun _ _ _ _ hb hstep => hb.step hstep) cert.entry.transactions _ r r₁
      hbooks htxs
  · rw [hs]
    exact replayBooks_empty c

end

/-! ## What an accepted chain says -/

section

variable {c : Crypto} {s : LedgerState} {H : List LedgerTransaction}

theorem ReplayBooks.certifies (h : ReplayBooks c s H) {j : String} {r : InferenceRecord} :
    s.inference[j]? = some r ↔ Certifies H j r := by
  constructor
  · intro hr r'
    rw [← h.certified, hr, Option.some_inj, eq_comm]
  · intro hc
    exact (h.certified j r).2 ((hc r).2 rfl)

/-- bounds that are in a plan are there under one index only -/
theorem InPlan.index {j id : String} {b e : ℕ} {r : InferenceRecord} {n : ℕ} (h : InPlan c j r.batches id b e)
    (ht : Tiled 0 r.batches n) {i : ℕ} {plan : PricedBatch} (hi : r.batches[i]? = some plan) (hb : plan.batchStart = b) :
    inferenceAssignmentId c j i = id := by
  obtain ⟨k, plan', hid, hk, hb', _⟩ := h
  rw [ht.index_unique hi hk (hb.trans hb'.symm)]
  exact hid

/-- receipts that name their own batch are bound to it -/
theorem ReplayBooks.receipt_bound (h : ReplayBooks c s H) (hrec : ReceiptsNameTheirBatch c H) {t : LedgerTransaction}
    (ht : t ∈ H) {j id : String} {b e : ℕ} (hs : receiptsBatch t = some (j, id, b, e)) :
    ∃ r, Certifies H j r ∧ InPlan c j r.batches id b e := by
  obtain ⟨r, hr, plan, hplan, hb, he⟩ := (h.replayed t ht).receipt j id b e hs
  obtain ⟨i, hi, hget⟩ := List.mem_iff_getElem.1 hplan
  have hat : r.batches[i]? = some plan := by rw [List.getElem?_eq_getElem hi, hget]
  have hcert := h.certifies.1 hr
  exact ⟨r, hcert, i, plan, hrec t ht j id b e hs r hcert i plan hat hb he, hat, hb, he⟩

theorem ReplayBooks.bound (h : ReplayBooks c s H) (hrec : ReceiptsNameTheirBatch c H)
    (hclose : ClosingsRepeatReceipts H) : SettlementsBound c H := by
  intro tx htx j id b e hs
  refine ⟨?_, (h.replayed tx htx).confined j id b e hs⟩
  rcases settlesBatch_split hs with hs | hs | hs
  · exact h.receipt_bound hrec htx hs
  · obtain ⟨t, ht, hs'⟩ := hclose tx htx _ hs
    exact h.receipt_bound hrec ht hs'
  · obtain ⟨r, hr, hin⟩ := (h.replayed tx htx).indexed j id b e hs
    exact ⟨r, h.certifies.1 hr, hin⟩

theorem ReplayBooks.receipts_of_bound (h : ReplayBooks c s H) (hb : SettlementsBound c H) :
    ReceiptsNameTheirBatch c H := by
  intro tx htx j id b e hs r hr i plan hat hstart _
  obtain ⟨⟨r', hr', hin⟩, _⟩ := hb tx htx j id b e (settles_of_takes (takes_of_receipts hs))
  have heq : r' = r := (hr r').1 ((hr' r').2 rfl)
  rw [heq] at hin
  exact hin.index (h.tiled j r (h.certifies.2 hr)) hat hstart

theorem ReplayBooks.closings_of_bound (h : ReplayBooks c s H) (hd : DigestsApart c H) (hb : SettlementsBound c H) :
    ClosingsRepeatReceipts H := by
  rintro tx htx ⟨j, id, b, e⟩ hs
  have hpays := pays_of_closes hs
  obtain ⟨t, ht, j', b', e', hrec⟩ := h.drawn tx htx j id b e hpays
  obtain ⟨⟨r, hr, i, plan, hid, hat, rfl, rfl⟩, _⟩ := hb tx htx j id b e (settles_of_pays hpays)
  obtain ⟨⟨r', hr', i', plan', hid', hat', rfl, rfl⟩, _⟩ :=
    hb t ht j' id b' e' (settles_of_takes (takes_of_receipts hrec))
  -- the receipt that filled the account has the same id, so it is of the same job and the same batch
  obtain ⟨hdig, rfl⟩ := inferenceAssignmentId_inj c (hid.trans hid'.symm)
  obtain ⟨u, hu, hur⟩ := (hr r).2 rfl
  obtain ⟨u', hu', hur'⟩ := (hr' r').2 rfl
  obtain rfl := hd u hu u' hu' j j' r r' hur hur' hdig
  have heq : r' = r := (hr r').1 ⟨u', hu', hur'⟩
  rw [heq, hat] at hat'
  cases hat'
  exact ⟨t, ht, hrec⟩

end

/-- **What an accepted audit binds.** In every chain the audit accepts, the inference settlements are bound to the
certified plans when every receipt carries the assignment id of the batch whose bounds it names and every dispute and
expiry repeats a receipt; and only then, as long as no two jobs share a digest. -/
theorem audited_settlements_bound_iff {c : Crypto} {st : LedgerStore} {set : ValidatorSet} {head : LedgerHead}
    (h : st.audit c set = .ok head) :
    (ReceiptsNameTheirBatch c (audited st) ∧ ClosingsRepeatReceipts (audited st) → SettlementsBound c (audited st)) ∧
    (DigestsApart c (audited st) → (SettlementsBound c (audited st) ↔
      ReceiptsNameTheirBatch c (audited st) ∧ ClosingsRepeatReceipts (audited st))) := by
  obtain ⟨_, r, _, hr, _⟩ := audit_ok.1 h
  have hbooks : ReplayBooks c r.state (audited st) := replayBooks_of_certificates rfl hr
  refine ⟨fun hcond => hbooks.bound hcond.1 hcond.2, fun hd => ⟨fun hb => ?_, fun hcond => hbooks.bound hcond.1 hcond.2⟩⟩
  exact ⟨hbooks.receipts_of_bound hb, hbooks.closings_of_bound hd hb⟩

/-- a receipt for the only batch of the small job, under an id that is no batch's -/
def strayReceipt : LedgerTransaction := Sample.inferenceReceipt 5 Sample.smallJob "stray" 0 1 1 400

def strayHistory : List LedgerTransaction := [Sample.smallMint, Sample.smallReward 5, Sample.smallReserve, strayReceipt]

/-- the quorum certifies the stray receipt, a participant applies the entry, and its audit passes -/
theorem stray_run : ∃ st head, st.audit Sample.crypto (Sample.committee 1) = .ok head ∧ audited st = strayHistory := by
  have hrun : (LedgerStore.empty.apply Sample.crypto (Sample.certify (Sample.committee 1) [0] LedgerStore.empty
      strayHistory) (Sample.committee 1)).okWith (fun st => audited st = strayHistory ∧
        (st.audit Sample.crypto (Sample.committee 1)).okWith (fun _ => true) = true) = true := by decide +kernel
  obtain ⟨st, _, hst⟩ := (okWith_iff _ _).1 hrun
  rw [decide_eq_true_eq] at hst
  obtain ⟨hhist, haudit⟩ := hst
  obtain ⟨head, hhead, _⟩ := (okWith_iff _ _).1 haudit
  exact ⟨st, head, hhead, hhist⟩

theorem stray_unbound : ¬ SettlementsBound Sample.crypto strayHistory := by
  intro h
  obtain ⟨⟨_, _, i, _, hid, _⟩, _⟩ := h strayReceipt (by simp [strayHistory]) Sample.smallJob "stray" 0 1 rfl
  have := congrArg String.toList hid
  simp [inferenceAssignmentId] at this

/-- the receipt is not the only batch's, and the audit that accepted it did not establish that it is -/
theorem stray_receipt_misnamed : ∃ st head, st.audit Sample.crypto (Sample.committee 1) = .ok head ∧
    strayReceipt ∈ audited st ∧
    ¬ (ReceiptsNameTheirBatch Sample.crypto (audited st) ∧ ClosingsRepeatReceipts (audited st)) := by
  obtain ⟨st, head, haudit, hhist⟩ := stray_run
  refine ⟨st, head, haudit, by simp [hhist, strayHistory], ?_⟩
  intro hcond
  exact stray_unbound (hhist ▸ (audited_settlements_bound_iff haudit).1 hcond)

/-- an accepted chain with a receipt under an id that stands for no batch -/
theorem audited_receipt_unbound : ∃ st head, st.audit Sample.crypto (Sample.committee 1) = .ok head ∧
    ¬ SettlementsBound Sample.crypto (audited st) := by
  obtain ⟨st, head, haudit, hhist⟩ := stray_run
  exact ⟨st, head, haudit, hhist ▸ stray_unbound⟩

end Hocmesh.Books
