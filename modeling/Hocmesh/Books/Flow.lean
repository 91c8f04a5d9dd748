/-
Where the CU of a transaction comes from and where it goes.

`flow` reads source, destination and amount off the evidence alone. `flow_of_valid` is the one fact the balances need of
all ten rules: a transaction a validator accepts moves a positive amount between the two different accounts its flow
names, and the source covers it. The ledger knows accounts by name only; `Account` says what a name stands for, and
`Account.name_inj` that node ids, escrows, holdings and issuance never share one.
-/
import Hocmesh.Books.Record
import Hocmesh.Ledger.SetChain

namespace Hocmesh.Books

open Hocmesh.Base Hocmesh.Protocol Hocmesh.Compute Hocmesh.Ledger Hocmesh.Validator

/-! ## Accounts -/

/-- what an account name stands for -/
inductive Account where
  | node (id : String)
  | issuance
  | escrow (jobId : String)
  | holding (assignmentId : String)
deriving DecidableEq

namespace Account

def name : Account → String
  | node id => id
  | issuance => communityIssuanceAccount
  | escrow jobId => escrowAccount jobId
  | holding assignmentId => inferenceHoldingAccount assignmentId

/-- a node account carries a real node id, one derived from a public key -/
def Proper : Account → Prop
  | node id => IsNodeId id
  | _ => True

theorem escrow_ne_holding (j a : String) : escrowAccount j ≠ inferenceHoldingAccount a := by
  intro h
  have := congrArg String.toList h
  simp [escrowAccount, inferenceHoldingAccount] at this

theorem escrow_ne_issuance (j : String) : escrowAccount j ≠ communityIssuanceAccount := by
  intro h
  have := congrArg String.toList h
  simp [escrowAccount, communityIssuanceAccount] at this

theorem holding_ne_issuance (a : String) : inferenceHoldingAccount a ≠ communityIssuanceAccount := by
  intro h
  have := congrArg String.toList h
  simp [inferenceHoldingAccount, communityIssuanceAccount] at this

/-- a node id has an underscore where every reserved account has a colon -/
theorem nodeId_not_reserved {n : String} (h : IsNodeId n) :
    (∀ j, n ≠ escrowAccount j) ∧ (∀ a, n ≠ inferenceHoldingAccount a) ∧ n ≠ communityIssuanceAccount := by
  obtain ⟨x, rfl⟩ := h
  refine ⟨fun j h => ?_, fun a h => ?_, fun h => ?_⟩
  · have := congrArg String.toList h
    simp [escrowAccount] at this
  · have := congrArg String.toList h
    simp [inferenceHoldingAccount] at this
  · have := congrArg String.toList h
    simp [communityIssuanceAccount] at this

/-- no two accounts share a name -/
theorem name_inj {a b : Account} (ha : a.Proper) (hb : b.Proper) : a.name = b.name ↔ a = b := by
  refine ⟨fun h => ?_, fun h => h ▸ rfl⟩
  cases a with
  | node n =>
    have hn := nodeId_not_reserved ha
    cases b with
    | node m => exact congrArg node h
    | issuance => exact absurd h hn.2.2
    | escrow j => exact absurd h (hn.1 j)
    | holding x => exact absurd h (hn.2.1 x)
  | issuance =>
    cases b with
    | node m => exact absurd h.symm (nodeId_not_reserved hb).2.2
    | issuance => rfl
    | escrow j => exact absurd h.symm (escrow_ne_issuance j)
    | holding x => exact absurd h.symm (holding_ne_issuance x)
  | escrow j =>
    cases b with
    | node m => exact absurd h.symm ((nodeId_not_reserved hb).1 j)
    | issuance => exact absurd h (escrow_ne_issuance j)
    | escrow j' => exact congrArg escrow ((String.append_right_inj _).1 h)
    | holding x => exact absurd h (escrow_ne_holding j x)
  | holding x =>
    cases b with
    | node m => exact absurd h.symm ((nodeId_not_reserved hb).2.1 x)
    | issuance => exact absurd h (holding_ne_issuance x)
    | escrow j => exact absurd h.symm (escrow_ne_holding j x)
    | holding x' => exact congrArg holding ((String.append_right_inj _).1 h)

end Account

/-! ## Source, destination, amount -/

structure Transfer where
  src : Account
  dst : Account
  amount : ℤ
deriving DecidableEq

/-- who a CPU refund goes back to -/
def refundAccount (auth : Option AuthProof) : Account :=
  match auth with
  | some a => .node a.nodeId
  | none => .issuance

def flow (tx : LedgerTransaction) : Option Transfer :=
  match tx.evidence with
  | .jobReserve e => some ⟨.node e.requesterAuth.nodeId, .escrow e.jobId, jobCostMcu e.work e.shards⟩
  | .communityReserve e => some ⟨.issuance, .escrow e.jobId, jobCostMcu e.work e.shards⟩
  | .providerReward e => some ⟨.escrow e.jobId, .node e.providerAuth.nodeId, workCostMcu e.work⟩
  | .jobRefund e => some ⟨.escrow e.jobId, refundAccount e.requesterAuth, workCostMcu e.work⟩
  | .inferenceReserve e => some ⟨.node e.requesterAuth.nodeId, .escrow e.jobId, jobPrice e.billing⟩
  | .inferenceReceipt e => some ⟨.escrow e.jobId, .holding e.assignmentId, e.priceMcu⟩
  | .inferenceReward e => some ⟨.holding e.assignmentId, .node e.providerAuth.nodeId, e.rewardMcu⟩
  | .inferenceDispute e => some ⟨.holding e.assignmentId, .issuance, e.priceMcu⟩
  | .inferenceExpiry e => some ⟨.holding e.assignmentId, .issuance, e.priceMcu⟩
  | .inferenceRefund e => some ⟨.escrow e.jobId, .node e.requesterAuth.nodeId, e.refundMcu⟩
  | .membershipChange _ => none

/-- the two postings of a transfer, in either order -/
theorem moves_postings {tx : LedgerTransaction} {src dst : String} {amount : ℤ} (h : Moves tx src dst amount)
    (hne : src ≠ dst) :
    tx.postings = [⟨src, -amount⟩, ⟨dst, amount⟩] ∨ tx.postings = [⟨dst, amount⟩, ⟨src, -amount⟩] := by
  obtain ⟨hlen, hs, hd⟩ := h
  match hp : tx.postings, hlen with
  | [a, b], _ =>
    rw [hp] at hs hd
    simp only [List.mem_cons, List.not_mem_nil, or_false] at hs hd
    rcases hs with rfl | rfl <;> rcases hd with hd | hd
    · exact absurd (congrArg Posting.accountId hd).symm hne
    · left; rw [hd]
    · right; rw [hd]
    · exact absurd (congrArg Posting.accountId hd).symm hne

/-! ## The rule of each kind, inverted -/

/-- the assignment id names batch number `i` of the plan, and the bounds are that batch's -/
structure NamesBatch (c : Crypto) (jobId : String) (batches : List PricedBatch) (assignmentId : String)
    (batchStart batchEnd i : ℕ) (b : PricedBatch) : Prop where
  found : certifiedIndex c jobId batches assignmentId = some i
  at_index : batches[i]? = some b
  starts : b.batchStart = batchStart
  ends : b.batchEnd = batchEnd

theorem NamesBatch.id {c : Crypto} {jobId assignmentId : String} {batches : List PricedBatch}
    {batchStart batchEnd i : ℕ} {b : PricedBatch} (h : NamesBatch c jobId batches assignmentId batchStart batchEnd i b) :
    inferenceAssignmentId c jobId i = assignmentId := by
  have := List.find?_some h.found
  simpa using this

theorem reservedBatch_ok {c : Crypto} {r : InferenceReservation} {assignmentId : String} {batchStart batchEnd : ℕ}
    {b : PricedBatch} {price : ℤ} :
    reservedBatch c r assignmentId batchStart batchEnd = .ok (b, price) ↔
      (∃ i, NamesBatch c r.jobId r.batches assignmentId batchStart batchEnd i b) ∧
        batchPrice r.billing batchStart batchEnd = price := by
  simp only [reservedBatch, bind_ok, orBail_ok, bailIf_ok, pure_ok, exists_const, not_or, not_not, Prod.mk.injEq]
  constructor
  · rintro ⟨i, hi, b', hb, ⟨hs, he⟩, rfl, rfl⟩
    exact ⟨⟨i, hi, hb, hs, he⟩, rfl⟩
  · rintro ⟨⟨i, hi, hb, hs, he⟩, rfl⟩
    exact ⟨i, hi, b, hb, ⟨hs, he⟩, rfl, rfl⟩

/-- a verdict is the requester's own, and signed for this batch -/
theorem requesterVerdict_ok {c : Crypto} {accepted : Bool} {pk requester id jobId digest : String} {auth : AuthProof}
    {b e : ℕ} {price : ℤ} :
    requesterVerdict c accepted pk auth requester id jobId b e price digest = .ok () ↔
      auth.nodeId = requester ∧
        verifyAuthSignature c pk auth (if accepted then "accept_inference" else "dispute_inference")
          (inferenceVerdictBodyHash c accepted id jobId b e price digest) = .ok () := by
  simp only [requesterVerdict, bind_ok, bailIf_ok, mapErr_ok, exists_const, not_not]

/-- which kind a transaction has to declare for the evidence it carries -/
def kindOf : TransactionEvidence → TransactionKind
  | .jobReserve _ => .jobReserve
  | .communityReserve _ => .communityReserve
  | .providerReward _ => .providerReward
  | .jobRefund _ => .jobRefund
  | .inferenceReserve _ => .inferenceReserve
  | .inferenceReceipt _ => .inferenceReceipt
  | .inferenceReward _ => .inferenceReward
  | .inferenceDispute _ => .inferenceDispute
  | .inferenceExpiry _ => .inferenceExpiry
  | .inferenceRefund _ => .inferenceRefund
  | .membershipChange _ => .membershipChange

section

variable {c : Crypto} {tx : LedgerTransaction} {prev : String} {bal : String → ℤ}
  {res : String → Option InferenceReservation} {set : ValidatorSet}

/-- the rule a transaction's evidence answers to, whatever kind it declares -/
def kindRule (c : Crypto) (tx : LedgerTransaction) (prev : String) (res : String → Option InferenceReservation)
    (set : ValidatorSet) : Check Unit :=
  match tx.evidence with
  | .jobReserve e => validateReserve c tx e
  | .communityReserve e => validateCommunityReserve c tx e set
  | .providerReward e => validateReward c tx e prev
  | .jobRefund e => validateRefund c tx e
  | .inferenceReserve e => validateInferenceReserve c tx e
  | .inferenceReward e => validateInferenceReward c tx e (res e.jobId)
  | .inferenceReceipt e => validateInferenceReceipt c tx e (res e.jobId)
  | .inferenceDispute e => validateInferenceDispute c tx e (res e.jobId)
  | .inferenceExpiry e => validateInferenceExpiry c tx e (res e.jobId)
  | .inferenceRefund e => validateInferenceRefund c tx e (res e.jobId)
  | .membershipChange e => validateMembershipShape tx e

theorem validateKind_ok (h : validateKind c tx prev res set = .ok ()) :
    tx.kind = kindOf tx.evidence ∧ kindRule c tx prev res set = .ok () := by
  unfold validateKind at h
  unfold kindRule
  split at h
  all_goals first
    | (rename_i hk he; rw [he, hk]; exact ⟨rfl, h⟩)
    | cases h

/-- a transaction that moves CU passed the posting rules and its own; a membership change only its shape -/
theorem validateTransaction_ok (h : validateTransaction c tx prev bal res set = .ok ()) :
    tx.kind = kindOf tx.evidence ∧ kindRule c tx prev res set = .ok () ∧
      (flow tx ≠ none → validatePostings "insufficient balance for" tx bal set = .ok ()) := by
  unfold validateTransaction at h
  split at h
  · rename_i e he
    have hshape := h
    simp only [validateMembershipShape, bind_ok, bailIf_ok, exists_const, not_not] at h
    refine ⟨by rw [he]; exact h.1, ?_, ?_⟩
    · simp only [kindRule, he]
      exact hshape
    · simp [flow, he]
  · simp only [bind_ok, exists_ok_unit_and] at h
    obtain ⟨hk, hr⟩ := validateKind_ok h.2
    exact ⟨hk, hr, fun _ => h.1⟩

/-! ## Flow of an accepted transaction -/

/-- the two postings of a transfer, and whose accounts they are on -/
structure Posted (tx : LedgerTransaction) (f : Transfer) : Prop where
  moves : Moves tx f.src.name f.dst.name f.amount
  ne : f.src ≠ f.dst
  src_proper : f.src.Proper
  dst_proper : f.dst.Proper

/-- what every rule guarantees about its two postings -/
structure Flows (tx : LedgerTransaction) (f : Transfer) : Prop extends Posted tx f where
  pos : 1 ≤ f.amount
  fits : f.amount ≤ i64Max

theorem Posted.name_ne {tx : LedgerTransaction} {f : Transfer} (h : Posted tx f) : f.src.name ≠ f.dst.name :=
  fun heq => h.ne ((Account.name_inj h.src_proper h.dst_proper).1 heq)

/-- a posting of a transfer is on one of its two accounts -/
theorem Posted.posting_account {tx : LedgerTransaction} {f : Transfer} (h : Posted tx f) {p : Posting}
    (hp : p ∈ tx.postings) : p.accountId = f.src.name ∨ p.accountId = f.dst.name := by
  rcases moves_postings h.moves h.name_ne with hps | hps
  · rw [hps] at hp
    simp only [List.mem_cons, List.not_mem_nil, or_false] at hp
    rcases hp with rfl | rfl
    · exact Or.inl rfl
    · exact Or.inr rfl
  · rw [hps] at hp
    simp only [List.mem_cons, List.not_mem_nil, or_false] at hp
    rcases hp with rfl | rfl
    · exact Or.inr rfl
    · exact Or.inl rfl

theorem batchPrice_pos (billing : InferenceBilling) (s e : ℕ) : 1 ≤ batchPrice billing s e :=
  inferenceBatchCostMcu_pos _ _ _ _ _

theorem inferenceCostMcu_fits (promptBytes : List ℕ) (maxTokens parameterCount : ℕ) :
    inferenceCostMcu promptBytes maxTokens parameterCount ≤ i64Max := by
  have := mcuOfOps_le (satMul_le (satMul (inferenceTokens promptBytes maxTokens) parameterCount) 2)
  unfold inferenceCostMcu i64Max
  omega

theorem batchPrice_fits (billing : InferenceBilling) (s e : ℕ) : batchPrice billing s e ≤ i64Max :=
  inferenceCostMcu_fits _ _ _

theorem workCostMcu_fits (work : WorkSpec) : workCostMcu work ≤ i64Max := by
  have := workCostMcu_le work
  unfold i64Max
  omega

theorem jobCostMcu_fits {work : WorkSpec} {shards : ℕ} (h : shards ≤ 256) : jobCostMcu work shards ≤ i64Max := by
  have hl := splitWork_length_le work shards
  have hb := (sum_costs_bounds (splitWork work shards)).2
  have : ((splitWork work shards).length : ℤ) ≤ 256 := by omega
  rw [jobCost_eq_sum h]
  unfold i64Max
  omega

/-- a refund pays the node that signed for it, or goes back to issuance -/
theorem refundPayee_ok {e : JobRefundEvidence} {payee : String} (h : refundPayee c e = .ok payee) :
    payee = (refundAccount e.requesterAuth).name ∧ (refundAccount e.requesterAuth).Proper := by
  unfold refundPayee at h
  split at h
  · rename_i pk auth _ hauth
    simp only [bind_ok, bailIf_ok, pure_ok, exists_const, exists_ok_unit_and] at h
    obtain ⟨_, hsig, rfl⟩ := h
    rw [hauth]
    exact ⟨rfl, nodeId_of_verified c hsig⟩
  · rename_i _ hauth
    simp only [bind_ok, bailIf_ok, pure_ok, exists_const] at h
    obtain ⟨_, rfl⟩ := h
    rw [hauth]
    exact ⟨rfl, trivial⟩
  · cases h

theorem refundAccount_ne_escrow (auth : Option AuthProof) (j : String) : Account.escrow j ≠ refundAccount auth := by
  cases auth <;> simp [refundAccount]

theorem kindRule_flow (h : kindRule c tx prev res set = .ok ()) {f : Transfer} (hf : flow tx = some f) :
    Flows tx f := by
  unfold kindRule at h
  unfold flow at hf
  cases he : tx.evidence with
  | jobReserve e =>
    simp only [he, Option.some.injEq, validateReserve, bind_ok, bailIf_ok, exists_const, exists_ok_unit_and,
      not_not] at h hf
    obtain ⟨_, _, ⟨_, hsh⟩, hsig, hm⟩ := h
    subst hf
    exact ⟨⟨hm, by simp, nodeId_of_verified c hsig, trivial⟩, jobCost_pos hsh, jobCostMcu_fits hsh⟩
  | communityReserve e =>
    simp only [he, Option.some.injEq, validateCommunityReserve, issuable, bind_ok, bailIf_ok, exists_const,
      exists_ok_unit_and, not_not] at h hf
    obtain ⟨_, _, ⟨_, hsh⟩, hm, _⟩ := h
    subst hf
    exact ⟨⟨hm, by simp, trivial, trivial⟩, jobCost_pos hsh, jobCostMcu_fits hsh⟩
  | providerReward e =>
    simp only [he, Option.some.injEq, validateReward, verifyProviderAuth, bind_ok, bailIf_ok, exists_const,
      exists_ok_unit_and, not_not] at h hf
    obtain ⟨hsig, _, _, _, _, hm⟩ := h
    subst hf
    exact ⟨⟨hm, by simp, trivial, nodeId_of_verified c hsig⟩, workCostMcu_pos _, workCostMcu_fits _⟩
  | jobRefund e =>
    simp only [he, Option.some.injEq, validateRefund, bind_ok, bailIf_ok, exists_const, exists_ok_unit_and,
      not_not] at h hf
    obtain ⟨_, _, _, payee, hpay, hm⟩ := h
    obtain ⟨rfl, hproper⟩ := refundPayee_ok hpay
    subst hf
    exact ⟨⟨hm, refundAccount_ne_escrow _ _, trivial, hproper⟩, workCostMcu_pos _, workCostMcu_fits _⟩
  | inferenceReserve e =>
    simp only [he, Option.some.injEq, validateInferenceReserve, verifyBillAuth, bind_ok, bailIf_ok, exists_const,
      exists_ok_unit_and, not_not] at h hf
    obtain ⟨_, _, hsig, _, _, hm⟩ := h
    subst hf
    exact ⟨⟨hm, by simp, nodeId_of_verified c hsig, trivial⟩, inferenceCostMcu_pos _ _ _, inferenceCostMcu_fits _ _ _⟩
  | inferenceReceipt e =>
    simp only [he, Option.some.injEq, validateInferenceReceipt, verifyReceiptAuth, bind_ok, bailIf_ok, exists_const,
      exists_ok_unit_and, not_not, Prod.exists, orBail_ok, reservedBatch_ok] at h hf
    obtain ⟨_, r, _, _, b, price, ⟨_, rfl⟩, hp, hm⟩ := h
    subst hf
    rw [hp]
    exact ⟨⟨hm, by simp, trivial, trivial⟩, batchPrice_pos _ _ _, batchPrice_fits _ _ _⟩
  | inferenceReward e =>
    simp only [he, Option.some.injEq, validateInferenceReward, verifyReportAuth, bind_ok, bailIf_ok, exists_const,
      exists_ok_unit_and, not_not, Prod.exists, orBail_ok, reservedBatch_ok] at h hf
    obtain ⟨hsig, _, r, _, b, price, ⟨_, rfl⟩, _, hp, _, _, hm⟩ := h
    subst hf
    rw [hp] at hm ⊢
    exact ⟨⟨hm, by simp, trivial, nodeId_of_verified c hsig⟩, batchPrice_pos _ _ _, batchPrice_fits _ _ _⟩
  | inferenceDispute e =>
    simp only [he, Option.some.injEq, validateInferenceDispute, bind_ok, bailIf_ok, exists_const,
      exists_ok_unit_and, not_not, Prod.exists, orBail_ok, reservedBatch_ok] at h hf
    obtain ⟨r, _, _, b, price, ⟨_, rfl⟩, hp, _, _, hm⟩ := h
    subst hf
    rw [hp]
    exact ⟨⟨hm, by simp, trivial, trivial⟩, batchPrice_pos _ _ _, batchPrice_fits _ _ _⟩
  | inferenceExpiry e =>
    simp only [he, Option.some.injEq, validateInferenceExpiry, bind_ok, bailIf_ok, exists_const,
      exists_ok_unit_and, not_not, Prod.exists, orBail_ok, reservedBatch_ok] at h hf
    obtain ⟨_, r, _, _, b, price, ⟨_, rfl⟩, hp, hm⟩ := h
    subst hf
    rw [hp]
    exact ⟨⟨hm, by simp, trivial, trivial⟩, batchPrice_pos _ _ _, batchPrice_fits _ _ _⟩
  | inferenceRefund e =>
    simp only [he, Option.some.injEq, validateInferenceRefund, verifyRefundAuth, bind_ok, bailIf_ok, exists_const,
      exists_ok_unit_and, not_not, Prod.exists, orBail_ok, reservedBatch_ok] at h hf
    obtain ⟨hsig, _, r, _, b, price, ⟨_, rfl⟩, _, hp, hm⟩ := h
    subst hf
    rw [hp] at hm ⊢
    exact ⟨⟨hm, by simp, trivial, nodeId_of_verified c hsig⟩, batchPrice_pos _ _ _, batchPrice_fits _ _ _⟩
  | membershipChange e => simp [he] at hf

/-- the source of a transfer can pay for it -/
structure Covered (bal : String → ℤ) (limit : ℤ) (f : Transfer) : Prop where
  source : f.src ≠ .issuance → f.amount ≤ bal f.src.name
  ceiling : f.src = .issuance → -limit ≤ bal communityIssuanceAccount - f.amount

theorem covered_of_postings {msg : String} {f : Transfer} (h : validatePostings msg tx bal set = .ok ())
    (hf : Flows tx f) : Covered bal |set.communityIssuanceLimitMcu| f := by
  have hpos := hf.pos
  have hfits := hf.fits
  simp only [validatePostings, bind_ok, bailIf_ok, exists_const, each_ok] at h
  obtain ⟨_, _, _, heach, hceil⟩ := h
  refine ⟨fun hsrc => ?_, fun hsrc => ?_⟩
  · have hname : f.src.name ≠ communityIssuanceAccount := fun heq =>
      hsrc ((Account.name_inj (b := .issuance) hf.src_proper trivial).1 heq)
    have hp := heach _ hf.moves.2.1
    simp only [hname, neg_neg, ne_eq, not_false_eq_true, true_and, not_and, not_lt] at hp
    have hw : wrap64 f.amount = f.amount := wrap64_of_fits ⟨by unfold i64Min; omega, hfits⟩
    have := hp (by omega)
    rwa [hw] at this
  · have hne := hf.name_ne
    have hname : f.src.name = communityIssuanceAccount := by rw [hsrc]; rfl
    rw [hname] at hne
    have hneg : 0 < f.amount := by omega
    have hfind : tx.postings.find? (fun p => p.accountId = communityIssuanceAccount ∧ p.deltaMcu < 0) =
        some ⟨f.src.name, -f.amount⟩ := by
      rcases moves_postings hf.moves hf.name_ne with hp | hp
      · rw [hp]
        simp [hname, hneg]
      · rw [hp]
        simp [hname, hneg, hne.symm]
    rw [hfind] at hceil
    simp only [bind_ok, orBail_ok, bailIf_ok, checkedAdd64_some] at hceil
    obtain ⟨next, ⟨rfl, _⟩, hn⟩ := hceil
    omega

/-- the posting rules read nothing of the set but its limit -/
theorem validatePostings_congr {msg msg' : String} {set' : ValidatorSet}
    (hlim : set'.communityIssuanceLimitMcu = set.communityIssuanceLimitMcu)
    (h : validatePostings msg tx bal set = .ok ()) : validatePostings msg' tx bal set' = .ok () := by
  simp only [validatePostings, bind_ok, bailIf_ok, exists_const, each_ok, hlim] at h ⊢
  exact h

/-- the posting rules ask nothing more of a transfer than that its source can pay -/
theorem postings_of_covered {msg : String} {f : Transfer} (hf : Flows tx f) (hsrc : f.src ≠ .issuance)
    (hcov : f.amount ≤ bal f.src.name) : validatePostings msg tx bal set = .ok () := by
  have hpos := hf.pos
  have hfits := hf.fits
  have hw : wrap64 f.amount = f.amount := wrap64_of_fits ⟨by unfold i64Min; omega, hfits⟩
  have hname : f.src.name ≠ communityIssuanceAccount := fun heq =>
    hsrc ((Account.name_inj (b := .issuance) hf.src_proper trivial).1 heq)
  have hmem : ∀ p ∈ tx.postings, p = ⟨f.src.name, -f.amount⟩ ∨ p = ⟨f.dst.name, f.amount⟩ := by
    rcases moves_postings hf.moves hf.name_ne with hp | hp <;> rw [hp] <;> simp [or_comm]
  have hsum : (tx.postings.map Posting.deltaMcu).sum = 0 := by
    rcases moves_postings hf.moves hf.name_ne with hp | hp <;> rw [hp] <;> simp
  have hnone : tx.postings.find? (fun p => p.accountId = communityIssuanceAccount ∧ p.deltaMcu < 0) = none := by
    rw [List.find?_eq_none]
    intro p hp
    rcases hmem p hp with rfl | rfl
    · simp [hname]
    · simp only [decide_eq_true_eq, not_and, not_lt]
      intro _
      omega
  simp only [validatePostings, bind_ok, bailIf_ok, exists_const, each_ok, hnone, pure_ok]
  refine ⟨by have := hf.moves.1; omega, by simpa using hsum, ?_, ?_, trivial⟩
  · rintro ⟨p, hp, hzero⟩
    rcases hmem p hp with rfl | rfl
    · simp only at hzero
      omega
    · simp only at hzero
      omega
  · rintro p hp ⟨hneg, _, hlow⟩
    rcases hmem p hp with rfl | rfl
    · simp only [neg_neg, hw] at hlow
      omega
    · simp only at hneg
      omega

/-- **Flow of an accepted transaction.** It moves nothing at all, or a positive amount its source can pay. -/
theorem flow_of_valid (h : validateTransaction c tx prev bal res set = .ok ()) :
    (flow tx = none ∧ tx.postings = []) ∨
      ∃ f, flow tx = some f ∧ Flows tx f ∧ Covered bal |set.communityIssuanceLimitMcu| f := by
  obtain ⟨_, hrule, hpost⟩ := validateTransaction_ok h
  cases hf : flow tx with
  | some f =>
    have hflows := kindRule_flow hrule hf
    exact Or.inr ⟨f, rfl, hflows, covered_of_postings (hpost (by simp [hf])) hflows⟩
  | none =>
    left
    refine ⟨rfl, ?_⟩
    cases he : tx.evidence with
    | membershipChange e =>
      simp only [kindRule, he, validateMembershipShape, bind_ok, bailIf_ok, exists_const, not_not] at hrule
      exact hrule.2.1
    | _ => simp [flow, he] at hf

end

end Hocmesh.Books
