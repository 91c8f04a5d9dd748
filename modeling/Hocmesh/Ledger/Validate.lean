/-
What a validator checks before it signs (`hocmesh-ledger/src/validate.rs`): `validate_batch`, `validate_transaction`
and the rule of each of the ten kinds of transaction that move CU.

Every kind that moves CU moves it between exactly two accounts, so `Moves` is the one shape all rules end in. The
balance and reservation lookups are arguments, as in the source. `validatePostings` is the block the live and the
historical rule share; they differ in one text.
-/
import Hocmesh.Ledger.Membership

namespace Hocmesh.Ledger

open Hocmesh.Base Hocmesh.Protocol Hocmesh.Compute

/-- two postings: `amount` leaves `src` and arrives at `dst` -/
def Moves (tx : LedgerTransaction) (src dst : String) (amount : ℤ) : Prop :=
  tx.postings.length = 2 ∧ ⟨src, -amount⟩ ∈ tx.postings ∧ ⟨dst, amount⟩ ∈ tx.postings

instance (tx : LedgerTransaction) (src dst : String) (amount : ℤ) : Decidable (Moves tx src dst amount) := by
  unfold Moves; infer_instance

/-! ## The batch a claim names -/

/-- what the ledger will remember about a job, read straight off the reserve -/
def reservationOf (tx : LedgerTransaction) (e : InferenceReserveEvidence) : InferenceReservation :=
  { jobId := e.jobId, billing := e.billing, batches := e.batches, requester := e.requesterAuth.nodeId,
    reservedAt := tx.createdAt }

/-- batches cover every prompt exactly once, in order, with no gaps: the loop and its cursor -/
def tileLoop : (cursor : ℕ) → List PricedBatch → Check ℕ
  | cursor, [] => .ok cursor
  | cursor, b :: rest => do
    bailIf (b.batchStart ≠ cursor ∨ b.batchEnd ≤ b.batchStart) "inference batches do not tile the prompt list in order"
    tileLoop b.batchEnd rest

def batchesPartitionPrompts (batches : List PricedBatch) (prompts : ℕ) : Check Unit := do
  bailIf (batches = []) "an inference job with no batches escrows CU nobody can claim"
  let cursor ← tileLoop 0 batches
  bailIf (cursor ≠ prompts) s!"inference batches cover {cursor} prompts but the job has {prompts}"

section

variable (c : Crypto)

/-- the index an assignment id stands for, searched below `len as u32` -/
def batchIndex (r : InferenceReservation) (assignmentId : String) : Option ℕ :=
  (List.range (r.batches.length % 4294967296)).find? fun i => inferenceAssignmentId c r.jobId i = assignmentId

/-- the price the requester agreed to for a run of prompts -/
def batchPrice (billing : InferenceBilling) (batchStart batchEnd : ℕ) : ℤ :=
  inferenceBatchCostMcu billing.promptBytes batchStart batchEnd billing.maxTokens billing.parameterCount

/-- the batch a claim names, and what the requester agreed it would cost -/
def reservedBatch (r : InferenceReservation) (assignmentId : String) (batchStart batchEnd : ℕ) :
    Check (PricedBatch × ℤ) := do
  let index ← orBail (batchIndex c r assignmentId) "inference claim names an assignment this job never had"
  let b ← orBail r.batches[index]? "index out of bounds"
  bailIf (b.batchStart ≠ batchStart ∨ b.batchEnd ≠ batchEnd) "inference claim changes the bounds of the batch it names"
  pure (b, batchPrice r.billing batchStart batchEnd)

/-! ## CPU jobs -/

def validateReserve (tx : LedgerTransaction) (e : JobReserveEvidence) : Check Unit := do
  e.work.validate
  bailIf (e.jobId ≠ jobIdFromAuth c e.requesterAuth) "job id is not bound to requester nonce"
  bailIf (¬ (1 ≤ e.shards ∧ e.shards ≤ 256)) "invalid shard count"
  verifyAuthSignature c e.requesterPublicKeyB64 e.requesterAuth "submit" (submitBodyHash c e.work e.shards)
  bailIf (¬ Moves tx e.requesterAuth.nodeId (escrowAccount e.jobId) (jobCostMcu e.work e.shards))
    "job reserve postings do not match authorized workload cost"

/-- CU may only be issued for work the ledger can check on its own -/
def issuable (work : WorkSpec) : Check Unit :=
  bailIf (work.auditClass ≠ .selfContained) "community-funded work must be auditable from the ledger entry"

def communityReserveSigningMessage (jobId : String) (work : WorkSpec) (shards : ℕ) (costMcu : ℤ) : String :=
  "hocmesh-community-v1|" ++ hashJson c (.communityReserve jobId work shards costMcu)

/-- how many sitting members put their names on a community mint -/
def goodSponsors (e : CommunityReserveEvidence) (set : ValidatorSet) : ℕ :=
  goodSigners c set (communityReserveSigningMessage c e.jobId e.work e.shards (jobCostMcu e.work e.shards)) []
    e.sponsors

def validateCommunityReserve (tx : LedgerTransaction) (e : CommunityReserveEvidence) (set : ValidatorSet) :
    Check Unit := do
  e.work.validate
  issuable e.work
  bailIf (¬ (1 ≤ e.shards ∧ e.shards ≤ 256)) "invalid community shard count"
  bailIf (¬ Moves tx communityIssuanceAccount (escrowAccount e.jobId) (jobCostMcu e.work e.shards))
    "community reserve postings do not match workload cost"
  let good := goodSponsors c e set
  bailIf (good < set.threshold)
    s!"community reserve carries {good} valid sponsorships from the sitting set; {set.threshold} are required"

/-- the provider's signature over exactly this shard and this result -/
def verifyProviderAuth (e : ProviderRewardEvidence) : Check Unit :=
  verifyAuthSignature c e.providerPublicKeyB64 e.providerAuth "result"
    (resultBodyHash c e.assignmentId e.jobId e.shardIndex e.work e.rewardMcu e.systemFunded e.result)

def validateReward (tx : LedgerTransaction) (e : ProviderRewardEvidence) (previousHash : String) : Check Unit := do
  verifyProviderAuth c e
  (if e.systemFunded then issuable e.work else pure ())
  bailIf (witnessed c e.work e.result previousHash tx.transactionId = false) "provider result does not verify"
  bailIf (e.rewardMcu ≠ workCostMcu e.work) "declared reward does not equal deterministic work cost"
  bailIf (e.assignmentId ≠ assignmentId c e.jobId e.shardIndex) "assignment id is not deterministic for job/shard"
  bailIf (¬ Moves tx (escrowAccount e.jobId) e.providerAuth.nodeId (workCostMcu e.work))
    "reward postings do not match verified work"

/-- who a refund pays, and the proof they are entitled to ask -/
def refundPayee (e : JobRefundEvidence) : Check String :=
  match e.requesterPublicKeyB64, e.requesterAuth with
  | some pk, some auth => do
    bailIf (e.systemFunded = true) "a community-funded shard has no requester to refund"
    verifyAuthSignature c pk auth "refund"
      (refundBodyHash c e.assignmentId e.jobId e.shardIndex e.work e.refundMcu e.systemFunded)
    pure auth.nodeId
  | none, none => do
    bailIf (e.systemFunded = false) "a requester-funded refund needs the requester's authorisation"
    pure communityIssuanceAccount
  | _, _ => .error "refund carries half a requester authorisation"

def validateRefund (tx : LedgerTransaction) (e : JobRefundEvidence) : Check Unit := do
  e.work.validate
  bailIf (e.assignmentId ≠ assignmentId c e.jobId e.shardIndex) "assignment id is not deterministic for job/shard"
  bailIf (e.refundMcu ≠ workCostMcu e.work) "declared refund does not equal deterministic work cost"
  let payee ← refundPayee c e
  bailIf (¬ Moves tx (escrowAccount e.jobId) payee (workCostMcu e.work))
    "job refund postings do not return the shard's escrow to its funder"

/-! ## Inference jobs -/

/-- the price of a whole inference job -/
def jobPrice (billing : InferenceBilling) : ℤ :=
  inferenceCostMcu billing.promptBytes billing.maxTokens billing.parameterCount

/-- the requester's signature over exactly this bill -/
def verifyBillAuth (e : InferenceReserveEvidence) : Check Unit :=
  verifyAuthSignature c e.requesterPublicKeyB64 e.requesterAuth "submit_inference"
    (inferenceSubmitBodyHash c (inferenceBillingHash c e.billing) e.settingsDigest)

def validateInferenceReserve (tx : LedgerTransaction) (e : InferenceReserveEvidence) : Check Unit := do
  bailIf (e.jobId ≠ inferenceJobIdFromAuth c e.requesterAuth) "inference job id is not bound to requester nonce"
  bailIf (¬ parameterCountIsPlausible e.billing.parameterCount e.billing.totalSizeBytes)
    "declared parameter count does not fit the model's own bytes"
  verifyBillAuth c e
  batchesPartitionPrompts e.batches e.billing.promptBytes.length
  bailIf (jobPrice e.billing > e.billing.maxCostMcu) "inference costs more than the requester authorised"
  bailIf (¬ Moves tx e.requesterAuth.nodeId (escrowAccount e.jobId) (jobPrice e.billing))
    "inference reserve postings do not match the authorised bill"

/-- the requester's signature on what it was handed; accepting and disputing are one statement with opposite signs -/
def requesterVerdict (accepted : Bool) (publicKeyB64 : String) (auth : AuthProof) (requester assignmentId jobId : String)
    (batchStart batchEnd : ℕ) (priceMcu : ℤ) (outputsDigest : String) : Check Unit := do
  bailIf (auth.nodeId ≠ requester) s!"only {requester} can settle its own inference batch"
  let verb := if accepted then "accept" else "dispute"
  mapErr (fun err => s!"the requester did not {verb} this answer for this batch: {err}")
    (verifyAuthSignature c publicKeyB64 auth (if accepted then "accept_inference" else "dispute_inference")
      (inferenceVerdictBodyHash c accepted assignmentId jobId batchStart batchEnd priceMcu outputsDigest))

def verifyReportAuth (e : InferenceRewardEvidence) : Check Unit :=
  verifyAuthSignature c e.providerPublicKeyB64 e.providerAuth "report_inference"
    (inferenceRewardBodyHash c e.assignmentId e.jobId e.batchStart e.batchEnd e.rewardMcu e.outputsDigest)

def validateInferenceReward (tx : LedgerTransaction) (e : InferenceRewardEvidence)
    (reserved : Option InferenceReservation) : Check Unit := do
  verifyReportAuth c e
  bailIf (e.rewardMcu ≤ 0) "an inference reward must move CU"
  let r ← orBail reserved "an inference reward has no reservation to be paid out of"
  let (batch, price) ← reservedBatch c r e.assignmentId e.batchStart e.batchEnd
  bailIf (batch.nodeId ≠ e.providerAuth.nodeId)
    s!"batch {e.batchStart}..{e.batchEnd} was assigned to {batch.nodeId}, not to the claimant"
  bailIf (e.rewardMcu ≠ price) "inference reward does not equal the price the requester signed for the batch"
  bailIf (r.requester = e.providerAuth.nodeId) "a requester cannot pay itself for its own inference batch"
  requesterVerdict c true e.requesterPublicKeyB64 e.requesterAcceptance r.requester e.assignmentId e.jobId
    e.batchStart e.batchEnd e.rewardMcu e.outputsDigest
  bailIf (¬ Moves tx (inferenceHoldingAccount e.assignmentId) e.providerAuth.nodeId e.rewardMcu)
    "inference reward postings do not match the claimed batch"

def verifyReceiptAuth (e : InferenceReceiptEvidence) : Check Unit :=
  verifyAuthSignature c e.requesterPublicKeyB64 e.requesterAuth "receipt_inference"
    (inferenceReceiptBodyHash c e.assignmentId e.jobId e.batchStart e.batchEnd e.priceMcu e.outputsDigest)

def validateInferenceReceipt (tx : LedgerTransaction) (e : InferenceReceiptEvidence)
    (reserved : Option InferenceReservation) : Check Unit := do
  verifyReceiptAuth c e
  let r ← orBail reserved "an inference receipt has no reservation to move"
  bailIf (r.requester ≠ e.requesterAuth.nodeId) "only the requester that funded a batch can receipt it"
  let (_, price) ← reservedBatch c r e.assignmentId e.batchStart e.batchEnd
  bailIf (e.priceMcu ≠ price) "inference receipt does not carry the price the requester signed for the batch"
  bailIf (¬ Moves tx (escrowAccount e.jobId) (inferenceHoldingAccount e.assignmentId) price)
    "inference receipt postings do not move the batch out of escrow"

/-- `char::is_whitespace`: the Unicode `White_Space` property -/
def isWhitespace (ch : Char) : Bool :=
  let n := ch.toNat
  (9 ≤ n && n ≤ 13) || n = 32 || n = 0x85 || n = 0xA0 || n = 0x1680 || (0x2000 ≤ n && n ≤ 0x200A) || n = 0x2028 ||
    n = 0x2029 || n = 0x202F || n = 0x205F || n = 0x3000

/-- `reason.trim().is_empty() || reason.chars().count() > 512` -/
def unusableReason (reason : String) : Prop := reason.toList.all isWhitespace = true ∨ reason.length > 512

instance (reason : String) : Decidable (unusableReason reason) := by unfold unusableReason; infer_instance

def validateInferenceDispute (tx : LedgerTransaction) (e : InferenceDisputeEvidence)
    (reserved : Option InferenceReservation) : Check Unit := do
  let r ← orBail reserved "an inference dispute has no reservation to settle"
  bailIf (r.requester ≠ e.requesterAuth.nodeId) "only the requester that funded a batch can dispute it"
  let (_, price) ← reservedBatch c r e.assignmentId e.batchStart e.batchEnd
  bailIf (e.priceMcu ≠ price) "inference dispute does not carry the price the requester signed for the batch"
  requesterVerdict c false e.requesterPublicKeyB64 e.requesterAuth r.requester e.assignmentId e.jobId
    e.batchStart e.batchEnd e.priceMcu e.outputsDigest
  bailIf (unusableReason e.reason) "an inference dispute has to say what was wrong, in 512 characters or fewer"
  bailIf (¬ Moves tx (inferenceHoldingAccount e.assignmentId) communityIssuanceAccount price)
    "inference dispute postings do not return the batch to the commons"

/-- what the receipt behind an expiry has to say for itself; shared by the live and the historical path -/
def expiredReceipt (tx : LedgerTransaction) (e : InferenceExpiryEvidence) : Check Unit := do
  bailIf (e.batchEnd ≤ e.batchStart) "an inference expiry covers an empty batch"
  bailIf (e.priceMcu ≤ 0) "an inference expiry names a non-positive price"
  mapErr (fun err => s!"an inference expiry carries no receipt for its batch: {err}")
    (verifyAuthSignature c e.requesterPublicKeyB64 e.requesterReceipt "receipt_inference"
      (inferenceReceiptBodyHash c e.assignmentId e.jobId e.batchStart e.batchEnd e.priceMcu e.outputsDigest))
  let deadline ← orBail (checkedAdd64 e.requesterReceipt.timestamp settlementWindowSecs)
    "inference expiry deadline overflows"
  let left := wrap64 (deadline - tx.createdAt)
  bailIf (tx.createdAt < deadline) s!"this batch still has {left}s left for its requester to judge it"

def validateInferenceExpiry (tx : LedgerTransaction) (e : InferenceExpiryEvidence)
    (reserved : Option InferenceReservation) : Check Unit := do
  expiredReceipt c tx e
  let r ← orBail reserved "an inference expiry has no reservation to close"
  bailIf (r.requester ≠ e.requesterReceipt.nodeId)
    "an inference expiry names a receipt from someone who did not fund the batch"
  let (_, price) ← reservedBatch c r e.assignmentId e.batchStart e.batchEnd
  bailIf (e.priceMcu ≠ price) "inference expiry does not carry the price the requester signed for the batch"
  bailIf (¬ Moves tx (inferenceHoldingAccount e.assignmentId) communityIssuanceAccount price)
    "inference expiry postings do not return the batch to the commons"

def verifyRefundAuth (e : InferenceRefundEvidence) : Check Unit :=
  verifyAuthSignature c e.requesterPublicKeyB64 e.requesterAuth "refund_inference"
    (inferenceRefundBodyHash c e.assignmentId e.jobId e.batchStart e.batchEnd e.refundMcu)

def validateInferenceRefund (tx : LedgerTransaction) (e : InferenceRefundEvidence)
    (reserved : Option InferenceReservation) : Check Unit := do
  verifyRefundAuth c e
  bailIf (e.refundMcu ≤ 0) "an inference refund must move CU"
  let r ← orBail reserved "an inference refund has no reservation to be taken back"
  let (_, price) ← reservedBatch c r e.assignmentId e.batchStart e.batchEnd
  bailIf (r.requester ≠ e.requesterAuth.nodeId) "only the node that reserved this job may take its escrow back"
  bailIf (e.refundMcu ≠ price) "inference refund does not equal the price the requester signed for the batch"
  bailIf (¬ Moves tx (escrowAccount e.jobId) e.requesterAuth.nodeId e.refundMcu)
    "inference refund postings do not match the reclaimed batch"

/-! ## One transaction -/

/-- conservation, no zero posting, no overdraft, and the issuance ceiling -/
def validatePostings (insufficient : String) (tx : LedgerTransaction) (balance : String → ℤ) (set : ValidatorSet) :
    Check Unit := do
  bailIf (tx.postings.length < 2) "transaction needs at least two postings"
  let sum := (tx.postings.map Posting.deltaMcu).sum
  bailIf (sum ≠ 0) s!"CU conservation violated: posting sum is {sum}"
  bailIf (∃ p ∈ tx.postings, p.deltaMcu = 0) "zero-value postings are not allowed"
  each (fun p => bailIf (p.deltaMcu < 0 ∧ p.accountId ≠ communityIssuanceAccount ∧
    balance p.accountId < wrap64 (-p.deltaMcu)) s!"{insufficient} {p.accountId}") tx.postings
  match tx.postings.find? fun p => p.accountId = communityIssuanceAccount ∧ p.deltaMcu < 0 with
  | none => pure ()
  | some p => do
    let next ← orBail (checkedAdd64 (balance communityIssuanceAccount) p.deltaMcu) "community issuance overflow"
    bailIf (next < -|set.communityIssuanceLimitMcu|) "community issuance limit exceeded"

/-- the rule of the transaction's own kind -/
def validateKind (tx : LedgerTransaction) (previousHash : String) (reserved : String → Option InferenceReservation)
    (set : ValidatorSet) : Check Unit :=
  match tx.kind, tx.evidence with
  | .jobReserve, .jobReserve e => validateReserve c tx e
  | .communityReserve, .communityReserve e => validateCommunityReserve c tx e set
  | .providerReward, .providerReward e => validateReward c tx e previousHash
  | .jobRefund, .jobRefund e => validateRefund c tx e
  | .inferenceReserve, .inferenceReserve e => validateInferenceReserve c tx e
  | .inferenceReward, .inferenceReward e => validateInferenceReward c tx e (reserved e.jobId)
  | .inferenceReceipt, .inferenceReceipt e => validateInferenceReceipt c tx e (reserved e.jobId)
  | .inferenceDispute, .inferenceDispute e => validateInferenceDispute c tx e (reserved e.jobId)
  | .inferenceExpiry, .inferenceExpiry e => validateInferenceExpiry c tx e (reserved e.jobId)
  | .inferenceRefund, .inferenceRefund e => validateInferenceRefund c tx e (reserved e.jobId)
  | _, _ => .error "transaction kind/evidence mismatch"

def validateTransaction (tx : LedgerTransaction) (previousHash : String) (balance : String → ℤ)
    (reserved : String → Option InferenceReservation) (set : ValidatorSet) : Check Unit :=
  match tx.evidence with
  | .membershipChange e => validateMembershipShape tx e
  | _ => do
    validatePostings "insufficient balance for" tx balance set
    validateKind c tx previousHash reserved set

/-! ## One entry -/

/-- what earlier transactions of the same entry did: their postings and the jobs they reserved -/
structure Overlay where
  delta : String → ℤ
  reservedHere : String → Option InferenceReservation

def Overlay.empty : Overlay := ⟨fun _ => 0, fun _ => none⟩

/-- `*overlay.entry(account).or_default() += delta` -/
def Overlay.post (o : Overlay) (p : Posting) : Overlay :=
  { o with delta := Function.update o.delta p.accountId (wrap64 (o.delta p.accountId + p.deltaMcu)) }

/-- `reserved_here.insert`, for a transaction that reserves an inference job -/
def Overlay.reserve (o : Overlay) (tx : LedgerTransaction) : Overlay :=
  match tx.evidence with
  | .inferenceReserve e => { o with reservedHere := Function.update o.reservedHere e.jobId (some (reservationOf tx e)) }
  | _ => o

/-- the batch's view after one transaction -/
def Overlay.after (o : Overlay) (tx : LedgerTransaction) : Overlay := tx.postings.foldl Overlay.post (o.reserve tx)

/-- the balance a transaction of the batch is judged against -/
def Overlay.balance (o : Overlay) (balance : String → ℤ) (a : String) : ℤ := wrap64 (balance a + o.delta a)

/-- the reservation a transaction of the batch is judged against -/
def Overlay.reserved (o : Overlay) (reserved : String → Option InferenceReservation) (j : String) :
    Option InferenceReservation :=
  match o.reservedHere j with
  | some r => some r
  | none => reserved j

/-- one transaction of the batch, judged against the balances its predecessors left behind -/
def batchStep (previousHash : String) (balance : String → ℤ) (reserved : String → Option InferenceReservation)
    (set : ValidatorSet) (o : Overlay) (tx : LedgerTransaction) : Check Overlay := do
  validateTransaction c tx previousHash (o.balance balance) (o.reserved reserved) set
  pure (o.after tx)

def validateBatch (transactions : List LedgerTransaction) (previousHash : String) (balance : String → ℤ)
    (reserved : String → Option InferenceReservation) (set : ValidatorSet) : Check Unit := do
  let _ ← transactions.foldlM (batchStep c previousHash balance reserved set) Overlay.empty
  pure ()

end

end Hocmesh.Ledger
