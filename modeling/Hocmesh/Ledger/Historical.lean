/-
What an auditor can still check years later (`hocmesh-ledger/src/validate.rs`): `verify_historical_evidence` and
`validate_historical_transaction`.

These repeat the live rules with what one entry carries on its own: signatures without a clock, amounts where they can
be recomputed, and the quorum's signatures as the audit challenge. What needs the reservation (which batch an
assignment id names, what it was worth, whose it was) is the replay's own business.
-/
import Hocmesh.Ledger.Validate

namespace Hocmesh.Ledger

open Hocmesh.Base Hocmesh.Protocol Hocmesh.Compute

section

variable (c : Crypto)

/-- audit-time evidence validation without rejecting old timestamps -/
def verifyHistoricalEvidence (tx : LedgerTransaction) (previousHash : String) (signatures : List ValidatorSignature) :
    Check Unit :=
  match tx.evidence with
  | .jobReserve e =>
    verifyAuthSignature c e.requesterPublicKeyB64 e.requesterAuth "submit" (submitBodyHash c e.work e.shards)
  | .communityReserve e => do
    e.work.validate
    issuable e.work
    bailIf (¬ (1 ≤ e.shards ∧ e.shards ≤ 256)) "invalid historical community reservation"
  | .providerReward e => do
    verifyProviderAuth c e
    (if e.systemFunded then issuable e.work else pure ())
    bailIf (certifiedWitness c e.work e.result previousHash tx.transactionId signatures = false)
      "historical work result invalid"
  | .jobRefund e => do
    e.work.validate
    let _ ← refundPayee c e
    pure ()
  | .inferenceReserve e => do
    verifyBillAuth c e
    batchesPartitionPrompts e.batches e.billing.promptBytes.length
  | .inferenceReward e => do
    verifyReportAuth c e
    requesterVerdict c true e.requesterPublicKeyB64 e.requesterAcceptance e.requesterAcceptance.nodeId e.assignmentId
      e.jobId e.batchStart e.batchEnd e.rewardMcu e.outputsDigest
  | .inferenceReceipt e => verifyReceiptAuth c e
  | .inferenceDispute e =>
    requesterVerdict c false e.requesterPublicKeyB64 e.requesterAuth e.requesterAuth.nodeId e.assignmentId e.jobId
      e.batchStart e.batchEnd e.priceMcu e.outputsDigest
  | .inferenceExpiry e => expiredReceipt c tx e
  | .inferenceRefund e => verifyRefundAuth c e
  | .membershipChange e => do
    bailIf (e.member.validatorId = "" ∨ e.member.publicKeyB64 = "") "membership change names no validator"
    bailIf (e.vouches = []) "membership change carries no vouches"

/-! ## The historical rule of each kind -/

def historicalReserve (tx : LedgerTransaction) (e : JobReserveEvidence) : Check Unit := do
  bailIf (e.jobId ≠ jobIdFromAuth c e.requesterAuth) "historical job id not bound to requester nonce"
  bailIf (¬ Moves tx e.requesterAuth.nodeId (escrowAccount e.jobId) (jobCostMcu e.work e.shards))
    "historical reserve postings invalid"

def historicalReward (tx : LedgerTransaction) (e : ProviderRewardEvidence) : Check Unit := do
  bailIf (e.rewardMcu ≠ workCostMcu e.work ∨ e.assignmentId ≠ assignmentId c e.jobId e.shardIndex)
    "historical reward metadata invalid"
  bailIf (¬ Moves tx (escrowAccount e.jobId) e.providerAuth.nodeId (workCostMcu e.work))
    "historical reward postings invalid"

def historicalRefund (tx : LedgerTransaction) (e : JobRefundEvidence) : Check Unit := do
  bailIf (e.refundMcu ≠ workCostMcu e.work ∨ e.assignmentId ≠ assignmentId c e.jobId e.shardIndex)
    "historical refund metadata invalid"
  let payee ← refundPayee c e
  bailIf (¬ Moves tx (escrowAccount e.jobId) payee (workCostMcu e.work)) "historical refund postings invalid"

def historicalInferenceReserve (tx : LedgerTransaction) (e : InferenceReserveEvidence) : Check Unit := do
  bailIf (e.jobId ≠ inferenceJobIdFromAuth c e.requesterAuth)
    "historical inference job id is not bound to its requester"
  bailIf (¬ parameterCountIsPlausible e.billing.parameterCount e.billing.totalSizeBytes)
    "historical inference billing declares an impossible model"
  bailIf (jobPrice e.billing > e.billing.maxCostMcu) "historical inference reservation exceeded its own ceiling"
  batchesPartitionPrompts e.batches e.billing.promptBytes.length
  bailIf (¬ Moves tx e.requesterAuth.nodeId (escrowAccount e.jobId) (jobPrice e.billing))
    "historical inference reserve postings invalid"

def historicalInferenceReward (tx : LedgerTransaction) (e : InferenceRewardEvidence) : Check Unit := do
  bailIf (e.jobId = e.providerAuth.nodeId) "historical inference reward pays a job id, not a node"
  bailIf (e.batchEnd ≤ e.batchStart) "historical inference reward claims an empty batch"
  bailIf (e.rewardMcu ≤ 0) "historical inference reward claims a non-positive amount"
  verifyReportAuth c e
  verifyAuthSignature c e.requesterPublicKeyB64 e.requesterAcceptance "accept_inference"
    (inferenceVerdictBodyHash c true e.assignmentId e.jobId e.batchStart e.batchEnd e.rewardMcu e.outputsDigest)
  bailIf (¬ Moves tx (inferenceHoldingAccount e.assignmentId) e.providerAuth.nodeId e.rewardMcu)
    "historical inference reward postings invalid"

def historicalInferenceRefund (tx : LedgerTransaction) (e : InferenceRefundEvidence) : Check Unit := do
  bailIf (e.batchEnd ≤ e.batchStart ∨ e.refundMcu ≤ 0)
    "historical inference refund claims an empty or empty-valued batch"
  verifyRefundAuth c e
  bailIf (¬ Moves tx (escrowAccount e.jobId) e.requesterAuth.nodeId e.refundMcu)
    "historical inference refund postings invalid"

def historicalInferenceReceipt (tx : LedgerTransaction) (e : InferenceReceiptEvidence) : Check Unit := do
  bailIf (e.batchEnd ≤ e.batchStart) "historical inference receipt covers an empty batch"
  bailIf (e.priceMcu ≤ 0) "historical inference receipt names a non-positive price"
  verifyReceiptAuth c e
  bailIf (¬ Moves tx (escrowAccount e.jobId) (inferenceHoldingAccount e.assignmentId) e.priceMcu)
    "historical inference receipt postings invalid"

def historicalInferenceDispute (tx : LedgerTransaction) (e : InferenceDisputeEvidence) : Check Unit := do
  bailIf (e.batchEnd ≤ e.batchStart) "historical inference dispute covers an empty batch"
  bailIf (e.priceMcu ≤ 0) "historical inference dispute names a non-positive price"
  bailIf (unusableReason e.reason) "historical inference dispute carries no usable reason"
  verifyAuthSignature c e.requesterPublicKeyB64 e.requesterAuth "dispute_inference"
    (inferenceVerdictBodyHash c false e.assignmentId e.jobId e.batchStart e.batchEnd e.priceMcu e.outputsDigest)
  bailIf (¬ Moves tx (inferenceHoldingAccount e.assignmentId) communityIssuanceAccount e.priceMcu)
    "historical inference dispute postings invalid"

def historicalInferenceExpiry (tx : LedgerTransaction) (e : InferenceExpiryEvidence) : Check Unit := do
  expiredReceipt c tx e
  bailIf (¬ Moves tx (inferenceHoldingAccount e.assignmentId) communityIssuanceAccount e.priceMcu)
    "historical inference expiry postings invalid"

def historicalKind (tx : LedgerTransaction) (set : ValidatorSet) : Check Unit :=
  match tx.kind, tx.evidence with
  | .jobReserve, .jobReserve e => historicalReserve c tx e
  | .communityReserve, .communityReserve e => validateCommunityReserve c tx e set
  | .providerReward, .providerReward e => historicalReward c tx e
  | .jobRefund, .jobRefund e => historicalRefund c tx e
  | .inferenceReserve, .inferenceReserve e => historicalInferenceReserve c tx e
  | .inferenceReward, .inferenceReward e => historicalInferenceReward c tx e
  | .inferenceRefund, .inferenceRefund e => historicalInferenceRefund c tx e
  | .inferenceReceipt, .inferenceReceipt e => historicalInferenceReceipt c tx e
  | .inferenceDispute, .inferenceDispute e => historicalInferenceDispute c tx e
  | .inferenceExpiry, .inferenceExpiry e => historicalInferenceExpiry c tx e
  | _, _ => .error "historical transaction kind/evidence mismatch"

def validateHistoricalTransaction (tx : LedgerTransaction) (previousHash : String)
    (signatures : List ValidatorSignature) (balance : String → ℤ) (set : ValidatorSet) : Check Unit := do
  verifyHistoricalEvidence c tx previousHash signatures
  match tx.evidence with
  | .membershipChange e => validateMembershipShape tx e
  | _ => do
    validatePostings "insufficient historical balance for" tx balance set
    historicalKind c tx set

end

end Hocmesh.Ledger
