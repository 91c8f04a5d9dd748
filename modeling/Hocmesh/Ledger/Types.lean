/-
The ledger's own types (`hocmesh-ledger/src/types.rs`): postings, the eleven kinds of transaction with the evidence
each one carries, entries, quorum certificates, validator sets and ballots.

`Payload` lists every value the code hashes as JSON. A payload is what `serde_json` is handed, so the tag strings that
domain-separate the bodies are part of it; which bytes come out is the serializer's business and is a field of
`Crypto`.
-/
import Hocmesh.Protocol.Types

namespace Hocmesh.Ledger

open Hocmesh.Base Hocmesh.Protocol

def communityIssuanceAccount : String := "hocmesh:community:issuance"

def escrowAccount (jobId : String) : String := "hocmesh:escrow:" ++ jobId

/-- where one delivered batch waits while the requester makes up its mind -/
def inferenceHoldingAccount (assignmentId : String) : String := "hocmesh:holding:" ++ assignmentId

structure Posting where
  accountId : String
  deltaMcu : ℤ
deriving DecidableEq

inductive TransactionKind where
  | jobReserve
  | communityReserve
  | providerReward
  | jobRefund
  | inferenceReserve
  | inferenceReceipt
  | inferenceReward
  | inferenceDispute
  | inferenceExpiry
  | inferenceRefund
  | membershipChange
deriving DecidableEq

structure ValidatorSignature where
  validatorId : String
  signatureB64 : String
deriving DecidableEq

structure ValidatorMember where
  validatorId : String
  url : String
  publicKeyB64 : String
deriving DecidableEq

/-- the limit is an `i64`; the field says so because every overflow argument ends there -/
structure ValidatorSet where
  threshold : ℕ
  communityIssuanceLimitMcu : ℤ
  members : List ValidatorMember
  limit_fits : FitsI64 communityIssuanceLimitMcu
deriving DecidableEq

inductive MembershipAction where
  | join
  | leave
deriving DecidableEq

structure JobReserveEvidence where
  jobId : String
  requesterPublicKeyB64 : String
  requesterAuth : AuthProof
  work : WorkSpec
  shards : ℕ
deriving DecidableEq

structure CommunityReserveEvidence where
  jobId : String
  work : WorkSpec
  shards : ℕ
  sponsors : List ValidatorSignature
deriving DecidableEq

structure ProviderRewardEvidence where
  jobId : String
  assignmentId : String
  shardIndex : ℕ
  rewardMcu : ℤ
  providerPublicKeyB64 : String
  providerAuth : AuthProof
  work : WorkSpec
  result : WorkResult
  systemFunded : Bool
  provisionalAuditNonce : ℕ
deriving DecidableEq

structure JobRefundEvidence where
  jobId : String
  assignmentId : String
  shardIndex : ℕ
  refundMcu : ℤ
  work : WorkSpec
  systemFunded : Bool
  requesterPublicKeyB64 : Option String
  requesterAuth : Option AuthProof
deriving DecidableEq

structure InferenceReserveEvidence where
  jobId : String
  requesterPublicKeyB64 : String
  requesterAuth : AuthProof
  billing : InferenceBilling
  settingsDigest : String
  batches : List PricedBatch
deriving DecidableEq

structure InferenceReceiptEvidence where
  jobId : String
  assignmentId : String
  batchStart : ℕ
  batchEnd : ℕ
  priceMcu : ℤ
  outputsDigest : String
  requesterPublicKeyB64 : String
  requesterAuth : AuthProof
deriving DecidableEq

structure InferenceRewardEvidence where
  jobId : String
  assignmentId : String
  batchStart : ℕ
  batchEnd : ℕ
  rewardMcu : ℤ
  outputsDigest : String
  providerPublicKeyB64 : String
  providerAuth : AuthProof
  requesterPublicKeyB64 : String
  requesterAcceptance : AuthProof
deriving DecidableEq

structure InferenceDisputeEvidence where
  jobId : String
  assignmentId : String
  batchStart : ℕ
  batchEnd : ℕ
  priceMcu : ℤ
  outputsDigest : String
  reason : String
  requesterPublicKeyB64 : String
  requesterAuth : AuthProof
deriving DecidableEq

structure InferenceExpiryEvidence where
  jobId : String
  assignmentId : String
  batchStart : ℕ
  batchEnd : ℕ
  priceMcu : ℤ
  outputsDigest : String
  requesterPublicKeyB64 : String
  requesterReceipt : AuthProof
deriving DecidableEq

structure InferenceRefundEvidence where
  jobId : String
  assignmentId : String
  batchStart : ℕ
  batchEnd : ℕ
  refundMcu : ℤ
  requesterPublicKeyB64 : String
  requesterAuth : AuthProof
deriving DecidableEq

structure MembershipChangeEvidence where
  action : MembershipAction
  member : ValidatorMember
  threshold : ℕ
  vouches : List ValidatorSignature
  resultingSetHash : String
deriving DecidableEq

inductive TransactionEvidence where
  | jobReserve (e : JobReserveEvidence)
  | communityReserve (e : CommunityReserveEvidence)
  | providerReward (e : ProviderRewardEvidence)
  | jobRefund (e : JobRefundEvidence)
  | inferenceReserve (e : InferenceReserveEvidence)
  | inferenceReceipt (e : InferenceReceiptEvidence)
  | inferenceReward (e : InferenceRewardEvidence)
  | inferenceDispute (e : InferenceDisputeEvidence)
  | inferenceExpiry (e : InferenceExpiryEvidence)
  | inferenceRefund (e : InferenceRefundEvidence)
  | membershipChange (e : MembershipChangeEvidence)
deriving DecidableEq

structure LedgerTransaction where
  transactionId : String
  kind : TransactionKind
  postings : List Posting
  evidence : TransactionEvidence
  createdAt : ℤ
deriving DecidableEq

structure LedgerEntry where
  sequence : ℕ
  previousHash : String
  transactions : List LedgerTransaction
  transactionsHash : String
  entryHash : String
deriving DecidableEq

structure QuorumCertificate where
  entry : LedgerEntry
  membershipHash : String
  signatures : List ValidatorSignature
deriving DecidableEq

structure LedgerHead where
  sequence : ℕ
  entryHash : String
  membershipHash : String
deriving DecidableEq

/-- a quorum's agreement about the whole ledger state at one height -/
structure LedgerCheckpoint where
  head : LedgerHead
  stateHash : String
  signatures : List ValidatorSignature
deriving DecidableEq

/-- one proposer's claim on one height -/
structure Ballot where
  number : ℕ
  proposer : String
deriving DecidableEq

/-- total order over attempts: by number, then by the proposer's name -/
def Ballot.outranks (a b : Ballot) : Prop := b.number < a.number ∨ a.number = b.number ∧ b.proposer < a.proposer

instance (a b : Ballot) : Decidable (a.outranks b) := by unfold Ballot.outranks; infer_instance

/-- an entry a validator has already put its signature behind at some height -/
structure AcceptedProposal where
  ballot : Ballot
  entryHash : String
  transactions : List LedgerTransaction
deriving DecidableEq

/-- what the ledger remembers about a certified inference job -/
structure InferenceReservation where
  jobId : String
  billing : InferenceBilling
  batches : List PricedBatch
  requester : String
  reservedAt : ℤ
deriving DecidableEq

/-- work, shards, system funded, requester and the reserve's own clock: `ReservationRecord` of the store -/
structure ReservationRecord where
  work : WorkSpec
  shards : ℕ
  systemFunded : Bool
  requester : Option String
  reservedAt : ℤ
deriving DecidableEq

/-- `InferenceRecord` of the store -/
structure InferenceRecord where
  billing : InferenceBilling
  batches : List PricedBatch
  requester : String
  reservedAt : ℤ
deriving DecidableEq

/-- every value the ledger hashes as JSON -/
inductive Payload where
  | validatorSet (set : ValidatorSet)
  | transaction (tx : LedgerTransaction)
  | transactions (txs : List LedgerTransaction)
  | entry (sequence : ℕ) (previousHash txHash : String)
  | submit (work : WorkSpec) (shards : ℕ)
  | result (id jobId : String) (shardIndex : ℕ) (work : WorkSpec) (rewardMcu : ℤ) (systemFunded : Bool)
      (r : WorkResult)
  | refund (tag id jobId : String) (shardIndex : ℕ) (work : WorkSpec) (refundMcu : ℤ) (systemFunded : Bool)
  | communityReserve (jobId : String) (work : WorkSpec) (shards : ℕ) (costMcu : ℤ)
  | billing (b : InferenceBilling)
  | inferenceSubmit (tag billingHash settingsDigest : String)
  | inferenceBatch (tag assignmentId jobId : String) (batchStart batchEnd : ℕ) (amountMcu : ℤ)
      (outputsDigest : String)
  | inferenceRefund (tag assignmentId jobId : String) (batchStart batchEnd : ℕ) (refundMcu : ℤ)
  | state (tag : String) (balances : List (String × ℤ)) (claims : List String)
      (reservations : List (String × ReservationRecord)) (inference : List (String × InferenceRecord))
      (activity : List (String × (ℤ × ℤ)))
deriving DecidableEq

end Hocmesh.Ledger
