/-
Transactions and certificates made with the stand-in primitives, for evaluating the model on concrete runs.

Each builder signs exactly what the protocol asks its party to sign, so a run of these transactions goes through every
check of the code. `commitBatches` builds each entry on the head the previous one left, as a proposer does.
-/
import Hocmesh.Books.Chain

namespace Hocmesh.Protocol.Sample

open Hocmesh.Base Hocmesh.Ledger Hocmesh.Compute Hocmesh.Books

def transfer (src dst : String) (amount : ℤ) : List Posting := [⟨src, -amount⟩, ⟨dst, amount⟩]

/-- a community job the given validators sponsor -/
def communityReserve (jobId : String) (work : WorkSpec) (shards : ℕ) (sponsors : List ℕ) (createdAt : ℤ) :
    LedgerTransaction :=
  let cost := jobCostMcu work shards
  { transactionId := "mint-" ++ jobId, kind := .communityReserve, createdAt
    postings := transfer communityIssuanceAccount (escrowAccount jobId) cost
    evidence := .communityReserve { jobId, work, shards
                                    sponsors := signatures sponsors
                                      (communityReserveSigningMessage crypto jobId work shards cost) } }

/-- node `n` claims one shard of a community job with a result it reports -/
def providerReward (n : ℕ) (jobId : String) (shardIndex : ℕ) (work : WorkSpec) (result : WorkResult) (createdAt : ℤ) :
    LedgerTransaction :=
  let id := assignmentId crypto jobId shardIndex
  let reward := workCostMcu work
  { transactionId := "reward-" ++ id, kind := .providerReward, createdAt
    postings := transfer (escrowAccount jobId) (nodeId n) reward
    evidence := .providerReward { jobId, assignmentId := id, shardIndex, rewardMcu := reward
                                  providerPublicKeyB64 := publicKeyB64 n
                                  providerAuth := authProof n createdAt ("result-" ++ id) "result"
                                    (resultBodyHash crypto id jobId shardIndex work reward true result)
                                  work, result, systemFunded := true, provisionalAuditNonce := 0 } }

/-- node `n` reserves an inference job -/
def inferenceReserve (n : ℕ) (nonce : String) (billing : InferenceBilling) (batches : List PricedBatch)
    (createdAt : ℤ) : LedgerTransaction :=
  let auth := authProof n createdAt nonce "submit_inference"
    (inferenceSubmitBodyHash crypto (inferenceBillingHash crypto billing) "settings")
  let jobId := inferenceJobIdFromAuth crypto auth
  { transactionId := "reserve-" ++ nonce, kind := .inferenceReserve, createdAt
    postings := transfer (nodeId n) (escrowAccount jobId) (jobPrice billing)
    evidence := .inferenceReserve { jobId, requesterPublicKeyB64 := publicKeyB64 n, requesterAuth := auth, billing
                                    settingsDigest := "settings", batches } }

/-- the id of the job a nonce reserves -/
def inferenceJob (nonce : String) : String :=
  inferenceJobIdFromAuth crypto { nodeId := "", timestamp := 0, nonceB64 := nonce, signatureB64 := "" }

/-- node `n` takes delivery of a batch under an assignment id of its choosing -/
def inferenceReceipt (n : ℕ) (jobId assignmentId : String) (batchStart batchEnd : ℕ) (priceMcu createdAt : ℤ) :
    LedgerTransaction :=
  { transactionId := "receipt-" ++ assignmentId, kind := .inferenceReceipt, createdAt
    postings := transfer (escrowAccount jobId) (inferenceHoldingAccount assignmentId) priceMcu
    evidence := .inferenceReceipt { jobId, assignmentId, batchStart, batchEnd, priceMcu, outputsDigest := "outputs"
                                    requesterPublicKeyB64 := publicKeyB64 n
                                    requesterAuth := authProof n createdAt ("receipt-" ++ assignmentId)
                                      "receipt_inference" (inferenceReceiptBodyHash crypto assignmentId jobId
                                        batchStart batchEnd priceMcu "outputs") } }

/-- a change of the validator set -/
def membershipChange (id : String) (e : MembershipChangeEvidence) (createdAt : ℤ) : LedgerTransaction :=
  { transactionId := id, kind := .membershipChange, postings := [], evidence := .membershipChange e, createdAt }

/-- the given validators' certificate of a batch on top of a store's head -/
def certify (set : ValidatorSet) (signers : List ℕ) (st : LedgerStore) (txs : List LedgerTransaction) :
    QuorumCertificate :=
  let entry := Validator.nextEntry crypto st txs
  let hash := membershipHash crypto set
  { entry, membershipHash := hash, signatures := signatures signers (ledgerEntrySigningMessage hash entry.entryHash) }

/-- propose and commit one batch after another, each certified by the sitting set's signers -/
def commitBatches (genesis : ValidatorSet) (signers : List ℕ) (batches : List (List LedgerTransaction)) :
    Check LedgerStore :=
  batches.foldlM (fun st txs => commitEntry crypto genesis st (certify (sittingSet genesis st) signers st txs))
    LedgerStore.empty

theorem reachable_of_commitBatches {genesis : ValidatorSet} {signers : List ℕ} {batches : List (List LedgerTransaction)}
    {st : LedgerStore} (h : commitBatches genesis signers batches = .ok st) : Reachable crypto genesis st :=
  foldlM_inv _ (fun _ st => Reachable crypto genesis st) (fun _ _ _ _ hr hc => Chain.commit hr trivial hc) batches []
    _ _ .empty h

/-- a small prime count, its honest answer, and a community job over it -/
def smallWork : WorkSpec := .primeCount 0 30

def smallMint : LedgerTransaction := communityReserve "seed" smallWork 1 [0] 100

def smallReward (n : ℕ) : LedgerTransaction := providerReward n "seed" 0 smallWork (executeWork smallWork 5) 200

/-- the same answer with one prime too many in eight of its buckets -/
def lazyResult : WorkResult :=
  match executeWork smallWork 5 with
  | .primeCount _ counts durationMs =>
    let guessed := counts.zipIdx.map fun p => if 3 ≤ p.2 ∧ p.2 < 11 then p.1 + 1 else p.1
    .primeCount guessed.sum guessed durationMs
  | result => result

def lazyReward : LedgerTransaction := providerReward 5 "seed" 0 smallWork lazyResult 200

/-- a one-prompt inference job that node 5 pays for and node 6 runs -/
def smallBilling : InferenceBilling :=
  { manifestDigest := "model", parameterCount := 1, totalSizeBytes := 1, promptsDigest := "prompts", promptBytes := [4],
    maxTokens := 1, maxCostMcu := 1 }

def smallBatch : PricedBatch := ⟨0, 1, nodeId 6⟩

def smallReserve : LedgerTransaction := inferenceReserve 5 "nonce" smallBilling [smallBatch] 300

def smallJob : String := inferenceJob "nonce"

def smallAssignment : String := inferenceAssignmentId crypto smallJob 0

def smallReceipt : LedgerTransaction := inferenceReceipt 5 smallJob smallAssignment 0 1 1 400

/-- the transactions of the run below -/
def smallHistory : List LedgerTransaction := [smallMint, smallReward 5, smallReserve, smallReceipt]

/-- one validator mints a community job; node 5 is paid for its only shard, spends that on an inference job and takes
delivery of its only batch -/
theorem small_run : ∃ st, Reachable crypto (committee 1) st ∧ history st = smallHistory ∧
    st.balance communityIssuanceAccount = -1 ∧ st.balance (inferenceHoldingAccount smallAssignment) = 1 ∧
    ((st.claimDetail (claimKey smallReserve)).map (·.2)).isSome := by
  have hrun : (commitBatches (committee 1) [0] [[smallMint], [smallReward 5, smallReserve, smallReceipt]]).okWith
      (fun st => history st = smallHistory ∧ st.balance communityIssuanceAccount = -1 ∧
        st.balance (inferenceHoldingAccount smallAssignment) = 1 ∧
        ((st.claimDetail (claimKey smallReserve)).map (·.2)).isSome) = true := by decide +kernel
  obtain ⟨st, hst, hfacts⟩ := (okWith_iff _ _).1 hrun
  exact ⟨st, reachable_of_commitBatches hst, of_decide_eq_true hfacts⟩

end Hocmesh.Protocol.Sample
