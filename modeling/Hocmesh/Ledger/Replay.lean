/-
The participant audit (`LedgerStore::audit_from`): replay the certificates, check every rule again, and compare the
replayed state with the one the store has been keeping.

`Replay` is what the loop carries. One transaction is checked in the source's order: its claim is new, its historical
rule holds, it fits the reservation it draws on (`bindReserve`, `bindSettlement`), and its postings overdraw nothing.
Each settlement kind has its own hand-written block in the source and keeps its own definition here.
-/
import Hocmesh.Ledger.Store

namespace Hocmesh.Ledger

open Hocmesh.Base Hocmesh.Protocol Hocmesh.Compute

/-- the last moment of a settlement window, in `i64` -/
def windowEnd (reservedAt : ℤ) : ℤ := wrap64 (reservedAt + settlementWindowSecs)

/-! ## What a settlement is bound to -/

section

variable (c : Crypto)

/-- the index an assignment id stands for in a certified batch plan -/
def certifiedIndex (jobId : String) (batches : List PricedBatch) (assignmentId : String) : Option ℕ :=
  (List.range (batches.length % 4294967296)).find? fun i => inferenceAssignmentId c jobId i = assignmentId

def bindInferenceReward (s : LedgerState) (tx : LedgerTransaction) (e : InferenceRewardEvidence) : Check Unit := do
  let r ← orBail s.inference[e.jobId]? s!"inference reward references missing reservation: {e.jobId}"
  let index ← orBail (certifiedIndex c e.jobId r.batches e.assignmentId)
    "inference reward names a batch that was never certified"
  let batch ← orBail r.batches[index]? "index out of bounds"
  bailIf (batch.batchStart ≠ e.batchStart ∨ batch.batchEnd ≠ e.batchEnd)
    "inference reward changes the bounds of the batch it claims"
  bailIf (batch.nodeId ≠ e.providerAuth.nodeId) "inference reward paid to a node the batch was not assigned to"
  bailIf (r.requester = e.providerAuth.nodeId) "requester cannot receive reward from its own paid job"
  bailIf (batchPrice r.billing e.batchStart e.batchEnd ≠ e.rewardMcu)
    "inference reward is not what the batch prices at"
  bailIf (tx.createdAt > windowEnd r.reservedAt) "inference reward arrived after the settlement window"

def bindInferenceReceipt (s : LedgerState) (tx : LedgerTransaction) (e : InferenceReceiptEvidence) : Check Unit := do
  let r ← orBail s.inference[e.jobId]? s!"inference receipt references missing reservation: {e.jobId}"
  bailIf (r.requester ≠ e.requesterAuth.nodeId) "inference receipt signed by someone other than the requester"
  bailIf (¬ ∃ b ∈ r.batches, b.batchStart = e.batchStart ∧ b.batchEnd = e.batchEnd)
    "inference receipt names a batch the job never reserved"
  bailIf (batchPrice r.billing e.batchStart e.batchEnd ≠ e.priceMcu)
    "inference receipt is not what the batch prices at"
  bailIf (tx.createdAt > windowEnd r.reservedAt) "inference receipt arrived after the settlement window"

def bindInferenceDispute (s : LedgerState) (e : InferenceDisputeEvidence) : Check Unit := do
  let r ← orBail s.inference[e.jobId]? s!"inference dispute references missing reservation: {e.jobId}"
  bailIf (r.requester ≠ e.requesterAuth.nodeId) "inference dispute signed by someone other than the requester"
  bailIf (batchPrice r.billing e.batchStart e.batchEnd ≠ e.priceMcu)
    "inference dispute is not what the batch prices at"

def bindInferenceExpiry (s : LedgerState) (e : InferenceExpiryEvidence) : Check Unit := do
  let r ← orBail s.inference[e.jobId]? s!"inference expiry references missing reservation: {e.jobId}"
  bailIf (r.requester ≠ e.requesterReceipt.nodeId)
    "inference expiry carries a receipt from someone other than the requester"
  bailIf (batchPrice r.billing e.batchStart e.batchEnd ≠ e.priceMcu)
    "inference expiry is not what the batch prices at"

def bindInferenceRefund (s : LedgerState) (tx : LedgerTransaction) (e : InferenceRefundEvidence) : Check Unit := do
  let r ← orBail s.inference[e.jobId]? s!"inference refund references missing reservation: {e.jobId}"
  let index ← orBail (certifiedIndex c e.jobId r.batches e.assignmentId)
    "inference refund names a batch that was never certified"
  let batch ← orBail r.batches[index]? "index out of bounds"
  bailIf (batch.batchStart ≠ e.batchStart ∨ batch.batchEnd ≠ e.batchEnd)
    "inference refund changes the bounds of the batch it reclaims"
  bailIf (r.requester ≠ e.requesterAuth.nodeId) "inference refund pays someone other than the requester"
  bailIf (batchPrice r.billing e.batchStart e.batchEnd ≠ e.refundMcu)
    "inference refund is not what the batch prices at"
  bailIf (tx.createdAt ≤ windowEnd r.reservedAt) "inference refund inside the settlement window"

def bindReward (s : LedgerState) (tx : LedgerTransaction) (e : ProviderRewardEvidence) : Check Unit := do
  let r ← orBail s.reservations[e.jobId]? s!"reward references missing reservation: {e.jobId}"
  bailIf (r.systemFunded ≠ e.systemFunded) "reward funding type differs from reservation"
  bailIf (r.requester = some e.providerAuth.nodeId) "requester cannot receive reward from its own paid job"
  let expected ← orBail (splitWork r.work r.shards)[e.shardIndex]? "reward shard index outside reservation"
  bailIf (expected ≠ e.work) "reward work differs from reserved shard"
  bailIf (tx.createdAt > windowEnd r.reservedAt) "reward arrived after the shard's settlement window"

def bindRefund (s : LedgerState) (tx : LedgerTransaction) (e : JobRefundEvidence) : Check Unit := do
  let r ← orBail s.reservations[e.jobId]? s!"refund references missing reservation: {e.jobId}"
  bailIf (r.systemFunded ≠ e.systemFunded) "refund funding type differs from reservation"
  bailIf (r.requester ≠ e.requesterAuth.map (·.nodeId)) "refund pays someone other than the requester who reserved"
  let expected ← orBail (splitWork r.work r.shards)[e.shardIndex]? "refund shard index outside reservation"
  bailIf (expected ≠ e.work) "refund work differs from reserved shard"
  bailIf (tx.createdAt ≤ windowEnd r.reservedAt) "refund inside the shard's settlement window"

/-! ## One transaction -/

/-- what the replay carries from one certificate to the next -/
structure Replay where
  seq : ℕ
  prev : String
  state : LedgerState
  active : ValidatorSet

/-- the evidence block of the replay loop: bind settlements, record reservations, follow the set -/
def bindEvidence (r : Replay) (tx : LedgerTransaction) : Check Replay :=
  match tx.evidence with
  | .jobReserve e => do
    bailIf (e.jobId ∈ r.state.reservations) s!"duplicate job reservation: {e.jobId}"
    pure { r with state := { r.state with
      reservations := LedgerStore.upsert r.state.reservations (LedgerStore.jobRecord tx) id } }
  | .communityReserve e => do
    bailIf (e.jobId ∈ r.state.reservations) s!"duplicate community job reservation: {e.jobId}"
    pure { r with state := { r.state with
      reservations := LedgerStore.upsert r.state.reservations (LedgerStore.jobRecord tx) id } }
  | .inferenceReserve e => do
    bailIf (e.jobId ∈ r.state.inference) s!"duplicate inference reservation: {e.jobId}"
    pure { r with state := { r.state with
      inference := LedgerStore.upsert r.state.inference (LedgerStore.inferenceRecord tx) id } }
  | .inferenceReward e => do bindInferenceReward c r.state tx e; pure r
  | .inferenceReceipt e => do bindInferenceReceipt r.state tx e; pure r
  | .inferenceDispute e => do bindInferenceDispute r.state e; pure r
  | .inferenceExpiry e => do bindInferenceExpiry r.state e; pure r
  | .inferenceRefund e => do bindInferenceRefund c r.state tx e; pure r
  | .providerReward e => do bindReward r.state tx e; pure r
  | .jobRefund e => do bindRefund r.state tx e; pure r
  | .membershipChange e => do
    let active ← verifyMembershipChange c r.active e
    pure { r with active := active }

/-- one posting of the replay: the balance, and the lifetime totals in `i64` -/
def replayPosting (s : LedgerState) (p : Posting) : Check LedgerState := do
  let next ← orBail (checkedAdd64 (s.balances.entry p.accountId) p.deltaMcu) "audit balance overflow"
  bailIf (next < 0 ∧ p.accountId ≠ communityIssuanceAccount)
    s!"negative non-issuance balance during audit: {p.accountId}"
  let seen := addActivity (s.activity[p.accountId]?.getD (0, 0)) p.deltaMcu
  pure { s with balances := s.balances.insert p.accountId next
                activity := s.activity.insert p.accountId (wrap64 seen.1, wrap64 seen.2) }

def replayTransaction (previousHash : String) (signatures : List ValidatorSignature) (r : Replay)
    (tx : LedgerTransaction) : Check Replay := do
  bailIf (claimKey tx ∈ r.state.claims) s!"duplicate ledger claim during audit: {claimKey tx}"
  let r := { r with state := { r.state with claims := r.state.claims.insert (claimKey tx) () } }
  validateHistoricalTransaction c tx previousHash signatures r.state.balances.entry r.active
  let r ← bindEvidence c r tx
  let state ← tx.postings.foldlM replayPosting r.state
  pure { r with state := state }

/-! ## The chain -/

def replayCertificate (r : Replay) (cert : QuorumCertificate) : Check Replay := do
  verifyCertificate c cert r.active
  bailIf (cert.entry.sequence ≠ r.seq + 1 ∨ cert.entry.previousHash ≠ r.prev)
    s!"broken chain at sequence {cert.entry.sequence}"
  let r ← cert.entry.transactions.foldlM (replayTransaction c cert.entry.previousHash cert.signatures) r
  pure { r with seq := cert.entry.sequence, prev := cert.entry.entryHash }

end

namespace LedgerStore

/-- undo one posting from the current totals -/
def rewindPosting (s : LedgerState) (p : Posting) : LedgerState :=
  let seen := s.activity[p.accountId]?.getD (0, 0)
  { s with balances := s.balances.insert p.accountId (wrap64 (s.balances.entry p.accountId - p.deltaMcu))
           activity := s.activity.insert p.accountId
             (if p.deltaMcu > 0 then (wrap64 (seen.1 - p.deltaMcu), seen.2) else (seen.1, wrap64 (seen.2 + p.deltaMcu))) }

def rewindTransaction (s : LedgerState) (tx : LedgerTransaction) : LedgerState :=
  tx.postings.foldl rewindPosting { s with claims := s.claims.erase (claimKey tx) }

/-- the state as it stood at `sequence`, undone from the state held now -/
def rewindTo (st : LedgerStore) (sequence : ℕ) : Check LedgerState := do
  let s ← st.state
  sqliteSequence (sequence + 1)
  let s := ((st.certificatesFrom (sequence + 1)).flatMap (·.entry.transactions)).foldl rewindTransaction s
  pure { s with
    reservations := s.reservations.filter fun job _ => ¬ ∃ row ∈ st.jobReservations[job]?, sequence < row.1
    inference := s.inference.filter fun job _ => ¬ ∃ row ∈ st.inferenceReservations[job]?, sequence < row.1 }

section

variable (c : Crypto)

/-- where a replay starts: genesis, or a checkpoint this store can reproduce -/
def auditStart (st : LedgerStore) (set : ValidatorSet) (checkpoint : Option LedgerCheckpoint) : Check Replay :=
  match checkpoint with
  | none => pure ⟨0, "GENESIS", LedgerState.empty, set⟩
  | some cp => do
    verifyCheckpoint c cp set
    let state ← st.rewindTo cp.head.sequence
    let here := state.digest c
    bailIf (here ≠ cp.stateHash) s!"checkpoint mismatch at sequence {cp.head.sequence}: local state {here}, checkpoint state {cp.stateHash}, local head {st.headSequence}"
    pure ⟨cp.head.sequence, cp.head.entryHash, state, set⟩

def auditFrom (st : LedgerStore) (set : ValidatorSet) (checkpoint : Option LedgerCheckpoint) : Check LedgerHead := do
  let start ← auditStart c st set checkpoint
  sqliteSequence (start.seq + 1)
  let certs := st.certificatesFrom (start.seq + 1)
  match checkpoint, certs.head? with
  | none, some first =>
    bailIf (first.entry.sequence > 1)
      s!"this ledger has been pruned below sequence {first.entry.sequence}; audit from a checkpoint instead"
  | _, _ => pure ()
  let r ← certs.foldlM (replayCertificate c) start
  let kept ← st.state
  bailIf (r.state.digest c ≠ kept.digest c)
    "replayed ledger state does not match the state this store has been keeping"
  pure { sequence := r.seq, entryHash := r.prev, membershipHash := membershipHash c set }

/-- replay the whole ledger from genesis and check every rule again -/
def audit (st : LedgerStore) (set : ValidatorSet) : Check LedgerHead := auditFrom c st set none

end

end LedgerStore

end Hocmesh.Ledger
