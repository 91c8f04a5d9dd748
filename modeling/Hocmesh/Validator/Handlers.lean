/-
A validator's request handlers (`hocmesh-validator/src/main.rs`): `prepare`, `propose`, `commit`, catching up, and the
propose-time membership checks.

`proposeChecks` is everything `propose` demands of a batch before the ballot is looked at. A handler takes the
validator it runs on and returns it changed, with its answer; a refusal changes nothing.
-/
import Hocmesh.Ledger.Replay

namespace Hocmesh.Validator

open Hocmesh.Base Hocmesh.Protocol Hocmesh.Compute Hocmesh.Ledger

/-! ## Settlement membership -/

section

variable (c : Crypto)

/-- the reservation check of an inference reward or refund -/
def inferenceMembership (inference : String → Option InferenceReservation) (createdAt : ℤ)
    (jobId assignmentId : String) (batchStart batchEnd : ℕ) (amount : ℤ) (payee : String) (isRefund : Bool) :
    Check Unit := do
  let r ← orBail (inference jobId) "inference settlement references a job with no certified reservation"
  let index ← orBail (certifiedIndex c jobId r.batches assignmentId)
    "inference settlement names a batch that was never certified"
  let batch ← orBail r.batches[index]? "index out of bounds"
  bailIf (batch.batchStart ≠ batchStart ∨ batch.batchEnd ≠ batchEnd)
    "inference settlement changes the bounds of the batch it claims"
  (if isRefund then
    bailIf (r.requester ≠ payee) "inference refund pays someone other than the requester"
  else do
    bailIf (batch.nodeId ≠ payee) "inference reward paid to a node the batch was not assigned to"
    bailIf (r.requester = payee) "requester cannot receive a reward from its own paid job")
  bailIf (batchPrice r.billing batchStart batchEnd ≠ amount) "inference settlement is not what the batch prices at"
  bailIf (isRefund = true ∧ createdAt ≤ windowEnd r.reservedAt)
    "inference refund inside the batch settlement window"
  bailIf (isRefund = false ∧ createdAt > windowEnd r.reservedAt)
    "inference reward arrived after the batch settlement window"

def validateInferenceMembership (inference : String → Option InferenceReservation) (tx : LedgerTransaction) :
    Check Unit :=
  match tx.evidence with
  | .inferenceReward e => inferenceMembership c inference tx.createdAt e.jobId e.assignmentId e.batchStart e.batchEnd
      e.rewardMcu e.providerAuth.nodeId false
  | .inferenceRefund e => inferenceMembership c inference tx.createdAt e.jobId e.assignmentId e.batchStart e.batchEnd
      e.refundMcu e.requesterAuth.nodeId true
  | _ => pure ()

/-- the reservation check of a CPU reward or refund -/
def shardMembership (reservation : String → Option ReservationRecord) (createdAt : ℤ) (jobId : String)
    (shardIndex : ℕ) (work : WorkSpec) (systemFunded : Bool) (payee : Option String) (isRefund : Bool) :
    Check Unit := do
  let r ← orBail (reservation jobId) "settlement references a job with no certified reservation"
  bailIf (r.systemFunded ≠ systemFunded) "settlement funding type does not match reservation"
  (if isRefund then
    bailIf (r.requester ≠ payee) "refund pays someone other than the requester who reserved"
  else
    bailIf (r.requester = payee) "requester cannot receive a reward from its own paid job")
  let expected ← orBail (splitWork r.work r.shards)[shardIndex]? "settlement shard index is outside reservation"
  bailIf (expected ≠ work) "settlement work is not the reserved shard"
  bailIf (isRefund = true ∧ createdAt ≤ windowEnd r.reservedAt) "refund inside the shard's settlement window"
  bailIf (isRefund = false ∧ createdAt > windowEnd r.reservedAt) "reward arrived after the shard's settlement window"

/-- the propose-time copy of the replay's settlement rules -/
def validateSettlementMembership (reservation : String → Option ReservationRecord)
    (inference : String → Option InferenceReservation) (tx : LedgerTransaction) : Check Unit :=
  match tx.evidence with
  | .providerReward e => shardMembership reservation tx.createdAt e.jobId e.shardIndex e.work e.systemFunded
      (some e.providerAuth.nodeId) false
  | .jobRefund e => shardMembership reservation tx.createdAt e.jobId e.shardIndex e.work e.systemFunded
      (e.requesterAuth.map (·.nodeId)) true
  | .inferenceReward _ => validateInferenceMembership c inference tx
  | .inferenceRefund _ => validateInferenceMembership c inference tx
  | _ => pure ()

/-! ## What a batch has to pass before it is signed -/

/-- the loop over a proposal's transactions with its set of claims already settled -/
def settleLoop (st : LedgerStore) : (settled : List String) → List LedgerTransaction → Check Unit
  | _, [] => .ok ()
  | settled, t :: rest => do
    bailIf (st.hasClaim (claimKey t) ∨ claimKey t ∈ settled) s!"claim already settled: {claimKey t}"
    validateSettlementMembership c st.reservation st.inferenceReservation t
    settleLoop st (claimKey t :: settled) rest

def proposeChecks (st : LedgerStore) (set : ValidatorSet) (transactions : List LedgerTransaction) : Check Unit := do
  settleLoop c st [] transactions
  validateBatch c transactions st.headHash st.balance st.inferenceReservation set

end

/-! ## Requests and answers -/

structure HeadProof where
  head : LedgerHead
  validatorId : String
  signatureB64 : String
deriving DecidableEq

/-- what one validator says about a claim, with the certificate that settled it if it has one -/
structure ClaimProof where
  claimKey : String
  sequence : Option ℕ
  entryHash : Option String
  certificate : Option QuorumCertificate
  head : LedgerHead
  validatorId : String
  signatureB64 : String
deriving DecidableEq

structure PrepareRequest where
  sequence : ℕ
  ballot : Ballot
deriving DecidableEq

structure PrepareVote where
  promised : Bool
  validatorId : String
  sequence : ℕ
  accepted : Option AcceptedProposal
  promisedBallot : Option Ballot
  error : Option String
deriving DecidableEq

structure ProposalRequest where
  transactions : List LedgerTransaction
  sequence : ℕ
  ballot : Ballot
deriving DecidableEq

structure ProposalVote where
  accepted : Bool
  validatorId : String
  sequence : ℕ
  previousHash : String
  entryHash : String
  signatureB64 : Option String
  promisedBallot : Option Ballot
  headSequence : Option ℕ
  error : Option String
deriving DecidableEq

/-- a running validator: its database, its identity and the set it believes is sitting -/
structure App where
  store : LedgerStore
  set : ValidatorSet
  nodeId : String
  /-- `NodeIdentity::sign_bytes_b64` -/
  sign : String → String

/-! ## Handlers -/

section

variable (c : Crypto)

def headSigningMessage (head : LedgerHead) : String :=
  "hocmesh-head-v1|" ++ head.membershipHash ++ "|" ++ toString head.sequence ++ "|" ++ head.entryHash

/-- the `head` endpoint -/
def headProof (a : App) : HeadProof :=
  let h := a.store.head c a.set
  ⟨h, a.nodeId, a.sign (headSigningMessage h)⟩

/-- `{:?}` of one character; every character beyond ASCII is taken as printable -/
def debugChar (ch : Char) : String :=
  if ch = '\x00' then "\\0"
  else if ch = '\t' then "\\t"
  else if ch = '\r' then "\\r"
  else if ch = '\n' then "\\n"
  else if ch = '"' then "\\\""
  else if ch = '\\' then "\\\\"
  else if ch.toNat < 32 ∨ ch.toNat = 127 then
    "\\u\x7b" ++ String.ofList (Nat.toDigits 16 ch.toNat) ++ "\x7d"
  else ch.toString

/-- `{:?}` of an optional height and of an optional hash -/
def debugHeight : Option ℕ → String
  | none => "None"
  | some n => "Some(" ++ toString n ++ ")"

def debugHash : Option String → String
  | none => "None"
  | some s => "Some(\"" ++ String.join (s.toList.map debugChar) ++ "\")"

def claimSigningMessage (head : LedgerHead) (claim : String) (sequence : Option ℕ) (entryHash : Option String) : String :=
  "hocmesh-claim-v1|" ++ head.membershipHash ++ "|" ++ claim ++ "|" ++ debugHeight sequence ++ "|" ++
    debugHash entryHash ++ "|" ++ toString head.sequence ++ "|" ++ head.entryHash

/-- the `claim` endpoint: what the store finds under a key, and the certificate there -/
def claimProof (a : App) (claim : String) : ClaimProof :=
  let detail := a.store.claimDetail claim
  let h := a.store.head c a.set
  let sequence := detail.map (·.1)
  let entryHash := detail.map (·.2)
  { claimKey := claim, sequence, entryHash, head := h, validatorId := a.nodeId
    certificate := sequence.bind a.store.certificateAt
    signatureB64 := a.sign (claimSigningMessage h claim sequence entryHash) }

/-- reserve a height for a proposer, and tell it what is already signed there -/
def prepare (a : App) (r : PrepareRequest) : App × PrepareVote :=
  let result : Check (LedgerStore × Option AcceptedProposal) := do
    bailIf (r.sequence ≠ a.store.headSequence + 1)
      s!"prepare is for sequence {r.sequence} but this validator is at {a.store.headSequence}"
    a.store.promise r.sequence r.ballot
  match result with
  | .ok (store, accepted) =>
    ({ a with store := store }, ⟨true, a.nodeId, r.sequence, accepted, store.promisedBallot r.sequence, none⟩)
  | .error e => (a, ⟨false, a.nodeId, r.sequence, none, a.store.promisedBallot r.sequence, some e⟩)

/-- the entry a batch becomes on top of this validator's own head -/
def nextEntry (st : LedgerStore) (transactions : List LedgerTransaction) : LedgerEntry :=
  buildEntry c (st.headSequence + 1) st.headHash transactions

/-- `propose` up to the signature: the store after the ballot was taken, and the entry it signs -/
def acceptProposal (a : App) (r : ProposalRequest) : Check (LedgerStore × LedgerEntry) := do
  bailIf (r.sequence ≠ a.store.headSequence + 1)
    s!"proposal is for sequence {r.sequence} but this validator is at {a.store.headSequence}"
  proposeChecks c a.store a.set r.transactions
  let e := nextEntry c a.store r.transactions
  let store ← a.store.acceptBallot e.sequence r.ballot e.entryHash e.transactions
  pure (store, e)

def propose (a : App) (r : ProposalRequest) : App × ProposalVote :=
  match acceptProposal c a r with
  | .ok (store, e) =>
    let sig := a.sign (ledgerEntrySigningMessage (membershipHash c a.set) e.entryHash)
    ({ a with store := store }, ⟨true, a.nodeId, e.sequence, e.previousHash, e.entryHash, some sig,
      store.promisedBallot r.sequence, some a.store.headSequence, none⟩)
  | .error err =>
    (a, ⟨false, a.nodeId, 0, "", "", none, a.store.promisedBallot r.sequence, some a.store.headSequence, some err⟩)

/-- the loop over a catch-up page: stop above the target, skip what is already held, apply what extends the head, and
let a certified membership change govern everything after it; an entry that is refused ends the loop, and what was
applied before it stays applied -/
def catchUpLoop (target : ℕ) (store : LedgerStore) (set : ValidatorSet) :
    List QuorumCertificate → LedgerStore × Check ValidatorSet
  | [] => (store, .ok set)
  | cert :: rest =>
    if cert.entry.sequence > target then (store, .ok set)
    else if cert.entry.sequence ≤ store.headSequence then catchUpLoop target store set rest
    else match store.apply c cert set with
      | .ok next => catchUpLoop target next (next.currentSet.getD set) rest
      | .error e => (store, .error e)

/-- one page of `catch_up_to`, under the set the store itself recognises: the store it leaves, and the set the handler
then publishes -/
def catchUpPage (a : App) (target : ℕ) (page : List QuorumCertificate) : LedgerStore × Check ValidatorSet :=
  catchUpLoop c target a.store (a.store.currentSet.getD a.set) page

/-- `commit` once this seat is level with the certificate -/
def commit (a : App) (cert : QuorumCertificate) : Check (App × LedgerHead) := do
  verifyCertificate c cert a.set
  if cert.entry.sequence ≤ a.store.headSequence then
    bailIf (¬ (cert.entry.sequence = a.store.headSequence ∧ cert.entry.entryHash = a.store.headHash))
      "conflicting/stale certificate"
    pure (a, a.store.head c a.set)
  else
    each (validateSettlementMembership c a.store.reservation a.store.inferenceReservation) cert.entry.transactions
    validateBatch c cert.entry.transactions cert.entry.previousHash a.store.balance a.store.inferenceReservation a.set
    let store ← a.store.apply c cert a.set
    let set := store.currentSet.getD a.set
    pure ({ a with store := store, set := set }, store.head c set)

end

/-- `serve` on an existing database: the bootstrap file names the genesis set and nothing more -/
def restart (a : App) (fileSet : ValidatorSet) (publicKeyB64 : String) : Check App := do
  let store := a.store.reopen
  let set := store.currentSet.getD fileSet
  bailIf (¬ ∃ m ∈ set.members, m.validatorId = a.nodeId ∧ m.publicKeyB64 = publicKeyB64)
    "this validator identity is not in the set the ledger currently recognises"
  pure { a with store := store, set := set }

end Hocmesh.Validator
