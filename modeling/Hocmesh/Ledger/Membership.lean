/-
Validator sets, entry hashes, quorum certificates and membership changes (`hocmesh-ledger/src/validate.rs`).

A certificate, a checkpoint, a community sponsorship and a membership vouch are all counted by the same loop: walk the
signatures, skip a validator already seen, count the ones a sitting member really made (`goodSigners`). The bar is
always the set's own threshold.
-/
import Hocmesh.Compute.Audit

namespace Hocmesh.Ledger

open Hocmesh.Base Hocmesh.Protocol Hocmesh.Compute

/-! ## The set -/

/-- the loop over members with its three hash sets -/
def validateMembers : (ids urls keys : List String) → List ValidatorMember → Check Unit
  | _, _, _, [] => .ok ()
  | ids, urls, keys, m :: rest => do
    bailIf (m.validatorId ∈ ids) "duplicate validator id"
    bailIf (m.url ∈ urls) "duplicate validator url"
    bailIf (m.publicKeyB64 ∈ keys) "duplicate validator public key"
    bailIf (m.publicKeyB64 = "") "validator public key is empty"
    validateMembers (m.validatorId :: ids) (m.url :: urls) (m.publicKeyB64 :: keys) rest

def validateValidatorSet (set : ValidatorSet) : Check Unit := do
  bailIf (set.members.length = 0) "validator set is empty"
  bailIf (set.threshold = 0 ∨ set.threshold > set.members.length) "invalid validator threshold"
  bailIf (set.threshold * 3 ≤ set.members.length * 2)
    "validator threshold must be greater than two thirds of membership"
  bailIf (set.communityIssuanceLimitMcu ≤ 0) "community issuance limit must be positive"
  validateMembers [] [] [] set.members

section

variable (c : Crypto)

/-! ## Hashes and entries -/

def membershipHash (set : ValidatorSet) : String := hashJson c (.validatorSet set)

def transactionHash (tx : LedgerTransaction) : String := hashJson c (.transaction tx)

def transactionsHash (txs : List LedgerTransaction) : String := hashJson c (.transactions txs)

def entryHash (sequence : ℕ) (previousHash txHash : String) : String := hashJson c (.entry sequence previousHash txHash)

def buildEntry (sequence : ℕ) (previousHash : String) (transactions : List LedgerTransaction) : LedgerEntry :=
  let th := transactionsHash c transactions
  { sequence, previousHash, transactions, transactionsHash := th, entryHash := entryHash c sequence previousHash th }

/-! ## Claims -/

/-- one batch of one job leaves escrow once, in one direction -/
def inferenceClaimKey (jobId : String) (batchStart batchEnd : ℕ) : String :=
  "escrow:" ++ jobId ++ ":" ++ toString batchStart ++ ":" ++ toString batchEnd

/-- the second half of the same batch: where the CU goes once it is out of escrow -/
def inferencePayoutKey (jobId : String) (batchStart batchEnd : ℕ) : String :=
  "payout:" ++ jobId ++ ":" ++ toString batchStart ++ ":" ++ toString batchEnd

def claimKey (tx : LedgerTransaction) : String :=
  match tx.evidence with
  | .jobReserve e => "reserve:" ++ e.jobId
  | .communityReserve e => "reserve:" ++ e.jobId
  | .providerReward e => "reward:" ++ e.assignmentId
  | .jobRefund e => "reward:" ++ e.assignmentId
  | .inferenceReserve e => "reserve:" ++ e.jobId
  | .inferenceReward e => inferencePayoutKey e.jobId e.batchStart e.batchEnd
  | .inferenceReceipt e => inferenceClaimKey e.jobId e.batchStart e.batchEnd
  | .inferenceDispute e => inferencePayoutKey e.jobId e.batchStart e.batchEnd
  | .inferenceExpiry e => inferencePayoutKey e.jobId e.batchStart e.batchEnd
  | .inferenceRefund e => inferenceClaimKey e.jobId e.batchStart e.batchEnd
  | .membershipChange _ => "membership:" ++ tx.transactionId

/-! ## Counting signatures -/

/-- `verify_validator_signature(member, message, sig).is_ok()` -/
def verifyValidatorSignature (member : ValidatorMember) (message sigB64 : String) : Bool :=
  match c.decode member.publicKeyB64 with
  | none => false
  | some pk =>
    if pk.length = 32 ∧ c.validKey pk then
      match c.decode sigB64 with
      | none => false
      | some sb => sb.length = 64 ∧ c.verify pk (bytesOf message) sb
    else false

/-- whether the sitting member a signature names really made it -/
def signedByMember (set : ValidatorSet) (message : String) (s : ValidatorSignature) : Bool :=
  match set.members.find? (fun m => m.validatorId = s.validatorId) with
  | none => false
  | some m => verifyValidatorSignature c m message s.signatureB64

/-- how many distinct validators named in the list are sitting members whose signature verifies; only the first
signature under a name is looked at -/
def goodSigners (set : ValidatorSet) (message : String) : (seen : List String) → List ValidatorSignature → ℕ
  | _, [] => 0
  | seen, s :: rest =>
    if s.validatorId ∈ seen then goodSigners set message seen rest
    else (if signedByMember c set message s then 1 else 0) + goodSigners set message (s.validatorId :: seen) rest

/-! ## Certificates -/

def ledgerEntrySigningMessage (membershipHash entryHash : String) : String :=
  "hocmesh-ledger-v1|" ++ membershipHash ++ "|" ++ entryHash

/-- a batch must not settle the same claim twice -/
def distinctClaims : (seen : List String) → List LedgerTransaction → Check Unit
  | _, [] => .ok ()
  | seen, t :: rest => do
    bailIf (claimKey t ∈ seen) s!"ledger entry settles claim {claimKey t} twice"
    distinctClaims (claimKey t :: seen) rest

def verifyCertificate (cert : QuorumCertificate) (set : ValidatorSet) : Check Unit := do
  bailIf (cert.membershipHash ≠ membershipHash c set) "membership hash mismatch"
  bailIf (cert.entry.transactions = []) "ledger entry carries no transactions"
  distinctClaims [] cert.entry.transactions
  let th := transactionsHash c cert.entry.transactions
  bailIf (th ≠ cert.entry.transactionsHash) "transaction hash mismatch"
  bailIf (entryHash c cert.entry.sequence cert.entry.previousHash th ≠ cert.entry.entryHash) "entry hash mismatch"
  let good := goodSigners c set (ledgerEntrySigningMessage cert.membershipHash cert.entry.entryHash) []
    cert.signatures
  bailIf (good < set.threshold) s!"certificate has {good} valid signatures; threshold is {set.threshold}"

def checkpointSigningMessage (membershipHash : String) (sequence : ℕ) (entryHash stateHash : String) : String :=
  "hocmesh-checkpoint-v1|" ++ membershipHash ++ "|" ++ toString sequence ++ "|" ++ entryHash ++ "|" ++ stateHash

def verifyCheckpoint (cp : LedgerCheckpoint) (set : ValidatorSet) : Check Unit := do
  bailIf (cp.head.membershipHash ≠ membershipHash c set) "checkpoint membership hash mismatch"
  let message := checkpointSigningMessage cp.head.membershipHash cp.head.sequence cp.head.entryHash cp.stateHash
  let good := goodSigners c set message [] cp.signatures
  bailIf (good < set.threshold) s!"checkpoint has {good} valid signatures; threshold is {set.threshold}"

/-! ## Membership changes -/

/-- a membership change settles nothing, so it must move no CU at all -/
def validateMembershipShape (tx : LedgerTransaction) (e : MembershipChangeEvidence) : Check Unit := do
  bailIf (tx.kind ≠ .membershipChange) "transaction kind/evidence mismatch"
  bailIf (tx.postings ≠ []) "a membership change must move no CU"
  bailIf (e.threshold = 0) "membership change sets a zero threshold"

def MembershipAction.verb : MembershipAction → String
  | .join => "join"
  | .leave => "leave"

/-- what a sitting validator signs to sponsor a change to the set -/
def vouchSigningMessage (previousSetHash : String) (action : MembershipAction) (member : ValidatorMember)
    (resultingSetHash : String) : String :=
  "hocmesh-vouch-v1|" ++ previousSetHash ++ "|" ++ action.verb ++ "|" ++ member.validatorId ++ "|" ++
    member.publicKeyB64 ++ "|" ++ resultingSetHash

/-- the members a change leaves -/
def changedMembers (members : List ValidatorMember) (action : MembershipAction) (member : ValidatorMember) :
    Check (List ValidatorMember) :=
  match action with
  | .join => do
    bailIf (∃ m ∈ members, m.validatorId = member.validatorId) s!"{member.validatorId} is already a validator"
    pure (members ++ [member])
  | .leave => do
    let pos ← orBail (members.findIdx? fun m => m.validatorId = member.validatorId)
      s!"{member.validatorId} is not a validator"
    bailIf (members[pos]? ≠ some member)
      s!"membership change describes {member.validatorId} differently from the sitting set"
    pure (members.eraseIdx pos)

/-- the set a change produces, refusing one that makes no sense -/
def membershipResult (set : ValidatorSet) (action : MembershipAction) (member : ValidatorMember) (threshold : ℕ) :
    Check ValidatorSet := do
  let members ← changedMembers set.members action member
  let next : ValidatorSet := { set with members := members, threshold := threshold }
  validateValidatorSet next
  pure next

def applyMembershipChange (set : ValidatorSet) (e : MembershipChangeEvidence) : Check ValidatorSet := do
  let next ← membershipResult set e.action e.member e.threshold
  let produced := membershipHash c next
  bailIf (produced ≠ e.resultingSetHash)
    s!"membership change claims it produces set {e.resultingSetHash} but produces {produced}"
  pure next

/-- enough sitting validators put their names to a change -/
def verifyMembershipChange (set : ValidatorSet) (e : MembershipChangeEvidence) : Check ValidatorSet := do
  let previous := membershipHash c set
  let next ← applyMembershipChange c set e
  let message := vouchSigningMessage previous e.action e.member e.resultingSetHash
  let good := goodSigners c set message [] e.vouches
  bailIf (good < set.threshold)
    s!"membership change carries {good} valid vouches from the sitting set; {set.threshold} are required"
  pure next

end

end Hocmesh.Ledger
