/-
A ledger client's side of a round (`hocmesh-ledger/src/network.rs`): `head_quorum`, `claim_quorum`, `claim_height` and
`attempt`.

Each `join_all` over the members becomes a list with one optional answer per member, in the members' order; `answered`
pairs the answers that came with the member they came from. Everything a client decides is a function of these answers.
-/
import Hocmesh.Validator.Handlers

namespace Hocmesh.Network

open Hocmesh.Base Hocmesh.Protocol Hocmesh.Ledger Hocmesh.Validator

/-- a client: the set it believes in and when that was established, its name, and its ballot counter (an `AtomicU64`) -/
structure LedgerNetwork where
  set : ValidatorSet
  setSequence : ℕ
  proposer : String
  ballot : ℕ
deriving DecidableEq

namespace LedgerNetwork

/-- `fetch_add(1) + 1`, both in `u64` -/
def nextBallot (n : LedgerNetwork) : LedgerNetwork × Ballot :=
  ({ n with ballot := (n.ballot + 1) % 2 ^ 64 }, ⟨(n.ballot + 1) % 2 ^ 64, n.proposer⟩)

/-- climb above a ballot that beat ours -/
def outbid (n : LedgerNetwork) (seen : Ballot) : LedgerNetwork := { n with ballot := max n.ballot seen.number }

end LedgerNetwork

/-- the answers that came, each with the member that gave it -/
def answered {α : Type} (set : ValidatorSet) (answers : List (Option α)) : List (ValidatorMember × α) :=
  (set.members.zip answers).filterMap fun x => x.2.map fun a => (x.1, a)

/-- `max_by`: of several that nothing beats, the last -/
def maxBy {α : Type} (beats : α → α → Bool) : List α → Option α
  | [] => none
  | a :: rest => some (rest.foldl (fun best x => if beats best x then best else x) a)

/-! ## The head a quorum agrees on -/

section

variable (c : Crypto)

/-- every validator head that is signed by the seat that sent it -/
def signedHeads (set : ValidatorSet) (answers : List (Option HeadProof)) : List LedgerHead :=
  (answered set answers).filterMap fun x =>
    if x.2.validatorId = x.1.validatorId ∧ x.2.head.membershipHash = membershipHash c set ∧
        verifyValidatorSignature c x.1 (headSigningMessage x.2.head) x.2.signatureB64 = true then some x.2.head
    else none

/-- how many heads say each (sequence, entry hash) -/
def headCounts (heads : List LedgerHead) : List ((ℕ × String) × ℕ) :=
  let keys := heads.map fun h => (h.sequence, h.entryHash)
  keys.dedup.map fun k => (k, keys.count k)

/-- `head_quorum` with its counts in the order the hash map happens to list them -/
def headQuorum (set : ValidatorSet) (counts : List ((ℕ × String) × ℕ)) : Check LedgerHead := do
  let best ← orBail (maxBy (fun a b => b.2 < a.2) counts) "no signed validator heads available"
  bailIf (best.2 < set.threshold) "no quorum-agreed ledger head"
  pure ⟨best.1.1, best.1.2, membershipHash c set⟩

end

/-! ## What a quorum says about a claim -/

/-- what a validator attests: where the claim was settled, if anywhere, and the head it says so from -/
def attested (p : ClaimProof) : Option ℕ × Option String × ℕ × String :=
  (p.sequence, p.entryHash, p.head.sequence, p.head.entryHash)

section

variable (c : Crypto)

/-- the answers about a claim that are signed by the seat that sent them -/
def signedClaims (set : ValidatorSet) (claim : String) (answers : List (Option ClaimProof)) : List ClaimProof :=
  (answered set answers).filterMap fun x =>
    if x.2.validatorId = x.1.validatorId ∧ x.2.head.membershipHash = membershipHash c set ∧ x.2.claimKey = claim ∧
        verifyValidatorSignature c x.1 (claimSigningMessage x.2.head x.2.claimKey x.2.sequence x.2.entryHash)
          x.2.signatureB64 = true then some x.2
    else none

/-- one verifiable certificate settles the question by itself -/
def provesClaim (set : ValidatorSet) (claim : String) (p : ClaimProof) : Bool :=
  match p.certificate with
  | none => false
  | some cert =>
    decide (verifyCertificate c cert set = .ok ()) && (cert.entry.transactions.any fun t => claimKey t = claim) &&
      decide (some cert.entry.sequence = p.sequence ∧ some cert.entry.entryHash = p.entryHash)

def claimCounts (proofs : List ClaimProof) : List ((Option ℕ × Option String × ℕ × String) × ℕ) :=
  let keys := proofs.map attested
  keys.dedup.map fun k => (k, keys.count k)

/-- `claim_quorum` on the proofs it kept, with its counts in the order the hash map happens to list them -/
def claimQuorum (set : ValidatorSet) (claim : String) (proofs : List ClaimProof)
    (counts : List ((Option ℕ × Option String × ℕ × String) × ℕ)) : Check ClaimProof :=
  match proofs.find? (provesClaim c set claim) with
  | some p => .ok p
  | none => do
    let best ← orBail (maxBy (fun a b => b.2 < a.2) counts) "no validator claim proofs available"
    bailIf (best.2 < set.threshold)
      "no quorum-agreed absent claim status and no verifiable quorum certificate was returned"
    orBail (proofs.find? fun p => attested p = best.1) "called `Option::unwrap()` on a `None` value"

end

/-! ## Phase one -/

/-- the prepare votes that answer the question asked -/
def heightVotes (set : ValidatorSet) (sequence : ℕ) (answers : List (Option PrepareVote)) : List PrepareVote :=
  (answered set answers).filterMap fun x =>
    if x.2.validatorId = x.1.validatorId ∧ x.2.sequence = sequence then some x.2 else none

/-- take the height, and learn what is already signed there -/
def claimHeight (set : ValidatorSet) (sequence : ℕ) (votes : List PrepareVote) : Check (Option AcceptedProposal) := do
  let promises := votes.filter (·.promised)
  bailIf (promises.length < set.threshold)
    s!"height {sequence} promised to only {promises.length} of {set.threshold} needed validators"
  pure (maxBy (fun a b => a.ballot.outranks b.ballot) (promises.filterMap (·.accepted)))

/-! ## Phase two -/

/-- an entry some validator has already signed is finished instead of our own -/
def proposedTransactions (transactions : List LedgerTransaction) (adopted : Option AcceptedProposal) :
    List LedgerTransaction :=
  match adopted with
  | some a => a.transactions
  | none => transactions

/-- enough of a validator id to tell four of them apart in one error line -/
def shortId (validatorId : String) : String := String.ofList (validatorId.toList.take 12)

/-- did this seat judge the batch, or disagree about the chain? -/
def judgedOurBatch (vote : ProposalVote) (sequence : ℕ) (entryHash : String) : Bool :=
  (match vote.headSequence with
    | none => true
    | some h => h + 1 = sequence) &&
  (!vote.accepted || vote.entryHash = entryHash)

/-- the first newer ballot any of the votes reports -/
def newerBallot (ballot : Ballot) (votes : List (ValidatorMember × ProposalVote)) : Option Ballot :=
  (votes.filterMap (·.2.promisedBallot)).find? fun b => b.outranks ballot

/-- whether a vote is this member's signature over exactly the expected entry -/
def signsEntry (c : Crypto) (head : LedgerHead) (expected : LedgerEntry) (m : ValidatorMember) (v : ProposalVote)
    (sig : String) : Prop :=
  v.accepted = true ∧ v.entryHash = expected.entryHash ∧ v.sequence = expected.sequence ∧
    v.previousHash = expected.previousHash ∧
    verifyValidatorSignature c m (ledgerEntrySigningMessage head.membershipHash expected.entryHash) sig = true

instance (c : Crypto) (head : LedgerHead) (expected : LedgerEntry) (m : ValidatorMember) (v : ProposalVote)
    (sig : String) : Decidable (signsEntry c head expected m v sig) := by
  unfold signsEntry; infer_instance

def entrySignature (c : Crypto) (head : LedgerHead) (expected : LedgerEntry) (x : ValidatorMember × ProposalVote) :
    Option ValidatorSignature :=
  x.2.signatureB64.bind fun sig =>
    if signsEntry c head expected x.1 x.2 sig then some ⟨x.1.validatorId, sig⟩ else none

def entrySignatures (c : Crypto) (head : LedgerHead) (expected : LedgerEntry)
    (votes : List (ValidatorMember × ProposalVote)) : List ValidatorSignature :=
  votes.filterMap (entrySignature c head expected)

/-- how the vote-collecting half of an attempt ends -/
inductive Gathered where
  | outbid (by_ : Ballot) (why : String)
  | deferred (why : String)
  | rejected (why : String)
  | formed (cert : QuorumCertificate)
deriving DecidableEq

/-- why an attempt fell short of a certificate -/
def shortfall (set : ValidatorSet) (sequence : ℕ) (expected : LedgerEntry)
    (votes : List (ValidatorMember × ProposalVote)) (valid : ℕ) (heightIsTaken : Bool) : Gathered :=
  let judging := (votes.filter fun x => judgedOurBatch x.2 sequence expected.entryHash).length
  let refusals := (votes.filter fun x => !x.2.accepted).filterMap fun x =>
    x.2.error.map fun e => shortId x.1.validatorId ++ ": " ++ e
  if heightIsTaken then .deferred s!"height {sequence} was filled by another proposer"
  else if votes.length < set.threshold then
    .deferred s!"only {votes.length} of {set.members.length} validators answered at height {sequence}"
  else if judging < set.threshold then
    let below := sequence - 1
    .deferred s!"only {judging} of {set.members.length} validators were building on height {below} when the round reached them"
  else
    let why := if refusals = [] then
        "every validator accepted, but not the entry that was put to them; the head this round built on is not the one they hold"
      else "; ".intercalate refusals
    .rejected s!"ledger proposal received only {valid} valid votes; threshold is {set.threshold} ({why})"

/-- `attempt` from its votes to its certificate; `heightIsTaken` is asked of the chain only when the votes fall short -/
def gather (c : Crypto) (set : ValidatorSet) (head : LedgerHead) (expected : LedgerEntry) (req : ProposalRequest)
    (votes : List (ValidatorMember × ProposalVote)) (heightIsTaken : Bool) : Gathered :=
  match newerBallot req.ballot votes with
  | some b =>
    let held := LedgerStore.Ballot.text b
    .outbid b s!"height {req.sequence} was taken by ballot {held} mid-round"
  | none =>
    let sigs := entrySignatures c head expected votes
    if sigs.length < set.threshold then shortfall set req.sequence expected votes sigs.length heightIsTaken
    else
      let cert : QuorumCertificate := ⟨expected, membershipHash c set, sigs⟩
      match verifyCertificate c cert set with
      | .ok () => .formed cert
      | .error e => .rejected e

/-- a certificate is formed from enough signatures over the expected entry, and only if it verifies -/
theorem gather_formed {c : Crypto} {set : ValidatorSet} {head : LedgerHead} {expected : LedgerEntry}
    {req : ProposalRequest} {votes : List (ValidatorMember × ProposalVote)} {taken : Bool} {cert : QuorumCertificate}
    (h : gather c set head expected req votes taken = .formed cert) :
    cert = ⟨expected, membershipHash c set, entrySignatures c head expected votes⟩ ∧
      set.threshold ≤ (entrySignatures c head expected votes).length ∧ verifyCertificate c cert set = .ok () := by
  unfold gather at h
  split at h
  · cases h
  simp only at h
  split_ifs at h with hshort
  · unfold shortfall at h
    simp only at h
    split_ifs at h
  split at h
  · rename_i hverify
    cases h
    exact ⟨rfl, not_lt.1 hshort, hverify⟩
  · cases h

/-- has anybody already filled this height? One signed head is the bar. -/
def aHeadReached (heads : List LedgerHead) (sequence : ℕ) : Bool := heads.any fun h => sequence ≤ h.sequence

end Hocmesh.Network
