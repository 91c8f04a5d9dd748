/-
Clients, validators and the messages between them.

The network is the pool of everything ever sent: a message that is lost is one nobody takes out, a delayed, reordered or
duplicated one is taken out late, in another order or more than once. Nothing leaves the pool. An answer carries the
request it answers, as an HTTP response does. A client that stops takes no further action; a validator that crashes
restarts on the database it had. Ballots name attempts: `begin` takes a fresh one from the client's own counter, which
is taken not to run through all of `u64`.
-/
import Mathlib.Logic.Function.Basic
import Hocmesh.Network.Client

namespace Hocmesh.Network

open Hocmesh.Base Hocmesh.Protocol Hocmesh.Ledger Hocmesh.Validator

/-- how far an attempt has come -/
inductive Stage where
  | claiming
  | proposing (expected : LedgerEntry) (req : ProposalRequest)
  | ended
deriving DecidableEq

/-- one attempt at one height: the head it builds on and the batch it was asked to settle -/
structure Attempt where
  head : LedgerHead
  transactions : List LedgerTransaction
  stage : Stage
deriving DecidableEq

structure Net where
  /-- the validators, by id -/
  apps : String → App
  /-- the clients, by proposer name -/
  clients : String → LedgerNetwork
  attempts : Ballot → Option Attempt
  heads : List (String × HeadProof)
  prepares : List PrepareRequest
  promises : List (String × PrepareRequest × PrepareVote)
  proposals : List ProposalRequest
  votes : List (String × ProposalRequest × ProposalVote)
  certs : List QuorumCertificate

/-- members of one set on empty databases, each with its own key, and clients that have done nothing yet -/
def Net.start (set : ValidatorSet) (keys : String → String → String) : Net where
  apps v := ⟨LedgerStore.empty, set, v, keys v⟩
  clients p := ⟨set, 0, p, 0⟩
  attempts _ := none
  heads := []
  prepares := []
  promises := []
  proposals := []
  votes := []
  certs := []

inductive Action where
  /-- a validator answers a head request -/
  | head (v : String)
  /-- a client reads the head of a quorum, takes a ballot and asks for promises -/
  | begin (p : String) (transactions : List LedgerTransaction) (answers : List (Option HeadProof))
      (counts : List ((ℕ × String) × ℕ))
  /-- a validator handles a prepare request -/
  | prepare (v : String) (req : PrepareRequest)
  /-- a client looks at its prepare votes and proposes -/
  | claim (ballot : Ballot) (answers : List (Option PrepareVote))
  /-- a validator handles a proposal -/
  | propose (v : String) (req : ProposalRequest)
  /-- a client looks at its proposal votes -/
  | collect (ballot : Ballot) (answers : List (Option ProposalVote)) (heightIsTaken : Bool)
  /-- a validator handles a certificate -/
  | commit (v : String) (cert : QuorumCertificate)
  /-- a validator applies a page of certificates it fetched -/
  | catchUp (v : String) (target : ℕ) (page : List QuorumCertificate)
  /-- the set a catch-up left is published, however late -/
  | publish (v : String) (height : ℕ)
  /-- a validator restarts with its database -/
  | restart (v publicKeyB64 : String)
deriving DecidableEq

namespace Net

variable (c : Crypto) (set : ValidatorSet)

/-- the answers a client holds are ones its own request got from the members it asked -/
def Answers {α : Type} (answers : List (Option α)) (sent : String → α → Prop) : Prop :=
  ∀ x ∈ answered set answers, sent x.1.validatorId x.2

instance {α : Type} (answers : List (Option α)) (sent : String → α → Prop) [∀ v a, Decidable (sent v a)] :
    Decidable (Answers set answers sent) := by
  unfold Answers; infer_instance

def setApp (net : Net) (v : String) (a : App) : Net := { net with apps := Function.update net.apps v a }

def setStage (net : Net) (ballot : Ballot) (att : Attempt) (stage : Stage) : Net :=
  { net with attempts := Function.update net.attempts ballot (some { att with stage := stage }) }

def begin (net : Net) (p : String) (transactions : List LedgerTransaction) (answers : List (Option HeadProof))
    (counts : List ((ℕ × String) × ℕ)) : Option Net :=
  let client := net.clients p
  if Answers set answers (fun v h => (v, h) ∈ net.heads) ∧ counts.Perm (headCounts (signedHeads c set answers)) ∧
      client.ballot + 1 < 2 ^ 64 then
    match headQuorum c set counts with
    | .ok head =>
      let (client, ballot) := client.nextBallot
      some { net with
        clients := Function.update net.clients p client
        attempts := Function.update net.attempts ballot (some ⟨head, transactions, .claiming⟩)
        prepares := ⟨head.sequence + 1, ballot⟩ :: net.prepares }
    | .error _ => none
  else none

def claim (net : Net) (ballot : Ballot) (answers : List (Option PrepareVote)) : Option Net :=
  match net.attempts ballot with
  | some ⟨head, transactions, .claiming⟩ =>
    let sequence := head.sequence + 1
    if Answers set answers (fun v a => (v, ⟨sequence, ballot⟩, a) ∈ net.promises) then
      let votes := heightVotes set sequence answers
      let client := (votes.filterMap (·.promisedBallot)).foldl LedgerNetwork.outbid (net.clients ballot.proposer)
      let net := { net with clients := Function.update net.clients ballot.proposer client }
      match claimHeight set sequence votes with
      | .ok adopted =>
        let txs := proposedTransactions transactions adopted
        let req : ProposalRequest := ⟨txs, sequence, ballot⟩
        some { net.setStage ballot ⟨head, transactions, .claiming⟩
            (.proposing (buildEntry c sequence head.entryHash txs) req) with
          proposals := req :: net.proposals }
      | .error _ => some (net.setStage ballot ⟨head, transactions, .claiming⟩ .ended)
    else none
  | _ => none

def collect (net : Net) (ballot : Ballot) (answers : List (Option ProposalVote)) (heightIsTaken : Bool) : Option Net :=
  match net.attempts ballot with
  | some ⟨head, transactions, .proposing expected req⟩ =>
    if Answers set answers (fun v a => (v, req, a) ∈ net.votes) then
      let done := net.setStage ballot ⟨head, transactions, .proposing expected req⟩ .ended
      match gather c set head expected req (answered set answers) heightIsTaken with
      | .outbid b _ => some { done with
          clients := Function.update net.clients ballot.proposer ((net.clients ballot.proposer).outbid b) }
      | .formed cert => some { done with certs := cert :: net.certs }
      | .deferred _ => some done
      | .rejected _ => some done
    else none
  | _ => none

/-- one action, if it is possible now -/
def step (net : Net) : Action → Option Net
  | .head v => some { net with heads := (v, headProof c (net.apps v)) :: net.heads }
  | .begin p transactions answers counts => net.begin c set p transactions answers counts
  | .prepare v req =>
    if req ∈ net.prepares then
      let (a, vote) := Validator.prepare (net.apps v) req
      some { net.setApp v a with promises := (v, req, vote) :: net.promises }
    else none
  | .claim ballot answers => net.claim c set ballot answers
  | .propose v req =>
    if req ∈ net.proposals then
      let (a, vote) := Validator.propose c (net.apps v) req
      some { net.setApp v a with votes := (v, req, vote) :: net.votes }
    else none
  | .collect ballot answers heightIsTaken => net.collect c set ballot answers heightIsTaken
  | .commit v cert =>
    if cert ∈ net.certs then
      match Validator.commit c (net.apps v) cert with
      | .ok (a, _) => some (net.setApp v a)
      | .error _ => none
    else none
  | .catchUp v target page =>
    if ∀ cert ∈ page, cert ∈ net.certs then
      some (net.setApp v { net.apps v with store := (catchUpPage c (net.apps v) target page).1 })
    else none
  | .publish v height =>
    some (net.setApp v { net.apps v with set := ((net.apps v).store.setAt height).getD set })
  | .restart v publicKeyB64 =>
    match Validator.restart (net.apps v) set publicKeyB64 with
    | .ok a => some (net.setApp v a)
    | .error _ => none

/-- a run: any number of actions, in any order -/
inductive Run (keys : String → String → String) : Net → Prop
  | start : Run keys (Net.start set keys)
  | step {net net' : Net} (h : Run keys net) (a : Action) (hs : net.step c set a = some net') : Run keys net'

/-- a schedule, each action chosen in the network it finds -/
def follow (net : Net) (plan : List (Net → Action)) : Option Net := plan.foldlM (fun net a => net.step c set (a net)) net

variable {c set}

theorem Run.follow {keys : String → String → String} {net net' : Net} (h : Run c set keys net)
    {plan : List (Net → Action)} (hp : net.follow c set plan = some net') : Run c set keys net' := by
  induction plan generalizing net with
  | nil =>
    cases hp
    exact h
  | cons a plan ih =>
    obtain ⟨next, hs, hrest⟩ := Option.bind_eq_some_iff.1 hp
    exact ih (h.step (a net) hs) hrest

end Net

end Hocmesh.Network
