/-
The durable ledger (`hocmesh-ledger/src/store.rs`): the SQLite tables of one validator and the operations on them.

One field per table, keyed by its primary key. Certificates are kept in ascending sequence, so the row
`ORDER BY sequence DESC LIMIT 1` finds is the last one. A JSON column holds the value itself, since every row is read
back by the type that wrote it. A failed operation returns no store, which is the rolled-back transaction.
`assignment_rewards` is written and never read, and is left out.
-/
import Hocmesh.Base.Table
import Hocmesh.Ledger.Historical

namespace Hocmesh.Ledger

open Hocmesh.Base Hocmesh.Protocol Hocmesh.Compute

/-- one row of `account_activity` -/
structure ActivityRow where
  accountId : String
  sequence : ℕ
  postingIndex : ℕ
  transactionId : String
  deltaMcu : ℤ
  createdAt : ℤ
deriving DecidableEq

/-- one row of `ballots` -/
structure BallotRow where
  promised : Ballot
  accepted : Option AcceptedProposal
deriving DecidableEq

structure LedgerStore where
  certificates : List QuorumCertificate
  balances : Table String ℤ
  claims : Table String ℕ
  activityBaseline : Table String (ℤ × ℤ)
  checkpoints : Table ℕ LedgerCheckpoint
  validatorSets : Table ℕ ValidatorSet
  votes : Table ℕ String
  ballots : Table ℕ BallotRow
  accountActivity : List ActivityRow
  jobReservations : Table String (ℕ × ReservationRecord)
  inferenceReservations : Table String (ℕ × InferenceRecord)

namespace LedgerStore

/-- the store a new database file opens as -/
def empty : LedgerStore :=
  { certificates := [], balances := ∅, claims := ∅, activityBaseline := ∅, checkpoints := ∅, validatorSets := ∅,
    votes := ∅, ballots := ∅, accountActivity := [], jobReservations := ∅, inferenceReservations := ∅ }

/-! ## Reading -/

/-- the sequence and hash a new entry has to extend -/
def headSequence (st : LedgerStore) : ℕ := (st.certificates.getLast?.map (·.entry.sequence)).getD 0

def headHash (st : LedgerStore) : String := (st.certificates.getLast?.map (·.entry.entryHash)).getD "GENESIS"

def head (c : Crypto) (st : LedgerStore) (set : ValidatorSet) : LedgerHead :=
  { sequence := st.headSequence, entryHash := st.headHash, membershipHash := membershipHash c set }

def balance (st : LedgerStore) (account : String) : ℤ := st.balances.entry account

def hasClaim (st : LedgerStore) (key : String) : Prop := key ∈ st.claims

instance (st : LedgerStore) (key : String) : Decidable (st.hasClaim key) := by unfold hasClaim; infer_instance

def certificateAt (st : LedgerStore) (sequence : ℕ) : Option QuorumCertificate :=
  st.certificates.find? fun cert => cert.entry.sequence = sequence

/-- the row of `claims` joined with its certificate -/
def claimDetail (st : LedgerStore) (key : String) : Option (ℕ × String) := do
  let sequence ← st.claims[key]?
  let cert ← st.certificateAt sequence
  pure (sequence, cert.entry.entryHash)

def reservation (st : LedgerStore) (jobId : String) : Option ReservationRecord := st.jobReservations[jobId]?.map (·.2)

/-- the certified facts about an inference job, under the id it was asked for -/
def InferenceRecord.under (r : InferenceRecord) (jobId : String) : InferenceReservation :=
  { jobId, billing := r.billing, batches := r.batches, requester := r.requester, reservedAt := r.reservedAt }

def inferenceReservation (st : LedgerStore) (jobId : String) : Option InferenceReservation :=
  st.inferenceReservations[jobId]?.map fun row => InferenceRecord.under row.2 jobId

/-- `WHERE sequence >= from ORDER BY sequence` -/
def certificatesFrom (st : LedgerStore) (sequence : ℕ) : List QuorumCertificate :=
  st.certificates.filter fun cert => sequence ≤ cert.entry.sequence

/-- the set the chain recognised at a given height -/
def setAt (st : LedgerStore) (sequence : ℕ) : Option ValidatorSet :=
  Table.last? (st.validatorSets.filter fun s _ => s ≤ sequence)

/-- the validator set as the chain last changed it, if it ever has -/
def currentSet (st : LedgerStore) : Option ValidatorSet := st.validatorSets.last?

def latestCheckpoint (st : LedgerStore) : Option LedgerCheckpoint := st.checkpoints.last?

/-! ## Ballots -/

/-- a sequence SQLite can store -/
def sqliteSequence (sequence : ℕ) : Check Unit :=
  bailIf ((sequence : ℤ) > i64Max) "ledger sequence exceeds SQLite INTEGER range"

def Ballot.text (b : Ballot) : String := s!"{b.number}@{b.proposer}"

/-- reserve a height for one proposer and report what is already signed there -/
def promise (st : LedgerStore) (sequence : ℕ) (ballot : Ballot) : Check (LedgerStore × Option AcceptedProposal) := do
  sqliteSequence sequence
  match st.ballots[sequence]? with
  | some row => do
    let held := Ballot.text row.promised
    bailIf (row.promised.outranks ballot) s!"sequence {sequence} is promised to ballot {held}"
    pure ({ st with ballots := st.ballots.insert sequence { row with promised := ballot } }, row.accepted)
  | none => pure ({ st with ballots := st.ballots.insert sequence ⟨ballot, none⟩ }, none)

/-- the ballot currently holding a height, if any -/
def promisedBallot (st : LedgerStore) (sequence : ℕ) : Option Ballot := st.ballots[sequence]?.map (·.promised)

/-- put this validator's name behind one batch at one height -/
def acceptBallot (st : LedgerStore) (sequence : ℕ) (ballot : Ballot) (entryHash : String)
    (transactions : List LedgerTransaction) : Check LedgerStore := do
  sqliteSequence sequence
  match st.promisedBallot sequence with
  | some promised =>
    let held := Ballot.text promised
    bailIf (promised.outranks ballot) s!"sequence {sequence} has moved on to ballot {held}"
  | none => pure ()
  bailIf (∃ h, st.votes[sequence]? = some h ∧ h ≠ entryHash)
    s!"sequence {sequence} already carries a different committed entry"
  pure { st with ballots := st.ballots.insert sequence ⟨ballot, some ⟨ballot, entryHash, transactions⟩⟩ }

/-! ## Applying a certificate -/

/-- `INSERT OR REPLACE INTO account_activity` -/
def upsertActivity (rows : List ActivityRow) (row : ActivityRow) : List ActivityRow :=
  rows.filter (fun r => ¬ (r.accountId = row.accountId ∧ r.sequence = row.sequence ∧ r.postingIndex = row.postingIndex))
    ++ [row]

/-- the postings of an entry, numbered across the whole entry -/
def activityRows (entry : LedgerEntry) : List ActivityRow :=
  (entry.transactions.flatMap fun t => t.postings.map fun p => (t, p)).zipIdx.map fun x =>
    { accountId := x.1.2.accountId, sequence := entry.sequence, postingIndex := x.2,
      transactionId := x.1.1.transactionId, deltaMcu := x.1.2.deltaMcu, createdAt := x.1.1.createdAt }

/-- the record a CPU reserve leaves -/
def jobRecord (tx : LedgerTransaction) : Option (String × ReservationRecord) :=
  match tx.evidence with
  | .jobReserve e => some (e.jobId, ⟨e.work, e.shards, false, some e.requesterAuth.nodeId, tx.createdAt⟩)
  | .communityReserve e => some (e.jobId, ⟨e.work, e.shards, true, none, tx.createdAt⟩)
  | _ => none

/-- the record an inference reserve leaves -/
def inferenceRecord (tx : LedgerTransaction) : Option (String × InferenceRecord) :=
  match tx.evidence with
  | .inferenceReserve e => some (e.jobId, ⟨e.billing, e.batches, e.requesterAuth.nodeId, tx.createdAt⟩)
  | _ => none

/-- insert the row a transaction leaves, if it leaves one -/
def upsert {V W : Type} (t : Table String W) (row : Option (String × V)) (f : V → W) : Table String W :=
  match row with
  | some (k, v) => t.insert k (f v)
  | none => t

/-- `index_certificate`: the derived rows of one entry -/
def indexCertificate (st : LedgerStore) (entry : LedgerEntry) : LedgerStore :=
  { st with
    accountActivity := (activityRows entry).foldl upsertActivity st.accountActivity
    jobReservations := entry.transactions.foldl (fun t tx => upsert t (jobRecord tx) fun r => (entry.sequence, r))
      st.jobReservations
    inferenceReservations := entry.transactions.foldl
      (fun t tx => upsert t (inferenceRecord tx) fun r => (entry.sequence, r)) st.inferenceReservations }

/-- one posting of apply's own balance pass -/
def applyPosting (balances : Table String ℤ) (p : Posting) : Check (Table String ℤ) := do
  let next ← orBail (checkedAdd64 (balances.entry p.accountId) p.deltaMcu) "balance overflow"
  bailIf (next < 0 ∧ p.accountId ≠ communityIssuanceAccount ∧ p.accountId.startsWith "hocmesh:escrow:" = false)
    "negative user balance"
  bailIf (next < 0 ∧ p.accountId.startsWith "hocmesh:escrow:" = true) "negative escrow balance"
  pure (balances.insert p.accountId next)

def applyBalances (balances : Table String ℤ) (transactions : List LedgerTransaction) : Check (Table String ℤ) :=
  (transactions.flatMap (·.postings)).foldlM applyPosting balances

section

variable (c : Crypto)

/-- the evidence loop: check each transaction again and carry the set a membership change leaves -/
def evidenceStep (previousHash : String) (signatures : List ValidatorSignature) (set : ValidatorSet)
    (tx : LedgerTransaction) : Check ValidatorSet := do
  verifyHistoricalEvidence c tx previousHash signatures
  match tx.evidence with
  | .membershipChange e => verifyMembershipChange c set e
  | _ => pure set

/-- whether the entry changes the set, so that a new row of `validator_set` is written -/
def changesSet (transactions : List LedgerTransaction) : Bool :=
  transactions.any fun tx => match tx.evidence with
    | .membershipChange _ => true
    | _ => false

/-- the rows one accepted certificate writes -/
def commitRows (st : LedgerStore) (cert : QuorumCertificate) (balances : Table String ℤ) (next : ValidatorSet) :
    LedgerStore :=
  let sequence := cert.entry.sequence
  indexCertificate
    { st with
      balances := balances
      certificates := st.certificates ++ [cert]
      claims := cert.entry.transactions.foldl (fun t tx => t.insert (claimKey tx) sequence) st.claims
      votes := if sequence ∈ st.votes then st.votes else st.votes.insert sequence cert.entry.entryHash
      ballots := st.ballots.filter fun s _ => sequence < s
      validatorSets := if changesSet cert.entry.transactions then st.validatorSets.insert sequence next
        else st.validatorSets }
    cert.entry

def apply (st : LedgerStore) (cert : QuorumCertificate) (set : ValidatorSet) : Check LedgerStore := do
  verifyCertificate c cert set
  let next ← cert.entry.transactions.foldlM (evidenceStep c cert.entry.previousHash cert.signatures) set
  bailIf (cert.entry.sequence ≠ st.headSequence + 1 ∨ cert.entry.previousHash ≠ st.headHash)
    "certificate does not extend local head"
  each (fun t => bailIf (st.hasClaim (claimKey t)) s!"ledger claim already settled: {claimKey t}")
    cert.entry.transactions
  let balances ← applyBalances st.balances cert.entry.transactions
  sqliteSequence cert.entry.sequence
  bailIf (∃ held ∈ st.certificates, held.entry.entryHash = cert.entry.entryHash)
    "UNIQUE constraint failed: certificates.entry_hash"
  pure (st.commitRows cert balances next)

end

/-- `rebuild_indexes`, which every `open` runs: the derived tables above the newest checkpoint are computed again -/
def reopen (st : LedgerStore) : LedgerStore :=
  let floor := (st.latestCheckpoint.map (·.head.sequence)).getD 0
  (st.certificatesFrom (floor + 1)).foldl (fun s cert => indexCertificate s cert.entry)
    { st with
      accountActivity := st.accountActivity.filter fun r => r.sequence ≤ floor
      jobReservations := st.jobReservations.filter fun _ row => row.1 ≤ floor
      inferenceReservations := st.inferenceReservations.filter fun _ row => row.1 ≤ floor }

end LedgerStore

/-! ## The state a store holds -/

/-- everything an audit needs in order to start somewhere other than genesis -/
@[ext] structure LedgerState where
  balances : Table String ℤ
  claims : Table String Unit
  reservations : Table String ReservationRecord
  inference : Table String InferenceRecord
  activity : Table String (ℤ × ℤ)

namespace LedgerState

def empty : LedgerState := ⟨∅, ∅, ∅, ∅, ∅⟩

/-- a hash two nodes holding the same state agree on; zero rows do not count -/
def digest (c : Crypto) (s : LedgerState) : String :=
  hashJson c (.state "hocmesh-state-v2" (s.balances.toList.filter fun row => row.2 ≠ 0) (s.claims.toList.map (·.1))
    s.reservations.toList s.inference.toList (s.activity.toList.filter fun row => row.2.1 ≠ 0 ∨ row.2.2 ≠ 0))

end LedgerState

/-- what one posting adds to the lifetime (earned, spent) of its account -/
def addActivity (seen : ℤ × ℤ) (delta : ℤ) : ℤ × ℤ :=
  if delta > 0 then (seen.1 + delta, seen.2) else (seen.1, seen.2 - delta)

/-- exact lifetime totals, one account at a time -/
def postActivity (t : Table String (ℤ × ℤ)) (account : String) (delta : ℤ) : Table String (ℤ × ℤ) :=
  t.insert account (addActivity (t[account]?.getD (0, 0)) delta)

namespace LedgerStore

/-- `SUM(..) GROUP BY account_id`, before SQLite looks at the width of the sums -/
def sumActivity (rows : List ActivityRow) : Table String (ℤ × ℤ) :=
  rows.foldl (fun t r => postActivity t r.accountId r.deltaMcu) ∅

/-- both totals of every account fit an SQLite INTEGER -/
def activityFits (t : Table String (ℤ × ℤ)) : Prop := ∀ row ∈ t.toList, FitsI64 row.2.1 ∧ FitsI64 row.2.2

instance (t : Table String (ℤ × ℤ)) : Decidable (activityFits t) := by unfold activityFits; infer_instance

/-- what a snapshot carried in is added underneath the postings this store holds -/
def addBaseline (t : Table String (ℤ × ℤ)) (row : String × (ℤ × ℤ)) : Table String (ℤ × ℤ) :=
  let slot := t[row.1]?.getD (0, 0)
  t.insert row.1 (wrap64 (slot.1 + row.2.1), wrap64 (slot.2 + row.2.2))

/-- the whole state this store currently holds; an integer `SUM` that overflows is an SQLite error -/
def state (st : LedgerStore) : Check LedgerState := do
  let sums := sumActivity st.accountActivity
  bailIf (¬ activityFits sums) "integer overflow"
  pure { balances := st.balances
         claims := st.claims.map fun _ _ => ()
         reservations := st.jobReservations.map fun _ row => row.2
         inference := st.inferenceReservations.map fun _ row => row.2
         activity := st.activityBaseline.toList.foldl addBaseline sums }

/-- lifetime earned and spent of one account -/
def activity (st : LedgerStore) (account : String) : Check (ℤ × ℤ) := do
  let sums := (sumActivity (st.accountActivity.filter fun r => r.accountId = account))[account]?.getD (0, 0)
  bailIf (¬ (FitsI64 sums.1 ∧ FitsI64 sums.2)) "integer overflow"
  let base := st.activityBaseline[account]?.getD (0, 0)
  pure (wrap64 (sums.1 + base.1), wrap64 (sums.2 + base.2))

end LedgerStore

end Hocmesh.Ledger
