/-
Checkpoints and snapshots of the durable ledger (`hocmesh-ledger/src/store.rs`): recording a checkpoint, exporting and
adopting a snapshot, and pruning what a checkpoint makes unnecessary.

A snapshot file is the record `LedgerSnapshot`; writing it out and reading it back is the serializer's business.
-/
import Hocmesh.Ledger.Replay

namespace Hocmesh.Ledger

open Hocmesh.Base Hocmesh.Protocol Hocmesh.Compute

/-- a ledger a newcomer can adopt without replaying the chain that produced it -/
structure LedgerSnapshot where
  certificate : QuorumCertificate
  checkpoint : LedgerCheckpoint
  state : LedgerState

section

variable (c : Crypto)

/-- the file against a validator set the reader already trusts -/
def LedgerSnapshot.verify (snap : LedgerSnapshot) (set : ValidatorSet) : Check Unit := do
  verifyCertificate c snap.certificate set
  verifyCheckpoint c snap.checkpoint set
  let entry := snap.certificate.entry
  bailIf (entry.sequence ≠ snap.checkpoint.head.sequence ∨ entry.entryHash ≠ snap.checkpoint.head.entryHash)
    "snapshot certificate is for a different entry than its checkpoint"
  let hash := snap.state.digest c
  bailIf (hash ≠ snap.checkpoint.stateHash)
    s!"snapshot state hashes to {hash}, but the quorum signed {snap.checkpoint.stateHash}"

namespace LedgerStore

/-- record a checkpoint, but only one this store can reproduce itself -/
def storeCheckpoint (st : LedgerStore) (cp : LedgerCheckpoint) (set : ValidatorSet) : Check LedgerStore := do
  let _ ← auditFrom c st set (some cp)
  sqliteSequence cp.head.sequence
  pure { st with checkpoints := st.checkpoints.insert cp.head.sequence cp }

/-- package the highest checkpoint with the state it vouches for -/
def snapshot (st : LedgerStore) (set : ValidatorSet) : Check LedgerSnapshot := do
  let checkpoint ← orBail st.latestCheckpoint "no checkpoint to build a snapshot from"
  sqliteSequence checkpoint.head.sequence
  let certificate ← orBail (st.certificateAt checkpoint.head.sequence)
    s!"the certificate for checkpoint height {checkpoint.head.sequence} is not held here"
  let state ← st.rewindTo checkpoint.head.sequence
  let snap : LedgerSnapshot := ⟨certificate, checkpoint, state⟩
  snap.verify c set
  pure snap

/-- `INSERT OR REPLACE`, one row after another -/
def insertAll {V W : Type} (t : Table String W) (rows : Table String V) (f : V → W) : Table String W :=
  rows.toList.foldl (fun t row => t.insert row.1 (f row.2)) t

/-- the rows a snapshot writes, all of them under the height it was taken at -/
def installRows (st : LedgerStore) (snap : LedgerSnapshot) : LedgerStore :=
  let at_ := snap.checkpoint.head.sequence
  { st with
    certificates := st.certificates ++ [snap.certificate]
    balances := insertAll st.balances snap.state.balances id
    claims := insertAll st.claims snap.state.claims fun _ => at_
    activityBaseline := insertAll st.activityBaseline snap.state.activity id
    jobReservations := insertAll st.jobReservations snap.state.reservations fun r => (at_, r)
    inferenceReservations := insertAll st.inferenceReservations snap.state.inference fun r => (at_, r)
    checkpoints := st.checkpoints.insert at_ snap.checkpoint }

/-- adopt a verified snapshot into a store that has no chain of its own -/
def installSnapshot (st : LedgerStore) (snap : LedgerSnapshot) (set : ValidatorSet) : Check LedgerStore := do
  snap.verify c set
  bailIf (st.headSequence ≠ 0)
    s!"this store already holds a chain up to height {st.headSequence}; a snapshot is for a store with none"
  sqliteSequence snap.checkpoint.head.sequence
  pure (st.installRows snap)

/-- discard the certificates below the newest checkpoint; the checkpoint's own entry stays -/
def pruneBelowCheckpoint (st : LedgerStore) (set : ValidatorSet) : Check (LedgerStore × ℕ) := do
  let cp ← orBail st.latestCheckpoint "no checkpoint to prune to"
  let _ ← auditFrom c st set (some cp)
  sqliteSequence cp.head.sequence
  let gone := st.certificates.filter fun cert => cert.entry.sequence < cp.head.sequence
  pure ({ st with certificates := st.certificates.filter fun cert => ¬ cert.entry.sequence < cp.head.sequence },
    gone.length)

end LedgerStore

end

end Hocmesh.Ledger
