/-
Exporting what a checkpoint vouches for.

A snapshot carries the checkpoint and the certificate at its height, and `verify` checks both against one set. The
checkpoint of a height is signed by the set sitting after it, the certificate by the set sitting before it. So the
checkpoints that can be exported are the ones whose own entry left the set as it was.
-/
import Hocmesh.Books.Routes

namespace Hocmesh.Books

open Hocmesh.Base Hocmesh.Protocol Hocmesh.Compute Hocmesh.Ledger Hocmesh.Validator

/-- the history has an entry at the checkpoint's height, it is the one the checkpoint names, and the set the checkpoint
was checked against certified it -/
def CertifiedBy (c : Crypto) (certs : List QuorumCertificate) (cp : LedgerCheckpoint) (set : ValidatorSet) : Prop :=
  ∃ cert ∈ certs, cert.entry.sequence = cp.head.sequence ∧ cert.entry.entryHash = cp.head.entryHash ∧
    verifyCertificate c cert set = .ok ()

section

variable {c : Crypto} {Q : LedgerStore → LedgerCheckpoint → ValidatorSet → Prop} {certs : List QuorumCertificate}
  {log : List (LedgerCheckpoint × ValidatorSet)} {st : LedgerStore} {base kept : ℕ}

/-- every checkpoint a store recorded carried a quorum of the set it was checked against -/
theorem Route.verified (h : Route c Q certs log st) :
    ∀ x ∈ log, verifyCheckpoint c x.1 x.2 = .ok () := by
  induction h with
  | empty => simp
  | ballots _ _ ih => exact ih
  | apply _ _ ih => exact ih
  | checkpoint _ _ hcp ih =>
    intro x hx
    rcases List.mem_append.1 hx with hx | hx
    · exact ih x hx
    · rw [List.mem_singleton.1 hx]
      exact (storeCheckpoint_ok hcp).1.1
  | prune _ _ ih => exact ih
  | reopen _ ih => exact ih
  | restore _ _ _ _ => simp

/-- the certificate at the height of the newest checkpoint is still there, if there ever was one -/
theorem Holds.certificateAt_floor (h : Holds c certs base kept st) {cert : QuorumCertificate} (hc : cert ∈ certs)
    (hseq : cert.entry.sequence = floorOf st) : st.certificateAt (floorOf st) = some cert := by
  obtain ⟨i, hi⟩ := List.mem_iff_getElem?.1 hc
  have hnum := h.history.numbered i cert hi
  have hkept : kept < floorOf st := by
    have := h.kept_lt
    omega
  rw [h.certificateAt hkept, ← hi]
  congr 1
  omega

theorem Holds.mem_of_certificateAt (h : Holds c certs base kept st) {q : ℕ} {cert : QuorumCertificate}
    (hc : st.certificateAt q = some cert) : cert ∈ certs := by
  have hmem := List.mem_of_find?_eq_some hc
  rw [h.certificates] at hmem
  exact List.mem_of_mem_drop hmem

/-- rewinding to the newest checkpoint gives back what the quorum signed -/
theorem Holds.rewinds_to_floor (h : Holds c certs base kept st) (hfits : LifetimeFits certs) {cp : LedgerCheckpoint}
    (hcp : st.latestCheckpoint = some cp) :
    ∃ s, st.rewindTo cp.head.sequence = .ok s ∧ s.digest c = cp.stateHash := by
  obtain ⟨hrange, s', hrec', hd⟩ := h.sealed cp hcp
  have hfloor : floorOf st = cp.head.sequence := by simp [floorOf, hcp]
  obtain ⟨s0, hs0, _⟩ := h.state_ok hfits
  have hrewind : ∃ s, st.rewindTo cp.head.sequence = .ok s := by
    simp only [LedgerStore.rewindTo, bind_ok, pure_ok, exists_const, LedgerStore.sqliteSequence, bailIf_ok]
    exact ⟨_, s0, hs0, by omega, rfl⟩
  obtain ⟨s, hs⟩ := hrewind
  have hrec := h.rewinds (hfloor ▸ h.kept_le) (hfloor ▸ h.base_le) hs
  exact ⟨s, hs, (hrec.digest_eq hrec' c).trans hd⟩

/-- **Which checkpoints can be exported.** In every store reached by any route whose checkpoints were for heights already
reached and whose totals fit: the newest checkpoint, recorded under some set, can be exported under that set and the file
adopted by an empty store exactly when that set also certified the entry the checkpoint names. -/
theorem checkpoint_exports_iff (h : Route c Reached certs log st) (hfits : LifetimeFits certs) {cp : LedgerCheckpoint}
    {set : ValidatorSet} (hcp : st.latestCheckpoint = some cp) (hlog : (cp, set) ∈ log) :
    (∃ snap st', st.snapshot c set = .ok snap ∧ LedgerStore.empty.installSnapshot c snap set = .ok st') ↔
      CertifiedBy c certs cp set := by
  obtain ⟨base, kept, hold⟩ := h.holds fun _ _ _ hq => hq
  have hfloor : floorOf st = cp.head.sequence := by simp [floorOf, hcp]
  constructor
  · rintro ⟨snap, _, hsnap, _⟩
    obtain ⟨hlatest, hcert, _, hv⟩ := snapshot_ok hsnap
    obtain ⟨hcertified, _, hseq, hhash, _⟩ := snapshot_verify_ok.1 hv
    rw [hcp] at hlatest
    cases hlatest
    exact ⟨snap.certificate, hold.mem_of_certificateAt hcert, hseq, hhash, hcertified⟩
  · rintro ⟨cert, hmem, hseq, hhash, hcertified⟩
    obtain ⟨s, hs, hd⟩ := hold.rewinds_to_floor hfits hcp
    have hheld : st.certificateAt cp.head.sequence = some cert := by
      rw [← hfloor] at hseq ⊢
      exact hold.certificateAt_floor hmem hseq
    have hrange : (cp.head.sequence : ℤ) ≤ i64Max := by
      have := (hold.sealed cp hcp).1
      omega
    have hv : LedgerSnapshot.verify c ⟨cert, cp, s⟩ set = .ok () :=
      snapshot_verify_ok.2 ⟨hcertified, h.verified _ hlog, hseq, hhash, hd⟩
    refine ⟨⟨cert, cp, s⟩, _, ?_, installSnapshot_ok.2 ⟨hv, rfl, hrange, rfl⟩⟩
    simp only [LedgerStore.snapshot, LedgerStore.sqliteSequence, bind_ok, orBail_ok, bailIf_ok, exists_const,
      exists_ok_unit_and, pure_ok]
    exact ⟨cp, hcp, by omega, cert, hheld, s, hs, hv, rfl⟩

end

/-! ## A checkpoint of an ordinary entry, and one of a membership change -/

namespace Sample

open Hocmesh.Protocol.Sample

structure MarkedRun where
  cert : QuorumCertificate
  cp : LedgerCheckpoint
  marked : LedgerStore

/-- one entry, and a checkpoint of it that the set sitting afterwards signs -/
def markedRun (before after : ValidatorSet) (signers : List ℕ) (txs : List LedgerTransaction) : Check MarkedRun := do
  let cert := certify before [0] LedgerStore.empty txs
  let st ← LedgerStore.empty.apply crypto cert before
  let cp ← checkpointOf signers (st.head crypto after) st
  let marked ← st.storeCheckpoint crypto cp after
  pure ⟨cert, cp, marked⟩

theorem markedRun_route {before after : ValidatorSet} {signers : List ℕ} {txs : List LedgerTransaction} {r : MarkedRun}
    (h : markedRun before after signers txs = .ok r) :
    Route crypto Reached [r.cert] [(r.cp, after)] r.marked := by
  simp only [markedRun, bind_ok, pure_ok] at h
  obtain ⟨st, h1, cp, h2, marked, h3, rfl⟩ := h
  have hcp : Reached st cp after := by
    simp only [checkpointOf, bind_ok, pure_ok] at h2
    obtain ⟨_, _, rfl⟩ := h2
    exact le_rfl
  exact ((Route.empty (c := crypto) (Q := Reached)).apply h1).checkpoint hcp h3

/-- validator 0 admits validator 1 -/
def admitSecond : LedgerTransaction :=
  membershipChange "join" (Ledger.Sample.vouchedChange (committee 1) (committee 2) .join (member 1) [0]) 50

end Sample

/-- the checkpoint of a mint is exported and adopted -/
theorem mint_checkpoint_exports :
    ∃ certs log st cp snap st', Route Sample.crypto Reached certs log st ∧ st.latestCheckpoint = some cp ∧
      (cp, Sample.committee 1) ∈ log ∧ st.snapshot Sample.crypto (Sample.committee 1) = .ok snap ∧
      LedgerStore.empty.installSnapshot Sample.crypto snap (Sample.committee 1) = .ok st' := by
  have hrun : (Sample.markedRun (Sample.committee 1) (Sample.committee 1) [0] [Sample.smallMint]).okWith (fun r =>
      LifetimeFits [r.cert] ∧ r.marked.latestCheckpoint = some r.cp ∧
        r.cert.entry.sequence = r.cp.head.sequence ∧ r.cert.entry.entryHash = r.cp.head.entryHash ∧
        (verifyCertificate Sample.crypto r.cert (Sample.committee 1)).okWith (fun _ => true) = true) = true := by
    decide +kernel
  obtain ⟨r, hr, hfacts⟩ := (okWith_iff _ _).1 hrun
  obtain ⟨hfits, hlatest, hseq, hhash, hv⟩ := of_decide_eq_true hfacts
  obtain ⟨_, hv, _⟩ := (okWith_iff _ _).1 hv
  have hroute := Sample.markedRun_route hr
  obtain ⟨snap, st', hsnap, hinst⟩ := (checkpoint_exports_iff hroute hfits hlatest (by simp)).2
    ⟨r.cert, by simp, hseq, hhash, hv⟩
  exact ⟨_, _, _, _, snap, st', hroute, hlatest, by simp, hsnap, hinst⟩

/-- the checkpoint of a membership change, signed by the whole new set and recorded under it, cannot be exported under it -/
theorem join_checkpoint_not_exported :
    ∃ certs log st cp, Route Sample.crypto (fun _ _ _ => True) certs log st ∧ st.latestCheckpoint = some cp ∧
      (cp, Sample.committee 2) ∈ log ∧ LifetimeFits certs ∧
      ¬ ∃ snap, st.snapshot Sample.crypto (Sample.committee 2) = .ok snap := by
  have hrun : (Sample.markedRun (Sample.committee 1) (Sample.committee 2) [0, 1] [Sample.admitSecond]).okWith (fun r =>
      LifetimeFits [r.cert] ∧ r.marked.latestCheckpoint = some r.cp ∧
        ¬ (r.marked.snapshot Sample.crypto (Sample.committee 2)).okWith (fun _ => true) = true) = true := by
    decide +kernel
  obtain ⟨r, hr, hfacts⟩ := (okWith_iff _ _).1 hrun
  obtain ⟨hfits, hlatest, hrefused⟩ := of_decide_eq_true hfacts
  refine ⟨_, _, _, _, (Sample.markedRun_route hr).mono fun _ _ _ _ => trivial, hlatest, by simp, hfits, ?_⟩
  rintro ⟨snap, hsnap⟩
  exact hrefused ((okWith_iff _ _).2 ⟨snap, hsnap, rfl⟩)

end Hocmesh.Books
