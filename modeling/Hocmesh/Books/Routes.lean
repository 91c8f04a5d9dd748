/-
Replica equivalence: whichever way a store came to hold a history, it answers the same.

`Route` is every way there is. The one thing no route may contain is a checkpoint for a height the store has not reached:
`store_checkpoint` compares the state it can reproduce with the hash the quorum signed and never the height the quorum
signed it for, so such a checkpoint is recorded, and pruning to it discards the whole chain.
-/
import Hocmesh.Books.Replicas
import Hocmesh.Books.Sample

namespace Hocmesh.Books

open Hocmesh.Base Hocmesh.Protocol Hocmesh.Compute Hocmesh.Ledger Hocmesh.Validator

/-- the ways a store can come to hold a history of certificates. `Q` restricts the checkpoints it is given; `log` is
every checkpoint it has recorded itself, with the set it was checked against. -/
inductive Route (c : Crypto) (Q : LedgerStore → LedgerCheckpoint → ValidatorSet → Prop) :
    List QuorumCertificate → List (LedgerCheckpoint × ValidatorSet) → LedgerStore → Prop
  | empty : Route c Q [] [] LedgerStore.empty
  | ballots {certs : List QuorumCertificate} {log : List (LedgerCheckpoint × ValidatorSet)} {st : LedgerStore}
      (table : Table ℕ BallotRow) : Route c Q certs log st → Route c Q certs log { st with ballots := table }
  | apply {certs : List QuorumCertificate} {log : List (LedgerCheckpoint × ValidatorSet)} {st st' : LedgerStore}
      {cert : QuorumCertificate} {set : ValidatorSet} :
      Route c Q certs log st → st.apply c cert set = .ok st' → Route c Q (certs ++ [cert]) log st'
  | checkpoint {certs : List QuorumCertificate} {log : List (LedgerCheckpoint × ValidatorSet)} {st st' : LedgerStore}
      {cp : LedgerCheckpoint} {set : ValidatorSet} :
      Route c Q certs log st → Q st cp set → st.storeCheckpoint c cp set = .ok st' →
        Route c Q certs (log ++ [(cp, set)]) st'
  | prune {certs : List QuorumCertificate} {log : List (LedgerCheckpoint × ValidatorSet)} {st st' : LedgerStore}
      {set : ValidatorSet} {n : ℕ} :
      Route c Q certs log st → st.pruneBelowCheckpoint c set = .ok (st', n) → Route c Q certs log st'
  | reopen {certs : List QuorumCertificate} {log : List (LedgerCheckpoint × ValidatorSet)} {st : LedgerStore} :
      Route c Q certs log st → Route c Q certs log st.reopen
  | restore {certs : List QuorumCertificate} {log : List (LedgerCheckpoint × ValidatorSet)} {st st' : LedgerStore}
      {set set' : ValidatorSet} {snap : LedgerSnapshot} :
      Route c Q certs log st → st.snapshot c set = .ok snap → LedgerStore.empty.installSnapshot c snap set' = .ok st' →
        Route c Q (certs.take snap.checkpoint.head.sequence) [] st'

/-- the checkpoint is for a height this store has reached -/
def Reached (st : LedgerStore) (cp : LedgerCheckpoint) (_ : ValidatorSet) : Prop :=
  cp.head.sequence ≤ st.headSequence

/-- no account's lifetime totals over the history outgrow an SQLite INTEGER -/
def LifetimeFits (certs : List QuorumCertificate) : Prop :=
  LedgerStore.activityFits ((postingsOf certs).foldl (fun t p => postActivity t p.accountId p.deltaMcu) ∅)

instance (certs : List QuorumCertificate) : Decidable (LifetimeFits certs) := by unfold LifetimeFits; infer_instance

section

variable {c : Crypto} {Q : LedgerStore → LedgerCheckpoint → ValidatorSet → Prop} {certs : List QuorumCertificate}
  {log : List (LedgerCheckpoint × ValidatorSet)} {st st' : LedgerStore} {base base' kept kept' : ℕ}

theorem installSnapshot_ok {snap : LedgerSnapshot} {set : ValidatorSet} :
    st.installSnapshot c snap set = .ok st' ↔
      snap.verify c set = .ok () ∧ st.headSequence = 0 ∧ (snap.checkpoint.head.sequence : ℤ) ≤ i64Max ∧
        st' = st.installRows snap := by
  simp only [LedgerStore.installSnapshot, bind_ok, bailIf_ok, exists_const, exists_ok_unit_and, pure_ok,
    LedgerStore.sqliteSequence, not_not, gt_iff_lt, not_lt]
  constructor <;> rintro ⟨h1, h2, h3, h4⟩ <;> exact ⟨h1, h2, h3, h4.symm⟩

theorem Route.mono {Q' : LedgerStore → LedgerCheckpoint → ValidatorSet → Prop}
    (h : Route c Q certs log st) (hQ : ∀ st cp set, Q st cp set → Q' st cp set) : Route c Q' certs log st := by
  induction h with
  | empty => exact .empty
  | ballots table _ ih => exact .ballots table ih
  | apply _ hap ih => exact ih.apply hap
  | checkpoint _ hq hcp ih => exact ih.checkpoint (hQ _ _ _ hq) hcp
  | prune _ hp ih => exact ih.prune hp
  | reopen _ ih => exact ih.reopen
  | restore _ hsnap hinst ih => exact ih.restore hsnap hinst

/-- **Every route leads to a store that holds the history.** -/
theorem Route.holds (h : Route c Q certs log st) (hQ : ∀ st cp set, Q st cp set → Reached st cp set) :
    ∃ base kept, Holds c certs base kept st := by
  induction h with
  | empty => exact ⟨0, 0, holds_empty c⟩
  | ballots table _ ih =>
    obtain ⟨base, kept, hold⟩ := ih
    exact ⟨base, kept, hold.history, hold.certificates, hold.balances, hold.claims, hold.jobs, hold.inference,
      hold.rows, hold.baseline, hold.keyed, hold.sealed, hold.reached, hold.base_le, hold.base_held, hold.kept_lt⟩
  | apply _ hap ih =>
    obtain ⟨base, kept, hold⟩ := ih
    exact ⟨base, kept, hold.apply hap⟩
  | checkpoint _ hq hcp ih =>
    obtain ⟨base, kept, hold⟩ := ih
    exact ⟨base, kept, hold.checkpoint (hQ _ _ _ hq) hcp⟩
  | prune _ hp ih =>
    obtain ⟨base, kept, hold⟩ := ih
    exact ⟨base, _, hold.prune hp⟩
  | reopen _ ih =>
    obtain ⟨base, kept, hold⟩ := ih
    exact ⟨base, kept, hold.reopen⟩
  | restore _ hsnap hinst ih =>
    obtain ⟨base, kept, hold⟩ := ih
    obtain ⟨_, _, _, rfl⟩ := installSnapshot_ok.1 hinst
    exact ⟨_, _, hold.restore hsnap⟩

/-! ## Totals that fit -/

theorem LifetimeFits.pair (h : LifetimeFits certs) (a : String) : FitsPair (lifetime (postingsOf certs) a) := by
  have ha := (activityFits_iff _).1 h a
  rw [get_foldl_postActivity] at ha
  have hzero : (∅ : Table String (ℤ × ℤ))[a]?.getD (0, 0) = 0 := by simp
  rwa [hzero, zero_add] at ha

/-- part of a sum of nonnegative totals fits when the sum does -/
theorem LifetimeFits.since (h : LifetimeFits certs) (n : ℕ) (a : String) :
    FitsPair (lifetime (postingsOf (certs.drop n)) a) := by
  have hall := h.pair a
  rw [lifetime_split certs n a] at hall
  obtain ⟨h1, h2⟩ := lifetime_nonneg (postingsOf (certs.take n)) a
  obtain ⟨h3, h4⟩ := lifetime_nonneg (postingsOf (certs.drop n)) a
  simp only [FitsPair, FitsI64, Prod.fst_add, Prod.snd_add, i64Min, i64Max] at hall ⊢
  omega

/-- the state of a replica, when the totals fit -/
theorem Holds.state_ok (h : Holds c certs base kept st) (hfits : LifetimeFits certs) :
    ∃ s, st.state = .ok s ∧ Records certs s := by
  have hsums : LedgerStore.activityFits (LedgerStore.sumActivity st.accountActivity) := by
    rw [activityFits_iff]
    intro a
    rw [h.sums a]
    exact hfits.since base a
  have hok : st.state = .ok (view st) := Books.state_ok.2 ⟨hsums, rfl⟩
  exact ⟨view st, hok, h.state_records hok⟩

/-- the lifetime totals a replica answers with -/
theorem Holds.activity (h : Holds c certs base kept st) (hfits : LifetimeFits certs) (a : String) :
    st.activity a = .ok (lifetime (postingsOf certs) a) := by
  have hsums : (LedgerStore.sumActivity (st.accountActivity.filter fun r => r.accountId = a))[a]?.getD (0, 0) =
      lifetime (postingsOf (certs.drop base)) a := by
    have hcomm : (st.accountActivity.filter fun r => r.accountId = a).map
        (fun r => (⟨r.accountId, r.deltaMcu⟩ : Posting)) =
        (st.accountActivity.map fun r => (⟨r.accountId, r.deltaMcu⟩ : Posting)).filter fun p => p.accountId = a := by
      rw [List.filter_map]
      rfl
    rw [get_sumActivity, hcomm, lifetime_filter, ← get_sumActivity]
    exact h.sums a
  have hfit := hfits.since base a
  have hwrap : wrapPair (lifetime (postingsOf (certs.drop base)) a +
      wrapPair (lifetime (postingsOf (certs.take base)) a)) = lifetime (postingsOf certs) a := by
    rw [wrapPair_add_wrapPair, add_comm, ← lifetime_split, wrapPair_of_fits (hfits.pair a)]
  simp only [LedgerStore.activity, hsums, h.baseline a, bind_ok, bailIf_ok, not_not, exists_const, pure_ok]
  exact ⟨hfit, hwrap⟩

/-! ## The same answers -/

theorem Holds.headHash (h : Holds c certs base kept st) :
    st.headHash = (certs.getLast?.map (·.entry.entryHash)).getD "GENESIS" := by
  rw [LedgerStore.headHash, h.getLast?]

/-- the balance pass looks at balances only -/
theorem applyBalances_congr {t t' u : Table String ℤ} {txs : List LedgerTransaction} (htu : ∀ a, t.entry a = u.entry a)
    (h : LedgerStore.applyBalances t txs = .ok t') : ∃ u', LedgerStore.applyBalances u txs = .ok u' := by
  unfold LedgerStore.applyBalances at h ⊢
  generalize txs.flatMap (·.postings) = ps at h ⊢
  induction ps generalizing t u with
  | nil => exact ⟨u, rfl⟩
  | cons p ps ih =>
    simp only [List.foldlM_cons, bind_ok] at h
    obtain ⟨t1, h1, h2⟩ := h
    have hstep : LedgerStore.applyPosting u p = .ok (postBalance u p) := by
      simp only [LedgerStore.applyPosting, bind_ok, orBail_ok, bailIf_ok, exists_const, pure_ok, htu] at h1 ⊢
      obtain ⟨next, hnext, huser, hescrow, _⟩ := h1
      refine ⟨next, hnext, huser, hescrow, ?_⟩
      rw [(checkedAdd64_some.1 hnext).1]
      rfl
    have hsame : ∀ a, t1.entry a = (postBalance u p).entry a := by
      intro a
      rw [applyPosting_eq h1, postBalance, postBalance, Table.entry_insert, Table.entry_insert, htu, htu a]
    obtain ⟨u', hu'⟩ := ih hsame h2
    exact ⟨u', by simp only [List.foldlM_cons, bind_ok]; exact ⟨_, hstep, hu'⟩⟩

theorem Holds.hasClaim (h : Holds c certs base kept st) (k : String) :
    st.hasClaim k ↔ ∃ x ∈ placed certs, claimKey x.2 = k := by
  rw [LedgerStore.hasClaim, h.claims.mem k]
  simp [claimRow]

/-- what one replica accepts next, another accepts, unless two heights share an entry hash -/
theorem Holds.accepts (h : Holds c certs base kept st) (h' : Holds c certs base' kept' st') {cert : QuorumCertificate}
    {set : ValidatorSet} (hhash : ∀ held ∈ certs, held.entry.entryHash = cert.entry.entryHash →
      held.entry.sequence = cert.entry.sequence)
    (hap : ∃ next, st.apply c cert set = .ok next) : ∃ next, st'.apply c cert set = .ok next := by
  obtain ⟨_, hap⟩ := hap
  obtain ⟨set', balances, hok, _⟩ := apply_ok.1 hap
  have hseq : cert.entry.sequence = certs.length + 1 := by rw [hok.sequence, h.headSequence]
  obtain ⟨balances', hbal⟩ := applyBalances_congr (u := st'.balances)
    (fun a => (h.balances a).trans (h'.balances a).symm) hok.covered
  refine ⟨_, apply_ok.2 ⟨set', balances', ⟨hok.certified, hok.evidence, ?_, ?_, ?_, hbal, hok.in_range, ?_⟩, rfl⟩⟩
  · rw [hseq, h'.headSequence]
  · rw [hok.previous, h.headHash, h'.headHash]
  · intro t ht hclaim
    exact hok.fresh t ht ((h.hasClaim _).2 ((h'.hasClaim _).1 hclaim))
  · intro held hheld heq
    rw [h'.certificates] at hheld
    have hmem := List.mem_of_mem_drop hheld
    obtain ⟨i, hi⟩ := List.mem_iff_getElem?.1 hmem
    have hlt := (List.getElem?_eq_some_iff.1 hi).1
    have hnum := h'.history.numbered i held hi
    have := hhash held hmem heq
    omega

/-- **Replica equivalence.** Two stores that hold one history by any routes whose checkpoints were for heights already
reached give the same state digest, balances, lifetime totals, reservations and claims, and accept the same next
certificates, as long as the totals fit SQLite's integers and an entry's hash determines its height. -/
theorem replicas_agree {log' : List (LedgerCheckpoint × ValidatorSet)} (h : Route c Reached certs log st)
    (h' : Route c Reached certs log' st') (hfits : LifetimeFits certs) :
    (∃ s s', st.state = .ok s ∧ st'.state = .ok s' ∧ s.digest c = s'.digest c) ∧
    (∀ a, st.balance a = st'.balance a) ∧
    (∀ a, ∃ totals, st.activity a = .ok totals ∧ st'.activity a = .ok totals) ∧
    (∀ j, st.reservation j = st'.reservation j) ∧
    (∀ j, st.inferenceReservation j = st'.inferenceReservation j) ∧
    (∀ k, st.hasClaim k ↔ st'.hasClaim k) ∧
    ∀ cert set, (∀ held ∈ certs, held.entry.entryHash = cert.entry.entryHash →
      held.entry.sequence = cert.entry.sequence) →
      ((∃ next, st.apply c cert set = .ok next) ↔ ∃ next, st'.apply c cert set = .ok next) := by
  obtain ⟨base, kept, hold⟩ := h.holds fun _ _ _ hq => hq
  obtain ⟨base', kept', hold'⟩ := h'.holds fun _ _ _ hq => hq
  obtain ⟨s, hs, hrec⟩ := hold.state_ok hfits
  obtain ⟨s', hs', hrec'⟩ := hold'.state_ok hfits
  have hview : view st = s := (Books.state_ok.1 hs).2
  have hview' : view st' = s' := (Books.state_ok.1 hs').2
  refine ⟨⟨s, s', hs, hs', hrec.digest_eq hrec' c⟩, ?_, ?_, ?_, ?_, ?_, ?_⟩
  · intro a
    exact (hold.balances a).trans (hold'.balances a).symm
  · intro a
    exact ⟨_, hold.activity hfits a, hold'.activity hfits a⟩
  · intro j
    rw [← view_reservation, ← view_reservation, hview, hview', hrec.jobs.unique hrec'.jobs]
  · intro j
    rw [← view_inferenceReservation, ← view_inferenceReservation, hview, hview', reservedIn, reservedIn,
      hrec.inference.unique hrec'.inference]
  · intro k
    exact (hold.hasClaim k).trans (hold'.hasClaim k).symm
  · intro cert set hhash
    exact ⟨hold.accepts hold' hhash, hold'.accepts hold hhash⟩

end

/-! ## Two concrete routes, and a checkpoint ahead of its store -/

namespace Sample

open Hocmesh.Protocol.Sample

/-- the given validators' checkpoint of a store's state, under a head of choice -/
def checkpointOf (signers : List ℕ) (head : LedgerHead) (st : LedgerStore) :
    Check LedgerCheckpoint := do
  let s ← st.state
  let stateHash := s.digest crypto
  pure { head, stateHash
         signatures := signatures signers
          (checkpointSigningMessage head.membershipHash head.sequence head.entryHash stateHash) }

/-- a mint and its reward: the certificates, the store that replayed them, and one that started from the snapshot of a
store that had been checkpointed, pruned and opened again -/
structure SealedRun where
  certs : List QuorumCertificate
  full : LedgerStore
  snap : LedgerSnapshot
  restored : LedgerStore

def sealedRun : Check SealedRun := do
  let set := committee 1
  let first := certify set [0] LedgerStore.empty [smallMint]
  let st ← LedgerStore.empty.apply crypto first set
  let second := certify set [0] st [smallReward 5]
  let full ← st.apply crypto second set
  let cp ← checkpointOf [0] (full.head crypto set) full
  let marked ← full.storeCheckpoint crypto cp set
  let pruned ← marked.pruneBelowCheckpoint crypto set
  let snap ← pruned.1.reopen.snapshot crypto set
  let restored ← LedgerStore.empty.installSnapshot crypto snap set
  pure ⟨[first, second], full, snap, restored⟩

theorem sealedRun_routes {r : SealedRun} (h : sealedRun = .ok r) :
    Route crypto Reached r.certs [] r.full ∧
      Route crypto Reached (r.certs.take r.snap.checkpoint.head.sequence) [] r.restored := by
  simp only [sealedRun, bind_ok, pure_ok] at h
  obtain ⟨st, h1, full, h2, cp, h3, marked, h4, pruned, h5, snap, h6, restored, h7, rfl⟩ := h
  have hfull := (Route.empty (c := crypto) (Q := Reached)).apply h1 |>.apply h2
  have hcp : Reached full cp (committee 1) := by
    simp only [checkpointOf, bind_ok, pure_ok] at h3
    obtain ⟨_, _, rfl⟩ := h3
    exact le_rfl
  exact ⟨hfull, ((hfull.checkpoint hcp h4).prune h5).reopen.restore h6 h7⟩

/-- a mint, and a store that took a checkpoint for height five one entry into its chain and pruned to it -/
structure AheadRun where
  cert : QuorumCertificate
  full : LedgerStore
  pruned : LedgerStore
  next : QuorumCertificate

def aheadRun : Check AheadRun := do
  let set := committee 1
  let cert := certify set [0] LedgerStore.empty [smallMint]
  let full ← LedgerStore.empty.apply crypto cert set
  let cp ← checkpointOf [0] { full.head crypto set with sequence := 5 } full
  let marked ← full.storeCheckpoint crypto cp set
  let pruned ← marked.pruneBelowCheckpoint crypto set
  pure ⟨cert, full, pruned.1, certify set [0] full [smallReward 5]⟩

end Sample

/-- the store that replayed two entries and the one that adopted their snapshot -/
theorem snapshot_replica_agrees :
    ∃ certs st st' s s', Route Sample.crypto Reached certs [] st ∧ Route Sample.crypto Reached certs [] st' ∧
      certs.length = 2 ∧ st.certificates.length = 2 ∧ st'.certificates.length = 1 ∧
      st.state = .ok s ∧ st'.state = .ok s' ∧ s.digest Sample.crypto = s'.digest Sample.crypto := by
  have hrun : Sample.sealedRun.okWith (fun r => r.certs.length = 2 ∧ r.snap.checkpoint.head.sequence = 2 ∧
      r.full.certificates.length = 2 ∧ r.restored.certificates.length = 1 ∧ LifetimeFits r.certs) = true := by
    decide +kernel
  obtain ⟨r, hr, hfacts⟩ := (okWith_iff _ _).1 hrun
  obtain ⟨hlen, hseq, hfull, hrest, hfits⟩ := of_decide_eq_true hfacts
  obtain ⟨hroute, hroute'⟩ := Sample.sealedRun_routes hr
  rw [hseq, ← hlen, List.take_length] at hroute'
  obtain ⟨⟨s, s', hs, hs', hd⟩, _⟩ := replicas_agree hroute hroute' hfits
  exact ⟨r.certs, r.full, r.restored, s, s', hroute, hroute', hlen, hfull, hrest, hs, hs', hd⟩

/-- after one entry, a store that pruned to a checkpoint for height five no longer accepts the entry its peers accept -/
theorem replica_pruned_ahead_refuses :
    ∃ cert log st st' next set, Route Sample.crypto (fun _ _ _ => True) [cert] [] st ∧
      Route Sample.crypto (fun _ _ _ => True) [cert] log st' ∧ LifetimeFits [cert] ∧
      (∃ after, st.apply Sample.crypto next set = .ok after) ∧
      ¬ ∃ after, st'.apply Sample.crypto next set = .ok after := by
  have hrun : Sample.aheadRun.okWith (fun r => LifetimeFits [r.cert] ∧
      (r.full.apply Sample.crypto r.next (Sample.committee 1)).okWith (fun _ => true) = true ∧
      ¬ (r.pruned.apply Sample.crypto r.next (Sample.committee 1)).okWith (fun _ => true) = true) = true := by
    decide +kernel
  obtain ⟨r, hr, hfacts⟩ := (okWith_iff _ _).1 hrun
  obtain ⟨hfits, haccepts, hrefuses⟩ := of_decide_eq_true hfacts
  simp only [Sample.aheadRun, bind_ok, pure_ok] at hr
  obtain ⟨full, h1, cp, _, marked, h3, pruned, h4, rfl⟩ := hr
  have hfull := (Route.empty (c := Sample.crypto) (Q := fun _ _ _ => True)).apply h1
  obtain ⟨after, hafter, _⟩ := (okWith_iff _ _).1 haccepts
  refine ⟨_, _, full, pruned.1, _, _, hfull, (hfull.checkpoint trivial h3).prune h4, hfits, ⟨after, hafter⟩, ?_⟩
  rintro ⟨x, hx⟩
  exact hrefuses ((okWith_iff _ _).2 ⟨x, hx, rfl⟩)

end Hocmesh.Books
