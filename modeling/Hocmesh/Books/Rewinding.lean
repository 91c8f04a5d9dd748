/-
Rewinding a store to a height it has passed (`rewind_to`).

`Since` is what happens to one store after a moment: certificates applied, checkpoints recorded, certificates discarded,
the file opened again. Undoing is written independently of applying; but what it leaves is the state that the
certificates up to the height leave, and that is what the store held then (`rewinds_to_past`). As for replicas, no
checkpoint on the way may be for a height that the store has not reached: pruning to one discards the chain, and another
may start at the same heights.
-/
import Hocmesh.Books.Routes

namespace Hocmesh.Books

open Hocmesh.Base Hocmesh.Protocol Hocmesh.Compute Hocmesh.Ledger Hocmesh.Validator

/-- what happens to a store from a moment on, with the certificates it applies -/
inductive Since (c : Crypto) (Q : LedgerStore → LedgerCheckpoint → ValidatorSet → Prop) (past : LedgerStore) :
    List QuorumCertificate → LedgerStore → Prop
  | here : Since c Q past [] past
  | ballots {more : List QuorumCertificate} {st : LedgerStore} (table : Table ℕ BallotRow) :
      Since c Q past more st → Since c Q past more { st with ballots := table }
  | apply {more : List QuorumCertificate} {st st' : LedgerStore} {cert : QuorumCertificate} {set : ValidatorSet} :
      Since c Q past more st → st.apply c cert set = .ok st' → Since c Q past (more ++ [cert]) st'
  | checkpoint {more : List QuorumCertificate} {st st' : LedgerStore} {cp : LedgerCheckpoint} {set : ValidatorSet} :
      Since c Q past more st → Q st cp set → st.storeCheckpoint c cp set = .ok st' → Since c Q past more st'
  | prune {more : List QuorumCertificate} {st st' : LedgerStore} {set : ValidatorSet} {n : ℕ} :
      Since c Q past more st → st.pruneBelowCheckpoint c set = .ok (st', n) → Since c Q past more st'
  | reopen {more : List QuorumCertificate} {st : LedgerStore} : Since c Q past more st → Since c Q past more st.reopen

/-- no certificate that is still held is above a height: it is at or above the oldest retained one -/
def OldestHeld (st : LedgerStore) (k : ℕ) : Prop := ∀ cert ∈ st.certificates.head?, cert.entry.sequence ≤ k

instance (st : LedgerStore) (k : ℕ) : Decidable (OldestHeld st k) := by unfold OldestHeld; infer_instance

/-- the tables of two states that differ at most in rows of zeros, and their digest -/
structure SameState (c : Crypto) (s s' : LedgerState) : Prop where
  digest : s.digest c = s'.digest c
  balances : ∀ a, s.balances.entry a = s'.balances.entry a
  claims : s.claims = s'.claims
  reservations : s.reservations = s'.reservations
  inference : s.inference = s'.inference
  activity : ∀ a : String, s.activity[a]?.getD (0, 0) = s'.activity[a]?.getD (0, 0)

section

variable {c : Crypto} {Q : LedgerStore → LedgerCheckpoint → ValidatorSet → Prop} {certs more : List QuorumCertificate}
  {log : List (LedgerCheckpoint × ValidatorSet)} {past st : LedgerStore} {base kept : ℕ}

/-- two states after one history -/
theorem Records.same {s s' : LedgerState} (h : Records certs s) (h' : Records certs s') : SameState c s s' where
  digest := h.digest_eq h' c
  balances := fun a => (h.balances a).trans (h'.balances a).symm
  claims := h.claims.unique h'.claims
  reservations := h.jobs.unique h'.jobs
  inference := h.inference.unique h'.inference
  activity := fun a => (h.activity a).trans (h'.activity a).symm

/-- what happens to a store lengthens its route -/
theorem Since.route (h : Since c Q past more st) (hpast : Route c Q certs log past) :
    ∃ log', Route c Q (certs ++ more) log' st := by
  induction h with
  | here => exact ⟨log, by rwa [List.append_nil]⟩
  | ballots table _ ih =>
    obtain ⟨log', hroute⟩ := ih
    exact ⟨log', hroute.ballots table⟩
  | apply _ hap ih =>
    obtain ⟨log', hroute⟩ := ih
    exact ⟨log', by rw [← List.append_assoc]; exact hroute.apply hap⟩
  | checkpoint _ hq hcp ih =>
    obtain ⟨log', hroute⟩ := ih
    exact ⟨_, hroute.checkpoint hq hcp⟩
  | prune _ hp ih =>
    obtain ⟨log', hroute⟩ := ih
    exact ⟨log', hroute.prune hp⟩
  | reopen _ ih =>
    obtain ⟨log', hroute⟩ := ih
    exact ⟨log', hroute.reopen⟩

/-- totals that fit have fitted all along -/
theorem LifetimeFits.before (h : LifetimeFits (certs ++ more)) : LifetimeFits certs := by
  refine (activityFits_iff _).2 fun a => ?_
  have hall := h.pair a
  rw [postingsOf_append, lifetime_append] at hall
  obtain ⟨h1, h2⟩ := lifetime_nonneg (postingsOf certs) a
  obtain ⟨h3, h4⟩ := lifetime_nonneg (postingsOf more) a
  have hzero : (∅ : Table String (ℤ × ℤ))[a]?.getD (0, 0) = 0 := by simp
  rw [get_foldl_postActivity, hzero, zero_add]
  simp only [FitsPair, FitsI64, Prod.fst_add, Prod.snd_add, i64Min, i64Max] at hall ⊢
  omega

/-- at or above the oldest certificate that is held, nothing was discarded -/
theorem Holds.kept_le_of_oldest (h : Holds c certs base kept st) {k : ℕ} (hk : OldestHeld st k) :
    kept ≤ k ∧ base ≤ k := by
  have hbase := h.base_held
  rcases Nat.lt_or_ge kept certs.length with hlt | hge
  · have hhead : st.certificates.head? = some (certs[kept]) := by
      rw [h.certificates, List.head?_drop, List.getElem?_eq_getElem hlt]
    have hseq := h.history.numbered kept _ (List.getElem?_eq_getElem hlt)
    have hle := hk _ hhead
    omega
  · have hkept := h.kept_lt
    have hreached := h.reached
    have hfloor := h.base_le
    omega

/-- **Rewinding inverts applying.** Whatever a store has applied since it was at a height, and however it was
checkpointed, pruned and opened again, it rewinds to the state it held there. -/
theorem rewinds_to_past (hpast : Route c Reached certs log past) (h : Since c Reached past more st)
    (hfits : LifetimeFits (certs ++ more)) (hrange : (past.headSequence : ℤ) < i64Max)
    (hheld : OldestHeld st past.headSequence) :
    ∃ s s', past.state = .ok s ∧ st.rewindTo past.headSequence = .ok s' ∧ SameState c s' s := by
  obtain ⟨base₀, kept₀, hold₀⟩ := hpast.holds fun _ _ _ hq => hq
  obtain ⟨log', hroute⟩ := h.route hpast
  obtain ⟨base, kept, hold⟩ := hroute.holds fun _ _ _ hq => hq
  obtain ⟨s, hs, hrec⟩ := hold₀.state_ok hfits.before
  obtain ⟨now, hnow, -⟩ := hold.state_ok hfits
  obtain ⟨hkept, hbase⟩ := hold.kept_le_of_oldest hheld
  have hrewind : ∃ s', st.rewindTo past.headSequence = .ok s' := by
    simp only [LedgerStore.rewindTo, bind_ok, pure_ok, exists_const, LedgerStore.sqliteSequence, bailIf_ok]
    exact ⟨_, now, hnow, by push_cast; omega, rfl⟩
  obtain ⟨s', hs'⟩ := hrewind
  have hrec' := hold.rewinds hkept hbase hs'
  rw [hold₀.headSequence, List.take_left] at hrec'
  exact ⟨s, s', hs, hs', hrec'.same hrec⟩

end

/-! ## A store that has gone on, and one whose chain was discarded -/

namespace Sample

open Hocmesh.Protocol.Sample

/-- a store after a mint, and the same store after the mint's reward, pruned to a checkpoint of it and opened again -/
structure PassedRun where
  certs : List QuorumCertificate
  past : LedgerStore
  more : List QuorumCertificate
  st : LedgerStore

def passedRun : Check PassedRun := do
  let set := committee 1
  let first := certify set [0] LedgerStore.empty [smallMint]
  let past ← LedgerStore.empty.apply crypto first set
  let second := certify set [0] past [smallReward 5]
  let st ← past.apply crypto second set
  let cp ← checkpointOf [0] (past.head crypto set) past
  let marked ← st.storeCheckpoint crypto cp set
  let pruned ← marked.pruneBelowCheckpoint crypto set
  pure ⟨[first], past, [second], pruned.1.reopen⟩

theorem passedRun_since {r : PassedRun} (h : passedRun = .ok r) :
    Route crypto Reached r.certs [] r.past ∧ Since crypto Reached r.past r.more r.st := by
  simp only [passedRun, bind_ok, pure_ok] at h
  obtain ⟨past, h1, st, h2, cp, h3, marked, h4, pruned, h5, rfl⟩ := h
  have hpast := (Route.empty (c := crypto) (Q := Reached)).apply h1
  have hsince := (Since.here (c := crypto) (Q := Reached)).apply h2
  have hcp : Reached st cp (committee 1) := by
    have hhead : cp.head.sequence = past.headSequence := by
      simp only [checkpointOf, bind_ok, pure_ok] at h3
      obtain ⟨_, _, rfl⟩ := h3
      rfl
    obtain ⟨_, hmore⟩ := hsince.route hpast
    obtain ⟨_, _, hold₀⟩ := hpast.holds fun _ _ _ hq => hq
    obtain ⟨_, _, hold⟩ := hmore.holds fun _ _ _ hq => hq
    rw [Reached, hhead, hold₀.headSequence, hold.headSequence]
    simp
  exact ⟨hpast, ((hsince.checkpoint hcp h4).prune h5).reopen⟩

/-- a store after one mint, and the same store after a second mint, a checkpoint for height five that discards both, and
a third mint -/
structure RestartedRun where
  certs : List QuorumCertificate
  past : LedgerStore
  more : List QuorumCertificate
  st : LedgerStore

def restartedRun : Check RestartedRun := do
  let set := committee 1
  let first := certify set [0] LedgerStore.empty [smallMint]
  let past ← LedgerStore.empty.apply crypto first set
  let second := certify set [0] past [communityReserve "other" smallWork 1 [0] 150]
  let full ← past.apply crypto second set
  let cp ← checkpointOf [0] { full.head crypto set with sequence := 5 } full
  let marked ← full.storeCheckpoint crypto cp set
  let pruned ← marked.pruneBelowCheckpoint crypto set
  let third := certify set [0] pruned.1 [communityReserve "third" smallWork 1 [0] 160]
  let st ← pruned.1.apply crypto third set
  pure ⟨[first], past, [second, third], st⟩

theorem restartedRun_since {r : RestartedRun} (h : restartedRun = .ok r) :
    Route crypto (fun _ _ _ => True) r.certs [] r.past ∧ Since crypto (fun _ _ _ => True) r.past r.more r.st := by
  simp only [restartedRun, bind_ok, pure_ok] at h
  obtain ⟨past, h1, full, h2, cp, h3, marked, h4, pruned, h5, st, h6, rfl⟩ := h
  exact ⟨Route.empty.apply h1, ((((Since.here.apply h2).checkpoint trivial h4).prune h5).apply h6)⟩

end Sample

/-- the store that went on, was pruned and was opened again still rewinds to its first entry -/
theorem rewinds_to_past_mint :
    ∃ past more st s s', Since Sample.crypto Reached past more st ∧ past.headSequence = 1 ∧ st.headSequence = 2 ∧
      past.state = .ok s ∧ st.rewindTo 1 = .ok s' ∧ SameState Sample.crypto s' s := by
  have hrun : Sample.passedRun.okWith (fun r => LifetimeFits (r.certs ++ r.more) ∧ r.past.headSequence = 1 ∧
      r.st.headSequence = 2 ∧ OldestHeld r.st 1) = true := by
    decide +kernel
  obtain ⟨r, hr, hfacts⟩ := (okWith_iff _ _).1 hrun
  obtain ⟨hfits, hpast, hhead, hheld⟩ := of_decide_eq_true hfacts
  obtain ⟨hroute, hsince⟩ := Sample.passedRun_since hr
  obtain ⟨s, s', hs, hs', hsame⟩ := rewinds_to_past hroute hsince hfits (by rw [hpast]; decide) (by rwa [hpast])
  rw [hpast] at hs'
  exact ⟨_, _, _, s, s', hsince, hpast, hhead, hs, hs', hsame⟩

/-- a store that was at height one before its chain was discarded and is there again: rewinding it to height one gives
neither the state it held then nor the one it holds now -/
theorem restarted_rewinds_to_neither :
    ∃ certs more past st s now s', Route Sample.crypto (fun _ _ _ => True) certs [] past ∧
      Since Sample.crypto (fun _ _ _ => True) past more st ∧ LifetimeFits (certs ++ more) ∧
      past.headSequence = 1 ∧ st.headSequence = 1 ∧ OldestHeld st 1 ∧
      past.state = .ok s ∧ st.state = .ok now ∧ st.rewindTo 1 = .ok s' ∧
      s'.digest Sample.crypto ≠ s.digest Sample.crypto ∧ s'.digest Sample.crypto ≠ now.digest Sample.crypto := by
  have hrun : Sample.restartedRun.okWith (fun r => LifetimeFits (r.certs ++ r.more) ∧ r.past.headSequence = 1 ∧
      r.st.headSequence = 1 ∧ OldestHeld r.st 1 ∧
      r.past.state.okWith (fun s => r.st.state.okWith fun now => (r.st.rewindTo 1).okWith fun s' =>
        s'.digest Sample.crypto ≠ s.digest Sample.crypto ∧
          s'.digest Sample.crypto ≠ now.digest Sample.crypto) = true) = true := by
    decide +kernel
  obtain ⟨r, hr, hfacts⟩ := (okWith_iff _ _).1 hrun
  obtain ⟨hfits, hpast, hhead, hheld, hstates⟩ := of_decide_eq_true hfacts
  obtain ⟨s, hs, hstates⟩ := (okWith_iff _ _).1 hstates
  obtain ⟨now, hnow, hstates⟩ := (okWith_iff _ _).1 hstates
  obtain ⟨s', hs', hdigests⟩ := (okWith_iff _ _).1 hstates
  obtain ⟨hthen, hstill⟩ := of_decide_eq_true hdigests
  obtain ⟨hroute, hsince⟩ := Sample.restartedRun_since hr
  exact ⟨_, _, _, _, s, now, s', hroute, hsince, hfits, hpast, hhead, hheld, hs, hnow, hs', hthen, hstill⟩

end Hocmesh.Books
