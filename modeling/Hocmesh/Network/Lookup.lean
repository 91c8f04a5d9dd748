/-
What a replica says about a claim.

`has_claim` reads the table of claims, which keeps every key for good. `claim_detail` joins it with the certificates, which
pruning discards, under the height a restored store writes for every claim it was handed. So the two agree, and the
answer is right, exactly for the claims whose own certificate the store still holds.
-/
import Hocmesh.Books.Routes
import Hocmesh.Network.Client

namespace Hocmesh.Network

open Hocmesh.Base Hocmesh.Protocol Hocmesh.Ledger Hocmesh.Validator Hocmesh.Books

/-- the history settles the claim in the entry of this height and hash -/
def SettledAt (certs : List QuorumCertificate) (key : String) (sequence : ℕ) (entryHash : String) : Prop :=
  ∃ cert ∈ certs, cert.entry.sequence = sequence ∧ cert.entry.entryHash = entryHash ∧
    ∃ tx ∈ cert.entry.transactions, claimKey tx = key

/-- a store says where a claim was settled exactly when it has it, and says it right -/
def Truthful (certs : List QuorumCertificate) (st : LedgerStore) (key : String) : Prop :=
  ((∃ detail, st.claimDetail key = some detail) ↔ st.hasClaim key) ∧
    ∀ sequence entryHash, st.claimDetail key = some (sequence, entryHash) → SettledAt certs key sequence entryHash

/-- the certificate that settled the claim, if there is one, has been neither pruned nor skipped by a snapshot -/
def StillHeld (certs : List QuorumCertificate) (st : LedgerStore) (key : String) : Prop :=
  ∀ cert ∈ certs, (∃ tx ∈ cert.entry.transactions, claimKey tx = key) → cert ∈ st.certificates

section

variable {c : Crypto} {certs : List QuorumCertificate} {log : List (LedgerCheckpoint × ValidatorSet)} {st : LedgerStore}
  {base kept : ℕ} {key : String}

/-- a claim stands under its own height, or under the snapshot's if that is higher -/
theorem claim_row (h : Holds c certs base kept st) {cert : QuorumCertificate} (hc : cert ∈ certs)
    (hkey : ∃ tx ∈ cert.entry.transactions, claimKey tx = key) :
    st.claims[key]? = some (max base cert.entry.sequence) := by
  obtain ⟨tx, htx, rfl⟩ := hkey
  exact (h.claims _ _).2 ⟨(cert.entry.sequence, tx), mem_placed.2 ⟨cert, hc, rfl, htx⟩, (), rfl, rfl⟩

/-- a claim is settled at one height only -/
theorem settled_height_unique (h : WellFormed certs) {cert cert' : QuorumCertificate} (hc : cert ∈ certs)
    (hc' : cert' ∈ certs) (hkey : ∃ tx ∈ cert.entry.transactions, claimKey tx = key)
    (hkey' : ∃ tx ∈ cert'.entry.transactions, claimKey tx = key) : cert.entry.sequence = cert'.entry.sequence := by
  obtain ⟨tx, htx, hk⟩ := hkey
  obtain ⟨tx', htx', hk'⟩ := hkey'
  by_contra hne
  have hx : (cert.entry.sequence, tx) ∈ placed certs := mem_placed.2 ⟨cert, hc, rfl, htx⟩
  have hy : (cert'.entry.sequence, tx') ∈ placed certs := mem_placed.2 ⟨cert', hc', rfl, htx'⟩
  have hdiff : (cert.entry.sequence, tx) ≠ (cert'.entry.sequence, tx') := by
    intro heq
    exact hne (congrArg Prod.fst heq)
  have hsym : Std.Symm fun x y : ℕ × LedgerTransaction => claimKey x.2 ≠ claimKey y.2 := ⟨fun _ _ hxy => hxy.symm⟩
  exact h.settled_once.forall hx hy hdiff (hk.trans hk'.symm)

/-- which certificates of the history a store still holds -/
theorem held_iff (h : Holds c certs base kept st) {cert : QuorumCertificate} (hc : cert ∈ certs) :
    cert ∈ st.certificates ↔ kept < cert.entry.sequence := by
  obtain ⟨i, hi⟩ := List.mem_iff_getElem?.1 hc
  have hseq := h.history.numbered i cert hi
  rw [h.certificates, List.mem_iff_getElem?]
  constructor
  · rintro ⟨j, hj⟩
    rw [List.getElem?_drop] at hj
    have := h.history.numbered _ cert hj
    omega
  · intro hlt
    refine ⟨i - kept, ?_⟩
    rw [List.getElem?_drop, show kept + (i - kept) = i by omega]
    exact hi

/-- the detail of a claim whose certificate is held -/
theorem claimDetail_of_held (h : Holds c certs base kept st) {cert : QuorumCertificate} (hc : cert ∈ certs)
    (hkey : ∃ tx ∈ cert.entry.transactions, claimKey tx = key) (hheld : cert ∈ st.certificates) :
    st.claimDetail key = some (cert.entry.sequence, cert.entry.entryHash) := by
  have hlt := (held_iff h hc).1 hheld
  have hbase := h.base_held
  have hrow := claim_row h hc hkey
  rw [max_eq_right (by omega)] at hrow
  obtain ⟨i, hi⟩ := List.mem_iff_getElem?.1 hc
  have hseq := h.history.numbered i cert hi
  have hat : st.certificateAt cert.entry.sequence = some cert := by
    rw [h.certificateAt hlt, ← hi]
    congr 1
    omega
  simp [LedgerStore.claimDetail, hrow, hat]

theorem truthful_of_held (h : Holds c certs base kept st) (hheld : StillHeld certs st key) : Truthful certs st key := by
  have hsettled : ∀ x ∈ placed certs, claimKey x.2 = key → ∃ cert ∈ certs,
      (∃ tx ∈ cert.entry.transactions, claimKey tx = key) ∧
        st.claimDetail key = some (cert.entry.sequence, cert.entry.entryHash) := by
    intro x hx hk
    obtain ⟨cert, hc, _, htx⟩ := mem_placed.1 hx
    have hkey : ∃ tx ∈ cert.entry.transactions, claimKey tx = key := ⟨x.2, htx, hk⟩
    exact ⟨cert, hc, hkey, claimDetail_of_held h hc hkey (hheld cert hc hkey)⟩
  have hclaim := h.hasClaim key
  have habsent : ¬ st.hasClaim key → st.claimDetail key = none := by
    intro hno
    have hnone : st.claims[key]? = none := Std.ExtTreeMap.getElem?_eq_none hno
    simp [LedgerStore.claimDetail, hnone]
  refine ⟨⟨?_, ?_⟩, ?_⟩
  · rintro ⟨detail, hd⟩
    by_contra hno
    rw [habsent hno] at hd
    cases hd
  · intro hhas
    obtain ⟨x, hx, hk⟩ := hclaim.1 hhas
    obtain ⟨cert, _, _, hd⟩ := hsettled x hx hk
    exact ⟨_, hd⟩
  · intro sequence entryHash hd
    by_cases hhas : st.hasClaim key
    · obtain ⟨x, hx, hk⟩ := hclaim.1 hhas
      obtain ⟨cert, hc, hkey, hd'⟩ := hsettled x hx hk
      rw [hd'] at hd
      cases hd
      exact ⟨cert, hc, rfl, rfl, hkey⟩
    · rw [habsent hhas] at hd
      cases hd

theorem held_of_truthful (h : Holds c certs base kept st) (ht : Truthful certs st key) : StillHeld certs st key := by
  intro cert hc hkey
  obtain ⟨hiff, hright⟩ := ht
  have hrow := claim_row h hc hkey
  have hhas : st.hasClaim key := mem_of_get hrow
  obtain ⟨⟨sequence, entryHash⟩, hd⟩ := hiff.2 hhas
  -- the detail is read at the height the claim stands under, and settles it there
  have hsequence : sequence = max base cert.entry.sequence ∧ ∃ held, st.certificateAt sequence = some held := by
    simp only [LedgerStore.claimDetail, hrow, Option.bind_eq_bind, Option.bind_some] at hd
    obtain ⟨held, hat, hpair⟩ := Option.bind_eq_some_iff.1 hd
    cases hpair
    exact ⟨rfl, held, hat⟩
  obtain ⟨hmax, held, hat⟩ := hsequence
  obtain ⟨cert', hc', hseq', _, hkey'⟩ := hright sequence entryHash hd
  have hsame := settled_height_unique h.history hc hc' hkey hkey'
  rw [held_iff h hc]
  by_contra hle
  rw [h.certificateAt_none (by omega)] at hat
  cases hat

end

/-- a validator that keeps a reached store, in which the claim is settled by an entry it still holds -/
def AnswersFor (c : Crypto) (key : String) (p : ClaimProof) : Prop :=
  ∃ a certs log, Route c Reached certs log a.store ∧ StillHeld certs a.store key ∧
    (∃ sequence entryHash, SettledAt certs key sequence entryHash) ∧ p = claimProof c a key

theorem answersFor_present {c : Crypto} {key : String} {p : ClaimProof} (h : AnswersFor c key p) :
    p.sequence ≠ none := by
  obtain ⟨a, certs, log, hroute, hheld, ⟨sequence, entryHash, cert, hc, _, _, hkey⟩, rfl⟩ := h
  obtain ⟨base, kept, hold⟩ := hroute.holds fun _ _ _ hq => hq
  simp [claimProof, claimDetail_of_held hold hc hkey (hheld cert hc hkey)]

/-- a quorum's answer is one of the proofs it was given -/
theorem claimQuorum_mem {c : Crypto} {set : ValidatorSet} {claim : String} {proofs : List ClaimProof}
    {counts : List ((Option ℕ × Option String × ℕ × String) × ℕ)} {p : ClaimProof}
    (h : claimQuorum c set claim proofs counts = .ok p) : p ∈ proofs := by
  unfold claimQuorum at h
  cases hf : proofs.find? (provesClaim c set claim) with
  | some q =>
    simp only [hf, Except.ok.injEq] at h
    rw [← h]
    exact List.mem_of_find?_eq_some hf
  | none =>
    simp only [hf, bind_ok, orBail_ok, bailIf_ok, exists_const] at h
    obtain ⟨best, _, _, hp⟩ := h
    exact List.mem_of_find?_eq_some hp

theorem mem_signedClaims {c : Crypto} {set : ValidatorSet} {claim : String} {answers : List (Option ClaimProof)}
    {p : ClaimProof} (h : p ∈ signedClaims c set claim answers) : some p ∈ answers := by
  obtain ⟨x, hx, hp⟩ := List.mem_filterMap.1 h
  split_ifs at hp
  cases hp
  obtain ⟨y, hy, hmap⟩ := List.mem_filterMap.1 hx
  obtain ⟨q, hq, rfl⟩ := Option.map_eq_some_iff.1 hmap
  rw [← hq]
  exact (List.of_mem_zip hy).2

/-- **When claim lookups are truthful.** On every replica whose checkpoints were for heights it had reached, and for every
key: the lookup is truthful exactly when the certificate that settled the key, if any did, is still held. And a quorum of
validators that all still hold it never attests the claim absent. -/
theorem claim_lookups_truthful_iff (c : Crypto) (key : String) :
    (∀ certs log st, Route c Reached certs log st → (Truthful certs st key ↔ StillHeld certs st key)) ∧
    ∀ set answers counts p, (∀ q, some q ∈ answers → AnswersFor c key q) →
      claimQuorum c set key (signedClaims c set key answers) counts = .ok p → p.sequence ≠ none := by
  refine ⟨?_, ?_⟩
  · intro certs log st hroute
    obtain ⟨base, kept, hold⟩ := hroute.holds fun _ _ _ hq => hq
    exact ⟨held_of_truthful hold, truthful_of_held hold⟩
  · intro set answers counts p hanswers hp
    exact answersFor_present (hanswers p (mem_signedClaims (claimQuorum_mem hp)))

/-! ## A pruned replica -/

namespace Sample

open Hocmesh.Protocol.Sample Hocmesh.Books.Sample

structure PrunedRun where
  certs : List QuorumCertificate
  log : List (LedgerCheckpoint × ValidatorSet)
  pruned : LedgerStore

/-- a mint and its reward, a checkpoint of both, and what is below it discarded -/
def prunedRun : Check PrunedRun := do
  let set := committee 1
  let first := certify set [0] LedgerStore.empty [smallMint]
  let st ← LedgerStore.empty.apply crypto first set
  let second := certify set [0] st [smallReward 5]
  let full ← st.apply crypto second set
  let cp ← checkpointOf [0] (full.head crypto set) full
  let marked ← full.storeCheckpoint crypto cp set
  let pruned ← marked.pruneBelowCheckpoint crypto set
  pure ⟨[first, second], [(cp, set)], pruned.1⟩

theorem prunedRun_route {r : PrunedRun} (h : prunedRun = .ok r) :
    Route crypto (fun _ _ _ => True) r.certs r.log r.pruned := by
  simp only [prunedRun, bind_ok, pure_ok] at h
  obtain ⟨st, h1, full, h2, cp, _, marked, h4, pruned, h5, rfl⟩ := h
  have hfull := (Route.empty (c := crypto) (Q := fun _ _ _ => True)).apply h1 |>.apply h2
  exact (hfull.checkpoint trivial h4).prune h5

/-- the first certificate of the run -/
def minted : QuorumCertificate := certify (committee 1) [0] LedgerStore.empty [smallMint]

/-- the only validator of the run, answering from the pruned store -/
def onlyValidator (st : LedgerStore) : App :=
  ⟨st, committee 1, nodeId 0, fun message => (signatures [0] message).head?.elim "" (·.signatureB64)⟩

end Sample

/-- after pruning, the whole committee attests that a settled claim is absent -/
theorem pruned_claim_attested_absent :
    ∃ certs log st key p, Route Sample.crypto (fun _ _ _ => True) certs log st ∧ st.hasClaim key ∧
      ¬ Truthful certs st key ∧ claimQuorum Sample.crypto (Sample.committee 1) key
        (signedClaims Sample.crypto (Sample.committee 1) key
          [some (claimProof Sample.crypto (Sample.onlyValidator st) key)])
        (claimCounts (signedClaims Sample.crypto (Sample.committee 1) key
          [some (claimProof Sample.crypto (Sample.onlyValidator st) key)])) = .ok p ∧ p.sequence = none := by
  have hrun : Sample.prunedRun.okWith (fun r => r.pruned.hasClaim (claimKey Sample.smallMint) ∧
      r.pruned.claimDetail (claimKey Sample.smallMint) = none ∧
      (claimQuorum Sample.crypto (Sample.committee 1) (claimKey Sample.smallMint)
        (signedClaims Sample.crypto (Sample.committee 1) (claimKey Sample.smallMint)
          [some (claimProof Sample.crypto (Sample.onlyValidator r.pruned) (claimKey Sample.smallMint))])
        (claimCounts (signedClaims Sample.crypto (Sample.committee 1) (claimKey Sample.smallMint)
          [some (claimProof Sample.crypto (Sample.onlyValidator r.pruned) (claimKey Sample.smallMint))]))).okWith
        (fun p => p.sequence = none) = true) = true := by decide +kernel
  obtain ⟨r, hr, hfacts⟩ := (okWith_iff _ _).1 hrun
  obtain ⟨hhas, hnone, hquorum⟩ := of_decide_eq_true hfacts
  obtain ⟨p, hp, hseq⟩ := (okWith_iff _ _).1 hquorum
  refine ⟨r.certs, r.log, r.pruned, _, p, Sample.prunedRun_route hr, hhas, ?_, hp, of_decide_eq_true hseq⟩
  rintro ⟨hiff, _⟩
  obtain ⟨detail, hd⟩ := hiff.2 hhas
  rw [hnone] at hd
  cases hd

/-- a store that replayed the mint answers for it -/
theorem replayed_claim_truthful :
    ∃ certs st, Route Sample.crypto Reached certs [] st ∧ st.hasClaim (claimKey Sample.smallMint) ∧
      Truthful certs st (claimKey Sample.smallMint) := by
  have hrun : (LedgerStore.empty.apply Sample.crypto Sample.minted (Sample.committee 1)).okWith (fun st =>
      st.hasClaim (claimKey Sample.smallMint) ∧ st.certificates = [Sample.minted]) = true := by decide +kernel
  obtain ⟨st, hst, hfacts⟩ := (okWith_iff _ _).1 hrun
  obtain ⟨hhas, hall⟩ := of_decide_eq_true hfacts
  have hroute : Route Sample.crypto Reached [Sample.minted] [] st := Route.empty.apply hst
  refine ⟨_, st, hroute, hhas, ?_⟩
  refine ((claim_lookups_truthful_iff _ _).1 _ _ _ hroute).2 ?_
  intro cert hc _
  rw [hall]
  exact hc

end Hocmesh.Network
