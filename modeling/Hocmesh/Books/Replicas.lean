/-
Stores that hold one history by different routes.

A replica may have replayed the history, recorded checkpoints, discarded certificates below them, been closed and opened
again, or started from another replica's snapshot. `Holds` is what all of them have in common: everything a store answers
from is a function of the history, of how many certificates it has discarded, and of the height of the snapshot it started
from. Each operation keeps it, so it holds along every `Route`.
-/
import Hocmesh.Ledger.Snapshot
import Hocmesh.Books.History

namespace Hocmesh.Books

open Hocmesh.Base Hocmesh.Protocol Hocmesh.Compute Hocmesh.Ledger Hocmesh.Validator

/-! ## Undoing postings -/

theorem rewindPostings_claims (ps : List Posting) (s : LedgerState) :
    (ps.foldl LedgerStore.rewindPosting s).claims = s.claims := by
  induction ps generalizing s with
  | nil => rfl
  | cons p ps ih => exact ih _

theorem rewindPostings_reservations (ps : List Posting) (s : LedgerState) :
    (ps.foldl LedgerStore.rewindPosting s).reservations = s.reservations ∧
      (ps.foldl LedgerStore.rewindPosting s).inference = s.inference := by
  induction ps generalizing s with
  | nil => exact ⟨rfl, rfl⟩
  | cons p ps ih => exact ih _

theorem rewindPostings_balances (ps : List Posting) (s : LedgerState) (hs : ∀ a, FitsI64 (s.balances.entry a))
    (a : String) :
    (ps.foldl LedgerStore.rewindPosting s).balances.entry a = wrap64 (s.balances.entry a - moved ps a) := by
  induction ps generalizing s with
  | nil => simp [moved, wrap64_of_fits (hs a)]
  | cons p ps ih =>
    have hstep : ∀ b, (LedgerStore.rewindPosting s p).balances.entry b =
        if p.accountId = b then wrap64 (s.balances.entry p.accountId - p.deltaMcu) else s.balances.entry b := by
      intro b
      exact Table.entry_insert _ _ _ _
    rw [List.foldl_cons, ih, hstep, moved_cons]
    · split_ifs with h
      · rw [h, sub_eq_add_neg, wrap64_wrap64_add]
        congr 1
        ring
      · rw [zero_add]
    · intro b
      rw [hstep]
      split_ifs
      · exact fits_wrap64 _
      · exact hs b

theorem rewindPostings_activity (ps : List Posting) (s : LedgerState)
    (hs : ∀ a : String, wrapPair (s.activity[a]?.getD (0, 0)) = s.activity[a]?.getD (0, 0)) (a : String) :
    (ps.foldl LedgerStore.rewindPosting s).activity[a]?.getD (0, 0) =
      wrapPair (s.activity[a]?.getD (0, 0) - lifetime ps a) := by
  induction ps generalizing s with
  | nil => simpa [lifetime] using (hs a).symm
  | cons p ps ih =>
    have hstep : ∀ b, (LedgerStore.rewindPosting s p).activity[b]?.getD (0, 0) =
        if p.accountId = b then wrapPair (s.activity[p.accountId]?.getD (0, 0) - addActivity (0, 0) p.deltaMcu)
        else s.activity[b]?.getD (0, 0) := by
      intro b
      simp only [LedgerStore.rewindPosting, Table.get_insert]
      split_ifs with hb hd
      · have h2 := congrArg Prod.snd (hs p.accountId)
        simp only [wrapPair] at h2
        simp [wrapPair, addActivity, hd, h2]
      · have h1 := congrArg Prod.fst (hs p.accountId)
        simp only [wrapPair] at h1
        simp [wrapPair, addActivity, hd, h1]
      · rfl
    rw [List.foldl_cons, ih, hstep, lifetime_cons]
    · split_ifs with h
      · rw [h, sub_eq_add_neg, wrapPair_wrapPair_add]
        congr 1
        abel
      · rw [zero_add]
    · intro b
      rw [hstep]
      split_ifs
      · exact wrapPair_wrapPair _
      · exact hs b

/-! ## Undoing transactions -/

section

variable (txs : List LedgerTransaction) (s : LedgerState)

theorem rewind_reservations : (txs.foldl LedgerStore.rewindTransaction s).reservations = s.reservations ∧
    (txs.foldl LedgerStore.rewindTransaction s).inference = s.inference := by
  induction txs generalizing s with
  | nil => exact ⟨rfl, rfl⟩
  | cons tx txs ih =>
    obtain ⟨h1, h2⟩ := rewindPostings_reservations tx.postings { s with claims := s.claims.erase (claimKey tx) }
    rw [List.foldl_cons]
    exact ⟨(ih _).1.trans h1, (ih _).2.trans h2⟩

theorem rewind_claims (k : String) : (txs.foldl LedgerStore.rewindTransaction s).claims[k]? =
    if k ∈ txs.map claimKey then none else s.claims[k]? := by
  induction txs generalizing s with
  | nil => simp
  | cons tx txs ih =>
    rw [List.foldl_cons, ih, LedgerStore.rewindTransaction, rewindPostings_claims, Std.ExtTreeMap.getElem?_erase]
    simp only [Std.LawfulEqOrd.compare_eq_iff_eq, List.map_cons, List.mem_cons]
    by_cases h1 : k ∈ txs.map claimKey
    · simp [h1]
    · by_cases h2 : claimKey tx = k
      · simp [h2]
      · simp [h1, h2, Ne.symm h2]

theorem rewind_balances (hs : ∀ a, FitsI64 (s.balances.entry a)) (a : String) :
    (txs.foldl LedgerStore.rewindTransaction s).balances.entry a =
      wrap64 (s.balances.entry a - moved (txs.flatMap (·.postings)) a) := by
  induction txs generalizing s with
  | nil => simp [moved, wrap64_of_fits (hs a)]
  | cons tx txs ih =>
    have hstep := rewindPostings_balances tx.postings { s with claims := s.claims.erase (claimKey tx) } hs
    rw [List.foldl_cons, ih, LedgerStore.rewindTransaction, hstep, List.flatMap_cons, moved_append, sub_eq_add_neg,
      wrap64_wrap64_add]
    · congr 1
      ring
    · intro b
      rw [LedgerStore.rewindTransaction, hstep]
      exact fits_wrap64 _

theorem rewind_activity (hs : ∀ a : String, wrapPair (s.activity[a]?.getD (0, 0)) = s.activity[a]?.getD (0, 0)) (a : String) :
    (txs.foldl LedgerStore.rewindTransaction s).activity[a]?.getD (0, 0) =
      wrapPair (s.activity[a]?.getD (0, 0) - lifetime (txs.flatMap (·.postings)) a) := by
  induction txs generalizing s with
  | nil => simpa [lifetime] using (hs a).symm
  | cons tx txs ih =>
    have hstep := rewindPostings_activity tx.postings { s with claims := s.claims.erase (claimKey tx) } hs
    rw [List.foldl_cons, ih, LedgerStore.rewindTransaction, hstep, List.flatMap_cons, lifetime_append, sub_eq_add_neg,
      wrapPair_wrapPair_add]
    · congr 1
      abel
    · intro b
      rw [LedgerStore.rewindTransaction, hstep]
      exact wrapPair_wrapPair _

end

/-! ## What every replica holds -/

/-- the height of the newest checkpoint -/
def floorOf (st : LedgerStore) : ℕ := (st.latestCheckpoint.map (·.head.sequence)).getD 0

/-- a history `apply` can have accepted: numbered from one, no claim settled twice, no balance beyond `i64` -/
structure WellFormed (certs : List QuorumCertificate) : Prop where
  numbered : NumberedFrom 0 certs
  settled_once : SettledOnce (placed certs)
  fits : ∀ n a, FitsI64 (moved (postingsOf (certs.take n)) a)

/-- the tables of a store that holds the history, having started from a snapshot at height `base` (zero for none) and
discarded the first `kept` certificates -/
structure Holds (c : Crypto) (certs : List QuorumCertificate) (base kept : ℕ) (st : LedgerStore) : Prop where
  history : WellFormed certs
  certificates : st.certificates = certs.drop kept
  balances : ∀ a, st.balance a = moved (postingsOf certs) a
  claims : Indexes (placed certs) claimRow (fun n _ => max base n) st.claims
  jobs : Indexes (placed certs) LedgerStore.jobRecord (fun n r => (max base n, r)) st.jobReservations
  inference : Indexes (placed certs) LedgerStore.inferenceRecord (fun n r => (max base n, r)) st.inferenceReservations
  rows : st.accountActivity = (certs.drop base).flatMap fun cert => LedgerStore.activityRows cert.entry
  baseline : ∀ a : String,
    st.activityBaseline[a]?.getD (0, 0) = wrapPair (lifetime (postingsOf (certs.take base)) a)
  keyed : ∀ (q : ℕ) (cp : LedgerCheckpoint), st.checkpoints[q]? = some cp → cp.head.sequence = q
  /-- the newest checkpoint vouches for the state the history leaves at its height -/
  sealed : ∀ cp, st.latestCheckpoint = some cp →
    ((cp.head.sequence + 1 : ℕ) : ℤ) ≤ i64Max ∧ ∃ s, Records (certs.take cp.head.sequence) s ∧ s.digest c = cp.stateHash
  reached : floorOf st ≤ certs.length
  base_le : base ≤ floorOf st
  base_held : base ≤ kept + 1
  kept_lt : kept = 0 ∨ kept < floorOf st

theorem wellFormed_nil : WellFormed [] where
  numbered := by
    intro i cert hi
    simp at hi
  settled_once := List.Pairwise.nil
  fits := by
    intro n a
    simp [postingsOf, moved, FitsI64, i64Min, i64Max]

section

variable {c : Crypto} {certs : List QuorumCertificate} {base kept : ℕ} {st : LedgerStore}

theorem holds_empty (c : Crypto) : Holds c [] 0 0 LedgerStore.empty where
  history := wellFormed_nil
  certificates := rfl
  balances := by
    intro a
    simp [LedgerStore.balance, LedgerStore.empty, Table.entry, postingsOf, moved]
  claims := Indexes.nil
  jobs := Indexes.nil
  inference := Indexes.nil
  rows := rfl
  baseline := by
    intro a
    simp [LedgerStore.empty, postingsOf, lifetime, wrapPair, wrap64]
  keyed := by
    intro q cp hq
    simp [LedgerStore.empty] at hq
  sealed := by
    intro cp hcp
    simp [LedgerStore.latestCheckpoint, LedgerStore.empty] at hcp
  reached := by simp [floorOf, LedgerStore.latestCheckpoint, LedgerStore.empty]
  base_le := Nat.zero_le _
  base_held := Nat.zero_le _
  kept_lt := Or.inl rfl

theorem Holds.kept_le (h : Holds c certs base kept st) : kept ≤ floorOf st := by
  rcases h.kept_lt with h0 | hlt
  · omega
  · omega

theorem Holds.getLast? (h : Holds c certs base kept st) : st.certificates.getLast? = certs.getLast? := by
  rw [h.certificates, List.getLast?_drop]
  split_ifs with hlen
  · -- everything discarded: only when there was nothing
    have hnil : certs = [] := by
      have := h.kept_le
      have := h.reached
      rcases h.kept_lt with h0 | hlt
      · exact List.length_eq_zero_iff.1 (by omega)
      · omega
    rw [hnil]
    rfl
  · rfl

theorem Holds.headSequence (h : Holds c certs base kept st) : st.headSequence = certs.length := by
  unfold LedgerStore.headSequence
  rw [h.getLast?]
  cases hl : certs.getLast? with
  | none =>
    rw [List.getLast?_eq_none_iff.1 hl]
    rfl
  | some cert =>
    have := h.history.numbered.getLast? hl
    simpa using this

/-- the certificates above any height that nothing was discarded from -/
theorem Holds.certificatesFrom (h : Holds c certs base kept st) {n : ℕ} (hn : kept ≤ n) :
    st.certificatesFrom (n + 1) = certs.drop n := by
  have hnum : NumberedFrom kept (certs.drop kept) := by
    have := h.history.numbered.drop kept
    rwa [Nat.zero_add] at this
  unfold LedgerStore.certificatesFrom
  rw [h.certificates, hnum.filter_above n, List.drop_drop]
  congr 1
  omega

theorem activityRows_flatMap (certs : List QuorumCertificate) :
    ((certs.flatMap fun cert => LedgerStore.activityRows cert.entry).map
      fun r => (⟨r.accountId, r.deltaMcu⟩ : Posting)) = postingsOf certs := by
  unfold postingsOf
  rw [List.map_flatMap]
  congr 1
  funext cert
  exact activityRows_postings cert.entry

/-- the totals a store sums up cover the certificates since its snapshot -/
theorem Holds.sums (h : Holds c certs base kept st) (a : String) :
    (LedgerStore.sumActivity st.accountActivity)[a]?.getD (0, 0) = lifetime (postingsOf (certs.drop base)) a := by
  rw [get_sumActivity, h.rows, activityRows_flatMap]

theorem lifetime_split (certs : List QuorumCertificate) (n : ℕ) (a : String) :
    lifetime (postingsOf certs) a = lifetime (postingsOf (certs.take n)) a + lifetime (postingsOf (certs.drop n)) a := by
  rw [← lifetime_append, ← postingsOf_append, List.take_append_drop]

theorem moved_split (certs : List QuorumCertificate) (n : ℕ) (a : String) :
    moved (postingsOf certs) a = moved (postingsOf (certs.take n)) a + moved (postingsOf (certs.drop n)) a := by
  rw [← moved_append, ← postingsOf_append, List.take_append_drop]

theorem activityFits_iff (t : Table String (ℤ × ℤ)) :
    LedgerStore.activityFits t ↔ ∀ a : String, FitsPair (t[a]?.getD (0, 0)) := by
  constructor
  · intro h a
    cases ha : t[a]? with
    | none => simp [FitsPair, FitsI64, i64Min, i64Max]
    | some p => exact h (a, p) (Std.ExtTreeMap.mem_toList_iff_getElem?_eq_some.2 ha)
  · rintro h ⟨a, p⟩ hrow
    have ha := h a
    rwa [Std.ExtTreeMap.mem_toList_iff_getElem?_eq_some.1 hrow] at ha

theorem addBaseline_eq :
    LedgerStore.addBaseline = Table.merge fun o (w : ℤ × ℤ) => wrapPair (o.getD (0, 0) + w) := rfl

/-- **A replica's state is the one its history leaves.** -/
theorem Holds.state_records (h : Holds c certs base kept st) {s : LedgerState} (hs : st.state = .ok s) :
    Records certs s := by
  obtain ⟨hfit, rfl⟩ := state_ok.1 hs
  refine ⟨h.balances, h.claims.map fun _ => (), h.jobs.map Prod.snd, h.inference.map Prod.snd, ?_⟩
  intro a
  have hsum := h.sums a
  have hbase := h.baseline a
  rw [lifetime_split certs base a, ← wrapPair_wrapPair_add, ← hbase]
  simp only [view, addBaseline_eq, Table.get_mergeAll]
  cases hb : st.activityBaseline[a]? with
  | none =>
    have hfits := (activityFits_iff _).1 hfit a
    rw [hsum] at hfits
    have hzero : ((0, 0) : ℤ × ℤ) + lifetime (postingsOf (certs.drop base)) a = _ := zero_add _
    simp only [hsum, Option.getD_none, hzero, wrapPair_of_fits hfits]
  | some w => simp only [Option.getD_some, hsum, add_comm]

/-- dropping the reservations made above a height; those a snapshot brought stand at its own height -/
theorem Indexes.reservedUpTo {V : Type} {row : LedgerTransaction → Option (String × V)}
    {l l' : List (ℕ × LedgerTransaction)} {t : Table String (ℕ × V)} {u : Table String V} {q : ℕ}
    (ht : Indexes l row (fun n r => (max base n, r)) t) (hu : Indexes l row (fun _ r => r) u) (hbase : base ≤ q)
    (hl : ∀ x, x ∈ l' ↔ x ∈ l ∧ x.1 ≤ q) :
    Indexes l' row (fun _ r => r) (u.filter fun job _ => ¬ ∃ w ∈ t[job]?, q < w.1) := by
  refine hu.filter _ (fun x hx => ((hl x).1 hx).1) ?_
  intro x hx j r hr
  have hrow : t[j]? = some (max base x.1, r) := (ht j _).2 ⟨x, hx, r, hr, rfl⟩
  have hlater : (∃ w ∈ t[j]?, q < w.1) ↔ q < x.1 := by
    rw [hrow]
    simp only [Option.mem_def, Option.some.injEq, exists_eq_left', lt_max_iff]
    omega
  rw [decide_eq_true_iff, hlater, hl x]
  constructor
  · intro hle
    exact ⟨hx, by omega⟩
  · intro hle
    have := hle.2
    omega

/-- dropping the claims of the later part of a history -/
theorem Indexes.unclaimed {l₁ l₂ : List (ℕ × LedgerTransaction)} {u u' : Table String Unit} {keys : List String}
    (hu : Indexes (l₁ ++ l₂) claimRow (fun _ _ => ()) u) (honce : SettledOnce (l₁ ++ l₂))
    (hkeys : ∀ k, k ∈ keys ↔ ∃ x ∈ l₂, claimKey x.2 = k)
    (hu' : ∀ k : String, u'[k]? = if k ∈ keys then none else u[k]?) :
    Indexes l₁ claimRow (fun _ _ => ()) u' := by
  intro k w
  rw [hu' k]
  split_ifs with hk
  · -- a claim of the later part is not one of the earlier part
    obtain ⟨y, hy, hyk⟩ := (hkeys k).1 hk
    constructor
    · intro hf
      cases hf
    · rintro ⟨x, hx, v, hv, _⟩
      simp only [claimRow, Option.some.injEq, Prod.mk.injEq] at hv
      exact absurd (hv.1.trans hyk.symm) ((List.pairwise_append.1 honce).2.2 x hx y hy)
  · rw [hu k w]
    constructor
    · rintro ⟨x, hx, v, hv, hw⟩
      rcases List.mem_append.1 hx with hx | hx
      · exact ⟨x, hx, v, hv, hw⟩
      · simp only [claimRow, Option.some.injEq, Prod.mk.injEq] at hv
        exact absurd ((hkeys k).2 ⟨x, hx, hv.1⟩) hk
    · rintro ⟨x, hx, v, hv, hw⟩
      exact ⟨x, List.mem_append_left _ hx, v, hv, hw⟩

theorem mem_claimKeys (certs : List QuorumCertificate) (k : String) :
    k ∈ (certs.flatMap (·.entry.transactions)).map claimKey ↔ ∃ x ∈ placed certs, claimKey x.2 = k := by
  simp only [placed, List.mem_map, List.mem_flatMap]
  constructor
  · rintro ⟨tx, ⟨cert, hc, htx⟩, hk⟩
    exact ⟨(cert.entry.sequence, tx), ⟨cert, hc, tx, htx, rfl⟩, hk⟩
  · rintro ⟨x, ⟨cert, hc, tx, htx, rfl⟩, hk⟩
    exact ⟨tx, ⟨cert, hc, htx⟩, hk⟩

/-- **Rewinding a replica gives the state at an earlier height**, as long as it still holds what came after. -/
theorem Holds.rewinds (h : Holds c certs base kept st) {q : ℕ} (hkept : kept ≤ q) (hbase : base ≤ q) {s : LedgerState}
    (hs : st.rewindTo q = .ok s) : Records (certs.take q) s := by
  simp only [LedgerStore.rewindTo, bind_ok, pure_ok, exists_const, LedgerStore.sqliteSequence, bailIf_ok] at hs
  obtain ⟨s0, hs0, _, rfl⟩ := hs
  have hrec := h.state_records hs0
  rw [h.certificatesFrom hkept]
  set txs := (certs.drop q).flatMap (·.entry.transactions) with htxs
  have hps : txs.flatMap (·.postings) = postingsOf (certs.drop q) := by
    simp [htxs, postingsOf, List.flatMap_assoc]
  have hplaced := h.history.numbered.mem_placed_take q
  have hsplit : placed certs = placed (certs.take q) ++ placed (certs.drop q) := by
    rw [← placed_append, List.take_append_drop]
  refine ⟨?_, ?_, ?_, ?_, ?_⟩
  · intro a
    show (txs.foldl LedgerStore.rewindTransaction s0).balances.entry a = _
    have hfits : ∀ a, FitsI64 (s0.balances.entry a) := by
      intro a
      have := h.history.fits certs.length a
      rwa [List.take_length, ← hrec.balances a] at this
    rw [rewind_balances txs s0 hfits, hps, hrec.balances a, moved_split certs q a, add_sub_cancel_right]
    exact wrap64_of_fits (h.history.fits q a)
  · have hclaims := hrec.claims
    have honce := h.history.settled_once
    rw [hsplit] at hclaims honce
    exact hclaims.unclaimed honce (mem_claimKeys (certs.drop q)) (rewind_claims txs s0)
  · show Indexes _ _ _ ((txs.foldl LedgerStore.rewindTransaction s0).reservations.filter _)
    rw [(rewind_reservations txs s0).1]
    exact h.jobs.reservedUpTo hrec.jobs hbase hplaced
  · show Indexes _ _ _ ((txs.foldl LedgerStore.rewindTransaction s0).inference.filter _)
    rw [(rewind_reservations txs s0).2]
    exact h.inference.reservedUpTo hrec.inference hbase hplaced
  · intro a
    show (txs.foldl LedgerStore.rewindTransaction s0).activity[a]?.getD (0, 0) = _
    have hwrapped : ∀ a : String, wrapPair (s0.activity[a]?.getD (0, 0)) = s0.activity[a]?.getD (0, 0) := by
      intro a
      rw [hrec.activity a, wrapPair_wrapPair]
    rw [rewind_activity txs s0 hwrapped, hps, hrec.activity a, sub_eq_add_neg, wrapPair_wrapPair_add,
      lifetime_split certs q a, add_neg_cancel_right]

/-! ## Applying a certificate -/

theorem distinctClaims_nodup {seen : List String} (txs : List LedgerTransaction)
    (h : distinctClaims seen txs = .ok ()) : (txs.map claimKey).Nodup ∧ ∀ t ∈ txs, claimKey t ∉ seen := by
  induction txs generalizing seen with
  | nil => simp
  | cons tx txs ih =>
    simp only [distinctClaims, bind_ok, bailIf_ok, exists_const] at h
    obtain ⟨hnd, hseen⟩ := ih h.2
    refine ⟨?_, ?_⟩
    · rw [List.map_cons, List.nodup_cons]
      refine ⟨?_, hnd⟩
      intro hin
      obtain ⟨t, ht, hkey⟩ := List.mem_map.1 hin
      exact hseen t ht (by rw [hkey]; exact List.mem_cons_self)
    · intro t ht
      rcases List.mem_cons.1 ht with rfl | ht
      · exact h.1
      · intro hin
        exact hseen t ht (List.mem_cons_of_mem _ hin)

/-- a certificate that verifies settles each of its claims once -/
theorem nodup_of_certified {cert : QuorumCertificate} {set : ValidatorSet} (h : verifyCertificate c cert set = .ok ()) :
    (cert.entry.transactions.map claimKey).Nodup := by
  simp only [verifyCertificate, bind_ok, exists_ok_unit_and] at h
  exact (distinctClaims_nodup _ h.2.2.1).1

theorem applyPosting_fits {t t' : Table String ℤ} {p : Posting} (ht : ∀ a, FitsI64 (t.entry a))
    (h : LedgerStore.applyPosting t p = .ok t') : ∀ a, FitsI64 (t'.entry a) := by
  simp only [LedgerStore.applyPosting, bind_ok, orBail_ok, bailIf_ok, exists_const, pure_ok, checkedAdd64_some] at h
  obtain ⟨next, ⟨rfl, hfit⟩, _, _, rfl⟩ := h
  intro a
  rw [Table.entry_insert]
  split_ifs
  · exact hfit
  · exact ht a

theorem applyBalances_fits {t t' : Table String ℤ} {txs : List LedgerTransaction} (ht : ∀ a, FitsI64 (t.entry a))
    (h : LedgerStore.applyBalances t txs = .ok t') : ∀ a, FitsI64 (t'.entry a) :=
  foldlM_inv LedgerStore.applyPosting (fun _ t => ∀ a, FitsI64 (t.entry a)) (fun _ _ _ _ ht h => applyPosting_fits ht h)
    _ [] t t' ht h

theorem placed_singleton (cert : QuorumCertificate) :
    placed [cert] = cert.entry.transactions.map fun tx => (cert.entry.sequence, tx) := by
  simp [placed]

theorem postingsOf_singleton (cert : QuorumCertificate) :
    postingsOf [cert] = cert.entry.transactions.flatMap (·.postings) := by
  simp [postingsOf]

/-- a claim the store does not have is not one of the history's -/
theorem Holds.unsettled (h : Holds c certs base kept st) {k : String} (hk : ¬ st.hasClaim k) :
    ∀ x ∈ placed certs, claimKey x.2 ≠ k := by
  intro x hx heq
  exact hk ((h.claims.mem k).2 ⟨x, hx, (), by rw [claimRow, heq]⟩)

/-- the history one certificate on -/
theorem Holds.wellFormed_snoc (h : Holds c certs base kept st) {cert : QuorumCertificate} {set next : ValidatorSet}
    {balances : Table String ℤ} (hok : Appliable c st cert set next balances) :
    WellFormed (certs ++ [cert]) ∧ ∀ a, balances.entry a = moved (postingsOf (certs ++ [cert])) a := by
  have hseq : cert.entry.sequence = certs.length + 1 := by rw [hok.sequence, h.headSequence]
  have hbal : ∀ a, balances.entry a = moved (postingsOf (certs ++ [cert])) a := by
    intro a
    rw [applyBalances_eq hok.covered, entry_foldl_postBalance, postingsOf_append, moved_append, postingsOf_singleton]
    congr 1
    exact h.balances a
  refine ⟨⟨h.history.numbered.snoc (by omega), ?_, ?_⟩, hbal⟩
  · unfold SettledOnce
    rw [placed_append, placed_singleton, List.pairwise_append]
    refine ⟨h.history.settled_once, ?_, ?_⟩
    · rw [List.pairwise_map]
      exact List.pairwise_map.1 (nodup_of_certified hok.certified)
    · intro x hx y hy
      obtain ⟨tx, htx, rfl⟩ := List.mem_map.1 hy
      exact h.unsettled (hok.fresh tx htx) x hx
  · intro n a
    rcases Nat.lt_or_ge certs.length n with hlt | hge
    · rw [List.take_of_length_le (by simp; omega), ← hbal a]
      refine applyBalances_fits ?_ hok.covered a
      intro b
      have := h.history.fits certs.length b
      rwa [List.take_length, ← h.balances b] at this
    · rw [List.take_append_of_le_length hge]
      exact h.history.fits n a

/-- one entry's rows, written as the history's rows are -/
theorem Indexes.commit {V W : Type} {row : LedgerTransaction → Option (String × V)} {mk : ℕ → V → W}
    {t : Table String W} (ht : Indexes (placed certs) row mk t) {cert : QuorumCertificate}
    (hk : KeysApart row (placed (certs ++ [cert]))) {f : V → W} (hf : ∀ v, f v = mk cert.entry.sequence v) :
    Indexes (placed (certs ++ [cert])) row mk
      (cert.entry.transactions.foldl (fun t tx => LedgerStore.upsert t (row tx) f) t) := by
  have hfun : f = mk cert.entry.sequence := funext hf
  rw [placed_append] at hk ⊢
  have hall := ht.extend hk
  rw [placed_singleton, List.foldl_map] at hall
  rw [placed_singleton, hfun]
  exact hall

theorem Holds.apply (h : Holds c certs base kept st) {cert : QuorumCertificate} {set : ValidatorSet}
    {st' : LedgerStore} (hap : st.apply c cert set = .ok st') : Holds c (certs ++ [cert]) base kept st' := by
  obtain ⟨next, balances, hok, rfl⟩ := apply_ok.1 hap
  have hseq : cert.entry.sequence = certs.length + 1 := by rw [hok.sequence, h.headSequence]
  obtain ⟨hwf, hbal⟩ := h.wellFormed_snoc hok
  have hfloor : floorOf (st.commitRows cert balances next) = floorOf st := rfl
  have hreached := h.reached
  have hbase : base ≤ certs.length := h.base_le.trans hreached
  have hkept : kept ≤ certs.length := h.kept_le.trans hreached
  have hheight : ∀ {V : Type} (v : V), (cert.entry.sequence, v) = (max base cert.entry.sequence, v) := by
    intro V v
    rw [max_eq_right (by omega)]
  have hrows : ∀ r ∈ st.accountActivity, r.sequence < cert.entry.sequence := by
    intro r hr
    rw [h.rows, List.mem_flatMap] at hr
    obtain ⟨x, hx, hr⟩ := hr
    obtain ⟨i, hi⟩ := List.mem_iff_getElem?.1 (List.mem_of_mem_drop hx)
    have hlen := (List.getElem?_eq_some_iff.1 hi).1
    have := h.history.numbered i x hi
    rw [activityRows_sequence hr]
    omega
  refine ⟨hwf, ?_, hbal, ?_, ?_, ?_, ?_, ?_, h.keyed, ?_, ?_, h.base_le, h.base_held, h.kept_lt⟩
  · rw [commitRows_certificates, h.certificates, List.drop_append_of_le_length hkept]
  · exact h.claims.commit hwf.settled_once.claims fun v => by rw [max_eq_right (by omega)]
  · exact h.jobs.commit hwf.settled_once.jobs fun v => hheight v
  · exact h.inference.commit hwf.settled_once.inference fun v => hheight v
  · rw [commitRows_accountActivity hrows, h.rows, List.drop_append_of_le_length hbase, List.flatMap_append]
    simp
  · intro a
    rw [List.take_append_of_le_length hbase]
    exact h.baseline a
  · intro cp hcp
    have hq : cp.head.sequence ≤ certs.length := by
      have hl : st.latestCheckpoint = some cp := hcp
      have : floorOf st = cp.head.sequence := by simp [floorOf, hl]
      omega
    rw [List.take_append_of_le_length hq]
    exact h.sealed cp hcp
  · rw [hfloor, List.length_append]
    omega

/-! ## Recording a checkpoint -/

theorem auditFrom_checkpoint {set : ValidatorSet} {cp : LedgerCheckpoint} {head : LedgerHead}
    (h : st.auditFrom c set (some cp) = .ok head) :
    verifyCheckpoint c cp set = .ok () ∧ ((cp.head.sequence + 1 : ℕ) : ℤ) ≤ i64Max ∧
      ∃ s, st.rewindTo cp.head.sequence = .ok s ∧ s.digest c = cp.stateHash := by
  simp only [LedgerStore.auditFrom, LedgerStore.auditStart, bind_ok, bailIf_ok, pure_ok, exists_const,
    exists_ok_unit_and, not_not] at h
  obtain ⟨_, ⟨hv, s, hs, hd, rfl⟩, hrange, _⟩ := h
  simp only [LedgerStore.sqliteSequence, bailIf_ok, gt_iff_lt, not_lt] at hrange
  exact ⟨hv, hrange, s, hs, hd⟩

theorem storeCheckpoint_ok {set : ValidatorSet} {cp : LedgerCheckpoint} {st' : LedgerStore}
    (h : st.storeCheckpoint c cp set = .ok st') :
    (verifyCheckpoint c cp set = .ok () ∧ ((cp.head.sequence + 1 : ℕ) : ℤ) ≤ i64Max ∧
      ∃ s, st.rewindTo cp.head.sequence = .ok s ∧ s.digest c = cp.stateHash) ∧
      st' = { st with checkpoints := st.checkpoints.insert cp.head.sequence cp } := by
  simp only [LedgerStore.storeCheckpoint, bind_ok, pure_ok] at h
  obtain ⟨_, haudit, _, _, rfl⟩ := h
  exact ⟨auditFrom_checkpoint haudit, rfl⟩

theorem le_floorOf (hkeyed : ∀ (q : ℕ) (cp : LedgerCheckpoint), st.checkpoints[q]? = some cp → cp.head.sequence = q)
    {k : ℕ} (hk : k ∈ st.checkpoints) : k ≤ floorOf st := by
  cases hl : st.latestCheckpoint with
  | none =>
    have hnil : st.checkpoints.toList = [] := by
      simpa [LedgerStore.latestCheckpoint, Table.last?] using hl
    rw [Std.ExtTreeMap.toList_eq_nil_iff.1 hnil] at hk
    simp at hk
  | some cp =>
    obtain ⟨q, hq, hmax⟩ := (Table.last?_eq_some_iff _ _).1 hl
    have hle := hmax k hk
    have hseq := hkeyed q cp hq
    simp only [floorOf, hl, Option.map_some, Option.getD_some, hseq]
    simpa [Nat.isLE_compare] using hle

theorem latestCheckpoint_insert_above
    (hkeyed : ∀ (q : ℕ) (cp : LedgerCheckpoint), st.checkpoints[q]? = some cp → cp.head.sequence = q)
    {cp : LedgerCheckpoint} (hq : floorOf st ≤ cp.head.sequence) :
    Table.last? (st.checkpoints.insert cp.head.sequence cp) = some cp := by
  refine Table.last?_insert _ _ _ ?_
  intro a ha
  have := le_floorOf hkeyed ha
  rw [Nat.isLE_compare]
  omega

theorem latestCheckpoint_insert_below
    (hkeyed : ∀ (q : ℕ) (cp : LedgerCheckpoint), st.checkpoints[q]? = some cp → cp.head.sequence = q)
    {cp : LedgerCheckpoint} (hq : cp.head.sequence < floorOf st) :
    Table.last? (st.checkpoints.insert cp.head.sequence cp) = st.latestCheckpoint := by
  cases hl : st.latestCheckpoint with
  | none =>
    simp [floorOf, hl] at hq
  | some top =>
    obtain ⟨k, hk, hmax⟩ := (Table.last?_eq_some_iff _ _).1 hl
    have hseq := hkeyed k top hk
    have hfloor : floorOf st = k := by simp [floorOf, hl, hseq]
    refine (Table.last?_eq_some_iff _ _).2 ⟨k, ?_, ?_⟩
    · rw [Table.get_insert, if_neg (by omega)]
      exact hk
    · intro a ha
      rw [Std.ExtTreeMap.mem_insert, Std.LawfulEqOrd.compare_eq_iff_eq] at ha
      rcases ha with rfl | ha
      · rw [Nat.isLE_compare]
        omega
      · exact hmax a ha

theorem Holds.checkpoint (h : Holds c certs base kept st) {cp : LedgerCheckpoint} {set : ValidatorSet}
    {st' : LedgerStore} (hreach : cp.head.sequence ≤ st.headSequence) (hst : st.storeCheckpoint c cp set = .ok st') :
    Holds c certs base kept st' := by
  obtain ⟨⟨_, hrange, s, hs, hd⟩, rfl⟩ := storeCheckpoint_ok hst
  rw [h.headSequence] at hreach
  have hkeyed : ∀ (q : ℕ) (cp' : LedgerCheckpoint),
      (st.checkpoints.insert cp.head.sequence cp)[q]? = some cp' → cp'.head.sequence = q := by
    intro q cp' hq
    rw [Table.get_insert] at hq
    split_ifs at hq with heq
    · cases hq
      exact heq
    · exact h.keyed q cp' hq
  have hreached := h.reached
  have hbase := h.base_le
  have hkept := h.kept_le
  rcases Nat.lt_or_ge cp.head.sequence (floorOf st) with hlt | hge
  · -- an older checkpoint: the newest one stays what it was
    have hlatest : LedgerStore.latestCheckpoint { st with checkpoints := st.checkpoints.insert cp.head.sequence cp } =
        st.latestCheckpoint := latestCheckpoint_insert_below h.keyed hlt
    have hfloor : floorOf { st with checkpoints := st.checkpoints.insert cp.head.sequence cp } = floorOf st := by
      simp [floorOf, hlatest]
    exact ⟨h.history, h.certificates, h.balances, h.claims, h.jobs, h.inference, h.rows, h.baseline, hkeyed,
      fun cp' hcp' => h.sealed cp' (hlatest ▸ hcp'), by rw [hfloor]; exact hreached, by rw [hfloor]; exact hbase,
      h.base_held, by rw [hfloor]; exact h.kept_lt⟩
  · have hlatest : LedgerStore.latestCheckpoint { st with checkpoints := st.checkpoints.insert cp.head.sequence cp } =
        some cp := latestCheckpoint_insert_above h.keyed hge
    have hfloor : floorOf { st with checkpoints := st.checkpoints.insert cp.head.sequence cp } = cp.head.sequence := by
      simp [floorOf, hlatest]
    have hrec := h.rewinds (hkept.trans hge) (hbase.trans hge) hs
    refine ⟨h.history, h.certificates, h.balances, h.claims, h.jobs, h.inference, h.rows, h.baseline, hkeyed, ?_,
      by rw [hfloor]; exact hreach, by rw [hfloor]; exact hbase.trans hge, h.base_held, ?_⟩
    · intro cp' hcp'
      rw [hlatest] at hcp'
      cases hcp'
      exact ⟨hrange, s, hrec, hd⟩
    · rw [hfloor]
      rcases h.kept_lt with h0 | hlt
      · exact Or.inl h0
      · exact Or.inr (hlt.trans_le hge)

/-! ## Discarding certificates -/

theorem pruneBelowCheckpoint_ok {set : ValidatorSet} {st' : LedgerStore} {n : ℕ}
    (h : st.pruneBelowCheckpoint c set = .ok (st', n)) :
    st' = { st with certificates := st.certificates.filter fun cert => floorOf st ≤ cert.entry.sequence } := by
  simp only [LedgerStore.pruneBelowCheckpoint, bind_ok, orBail_ok, pure_ok, Prod.mk.injEq] at h
  obtain ⟨cp, hcp, _, _, _, _, rfl, _⟩ := h
  simp only [floorOf, hcp, Option.map_some, Option.getD_some, not_lt]

theorem Holds.prune (h : Holds c certs base kept st) {set : ValidatorSet} {st' : LedgerStore} {n : ℕ}
    (hp : st.pruneBelowCheckpoint c set = .ok (st', n)) :
    Holds c certs base (max kept (floorOf st - 1)) st' := by
  obtain rfl := pruneBelowCheckpoint_ok hp
  refine ⟨h.history, ?_, h.balances, h.claims, h.jobs, h.inference, h.rows, h.baseline, h.keyed, h.sealed, h.reached,
    h.base_le, ?_, ?_⟩
  · have hnum : NumberedFrom kept (certs.drop kept) := by
      have := h.history.numbered.drop kept
      rwa [Nat.zero_add] at this
    show st.certificates.filter _ = _
    rw [h.certificates]
    cases hf : floorOf st with
    | zero => simp
    | succ q =>
      rw [hnum.filter_above q, List.drop_drop]
      congr 1
      omega
  · have := h.base_held
    omega
  · show _ ∨ _ < floorOf st
    have := h.kept_lt
    omega

/-! ## Opening a store again -/

theorem foldl_indexCertificate (l : List QuorumCertificate) (st : LedgerStore) :
    l.foldl (fun s cert => LedgerStore.indexCertificate s cert.entry) st =
      { st with
        accountActivity := l.foldl (fun rows cert =>
          (LedgerStore.activityRows cert.entry).foldl LedgerStore.upsertActivity rows) st.accountActivity
        jobReservations := l.foldl (fun t cert => cert.entry.transactions.foldl
          (fun t tx => LedgerStore.upsert t (LedgerStore.jobRecord tx) fun r => (cert.entry.sequence, r)) t)
          st.jobReservations
        inferenceReservations := l.foldl (fun t cert => cert.entry.transactions.foldl
          (fun t tx => LedgerStore.upsert t (LedgerStore.inferenceRecord tx) fun r => (cert.entry.sequence, r)) t)
          st.inferenceReservations } := by
  induction l generalizing st with
  | nil => rfl
  | cons cert l ih => exact ih _

/-- the reservations above the newest checkpoint, indexed again -/
theorem Indexes.reindexed {V : Type} {row : LedgerTransaction → Option (String × V)} {t : Table String (ℕ × V)} {q : ℕ}
    (hn : NumberedFrom 0 certs) (hk : KeysApart row (placed certs)) (hbase : base ≤ q)
    (ht : Indexes (placed certs) row (fun n r => (max base n, r)) t) :
    Indexes (placed certs) row (fun n r => (max base n, r)) ((certs.drop q).foldl (fun t cert =>
      cert.entry.transactions.foldl (fun t tx => LedgerStore.upsert t (row tx) fun r => (cert.entry.sequence, r)) t)
      (t.filter fun _ w => w.1 ≤ q)) := by
  have hkept : Indexes (placed (certs.take q)) row (fun n r => (max base n, r)) (t.filter fun _ w => w.1 ≤ q) := by
    refine ht.filter _ (fun x hx => ((hn.mem_placed_take q x).1 hx).1) ?_
    intro x hx j v _
    rw [hn.mem_placed_take q x, decide_eq_true_iff]
    constructor
    · intro hle
      exact ⟨hx, by omega⟩
    · intro hle
      exact max_le hbase hle.2
  -- the loop over the later certificates, with what has been indexed so far
  have hloop : ∀ (l done : List QuorumCertificate) (t : Table String (ℕ × V)), done ++ l = certs →
      (∀ cert ∈ l, base ≤ cert.entry.sequence) → Indexes (placed done) row (fun n r => (max base n, r)) t →
      Indexes (placed certs) row (fun n r => (max base n, r)) (l.foldl (fun t cert =>
        cert.entry.transactions.foldl (fun t tx => LedgerStore.upsert t (row tx) fun r => (cert.entry.sequence, r)) t)
        t) := by
    intro l
    induction l with
    | nil =>
      intro done t hdone _ ht
      rw [List.append_nil] at hdone
      rwa [hdone] at ht
    | cons cert l ih =>
      intro done t hdone hl ht
      have hsplit : (done ++ [cert]) ++ l = certs := by simpa using hdone
      have hpre : KeysApart row (placed (done ++ [cert])) := by
        rw [← hsplit, placed_append] at hk
        exact (List.pairwise_append.1 hk).1
      refine ih (done ++ [cert]) _ hsplit (fun x hx => hl x (List.mem_cons_of_mem _ hx)) (ht.commit hpre ?_)
      intro v
      rw [max_eq_right (hl cert List.mem_cons_self)]
  refine hloop (certs.drop q) (certs.take q) _ (List.take_append_drop q certs) ?_ hkept
  intro cert hc
  obtain ⟨i, hi⟩ := List.mem_iff_getElem?.1 hc
  have := (hn.drop q) i cert hi
  omega

theorem reindexed_rows {off : ℕ} (l : List QuorumCertificate) (rows : List ActivityRow) (hn : NumberedFrom off l)
    (hrows : ∀ r ∈ rows, r.sequence ≤ off) :
    l.foldl (fun rows cert => (LedgerStore.activityRows cert.entry).foldl LedgerStore.upsertActivity rows) rows =
      rows ++ l.flatMap fun cert => LedgerStore.activityRows cert.entry := by
  induction l generalizing off rows with
  | nil => simp
  | cons cert l ih =>
    have hseq : cert.entry.sequence = off + 0 + 1 := hn 0 cert rfl
    have hbelow : ∀ r ∈ rows, r.sequence < cert.entry.sequence := by
      intro r hr
      have := hrows r hr
      omega
    rw [List.foldl_cons, indexRows_append hbelow, ih _ (hn.drop 1) ?_, List.flatMap_cons, List.append_assoc]
    intro r hr
    rcases List.mem_append.1 hr with hr | hr
    · have := hrows r hr
      omega
    · rw [activityRows_sequence hr]
      omega

/-- the rows up to a height are those of the certificates up to it -/
theorem rows_upTo {off : ℕ} (l : List QuorumCertificate) (hn : NumberedFrom off l) (q : ℕ) :
    (l.flatMap fun cert => LedgerStore.activityRows cert.entry).filter (fun r => r.sequence ≤ q) =
      (l.take (q - off)).flatMap fun cert => LedgerStore.activityRows cert.entry := by
  induction l generalizing off with
  | nil => simp
  | cons cert l ih =>
    have hseq : cert.entry.sequence = off + 0 + 1 := hn 0 cert rfl
    rw [List.flatMap_cons, List.filter_append, ih (hn.drop 1)]
    rcases Nat.lt_or_ge off q with hlt | hge
    · have htake : q - off = (q - (off + 1)) + 1 := by omega
      rw [htake, List.take_succ_cons, List.flatMap_cons, List.filter_eq_self.2]
      intro r hr
      rw [activityRows_sequence hr, decide_eq_true_iff]
      omega
    · rw [show q - off = 0 by omega, show q - (off + 1) = 0 by omega]
      simp only [List.take_zero, List.flatMap_nil, List.append_nil, List.filter_eq_nil_iff]
      intro r hr
      rw [activityRows_sequence hr, decide_eq_true_iff]
      omega

theorem Holds.reopen (h : Holds c certs base kept st) : Holds c certs base kept st.reopen := by
  have hfrom := h.certificatesFrom h.kept_le
  have hnum := h.history.numbered
  have hreopen : st.reopen = (certs.drop (floorOf st)).foldl (fun s cert => LedgerStore.indexCertificate s cert.entry)
      { st with
        accountActivity := st.accountActivity.filter fun r => r.sequence ≤ floorOf st
        jobReservations := st.jobReservations.filter fun _ row => row.1 ≤ floorOf st
        inferenceReservations := st.inferenceReservations.filter fun _ row => row.1 ≤ floorOf st } := by
    rw [← hfrom]
    rfl
  rw [hreopen, foldl_indexCertificate]
  refine ⟨h.history, h.certificates, h.balances, h.claims, ?_, ?_, ?_, h.baseline, h.keyed, h.sealed, h.reached,
    h.base_le, h.base_held, h.kept_lt⟩
  · exact Indexes.reindexed hnum h.history.settled_once.jobs h.base_le h.jobs
  · exact Indexes.reindexed hnum h.history.settled_once.inference h.base_le h.inference
  · show (certs.drop (floorOf st)).foldl _ (st.accountActivity.filter _) = _
    have hsince : NumberedFrom base (certs.drop base) := by
      have := hnum.drop base
      rwa [Nat.zero_add] at this
    have hlater : NumberedFrom (floorOf st) (certs.drop (floorOf st)) := by
      have := hnum.drop (floorOf st)
      rwa [Nat.zero_add] at this
    have hbase := h.base_le
    rw [reindexed_rows _ _ hlater, h.rows, rows_upTo _ hsince, ← List.flatMap_append]
    · congr 1
      have hdrop : certs.drop (floorOf st) = (certs.drop base).drop (floorOf st - base) := by
        rw [List.drop_drop]
        congr 1
        omega
      rw [hdrop, List.take_append_drop]
    · intro r hr
      exact of_decide_eq_true (List.mem_filter.1 hr).2

/-! ## Starting from a snapshot -/

theorem snapshot_verify_ok {snap : LedgerSnapshot} {set : ValidatorSet} :
    snap.verify c set = .ok () ↔
      verifyCertificate c snap.certificate set = .ok () ∧ verifyCheckpoint c snap.checkpoint set = .ok () ∧
        snap.certificate.entry.sequence = snap.checkpoint.head.sequence ∧
        snap.certificate.entry.entryHash = snap.checkpoint.head.entryHash ∧
        snap.state.digest c = snap.checkpoint.stateHash := by
  simp only [LedgerSnapshot.verify, bind_ok, bailIf_ok, exists_const, exists_ok_unit_and, not_or, not_not, and_assoc]

theorem snapshot_ok {snap : LedgerSnapshot} {set : ValidatorSet} (h : st.snapshot c set = .ok snap) :
    st.latestCheckpoint = some snap.checkpoint ∧ st.certificateAt snap.checkpoint.head.sequence = some snap.certificate ∧
      st.rewindTo snap.checkpoint.head.sequence = .ok snap.state ∧ snap.verify c set = .ok () := by
  simp only [LedgerStore.snapshot, bind_ok, orBail_ok, exists_ok_unit_and, pure_ok] at h
  obtain ⟨cp, hcp, _, cert, hcert, s, hs, hv, rfl⟩ := h
  exact ⟨hcp, hcert, hs, hv⟩

theorem insertAll_empty {V W : Type} (rows : Table String V) (f : V → W) :
    LedgerStore.insertAll ∅ rows f = rows.map fun _ v => f v := by
  apply Std.ExtTreeMap.ext_getElem?
  intro k
  have h := Table.get_mergeAll (fun _ v => f v) rows (∅ : Table String W) k
  rw [Std.ExtTreeMap.getElem?_map]
  refine h.trans ?_
  cases rows[k]? <;> simp

theorem WellFormed.take (h : WellFormed certs) (q : ℕ) : WellFormed (certs.take q) where
  numbered := h.numbered.take q
  settled_once := by
    have hsplit : placed certs = placed (certs.take q) ++ placed (certs.drop q) := by
      rw [← placed_append, List.take_append_drop]
    have honce := h.settled_once
    rw [hsplit] at honce
    exact (List.pairwise_append.1 honce).1
  fits := by
    intro n a
    rw [List.take_take]
    exact h.fits _ a

/-- the certificate of a height the store still holds -/
theorem Holds.certificateAt (h : Holds c certs base kept st) {q : ℕ} (hq : kept < q) :
    st.certificateAt q = certs[q - 1]? := by
  have hnum : NumberedFrom kept (certs.drop kept) := by
    have := h.history.numbered.drop kept
    rwa [Nat.zero_add] at this
  unfold LedgerStore.certificateAt
  rw [h.certificates]
  have hfind := hnum.find? (q - 1 - kept)
  rw [List.getElem?_drop, show kept + (q - 1 - kept) = q - 1 by omega] at hfind
  rw [← hfind]
  congr 1
  funext x
  congr 1
  rw [eq_iff_iff]
  constructor <;> intro hx <;> omega

theorem Holds.certificateAt_none (h : Holds c certs base kept st) {q : ℕ} (hq : q ≤ kept) :
    st.certificateAt q = none := by
  unfold LedgerStore.certificateAt
  rw [h.certificates, List.find?_eq_none]
  intro cert hc heq
  obtain ⟨i, hi⟩ := List.mem_iff_getElem?.1 hc
  have := (h.history.numbered.drop kept) i cert hi
  simp only [decide_eq_true_eq] at heq
  omega

/-- **A store that adopts a snapshot holds the history up to it.** -/
theorem Holds.restore (h : Holds c certs base kept st) {snap : LedgerSnapshot} {set : ValidatorSet}
    (hsnap : st.snapshot c set = .ok snap) :
    Holds c (certs.take snap.checkpoint.head.sequence) snap.checkpoint.head.sequence
      (snap.checkpoint.head.sequence - 1) (LedgerStore.empty.installRows snap) := by
  obtain ⟨hlatest, hcert, hs, hv⟩ := snapshot_ok hsnap
  obtain ⟨_, _, _, _, hd⟩ := snapshot_verify_ok.1 hv
  obtain ⟨hrange, _⟩ := h.sealed _ hlatest
  set q := snap.checkpoint.head.sequence with hq
  have hfloor : floorOf st = q := by simp [floorOf, hlatest, ← hq]
  have hkept := h.kept_le
  have hbase := h.base_le
  have hreached := h.reached
  rw [hfloor] at hkept hbase hreached
  have hrec := h.rewinds hkept hbase hs
  have hheld : kept < q := by
    by_contra hle
    rw [h.certificateAt_none (by omega)] at hcert
    cases hcert
  rw [h.certificateAt hheld] at hcert
  have hlow : ∀ x ∈ placed (certs.take q), q = max q x.1 := by
    intro x hx
    have := ((h.history.numbered.mem_placed_take q x).1 hx).2
    omega
  have hnew : LedgerStore.latestCheckpoint (LedgerStore.empty.installRows snap) = some snap.checkpoint := by
    refine Table.last?_insert _ _ _ ?_
    simp [LedgerStore.empty]
  have hnewfloor : floorOf (LedgerStore.empty.installRows snap) = q := by simp [floorOf, hnew, ← hq]
  refine ⟨h.history.take q, ?_, ?_, ?_, ?_, ?_, ?_, ?_, ?_, ?_, ?_, ?_, by omega, ?_⟩
  · show [] ++ [snap.certificate] = _
    rw [List.nil_append, List.drop_take, show q - (q - 1) = 0 + 1 by omega]
    obtain ⟨hlen, hget⟩ := List.getElem?_eq_some_iff.1 hcert
    rw [List.drop_eq_getElem_cons hlen, List.take_succ_cons, List.take_zero, hget]
  · intro a
    show Table.entry (LedgerStore.insertAll ∅ snap.state.balances id) a = _
    rw [insertAll_empty]
    simpa [Table.entry, Std.ExtTreeMap.getElem?_map] using hrec.balances a
  · show Indexes _ _ _ (LedgerStore.insertAll ∅ snap.state.claims fun _ => q)
    rw [insertAll_empty]
    exact (hrec.claims.map fun _ => q).congr fun x hx _ => hlow x hx
  · show Indexes _ _ _ (LedgerStore.insertAll ∅ snap.state.reservations fun r => (q, r))
    rw [insertAll_empty]
    exact (hrec.jobs.map fun r => (q, r)).congr fun x hx v => by rw [← hlow x hx]
  · show Indexes _ _ _ (LedgerStore.insertAll ∅ snap.state.inference fun r => (q, r))
    rw [insertAll_empty]
    exact (hrec.inference.map fun r => (q, r)).congr fun x hx v => by rw [← hlow x hx]
  · show [] = _
    rw [List.drop_eq_nil_of_le (by simp)]
    rfl
  · intro a
    show (LedgerStore.insertAll ∅ snap.state.activity id)[a]?.getD (0, 0) = _
    rw [insertAll_empty, List.take_take, min_self]
    simpa [Std.ExtTreeMap.getElem?_map] using hrec.activity a
  · intro k cp hk
    have hk' : ((∅ : Table ℕ LedgerCheckpoint).insert q snap.checkpoint)[k]? = some cp := hk
    rw [Table.get_insert] at hk'
    split_ifs at hk' with heq
    · cases hk'
      exact heq
    · simp at hk'
  · intro cp hcp
    rw [hnew] at hcp
    cases hcp
    refine ⟨hrange, snap.state, ?_, hd⟩
    rw [← hq, List.take_take, min_self]
    exact hrec
  · rw [hnewfloor, List.length_take]
    omega
  · rw [hnewfloor]
  · rw [hnewfloor]
    omega

end

end Hocmesh.Books
