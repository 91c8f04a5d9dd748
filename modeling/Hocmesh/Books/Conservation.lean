/-
Conservation of CU, one transaction and one batch at a time.

`Conserved` is the invariant: balances sum to zero, only issuance may be negative, and it never goes below the limit.
From it every balance lies between minus the limit and the limit, so no `i64` ever wraps; that is what makes the overlay
a batch is judged with the same as the books with the earlier transactions recorded (`Tracks`), and why `apply`'s own
balance pass has nothing left to refuse.
-/
import Hocmesh.Base.Along
import Hocmesh.Books.Flow

namespace Hocmesh.Books

open Hocmesh.Base Hocmesh.Protocol Hocmesh.Compute Hocmesh.Ledger Hocmesh.Validator

/-! ## One transfer -/

theorem entry_postBalance (t : Table String ℤ) (p : Posting) (a : String) :
    (postBalance t p).entry a = t.entry a + if p.accountId = a then p.deltaMcu else 0 := by
  unfold postBalance
  rw [Table.entry_insert]
  split_ifs with h
  · rw [h]
  · simp

theorem total_postBalance (t : Table String ℤ) (p : Posting) : (postBalance t p).total = t.total + p.deltaMcu := by
  unfold postBalance
  rw [Table.total_insert]
  omega

/-- what a transfer does to the balance under a name -/
def Transfer.effect (f : Transfer) (a : String) : ℤ :=
  (if f.dst.name = a then f.amount else 0) - (if f.src.name = a then f.amount else 0)

/-- the balance an account has once the transaction is recorded -/
theorem entry_record {s : LedgerState} {tx : LedgerTransaction} {f : Transfer} (hf : Flows tx f) (a : String) :
    (record s tx).balances.entry a = s.balances.entry a + f.effect a := by
  rw [record_balances]
  unfold Transfer.effect
  rcases moves_postings hf.moves hf.name_ne with hp | hp
  · rw [hp]
    simp only [List.foldl_cons, List.foldl_nil, entry_postBalance]
    split_ifs <;> omega
  · rw [hp]
    simp only [List.foldl_cons, List.foldl_nil, entry_postBalance]
    split_ifs <;> omega

/-- the same, for an account rather than a name -/
theorem entry_record_account {s : LedgerState} {tx : LedgerTransaction} {f : Transfer} (hf : Flows tx f) {a : Account}
    (ha : a.Proper) :
    (record s tx).balances.entry a.name =
      s.balances.entry a.name + ((if f.dst = a then f.amount else 0) - (if f.src = a then f.amount else 0)) := by
  rw [entry_record hf]
  simp only [Transfer.effect, Account.name_inj hf.dst_proper ha, Account.name_inj hf.src_proper ha]

theorem total_record {s : LedgerState} {tx : LedgerTransaction} {f : Transfer} (hf : Flows tx f) :
    (record s tx).balances.total = s.balances.total := by
  rw [record_balances]
  rcases moves_postings hf.moves hf.name_ne with hp | hp
  · rw [hp]
    simp only [List.foldl_cons, List.foldl_nil, total_postBalance]
    omega
  · rw [hp]
    simp only [List.foldl_cons, List.foldl_nil, total_postBalance]
    omega

/-! ## The invariant -/

structure Conserved (limit : ℤ) (s : LedgerState) : Prop where
  total : s.balances.total = 0
  nonneg : ∀ a, a ≠ communityIssuanceAccount → 0 ≤ s.balances.entry a
  floor : -limit ≤ s.balances.entry communityIssuanceAccount

theorem conserved_empty {limit : ℤ} (h : 0 ≤ limit) : Conserved limit LedgerState.empty where
  total := Table.total_empty
  nonneg := by simp [LedgerState.empty, Table.entry]
  floor := by simpa [LedgerState.empty, Table.entry] using h

/-- nobody owes but issuance, so nobody owns more than issuance may owe -/
theorem Conserved.bounds {limit : ℤ} {s : LedgerState} (h : Conserved limit s) (a : String) :
    -limit ≤ s.balances.entry a ∧ s.balances.entry a ≤ limit := by
  obtain ⟨hi, ha⟩ := Table.total_zero_bound s.balances communityIssuanceAccount h.total h.nonneg
  have hfloor := h.floor
  by_cases hiss : a = communityIssuanceAccount
  · subst hiss
    omega
  · have h1 := h.nonneg a hiss
    have h2 := ha a hiss
    omega

theorem Conserved.fits {limit : ℤ} {s : LedgerState} (h : Conserved limit s) (hlim : FitsI64 limit) (a : String) :
    FitsI64 (s.balances.entry a) := by
  have hb := h.bounds a
  unfold FitsI64 i64Min i64Max at *
  omega

/-- **A covered transfer conserves.** -/
theorem Conserved.record {limit : ℤ} {s : LedgerState} {tx : LedgerTransaction} {f : Transfer}
    (h : Conserved limit s) (hf : Flows tx f) (hc : Covered s.balances.entry limit f) :
    Conserved limit (record s tx) := by
  have hpos := hf.pos
  refine ⟨(total_record hf).trans h.total, ?_, ?_⟩
  · intro a ha
    have h0 := h.nonneg a ha
    rw [entry_record hf]
    unfold Transfer.effect
    by_cases hs : f.src.name = a
    · have hsrc : f.src ≠ .issuance := by
        intro heq
        rw [heq] at hs
        exact ha hs.symm
      have := hc.source hsrc
      rw [hs] at this
      split_ifs <;> omega
    · split_ifs <;> omega
  · have h0 := h.floor
    have hrec := entry_record_account (s := s) hf (a := .issuance) trivial
    by_cases hs : f.src = .issuance
    · have hd : f.dst ≠ .issuance := fun hd => hf.ne (hs.trans hd.symm)
      have := hc.ceiling hs
      rw [if_pos hs, if_neg hd] at hrec
      exact hrec ▸ (by simp only [Account.name]; omega)
    · rw [if_neg hs] at hrec
      refine hrec ▸ ?_
      simp only [Account.name]
      split_ifs <;> omega

/-- recording a transaction that moves nothing leaves the balances alone -/
theorem balances_record_of_none {s : LedgerState} {tx : LedgerTransaction} (h : tx.postings = []) :
    (record s tx).balances = s.balances := by
  rw [record_balances, h]
  rfl

theorem Conserved.of_balances {limit : ℤ} {s s' : LedgerState} (h : Conserved limit s)
    (hb : s'.balances = s.balances) : Conserved limit s' := by
  rcases h with ⟨h1, h2, h3⟩
  rw [← hb] at h1 h2 h3
  exact ⟨h1, h2, h3⟩

/-- what a valid transaction, judged against the books themselves, does to them -/
theorem Conserved.of_valid {c : Crypto} {s : LedgerState} {tx : LedgerTransaction} {prev : String}
    {res : String → Option InferenceReservation} {set : ValidatorSet} (hset : set.Valid)
    (h : Conserved set.communityIssuanceLimitMcu s)
    (hv : validateTransaction c tx prev s.balances.entry res set = .ok ()) :
    Conserved set.communityIssuanceLimitMcu (Books.record s tx) := by
  rcases flow_of_valid hv with ⟨_, hp⟩ | ⟨f, _, hf, hc⟩
  · exact h.of_balances (balances_record_of_none hp)
  · rw [abs_of_pos hset.limit_pos] at hc
    exact h.record hf hc

/-! ## `apply`'s own balance pass -/

theorem applyPosting_ok {t : Table String ℤ} {p : Posting} (hfits : FitsI64 (t.entry p.accountId + p.deltaMcu))
    (hnn : p.accountId ≠ communityIssuanceAccount → 0 ≤ t.entry p.accountId + p.deltaMcu) :
    LedgerStore.applyPosting t p = .ok (postBalance t p) := by
  have hesc : communityIssuanceAccount.startsWith "hocmesh:escrow:" = false := by decide +kernel
  simp only [LedgerStore.applyPosting, bind_ok, orBail_ok, bailIf_ok, exists_const, checkedAdd64_some, pure_ok]
  refine ⟨_, ⟨rfl, hfits⟩, ?_, ?_, rfl⟩
  · rintro ⟨hlt, hne, _⟩
    have := hnn hne
    omega
  · rintro ⟨hlt, hstarts⟩
    by_cases hiss : p.accountId = communityIssuanceAccount
    · rw [hiss, hesc] at hstarts
      cases hstarts
    · have := hnn hiss
      omega

/-- both postings of a transfer go through, in either order -/
theorem applyPostings_ok {limit : ℤ} {s : LedgerState} {tx : LedgerTransaction} {f : Transfer} (hlim : FitsI64 limit)
    (hf : Flows tx f) (hafter : Conserved limit (record s tx)) :
    tx.postings.foldlM LedgerStore.applyPosting s.balances = .ok (record s tx).balances := by
  have hne := hf.name_ne
  have hsrc := entry_record (s := s) hf f.src.name
  have hdst := entry_record (s := s) hf f.dst.name
  simp only [Transfer.effect, if_neg hne, if_neg hne.symm, if_true, zero_sub, sub_zero] at hsrc hdst
  -- neither posting touches the other's account, so each sees the opening balance and leaves the final one
  have go : ∀ p q : Posting, p.accountId ≠ q.accountId →
      (record s tx).balances.entry p.accountId = s.balances.entry p.accountId + p.deltaMcu →
      (record s tx).balances.entry q.accountId = s.balances.entry q.accountId + q.deltaMcu →
      [p, q].foldlM LedgerStore.applyPosting s.balances = .ok (postBalance (postBalance s.balances p) q) := by
    intro p q hpq hp hq
    have hq' : (postBalance s.balances p).entry q.accountId = s.balances.entry q.accountId := by
      rw [entry_postBalance, if_neg hpq, add_zero]
    have h1 : LedgerStore.applyPosting s.balances p = .ok (postBalance s.balances p) :=
      applyPosting_ok (hp ▸ hafter.fits hlim _) fun hn => hp ▸ hafter.nonneg _ hn
    have h2 : LedgerStore.applyPosting (postBalance s.balances p) q =
        .ok (postBalance (postBalance s.balances p) q) := by
      refine applyPosting_ok ?_ fun hn => ?_
      · rw [hq', ← hq]
        exact hafter.fits hlim _
      · rw [hq', ← hq]
        exact hafter.nonneg _ hn
    simp only [List.foldlM_cons, List.foldlM_nil, bind_ok, pure_ok]
    exact ⟨_, h1, _, h2, rfl⟩
  rw [record_balances]
  rcases moves_postings hf.moves hf.name_ne with hp | hp
  · rw [hp]
    exact go ⟨f.src.name, -f.amount⟩ ⟨f.dst.name, f.amount⟩ hne hsrc hdst
  · rw [hp]
    exact go ⟨f.dst.name, f.amount⟩ ⟨f.src.name, -f.amount⟩ hne.symm hdst hsrc

/-! ## A whole batch -/

/-- a transaction judged against the books as they stand when it is recorded -/
def ValidAt (c : Crypto) (prev : String) (set : ValidatorSet) (s : LedgerState) (tx : LedgerTransaction) : Prop :=
  validateTransaction c tx prev s.balances.entry (reservedIn s) set = .ok ()

section Batch

variable {c : Crypto} {prev : String} {set : ValidatorSet}

theorem conserved_recordAll (hset : set.Valid) {s : LedgerState} {txs : List LedgerTransaction}
    (h : Conserved set.communityIssuanceLimitMcu s) (hv : Along record (ValidAt c prev set) s txs) :
    Conserved set.communityIssuanceLimitMcu (recordAll s txs) :=
  Along.invariant (fun s _ => Conserved set.communityIssuanceLimitMcu s) (fun _ _ _ hc hval => hc.of_valid hset hval)
    txs s [] hv h

/-- **The balance pass never refuses a batch that was validated.** -/
theorem applyBalances_ok (hset : set.Valid) {s : LedgerState} {txs : List LedgerTransaction}
    (h : Conserved set.communityIssuanceLimitMcu s) (hv : Along record (ValidAt c prev set) s txs) :
    LedgerStore.applyBalances s.balances txs = .ok (recordAll s txs).balances := by
  unfold LedgerStore.applyBalances
  induction txs generalizing s with
  | nil => rfl
  | cons tx txs ih =>
    obtain ⟨htx, hrest⟩ := hv
    have hnext := h.of_valid hset htx
    have hone : tx.postings.foldlM LedgerStore.applyPosting s.balances = .ok (record s tx).balances := by
      rcases flow_of_valid htx with ⟨_, hp⟩ | ⟨f, _, hf, _⟩
      · rw [hp, balances_record_of_none hp]
        rfl
      · exact applyPostings_ok set.limit_fits hf hnext
    rw [List.flatMap_cons, List.foldlM_append, hone]
    exact ih hnext hrest

/-- the overlay against the books with the batch's earlier transactions recorded -/
structure Tracks (base now : LedgerState) (o : Overlay) : Prop where
  delta : ∀ a, wrap64 (base.balances.entry a + o.delta a) = wrap64 (now.balances.entry a)
  reserved : ∀ j, o.reserved (reservedIn base) j = reservedIn now j

theorem tracks_empty (s : LedgerState) : Tracks s s Overlay.empty where
  delta := by simp [Overlay.empty]
  reserved := by simp [Overlay.empty, Overlay.reserved]

theorem foldl_overlay_delta (b : String → ℤ) (ps : List Posting) (o : Overlay) (t : Table String ℤ)
    (h : ∀ a, wrap64 (b a + o.delta a) = wrap64 (t.entry a)) (a : String) :
    wrap64 (b a + (ps.foldl Overlay.post o).delta a) = wrap64 ((ps.foldl postBalance t).entry a) := by
  induction ps generalizing o t with
  | nil => exact h a
  | cons p ps ih =>
    refine ih (o.post p) (postBalance t p) fun a => ?_
    rw [entry_postBalance]
    by_cases ha : p.accountId = a
    · subst ha
      have h1 := h p.accountId
      simp only [Overlay.post, Function.update_self, if_true]
      rw [wrap64_add_wrap64, ← add_assoc, ← wrap64_wrap64_add, h1, wrap64_wrap64_add]
    · simp only [Overlay.post, Function.update_of_ne (Ne.symm ha), if_neg ha, add_zero]
      exact h a

theorem foldl_overlay_reservedHere (ps : List Posting) (o : Overlay) :
    (ps.foldl Overlay.post o).reservedHere = o.reservedHere := by
  induction ps generalizing o with
  | nil => rfl
  | cons p ps ih => exact ih _

theorem reservedIn_record (s : LedgerState) (tx : LedgerTransaction) (j : String) :
    reservedIn (record s tx) j =
      match tx.evidence with
      | .inferenceReserve e => if e.jobId = j then some (reservationOf tx e) else reservedIn s j
      | _ => reservedIn s j := by
  unfold reservedIn
  rw [record_inference]
  cases he : tx.evidence with
  | inferenceReserve e =>
    simp only [LedgerStore.inferenceRecord, he, LedgerStore.upsert, Table.get_insert, id_eq]
    split_ifs with hj
    · subst hj
      rfl
    · rfl
  | _ => simp only [LedgerStore.inferenceRecord, he, LedgerStore.upsert]

theorem Tracks.after {base now : LedgerState} {o : Overlay} (h : Tracks base now o) (tx : LedgerTransaction) :
    Tracks base (record now tx) (o.after tx) where
  delta := by
    intro a
    rw [record_balances]
    refine foldl_overlay_delta _ _ _ _ (fun a => ?_) a
    have hd : (o.reserve tx).delta = o.delta := by
      unfold Overlay.reserve
      split <;> rfl
    rw [hd]
    exact h.delta a
  reserved := by
    intro j
    have hr := h.reserved j
    rw [reservedIn_record, Overlay.reserved, Overlay.after, foldl_overlay_reservedHere]
    cases he : tx.evidence with
    | inferenceReserve e =>
      simp only [Overlay.reserve, he, Function.update_apply]
      by_cases hj : e.jobId = j
      · simp [hj]
      · rw [if_neg (Ne.symm hj), if_neg hj]
        exact hr
    | _ =>
      simp only [Overlay.reserve, he]
      exact hr

theorem Tracks.balance_eq {base now : LedgerState} {o : Overlay} (h : Tracks base now o)
    (hfits : ∀ a, FitsI64 (now.balances.entry a)) : o.balance base.balances.entry = now.balances.entry := by
  funext a
  unfold Overlay.balance
  rw [h.delta a, wrap64_of_fits (hfits a)]

/-- one pass of the batch loop, read against the books -/
theorem batchFold_along (hset : set.Valid) {base : LedgerState} (txs : List LedgerTransaction) {now : LedgerState}
    {o o' : Overlay} (ht : Tracks base now o) (hc : Conserved set.communityIssuanceLimitMcu now)
    (h : txs.foldlM (batchStep c prev base.balances.entry (reservedIn base) set) o = .ok o') :
    Along record (ValidAt c prev set) now txs ∧ Tracks base (recordAll now txs) o' := by
  induction txs generalizing now o with
  | nil =>
    simp only [List.foldlM_nil, pure_ok] at h
    subst h
    exact ⟨trivial, ht⟩
  | cons tx l ih =>
    simp only [List.foldlM_cons, batchStep, bind_ok, pure_ok, exists_ok_unit_and] at h
    obtain ⟨o1, ⟨hv, rfl⟩, hl⟩ := h
    rw [ht.balance_eq (hc.fits set.limit_fits), funext ht.reserved] at hv
    obtain ⟨hrest, hend⟩ := ih (ht.after tx) (hc.of_valid hset hv) hl
    exact ⟨⟨hv, hrest⟩, hend⟩

/-- **Batch validation is validation one by one.** Each transaction of an accepted batch is valid against the books with
its predecessors recorded. -/
theorem validateBatch_along (hset : set.Valid) {s : LedgerState} {txs : List LedgerTransaction}
    (hcons : Conserved set.communityIssuanceLimitMcu s)
    (h : validateBatch c txs prev s.balances.entry (reservedIn s) set = .ok ()) :
    Along record (ValidAt c prev set) s txs := by
  simp only [validateBatch, bind_ok, pure_ok] at h
  obtain ⟨o', hfold, _⟩ := h
  exact (batchFold_along hset txs (tracks_empty s) hcons hfold).1

/-- an accepted batch stays accepted with one more transaction that is valid against the books it leaves -/
theorem validateBatch_snoc (hset : set.Valid) {s : LedgerState} {txs : List LedgerTransaction} {tx : LedgerTransaction}
    (hcons : Conserved set.communityIssuanceLimitMcu s)
    (h : validateBatch c txs prev s.balances.entry (reservedIn s) set = .ok ())
    (htx : ValidAt c prev set (recordAll s txs) tx) :
    validateBatch c (txs ++ [tx]) prev s.balances.entry (reservedIn s) set = .ok () := by
  simp only [validateBatch, bind_ok, pure_ok] at h ⊢
  obtain ⟨o', hfold, _⟩ := h
  obtain ⟨hv, hend⟩ := batchFold_along hset txs (tracks_empty s) hcons hfold
  have hafter := conserved_recordAll hset hcons hv
  refine ⟨o'.after tx, ?_, trivial⟩
  rw [foldlM_append_ok]
  refine ⟨o', hfold, ?_⟩
  simp only [List.foldlM_cons, List.foldlM_nil, bind_ok, pure_ok, batchStep, exists_ok_unit_and]
  refine ⟨_, ⟨?_, rfl⟩, rfl⟩
  rw [hend.balance_eq (hafter.fits set.limit_fits), funext hend.reserved]
  exact htx

end Batch

end Hocmesh.Books
