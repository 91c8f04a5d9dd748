/-
The books: what one transaction does to a ledger state, and that `apply` does exactly that.

`record` writes a transaction into a `LedgerState` with unbounded integers and no checks. `view` reads a store as such a
state. The link between the two levels is `view_of_applied`: whenever `apply` accepts a certificate, the new view is the
old one with every transaction of the entry recorded in order. Every invariant of the ledger is then an invariant of
`record`, proved one transaction at a time.
-/
import Hocmesh.Validator.Handlers

namespace Hocmesh.Books

open Hocmesh.Base Hocmesh.Protocol Hocmesh.Compute Hocmesh.Ledger Hocmesh.Validator

/-! ## Recording a transaction -/

def post (s : LedgerState) (p : Posting) : LedgerState :=
  { s with balances := s.balances.insert p.accountId (s.balances.entry p.accountId + p.deltaMcu)
           activity := postActivity s.activity p.accountId p.deltaMcu }

def record (s : LedgerState) (tx : LedgerTransaction) : LedgerState :=
  tx.postings.foldl post
    { s with claims := s.claims.insert (claimKey tx) ()
             reservations := LedgerStore.upsert s.reservations (LedgerStore.jobRecord tx) id
             inference := LedgerStore.upsert s.inference (LedgerStore.inferenceRecord tx) id }

/-- a whole entry, or a whole history -/
def recordAll (s : LedgerState) (txs : List LedgerTransaction) : LedgerState := txs.foldl record s

@[simp] theorem recordAll_nil (s : LedgerState) : recordAll s [] = s := rfl

@[simp] theorem recordAll_cons (s : LedgerState) (tx : LedgerTransaction) (txs : List LedgerTransaction) :
    recordAll s (tx :: txs) = recordAll (record s tx) txs := rfl

theorem recordAll_append (s : LedgerState) (l₁ l₂ : List LedgerTransaction) :
    recordAll s (l₁ ++ l₂) = recordAll (recordAll s l₁) l₂ := List.foldl_append

section Components

variable (s : LedgerState)

theorem foldl_post_claims (ps : List Posting) : (ps.foldl post s).claims = s.claims := by
  induction ps generalizing s with
  | nil => rfl
  | cons p ps ih => exact ih _

theorem foldl_post_reservations (ps : List Posting) : (ps.foldl post s).reservations = s.reservations := by
  induction ps generalizing s with
  | nil => rfl
  | cons p ps ih => exact ih _

theorem foldl_post_inference (ps : List Posting) : (ps.foldl post s).inference = s.inference := by
  induction ps generalizing s with
  | nil => rfl
  | cons p ps ih => exact ih _

/-- one posting on a column of balances -/
def postBalance (t : Table String ℤ) (p : Posting) : Table String ℤ :=
  t.insert p.accountId (t.entry p.accountId + p.deltaMcu)

theorem foldl_post_balances (ps : List Posting) : (ps.foldl post s).balances = ps.foldl postBalance s.balances := by
  induction ps generalizing s with
  | nil => rfl
  | cons p ps ih => exact ih _

theorem foldl_post_activity (ps : List Posting) :
    (ps.foldl post s).activity = ps.foldl (fun t p => postActivity t p.accountId p.deltaMcu) s.activity := by
  induction ps generalizing s with
  | nil => rfl
  | cons p ps ih => exact ih _

@[simp] theorem record_claims (tx : LedgerTransaction) :
    (record s tx).claims = s.claims.insert (claimKey tx) () := foldl_post_claims _ _

@[simp] theorem record_reservations (tx : LedgerTransaction) :
    (record s tx).reservations = LedgerStore.upsert s.reservations (LedgerStore.jobRecord tx) id :=
  foldl_post_reservations _ _

@[simp] theorem record_inference (tx : LedgerTransaction) :
    (record s tx).inference = LedgerStore.upsert s.inference (LedgerStore.inferenceRecord tx) id :=
  foldl_post_inference _ _

theorem record_balances (tx : LedgerTransaction) :
    (record s tx).balances = tx.postings.foldl postBalance s.balances := foldl_post_balances _ _

theorem record_activity (tx : LedgerTransaction) :
    (record s tx).activity = tx.postings.foldl (fun t p => postActivity t p.accountId p.deltaMcu) s.activity :=
  foldl_post_activity _ _

theorem recordAll_balances (txs : List LedgerTransaction) :
    (recordAll s txs).balances = (txs.flatMap (·.postings)).foldl postBalance s.balances := by
  induction txs generalizing s with
  | nil => rfl
  | cons tx txs ih => rw [recordAll_cons, ih, record_balances, List.flatMap_cons, List.foldl_append]

theorem recordAll_activity (txs : List LedgerTransaction) :
    (recordAll s txs).activity =
      (txs.flatMap (·.postings)).foldl (fun t p => postActivity t p.accountId p.deltaMcu) s.activity := by
  induction txs generalizing s with
  | nil => rfl
  | cons tx txs ih => rw [recordAll_cons, ih, record_activity, List.flatMap_cons, List.foldl_append]

theorem recordAll_claims (txs : List LedgerTransaction) :
    (recordAll s txs).claims = txs.foldl (fun t tx => t.insert (claimKey tx) ()) s.claims := by
  induction txs generalizing s with
  | nil => rfl
  | cons tx txs ih => rw [recordAll_cons, ih, record_claims, List.foldl_cons]

theorem recordAll_reservations (txs : List LedgerTransaction) :
    (recordAll s txs).reservations =
      txs.foldl (fun t tx => LedgerStore.upsert t (LedgerStore.jobRecord tx) id) s.reservations := by
  induction txs generalizing s with
  | nil => rfl
  | cons tx txs ih => rw [recordAll_cons, ih, record_reservations, List.foldl_cons]

theorem recordAll_inference (txs : List LedgerTransaction) :
    (recordAll s txs).inference =
      txs.foldl (fun t tx => LedgerStore.upsert t (LedgerStore.inferenceRecord tx) id) s.inference := by
  induction txs generalizing s with
  | nil => rfl
  | cons tx txs ih => rw [recordAll_cons, ih, record_inference, List.foldl_cons]

end Components

/-! ## Reading a store as a state -/

def view (st : LedgerStore) : LedgerState :=
  { balances := st.balances
    claims := st.claims.map fun _ _ => ()
    reservations := st.jobReservations.map fun _ row => row.2
    inference := st.inferenceReservations.map fun _ row => row.2
    activity := st.activityBaseline.toList.foldl LedgerStore.addBaseline (LedgerStore.sumActivity st.accountActivity) }

/-- `state` either overflows an SQLite sum or returns the view -/
theorem state_ok {st : LedgerStore} {s : LedgerState} :
    st.state = .ok s ↔ LedgerStore.activityFits (LedgerStore.sumActivity st.accountActivity) ∧ view st = s := by
  simp only [LedgerStore.state, bind_ok, bailIf_ok, not_not, pure_ok, exists_const]
  rfl

/-- the reservation an inference claim is judged against, out of a state -/
def reservedIn (s : LedgerState) (jobId : String) : Option InferenceReservation :=
  s.inference[jobId]?.map fun r => LedgerStore.InferenceRecord.under r jobId

@[simp] theorem view_balance (st : LedgerStore) : (view st).balances.entry = st.balance := rfl

@[simp] theorem view_reservation (st : LedgerStore) (j : String) :
    (view st).reservations[j]? = st.reservation j := by
  simp [view, LedgerStore.reservation]

@[simp] theorem view_inferenceReservation (st : LedgerStore) (j : String) :
    reservedIn (view st) j = st.inferenceReservation j := by
  simp [view, LedgerStore.inferenceReservation, reservedIn, Std.ExtTreeMap.getElem?_map,
    Function.comp_def]

theorem reservation_eq (st : LedgerStore) : st.reservation = fun j => (view st).reservations[j]? :=
  funext fun j => (view_reservation st j).symm

theorem inferenceReservation_eq (st : LedgerStore) : st.inferenceReservation = reservedIn (view st) :=
  funext fun j => (view_inferenceReservation st j).symm

@[simp] theorem mem_view_claims (st : LedgerStore) (k : String) : k ∈ (view st).claims ↔ st.hasClaim k := by
  simp [view, LedgerStore.hasClaim]

theorem view_empty : view LedgerStore.empty = LedgerState.empty := by
  have h : ∀ {V W : Type} (f : String → V → W), (∅ : Table String V).map f = ∅ := by
    intro V W f
    apply Std.ExtTreeMap.ext_getElem?
    intro a
    simp
  simp only [view, LedgerStore.empty, LedgerState.empty, h, Table.toList_empty]
  rfl

/-! ## What `apply` demands, and what it writes -/

/-- the conditions under which `apply` accepts a certificate -/
structure Appliable (c : Crypto) (st : LedgerStore) (cert : QuorumCertificate) (set next : ValidatorSet)
    (balances : Table String ℤ) : Prop where
  certified : verifyCertificate c cert set = .ok ()
  evidence : cert.entry.transactions.foldlM
    (LedgerStore.evidenceStep c cert.entry.previousHash cert.signatures) set = .ok next
  sequence : cert.entry.sequence = st.headSequence + 1
  previous : cert.entry.previousHash = st.headHash
  fresh : ∀ t ∈ cert.entry.transactions, ¬ st.hasClaim (claimKey t)
  covered : LedgerStore.applyBalances st.balances cert.entry.transactions = .ok balances
  in_range : (cert.entry.sequence : ℤ) ≤ i64Max
  unique : ∀ held ∈ st.certificates, held.entry.entryHash ≠ cert.entry.entryHash

theorem apply_ok {c : Crypto} {st st' : LedgerStore} {cert : QuorumCertificate} {set : ValidatorSet} :
    st.apply c cert set = .ok st' ↔
      ∃ next balances, Appliable c st cert set next balances ∧ st' = st.commitRows cert balances next := by
  simp only [LedgerStore.apply, LedgerStore.sqliteSequence, bind_ok, bailIf_ok, each_ok, pure_ok, exists_const,
    exists_ok_unit_and, not_or, not_not, not_lt, gt_iff_lt, not_exists, not_and]
  constructor
  · rintro ⟨h1, next, h2, ⟨h3, h4⟩, h5, balances, h6, h7, h8, rfl⟩
    exact ⟨next, balances, ⟨h1, h2, h3, h4, h5, h6, h7, h8⟩, rfl⟩
  · rintro ⟨next, balances, h, rfl⟩
    exact ⟨h.certified, next, h.evidence, ⟨h.sequence, h.previous⟩, h.fresh, balances, h.covered, h.in_range, h.unique,
      rfl⟩

theorem applyPosting_eq {t t' : Table String ℤ} {p : Posting} (h : LedgerStore.applyPosting t p = .ok t') :
    t' = postBalance t p := by
  simp only [LedgerStore.applyPosting, orBail_ok, bind_ok, bailIf_ok, pure_ok, exists_const, checkedAdd64_some] at h
  obtain ⟨next, ⟨rfl, _⟩, _, _, rfl⟩ := h
  rfl

/-- a balance pass that succeeds adds up what the postings say -/
theorem applyBalances_eq {t t' : Table String ℤ} {txs : List LedgerTransaction}
    (h : LedgerStore.applyBalances t txs = .ok t') : t' = (txs.flatMap (·.postings)).foldl postBalance t := by
  unfold LedgerStore.applyBalances at h
  generalize txs.flatMap (·.postings) = ps at h ⊢
  induction ps generalizing t with
  | nil =>
    simp only [List.foldlM_nil, pure_ok] at h
    exact h.symm
  | cons p ps ih =>
    simp only [List.foldlM_cons, bind_ok] at h
    obtain ⟨t1, h1, h⟩ := h
    rw [applyPosting_eq h1] at h
    exact ih h

section Fields

variable (st : LedgerStore) (cert : QuorumCertificate) (balances : Table String ℤ) (next : ValidatorSet)

@[simp] theorem commitRows_certificates :
    (st.commitRows cert balances next).certificates = st.certificates ++ [cert] := rfl

@[simp] theorem commitRows_balances : (st.commitRows cert balances next).balances = balances := rfl

@[simp] theorem commitRows_activityBaseline :
    (st.commitRows cert balances next).activityBaseline = st.activityBaseline := rfl

theorem commitRows_validatorSets : (st.commitRows cert balances next).validatorSets =
    if LedgerStore.changesSet cert.entry.transactions then st.validatorSets.insert cert.entry.sequence next
    else st.validatorSets := rfl

@[simp] theorem headSequence_commitRows :
    (st.commitRows cert balances next).headSequence = cert.entry.sequence := by
  simp [LedgerStore.headSequence]

@[simp] theorem headHash_commitRows : (st.commitRows cert balances next).headHash = cert.entry.entryHash := by
  simp [LedgerStore.headHash]

end Fields

/-! ## The rows of an entry, summed -/

/-- two rows that `INSERT OR REPLACE` keeps apart -/
def Apart (a b : ActivityRow) : Prop := ¬ (a.sequence = b.sequence ∧ a.postingIndex = b.postingIndex)

/-- rows under new keys are appended -/
theorem foldl_upsertActivity {old new : List ActivityRow} (hold : ∀ r ∈ old, ∀ n ∈ new, Apart r n)
    (hnew : new.Pairwise Apart) : new.foldl LedgerStore.upsertActivity old = old ++ new := by
  induction new generalizing old with
  | nil => simp
  | cons n new ih =>
    obtain ⟨hn, hrest⟩ := List.pairwise_cons.1 hnew
    have hkeep : LedgerStore.upsertActivity old n = old ++ [n] := by
      unfold LedgerStore.upsertActivity
      rw [List.filter_eq_self.2]
      intro r hr
      have := hold r hr n List.mem_cons_self
      unfold Apart at this
      simp only [decide_eq_true_eq]
      tauto
    rw [List.foldl_cons, hkeep, ih ?_ hrest, List.append_assoc, List.singleton_append]
    intro r hr m hm
    rcases List.mem_append.1 hr with hr | hr
    · exact hold r hr m (List.mem_cons_of_mem _ hm)
    · rw [List.mem_singleton.1 hr]
      exact hn m hm

theorem activityRows_sequence {entry : LedgerEntry} {r : ActivityRow} (h : r ∈ LedgerStore.activityRows entry) :
    r.sequence = entry.sequence := by
  obtain ⟨x, _, rfl⟩ := List.mem_map.1 h
  rfl

theorem activityRows_apart (entry : LedgerEntry) : (LedgerStore.activityRows entry).Pairwise Apart := by
  unfold LedgerStore.activityRows
  rw [List.pairwise_map]
  generalize entry.transactions.flatMap (fun t => t.postings.map fun p => (t, p)) = l
  have hsnd : (l.zipIdx.map Prod.snd).Nodup := by
    rw [List.zipIdx_map_snd]
    exact List.nodup_range'
  have hpair : l.zipIdx.Pairwise fun a b => a.2 ≠ b.2 := List.pairwise_map.1 hsnd
  exact hpair.imp fun hne hkey => hne hkey.2

/-- the rows of an entry carry its postings in order -/
theorem activityRows_postings (entry : LedgerEntry) :
    (LedgerStore.activityRows entry).map (fun r => (⟨r.accountId, r.deltaMcu⟩ : Posting)) =
      entry.transactions.flatMap (·.postings) := by
  unfold LedgerStore.activityRows
  rw [List.map_map]
  have hfun : ((fun r : ActivityRow => (⟨r.accountId, r.deltaMcu⟩ : Posting)) ∘ fun x : (LedgerTransaction × Posting) × ℕ =>
      (⟨x.1.2.accountId, entry.sequence, x.2, x.1.1.transactionId, x.1.2.deltaMcu, x.1.1.createdAt⟩ : ActivityRow)) =
      (fun x => x.1.2) := rfl
  rw [hfun]
  have hfst : ∀ l : List (LedgerTransaction × Posting), l.zipIdx.map (fun x => x.1.2) = l.map Prod.snd := by
    intro l
    rw [← List.zipIdx_map_fst 0 l, List.map_map, List.zipIdx_map_fst]
    rfl
  rw [hfst, List.map_flatMap]
  simp [Function.comp_def]

theorem sumActivity_append (rows new : List ActivityRow) :
    LedgerStore.sumActivity (rows ++ new) =
      (new.map fun r => (⟨r.accountId, r.deltaMcu⟩ : Posting)).foldl
        (fun t p => postActivity t p.accountId p.deltaMcu) (LedgerStore.sumActivity rows) := by
  unfold LedgerStore.sumActivity
  rw [List.foldl_append, List.foldl_map]

/-! ## A commit records the entry -/

theorem map_foldl_claims (txs : List LedgerTransaction) (n : ℕ) (t : Table String ℕ) :
    (txs.foldl (fun t tx => t.insert (claimKey tx) n) t).map (fun _ _ => ()) =
      txs.foldl (fun t tx => t.insert (claimKey tx) ()) (t.map fun _ _ => ()) := by
  induction txs generalizing t with
  | nil => rfl
  | cons tx txs ih => rw [List.foldl_cons, List.foldl_cons, ih, Table.map_insert]

theorem map_foldl_upsert {V : Type} (row : LedgerTransaction → Option (String × V)) (n : ℕ)
    (txs : List LedgerTransaction) (t : Table String (ℕ × V)) :
    (txs.foldl (fun t tx => LedgerStore.upsert t (row tx) fun r => (n, r)) t).map (fun _ x => x.2) =
      txs.foldl (fun t tx => LedgerStore.upsert t (row tx) id) (t.map fun _ x => x.2) := by
  induction txs generalizing t with
  | nil => rfl
  | cons tx txs ih =>
    rw [List.foldl_cons, List.foldl_cons, ih]
    congr 1
    cases row tx with
    | none => rfl
    | some r => exact Table.map_insert t r.1 (n, r.2) Prod.snd

/-- the rows of an entry above everything indexed so far are appended -/
theorem indexRows_append {rows : List ActivityRow} {entry : LedgerEntry} (h : ∀ r ∈ rows, r.sequence < entry.sequence) :
    (LedgerStore.activityRows entry).foldl LedgerStore.upsertActivity rows = rows ++ LedgerStore.activityRows entry := by
  refine foldl_upsertActivity ?_ (activityRows_apart _)
  intro r hr n hn hkey
  have := h r hr
  rw [activityRows_sequence hn] at hkey
  omega

theorem commitRows_accountActivity {st : LedgerStore} {cert : QuorumCertificate} {balances : Table String ℤ}
    {next : ValidatorSet} (hrows : ∀ r ∈ st.accountActivity, r.sequence < cert.entry.sequence) :
    (st.commitRows cert balances next).accountActivity =
      st.accountActivity ++ LedgerStore.activityRows cert.entry := indexRows_append hrows

/-- **A commit is the entry, recorded.** -/
theorem view_commitRows {st : LedgerStore} {cert : QuorumCertificate} {balances : Table String ℤ}
    {next : ValidatorSet} (hbase : st.activityBaseline = ∅)
    (hrows : ∀ r ∈ st.accountActivity, r.sequence < cert.entry.sequence)
    (hbal : LedgerStore.applyBalances st.balances cert.entry.transactions = .ok balances) :
    view (st.commitRows cert balances next) = recordAll (view st) cert.entry.transactions := by
  apply LedgerState.ext
  · rw [recordAll_balances]
    exact applyBalances_eq hbal
  · rw [recordAll_claims]
    exact map_foldl_claims _ _ _
  · rw [recordAll_reservations]
    exact map_foldl_upsert LedgerStore.jobRecord _ _ _
  · rw [recordAll_inference]
    exact map_foldl_upsert LedgerStore.inferenceRecord _ _ _
  · rw [recordAll_activity]
    simp only [view, commitRows_activityBaseline, hbase, Table.toList_empty, List.foldl_nil]
    rw [commitRows_accountActivity hrows, sumActivity_append, activityRows_postings]

end Hocmesh.Books
