/-
Whole runs of a ledger: entries that passed a validator's propose checks under the sitting set and were then applied.

`Chain` is the run. What a store keeps along it (`Kept`) is that its derived rows are never ahead of its head, that the
sitting set is reached from genesis by verified changes, and that its view is the recorded history. `Admitted` says
what one transaction has passed when it is recorded, against the books as they stand at that moment. The link is
`Chain.admitted`: the history of a reachable store is a fold of `record` over admitted transactions, so an invariant of
the books is proved one transaction at a time and read off at every store.
-/
import Hocmesh.Books.Conservation

namespace Hocmesh.Books

open Hocmesh.Base Hocmesh.Protocol Hocmesh.Compute Hocmesh.Ledger Hocmesh.Validator

/-! ## Runs of a store -/

/-- the set sitting at the head of a store: the last one the chain certified, or genesis -/
def sittingSet (genesis : ValidatorSet) (st : LedgerStore) : ValidatorSet := st.currentSet.getD genesis

/-- every transaction a store has applied, oldest first -/
def history (st : LedgerStore) : List LedgerTransaction := st.certificates.flatMap (·.entry.transactions)

/-- propose's checks, then `apply`, both under the sitting set -/
def commitEntry (c : Crypto) (genesis : ValidatorSet) (st : LedgerStore) (cert : QuorumCertificate) :
    Check LedgerStore := do
  proposeChecks c st (sittingSet genesis st) cert.entry.transactions
  st.apply c cert (sittingSet genesis st)

/-- a store built from nothing by committed entries, with any promises and votes in between; `Q` restricts which entries
a run may contain -/
inductive Chain (c : Crypto) (genesis : ValidatorSet) (Q : LedgerStore → QuorumCertificate → Prop) :
    LedgerStore → Prop
  | empty : Chain c genesis Q LedgerStore.empty
  | ballots {st : LedgerStore} (table : Table ℕ BallotRow) :
      Chain c genesis Q st → Chain c genesis Q { st with ballots := table }
  | commit {st st' : LedgerStore} {cert : QuorumCertificate} :
      Chain c genesis Q st → Q st cert → commitEntry c genesis st cert = .ok st' → Chain c genesis Q st'

/-- reachable by any entries at all -/
abbrev Reachable (c : Crypto) (genesis : ValidatorSet) : LedgerStore → Prop := Chain c genesis fun _ _ => True

theorem Chain.mono {c : Crypto} {genesis : ValidatorSet} {Q Q' : LedgerStore → QuorumCertificate → Prop}
    (hQ : ∀ st cert, Q st cert → Q' st cert) {st : LedgerStore} (h : Chain c genesis Q st) : Chain c genesis Q' st := by
  induction h with
  | empty => exact .empty
  | ballots table _ ih => exact .ballots table ih
  | commit _ hq hc ih => exact .commit ih (hQ _ _ hq) hc

/-- run a list of certificates from nothing -/
def commitAll (c : Crypto) (genesis : ValidatorSet) (certs : List QuorumCertificate) : Check LedgerStore :=
  certs.foldlM (commitEntry c genesis) LedgerStore.empty

theorem reachable_of_commitAll {c : Crypto} {genesis : ValidatorSet} {certs : List QuorumCertificate}
    {st : LedgerStore} (h : commitAll c genesis certs = .ok st) : Reachable c genesis st :=
  foldlM_inv (commitEntry c genesis) (fun _ st => Reachable c genesis st)
    (fun _ _ _ _ hr hc => Chain.commit hr trivial hc) certs [] _ _ .empty h

/-! ## What a store keeps -/

structure Kept (c : Crypto) (genesis : ValidatorSet) (st : LedgerStore) : Prop where
  baseline : st.activityBaseline = ∅
  rows : ∀ r ∈ st.accountActivity, r.sequence ≤ st.headSequence
  set_rows : ∀ k ∈ st.validatorSets, k ≤ st.headSequence
  set_chain : SetChain c genesis (sittingSet genesis st)
  recorded : view st = recordAll LedgerState.empty (history st)

theorem kept_empty (c : Crypto) (genesis : ValidatorSet) : Kept c genesis LedgerStore.empty where
  baseline := rfl
  rows := by simp [LedgerStore.empty]
  set_rows := by simp [LedgerStore.empty]
  set_chain := by
    simp only [sittingSet, LedgerStore.currentSet, LedgerStore.empty, Table.last?_empty, Option.getD_none]
    exact .genesis
  recorded := view_empty

/-- the evidence loop walks the set chain, and stays where it is without a membership change -/
theorem evidence_setChain {c : Crypto} {genesis : ValidatorSet} {prev : String} {sigs : List ValidatorSignature}
    (txs : List LedgerTransaction) {set next : ValidatorSet}
    (h : txs.foldlM (LedgerStore.evidenceStep c prev sigs) set = .ok next) (hset : SetChain c genesis set) :
    SetChain c genesis next ∧ (LedgerStore.changesSet txs = false → next = set) := by
  induction txs generalizing set with
  | nil =>
    simp only [List.foldlM_nil, pure_ok] at h
    subst h
    exact ⟨hset, fun _ => rfl⟩
  | cons tx txs ih =>
    simp only [List.foldlM_cons, LedgerStore.evidenceStep, bind_ok, exists_ok_unit_and] at h
    obtain ⟨set1, ⟨_, h1⟩, h2⟩ := h
    cases he : tx.evidence with
    | membershipChange e =>
      simp only [he] at h1
      refine ⟨(ih h2 (.change hset h1)).1, ?_⟩
      intro hc
      simp [LedgerStore.changesSet, he] at hc
    | _ =>
      simp only [he, pure_ok] at h1
      subst h1
      refine ⟨(ih h2 hset).1, ?_⟩
      intro hc
      simp only [LedgerStore.changesSet, List.any_cons, he, Bool.false_or] at hc
      exact (ih h2 hset).2 hc

theorem commitRows_set_le {st : LedgerStore} {cert : QuorumCertificate} {balances : Table String ℤ}
    {next : ValidatorSet} (hrows : ∀ k ∈ st.validatorSets, k ≤ cert.entry.sequence) {k : ℕ}
    (h : k ∈ (st.commitRows cert balances next).validatorSets) : k ≤ cert.entry.sequence := by
  rw [commitRows_validatorSets] at h
  split_ifs at h with hc
  · rw [Std.ExtTreeMap.mem_insert, Std.LawfulEqOrd.compare_eq_iff_eq] at h
    rcases h with rfl | h
    · exact le_rfl
    · exact hrows k h
  · exact hrows k h

theorem sittingSet_commitRows {genesis set next : ValidatorSet} {st : LedgerStore} {cert : QuorumCertificate}
    {balances : Table String ℤ} (hrows : ∀ k ∈ st.validatorSets, k ≤ cert.entry.sequence)
    (hset : set = sittingSet genesis st) (hnext : LedgerStore.changesSet cert.entry.transactions = false → next = set) :
    sittingSet genesis (st.commitRows cert balances next) = next := by
  unfold sittingSet LedgerStore.currentSet
  rw [commitRows_validatorSets]
  split_ifs with hc
  · rw [Table.last?_insert _ _ _ fun a ha => by simpa [Nat.isLE_compare] using hrows a ha]
    rfl
  · rw [hnext (by simpa using hc), hset]
    rfl

/-! ## One transaction of a run -/

/-- what a transaction has passed when it is recorded -/
structure Admitted (c : Crypto) (limit : ℤ) (s : LedgerState) (tx : LedgerTransaction) : Prop where
  fresh : claimKey tx ∉ s.claims
  member : validateSettlementMembership c (fun j => s.reservations[j]?) (reservedIn s) tx = .ok ()
  valid : ∃ prev set, set.Valid ∧ set.communityIssuanceLimitMcu = limit ∧ ValidAt c prev set s tx

/-- every reservation is booked under its claim -/
structure Booked (s : LedgerState) : Prop where
  jobs : ∀ j ∈ s.reservations, "reserve:" ++ j ∈ s.claims
  inference : ∀ j ∈ s.inference, "reserve:" ++ j ∈ s.claims

theorem claimKey_of_jobRecord {tx : LedgerTransaction} {j : String} {r : ReservationRecord}
    (h : LedgerStore.jobRecord tx = some (j, r)) : claimKey tx = "reserve:" ++ j := by
  unfold LedgerStore.jobRecord at h
  unfold claimKey
  cases he : tx.evidence <;> rw [he] at h <;> simp_all

theorem claimKey_of_inferenceRecord {tx : LedgerTransaction} {j : String} {r : InferenceRecord}
    (h : LedgerStore.inferenceRecord tx = some (j, r)) : claimKey tx = "reserve:" ++ j := by
  unfold LedgerStore.inferenceRecord at h
  unfold claimKey
  cases he : tx.evidence <;> rw [he] at h <;> simp_all

theorem mem_claims_record {s : LedgerState} {tx : LedgerTransaction} {k : String} :
    k ∈ (record s tx).claims ↔ claimKey tx = k ∨ k ∈ s.claims := by
  rw [record_claims, Std.ExtTreeMap.mem_insert, Std.LawfulEqOrd.compare_eq_iff_eq]

/-- a row that an upsert leaves was there before, or is the one upserted -/
theorem mem_upsert {V : Type} {t : Table String V} {row : Option (String × V)} {j : String}
    (h : j ∈ LedgerStore.upsert t row id) : j ∈ t ∨ ∃ v, row = some (j, v) := by
  cases row with
  | none => exact Or.inl h
  | some r =>
    simp only [LedgerStore.upsert, Std.ExtTreeMap.mem_insert, Std.LawfulEqOrd.compare_eq_iff_eq] at h
    rcases h with h | h
    · exact Or.inr ⟨r.2, by rw [← h]⟩
    · exact Or.inl h

theorem Booked.record {s : LedgerState} (h : Booked s) (tx : LedgerTransaction) : Booked (record s tx) where
  jobs := by
    intro j hj
    rw [record_reservations] at hj
    rw [mem_claims_record]
    rcases mem_upsert hj with hj | ⟨v, hv⟩
    · exact Or.inr (h.jobs j hj)
    · exact Or.inl (claimKey_of_jobRecord hv)
  inference := by
    intro j hj
    rw [record_inference] at hj
    rw [mem_claims_record]
    rcases mem_upsert hj with hj | ⟨v, hv⟩
    · exact Or.inr (h.inference j hj)
    · exact Or.inl (claimKey_of_inferenceRecord hv)

theorem upsert_kept {V : Type} {t : Table String V} {row : Option (String × V)} {j : String} {v : V}
    (h : t[j]? = some v) (hne : ∀ w, row ≠ some (j, w)) : (LedgerStore.upsert t row id)[j]? = some v := by
  cases row with
  | none => exact h
  | some r =>
    have hj : r.1 ≠ j := by
      rintro rfl
      exact hne r.2 rfl
    simp only [LedgerStore.upsert, Table.get_insert, if_neg hj]
    exact h

/-- a row of the new table is an old one, or the one inserted -/
theorem upsert_cases {V : Type} {t : Table String V} {row : Option (String × V)} {j : String} {v : V}
    (h : (LedgerStore.upsert t row id)[j]? = some v) : row = some (j, v) ∨ t[j]? = some v := by
  cases row with
  | none => exact Or.inr h
  | some r =>
    simp only [LedgerStore.upsert, Table.get_insert, id_eq] at h
    split_ifs at h with hj
    · left
      cases h
      rw [← hj]
    · exact Or.inr h

theorem mem_of_get {V : Type} {t : Table String V} {j : String} {v : V} (h : t[j]? = some v) : j ∈ t := by
  rw [Std.ExtTreeMap.mem_iff_isSome_getElem?, h]
  rfl

/-- a reservation once made stays what it was -/
theorem reservation_kept {s : LedgerState} (hb : Booked s) {tx : LedgerTransaction} (hf : claimKey tx ∉ s.claims)
    {j : String} {r : ReservationRecord} (h : s.reservations[j]? = some r) :
    (record s tx).reservations[j]? = some r := by
  rw [record_reservations]
  exact upsert_kept h fun w hw => hf (claimKey_of_jobRecord hw ▸ hb.jobs j (mem_of_get h))

theorem inference_kept {s : LedgerState} (hb : Booked s) {tx : LedgerTransaction} (hf : claimKey tx ∉ s.claims)
    {j : String} {r : InferenceRecord} (h : s.inference[j]? = some r) : (record s tx).inference[j]? = some r := by
  rw [record_inference]
  exact upsert_kept h fun w hw => hf (claimKey_of_inferenceRecord hw ▸ hb.inference j (mem_of_get h))

theorem reservedIn_kept {s : LedgerState} (hb : Booked s) {tx : LedgerTransaction} (hf : claimKey tx ∉ s.claims)
    {j : String} {r : InferenceReservation} (h : reservedIn s j = some r) : reservedIn (record s tx) j = some r := by
  unfold reservedIn at h ⊢
  obtain ⟨rec, hrec, rfl⟩ := Option.map_eq_some_iff.1 h
  rw [inference_kept hb hf hrec]
  rfl

/-- the membership checks read one reservation, so books that keep it give the same verdict -/
theorem member_mono {c : Crypto} {res res' : String → Option ReservationRecord}
    {inf inf' : String → Option InferenceReservation} (hres : ∀ j r, res j = some r → res' j = some r)
    (hinf : ∀ j r, inf j = some r → inf' j = some r) {tx : LedgerTransaction}
    (h : validateSettlementMembership c res inf tx = .ok ()) :
    validateSettlementMembership c res' inf' tx = .ok () := by
  have hshard : ∀ at_ jobId i work funded payee refund, shardMembership res at_ jobId i work funded payee refund = .ok () →
      shardMembership res' at_ jobId i work funded payee refund = .ok () := by
    intro at_ jobId i work funded payee refund hs
    unfold shardMembership at hs ⊢
    rw [bind_ok] at hs ⊢
    obtain ⟨r, hr, hs⟩ := hs
    rw [orBail_ok] at hr
    exact ⟨r, by rw [orBail_ok]; exact hres _ _ hr, hs⟩
  have hbatch : ∀ at_ jobId id s e amount payee refund,
      inferenceMembership c inf at_ jobId id s e amount payee refund = .ok () →
      inferenceMembership c inf' at_ jobId id s e amount payee refund = .ok () := by
    intro at_ jobId id s e amount payee refund hs
    unfold inferenceMembership at hs ⊢
    rw [bind_ok] at hs ⊢
    obtain ⟨r, hr, hs⟩ := hs
    rw [orBail_ok] at hr
    exact ⟨r, by rw [orBail_ok]; exact hinf _ _ hr, hs⟩
  cases he : tx.evidence with
  | providerReward e =>
    simp only [validateSettlementMembership, he] at h ⊢
    exact hshard _ _ _ _ _ _ _ h
  | jobRefund e =>
    simp only [validateSettlementMembership, he] at h ⊢
    exact hshard _ _ _ _ _ _ _ h
  | inferenceReward e =>
    simp only [validateSettlementMembership, validateInferenceMembership, he] at h ⊢
    exact hbatch _ _ _ _ _ _ _ _ h
  | inferenceRefund e =>
    simp only [validateSettlementMembership, validateInferenceMembership, he] at h ⊢
    exact hbatch _ _ _ _ _ _ _ _ h
  | _ => simp only [validateSettlementMembership, he]; rfl

/-! ## One batch of a run -/

theorem settleLoop_ok {c : Crypto} {st : LedgerStore} (txs : List LedgerTransaction) (settled : List String)
    (h : settleLoop c st settled txs = .ok ()) :
    (∀ t ∈ txs, ¬ st.hasClaim (claimKey t) ∧
      validateSettlementMembership c st.reservation st.inferenceReservation t = .ok () ∧ claimKey t ∉ settled) ∧
    (txs.map claimKey).Nodup := by
  induction txs generalizing settled with
  | nil => simp
  | cons t rest ih =>
    simp only [settleLoop, bind_ok, bailIf_ok, exists_const, exists_ok_unit_and, not_or] at h
    obtain ⟨⟨hclaim, hset⟩, hmem, hrest⟩ := h
    obtain ⟨hall, hnd⟩ := ih _ hrest
    refine ⟨?_, ?_⟩
    · intro t' ht'
      rcases List.mem_cons.1 ht' with rfl | ht'
      · exact ⟨hclaim, hmem, hset⟩
      · obtain ⟨h1, h2, h3⟩ := hall t' ht'
        exact ⟨h1, h2, fun hin => h3 (List.mem_cons_of_mem _ hin)⟩
    · rw [List.map_cons, List.nodup_cons]
      refine ⟨?_, hnd⟩
      intro hin
      obtain ⟨t', ht', heq⟩ := List.mem_map.1 hin
      exact (hall t' ht').2.2 (by rw [heq]; exact List.mem_cons_self)

/-- the loop takes one more transaction whose claim is new to the store and to the batch -/
theorem settleLoop_snoc {c : Crypto} {st : LedgerStore} {tx : LedgerTransaction} (txs : List LedgerTransaction)
    (settled : List String) (h : settleLoop c st settled txs = .ok ()) (hclaim : ¬ st.hasClaim (claimKey tx))
    (hset : claimKey tx ∉ settled) (htxs : claimKey tx ∉ txs.map claimKey)
    (hmem : validateSettlementMembership c st.reservation st.inferenceReservation tx = .ok ()) :
    settleLoop c st settled (txs ++ [tx]) = .ok () := by
  induction txs generalizing settled with
  | nil =>
    simp only [List.nil_append, settleLoop, bind_ok, bailIf_ok, exists_const, exists_ok_unit_and, not_or]
    exact ⟨⟨hclaim, hset⟩, hmem, trivial⟩
  | cons t rest ih =>
    simp only [List.cons_append, settleLoop, bind_ok, bailIf_ok, exists_const, exists_ok_unit_and, not_or] at h ⊢
    rw [List.map_cons, List.mem_cons, not_or] at htxs
    refine ⟨h.1, h.2.1, ih _ h.2.2 ?_ htxs.2⟩
    rw [List.mem_cons, not_or]
    exact ⟨htxs.1, hset⟩

/-- judged once against the books before the entry, or one by one as they are recorded: the same -/
theorem along_admitted {c : Crypto} {prev : String} {set : ValidatorSet} (hset : set.Valid)
    (txs : List LedgerTransaction) {s : LedgerState} (hb : Booked s)
    (hfresh : ∀ t ∈ txs, claimKey t ∉ s.claims) (hnd : (txs.map claimKey).Nodup)
    (hmem : ∀ t ∈ txs, validateSettlementMembership c (fun j => s.reservations[j]?) (reservedIn s) t = .ok ())
    (hv : Along record (ValidAt c prev set) s txs) :
    Along record (Admitted c set.communityIssuanceLimitMcu) s txs := by
  induction txs generalizing s with
  | nil => trivial
  | cons t rest ih =>
    have hft := hfresh t List.mem_cons_self
    rw [List.map_cons, List.nodup_cons] at hnd
    refine ⟨⟨hft, hmem t List.mem_cons_self, prev, set, hset, rfl, hv.1⟩, ih (hb.record t) ?_ hnd.2 ?_ hv.2⟩
    · intro t' ht' hin
      rcases mem_claims_record.1 hin with heq | hin
      · exact hnd.1 (heq ▸ List.mem_map_of_mem ht')
      · exact hfresh t' (List.mem_cons_of_mem _ ht') hin
    · intro t' ht'
      exact member_mono (fun j r hr => reservation_kept hb hft hr) (fun j r hr => reservedIn_kept hb hft hr)
        (hmem t' (List.mem_cons_of_mem _ ht'))

theorem admitted_conserved {c : Crypto} {limit : ℤ} {s : LedgerState} {tx : LedgerTransaction}
    (h : Conserved limit s) (ha : Admitted c limit s tx) : Conserved limit (record s tx) := by
  obtain ⟨prev, set, hset, rfl, hv⟩ := ha.valid
  exact h.of_valid hset hv

/-- what the history of a run says about the books it leaves -/
structure Sound (limit : ℤ) (s : LedgerState) : Prop where
  conserved : Conserved limit s
  booked : Booked s

theorem sound_recordAll {c : Crypto} {limit : ℤ} (hlim : 0 ≤ limit) {txs : List LedgerTransaction}
    (h : Along record (Admitted c limit) LedgerState.empty txs) : Sound limit (recordAll LedgerState.empty txs) := by
  refine Along.invariant (fun s _ => Sound limit s) ?_ txs LedgerState.empty [] h ?_
  · intro s _ tx hs ha
    exact ⟨admitted_conserved hs.conserved ha, hs.booked.record tx⟩
  · refine ⟨conserved_empty hlim, ?_, ?_⟩ <;> simp [LedgerState.empty]

/-- the propose checks, read against the books -/
theorem admitted_of_propose {c : Crypto} {set : ValidatorSet} {st : LedgerStore} {txs : List LedgerTransaction}
    (hset : set.Valid) (hs : Sound set.communityIssuanceLimitMcu (view st))
    (h : proposeChecks c st set txs = .ok ()) :
    Along record (ValidAt c st.headHash set) (view st) txs ∧
      Along record (Admitted c set.communityIssuanceLimitMcu) (view st) txs := by
  simp only [proposeChecks, bind_ok, exists_ok_unit_and] at h
  obtain ⟨hloop, hbatch⟩ := h
  obtain ⟨hall, hnd⟩ := settleLoop_ok txs [] hloop
  rw [inferenceReservation_eq] at hbatch
  have hv := validateBatch_along hset hs.conserved hbatch
  refine ⟨hv, along_admitted hset txs hs.booked ?_ hnd ?_ hv⟩
  · intro t ht hin
    exact (hall t ht).1 ((mem_view_claims st _).1 hin)
  · intro t ht
    rw [← inferenceReservation_eq, ← reservation_eq]
    exact (hall t ht).2.1

/-! ## One committed entry -/

/-- what a commit did to a store -/
structure Committed (c : Crypto) (genesis : ValidatorSet) (st : LedgerStore) (cert : QuorumCertificate)
    (st' : LedgerStore) : Prop where
  applied : ∃ balances, Appliable c st cert (sittingSet genesis st) (sittingSet genesis st') balances
  certificates : st'.certificates = st.certificates ++ [cert]
  recorded : view st' = recordAll (view st) cert.entry.transactions
  admitted : Along record (Admitted c genesis.communityIssuanceLimitMcu) (view st) cert.entry.transactions

theorem Committed.history {c : Crypto} {genesis : ValidatorSet} {st st' : LedgerStore} {cert : QuorumCertificate}
    (h : Committed c genesis st cert st') : history st' = Books.history st ++ cert.entry.transactions := by
  simp [Books.history, h.certificates]

/-- a commit keeps what a store keeps, and records the entry -/
theorem Kept.commit {c : Crypto} {genesis : ValidatorSet} {st st' : LedgerStore} {cert : QuorumCertificate}
    (hk : Kept c genesis st) (hg : validateValidatorSet genesis = .ok ())
    (hs : Sound genesis.communityIssuanceLimitMcu (view st)) (h : commitEntry c genesis st cert = .ok st') :
    Committed c genesis st cert st' ∧ Kept c genesis st' := by
  simp only [commitEntry, bind_ok, exists_ok_unit_and] at h
  obtain ⟨hprop, happly⟩ := h
  obtain ⟨hsv, hlim⟩ := hk.set_chain.keeps hg
  rw [← hlim] at hs
  obtain ⟨_, hstep⟩ := admitted_of_propose (valid_of_validate hsv) hs hprop
  rw [hlim] at hstep
  obtain ⟨next, balances, hap, rfl⟩ := apply_ok.1 happly
  have hrows : ∀ r ∈ st.accountActivity, r.sequence < cert.entry.sequence := by
    intro r hr
    have := hk.rows r hr
    have := hap.sequence
    omega
  have hsets : ∀ k ∈ st.validatorSets, k ≤ cert.entry.sequence := by
    intro k hk'
    have := hk.set_rows k hk'
    have := hap.sequence
    omega
  have hview : view (st.commitRows cert balances next) = _ := view_commitRows hk.baseline hrows hap.covered
  obtain ⟨hchain, hsame⟩ := evidence_setChain _ hap.evidence hk.set_chain
  have hsit : sittingSet genesis (st.commitRows cert balances next) = next := sittingSet_commitRows hsets rfl hsame
  have hcommitted : Committed c genesis st cert (st.commitRows cert balances next) :=
    ⟨⟨balances, by rw [hsit]; exact hap⟩, rfl, hview, hstep⟩
  refine ⟨hcommitted, hk.baseline, ?_, ?_, ?_, ?_⟩
  · intro r hr
    rw [headSequence_commitRows]
    rw [commitRows_accountActivity hrows] at hr
    rcases List.mem_append.1 hr with hr | hr
    · exact (hrows r hr).le
    · exact (activityRows_sequence hr).le
  · intro k hk'
    rw [headSequence_commitRows]
    exact commitRows_set_le hsets hk'
  · rw [hsit]
    exact hchain
  · rw [hview, hcommitted.history, recordAll_append, hk.recorded]

/-! ## Every reachable store -/

theorem Chain.kept {c : Crypto} {genesis : ValidatorSet} {Q : LedgerStore → QuorumCertificate → Prop}
    {st : LedgerStore} (h : Chain c genesis Q st) (hg : validateValidatorSet genesis = .ok ()) :
    Kept c genesis st ∧
      Along record (Admitted c genesis.communityIssuanceLimitMcu) LedgerState.empty (history st) := by
  induction h with
  | empty => exact ⟨kept_empty c genesis, trivial⟩
  | ballots table _ ih =>
    obtain ⟨hk, hadm⟩ := ih
    exact ⟨⟨hk.baseline, hk.rows, hk.set_rows, hk.set_chain, hk.recorded⟩, hadm⟩
  | @commit st st' cert _ _ hcommit ih =>
    obtain ⟨hk, hadm⟩ := ih
    have hs : Sound genesis.communityIssuanceLimitMcu (view st) := by
      rw [hk.recorded]
      exact sound_recordAll (valid_of_validate hg).limit_pos.le hadm
    obtain ⟨hdone, hkept⟩ := hk.commit hg hs hcommit
    refine ⟨hkept, ?_⟩
    rw [hdone.history, Along.append_iff]
    have := hdone.admitted
    rw [hk.recorded] at this
    exact ⟨hadm, this⟩

section Reachable

variable {c : Crypto} {genesis : ValidatorSet} {Q : LedgerStore → QuorumCertificate → Prop} {st : LedgerStore}

/-- the books of a reachable store -/
theorem Chain.sound (h : Chain c genesis Q st) (hg : validateValidatorSet genesis = .ok ()) :
    Sound genesis.communityIssuanceLimitMcu (view st) := by
  obtain ⟨hk, hadm⟩ := h.kept hg
  rw [hk.recorded]
  exact sound_recordAll (valid_of_validate hg).limit_pos.le hadm

/-- the set sitting over a reachable store is valid and keeps the limit -/
theorem Chain.sitting (h : Chain c genesis Q st) (hg : validateValidatorSet genesis = .ok ()) :
    (sittingSet genesis st).Valid ∧
      (sittingSet genesis st).communityIssuanceLimitMcu = genesis.communityIssuanceLimitMcu := by
  obtain ⟨hv, hlim⟩ := (h.kept hg).1.set_chain.keeps hg
  exact ⟨valid_of_validate hv, hlim⟩

/-- the same books under the sitting set's own limit -/
theorem Chain.sound_sitting (h : Chain c genesis Q st) (hg : validateValidatorSet genesis = .ok ()) :
    Sound (sittingSet genesis st).communityIssuanceLimitMcu (view st) := by
  rw [(h.sitting hg).2]
  exact h.sound hg

theorem Chain.committed (h : Chain c genesis Q st) (hg : validateValidatorSet genesis = .ok ()) {st' : LedgerStore}
    {cert : QuorumCertificate} (hc : commitEntry c genesis st cert = .ok st') : Committed c genesis st cert st' :=
  ((h.kept hg).1.commit hg (h.sound hg) hc).1

/-- what the validators of a reachable store would accept next, read against its books -/
theorem Chain.propose (h : Chain c genesis Q st) (hg : validateValidatorSet genesis = .ok ())
    {txs : List LedgerTransaction} (hp : proposeChecks c st (sittingSet genesis st) txs = .ok ()) :
    Along record (ValidAt c st.headHash (sittingSet genesis st)) (view st) txs ∧
      Along record (Admitted c genesis.communityIssuanceLimitMcu) (view st) txs := by
  obtain ⟨hset, hlim⟩ := h.sitting hg
  have := admitted_of_propose hset (h.sound_sitting hg) hp
  rwa [hlim] at this

/-- `apply`'s balance pass takes whatever `validate_batch` takes -/
theorem Chain.balance_pass (h : Chain c genesis Q st) (hg : validateValidatorSet genesis = .ok ())
    {txs : List LedgerTransaction} {prev : String}
    (hb : validateBatch c txs prev st.balance st.inferenceReservation (sittingSet genesis st) = .ok ()) :
    ∃ balances, LedgerStore.applyBalances st.balances txs = .ok balances := by
  obtain ⟨hset, _⟩ := h.sitting hg
  have hcons := (h.sound_sitting hg).conserved
  rw [inferenceReservation_eq] at hb
  exact ⟨_, applyBalances_ok hset hcons (validateBatch_along hset hcons hb)⟩

/-- an accepted batch stays accepted with one more transaction that is valid against the books it leaves -/
theorem Chain.propose_snoc (h : Chain c genesis Q st) (hg : validateValidatorSet genesis = .ok ())
    {pre : List LedgerTransaction} {tx : LedgerTransaction}
    (hpre : proposeChecks c st (sittingSet genesis st) pre = .ok ()) (hclaim : ¬ st.hasClaim (claimKey tx))
    (hkeys : claimKey tx ∉ pre.map claimKey)
    (hmem : validateSettlementMembership c st.reservation st.inferenceReservation tx = .ok ())
    (hvalid : ValidAt c st.headHash (sittingSet genesis st) (recordAll (view st) pre) tx) :
    proposeChecks c st (sittingSet genesis st) (pre ++ [tx]) = .ok () := by
  simp only [proposeChecks, bind_ok, exists_ok_unit_and] at hpre ⊢
  refine ⟨settleLoop_snoc pre [] hpre.1 hclaim (by simp) hkeys hmem, ?_⟩
  rw [inferenceReservation_eq] at hpre ⊢
  exact validateBatch_snoc (s := view st) (h.sitting hg).1 (h.sound_sitting hg).conserved hpre.2 hvalid

/-- an invariant of the books that every admitted transaction keeps holds of a reachable store, and after any batch its
validators would accept next -/
theorem Chain.books (h : Chain c genesis Q st) (hg : validateValidatorSet genesis = .ok ())
    (Inv : LedgerState → List LedgerTransaction → Prop) (hempty : Inv LedgerState.empty [])
    (hstep : ∀ s H tx, Inv s H → Admitted c genesis.communityIssuanceLimitMcu s tx → Inv (record s tx) (H ++ [tx])) :
    Inv (view st) (history st) ∧ ∀ txs, proposeChecks c st (sittingSet genesis st) txs = .ok () →
      Inv (recordAll (view st) txs) (history st ++ txs) := by
  obtain ⟨hk, hadm⟩ := h.kept hg
  have hinv : Inv (view st) (history st) := by
    rw [hk.recorded]
    exact Along.invariant Inv hstep (history st) LedgerState.empty [] hadm hempty
  refine ⟨hinv, ?_⟩
  intro txs hp
  exact Along.invariant Inv hstep txs (view st) (history st) (h.propose hg hp).2 hinv

end Reachable

end Hocmesh.Books
