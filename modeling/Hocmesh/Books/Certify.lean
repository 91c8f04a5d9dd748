/-
From a signed proposal to a committed entry: which certificates `apply` takes.

`apply` asks three separate things (`apply_accepts_iff`): that the certificate counts enough signatures over the entry,
that the entry extends the store (`Extends`, which no signature can change), and that every provider reward passes the
audit drawn from the certificate's own signatures (`auditPasses`). A proposal that a validator signed satisfies the
second, membership changes apart (`extends_of_propose`); the third is the beacon, which exists only once the quorum has
signed.
-/
import Hocmesh.Books.Sample
import Hocmesh.Books.Jobs
import Hocmesh.Ledger.Ballots

namespace Hocmesh.Books

open Hocmesh.Base Hocmesh.Protocol Hocmesh.Compute Hocmesh.Ledger Hocmesh.Validator

/-! ## What the signatures decide -/

/-- the audit a list of signatures puts to one transaction -/
def auditPasses (c : Crypto) (previousHash : String) (signatures : List ValidatorSignature) (tx : LedgerTransaction) :
    Prop :=
  match tx.evidence with
  | .providerReward e => certifiedWitness c e.work e.result previousHash tx.transactionId signatures = true
  | _ => True

/-- what `verify_historical_evidence` asks of a transaction whatever the signatures are -/
def evidenceAside (c : Crypto) (tx : LedgerTransaction) : Check Unit :=
  match tx.evidence with
  | .providerReward e => do
    verifyProviderAuth c e
    (if e.systemFunded then issuable e.work else pure ())
  | _ => verifyHistoricalEvidence c tx "" []

theorem verifyHistoricalEvidence_iff {c : Crypto} {tx : LedgerTransaction} {prev : String}
    {sigs : List ValidatorSignature} :
    verifyHistoricalEvidence c tx prev sigs = .ok () ↔ evidenceAside c tx = .ok () ∧ auditPasses c prev sigs tx := by
  unfold evidenceAside auditPasses
  cases he : tx.evidence with
  | providerReward e =>
    simp only [verifyHistoricalEvidence, he, bind_ok, bailIf_ok, exists_ok_unit_and, and_assoc, Bool.not_eq_false]
  | _ => simp only [verifyHistoricalEvidence, he, and_true]

/-- one step of the evidence loop with the audit left out -/
def followStep (c : Crypto) (set : ValidatorSet) (tx : LedgerTransaction) : Check ValidatorSet := do
  evidenceAside c tx
  match tx.evidence with
  | .membershipChange e => verifyMembershipChange c set e
  | _ => pure set

theorem evidence_iff {c : Crypto} {prev : String} {sigs : List ValidatorSignature} (txs : List LedgerTransaction)
    {set next : ValidatorSet} :
    txs.foldlM (LedgerStore.evidenceStep c prev sigs) set = .ok next ↔
      txs.foldlM (followStep c) set = .ok next ∧ ∀ tx ∈ txs, auditPasses c prev sigs tx := by
  induction txs generalizing set with
  | nil => simp
  | cons tx txs ih =>
    simp only [List.foldlM_cons, bind_ok, LedgerStore.evidenceStep, followStep, exists_ok_unit_and,
      verifyHistoricalEvidence_iff, ih, List.forall_mem_cons]
    constructor
    · rintro ⟨set1, ⟨⟨h1, h2⟩, h3⟩, h4, h5⟩
      exact ⟨⟨set1, ⟨h1, h3⟩, h4⟩, h2, h5⟩
    · rintro ⟨⟨set1, ⟨h1, h3⟩, h4⟩, h2, h5⟩
      exact ⟨set1, ⟨⟨h1, h2⟩, h3⟩, h4, h5⟩

/-- what `apply` asks of an entry, whoever signed it -/
structure Extends (c : Crypto) (st : LedgerStore) (set : ValidatorSet) (entry : LedgerEntry) : Prop where
  follows : ∃ next, entry.transactions.foldlM (followStep c) set = .ok next
  sequence : entry.sequence = st.headSequence + 1
  previous : entry.previousHash = st.headHash
  fresh : ∀ t ∈ entry.transactions, ¬ st.hasClaim (claimKey t)
  covered : ∃ balances, LedgerStore.applyBalances st.balances entry.transactions = .ok balances
  in_range : (entry.sequence : ℤ) ≤ i64Max
  unique : ∀ held ∈ st.certificates, held.entry.entryHash ≠ entry.entryHash

/-- **What `apply` asks, taken apart.** -/
theorem apply_accepts_iff {c : Crypto} {st : LedgerStore} {cert : QuorumCertificate} {set : ValidatorSet} :
    (∃ st', st.apply c cert set = .ok st') ↔
      verifyCertificate c cert set = .ok () ∧ Extends c st set cert.entry ∧
        ∀ tx ∈ cert.entry.transactions, auditPasses c cert.entry.previousHash cert.signatures tx := by
  simp only [apply_ok]
  constructor
  · rintro ⟨_, next, balances, h, _⟩
    obtain ⟨hfollow, haudit⟩ := (evidence_iff _).1 h.evidence
    exact ⟨h.certified, ⟨⟨next, hfollow⟩, h.sequence, h.previous, h.fresh, ⟨balances, h.covered⟩, h.in_range, h.unique⟩,
      haudit⟩
  · rintro ⟨hcert, h, haudit⟩
    obtain ⟨next, hfollow⟩ := h.follows
    obtain ⟨balances, hcov⟩ := h.covered
    exact ⟨_, next, balances, ⟨hcert, (evidence_iff _).2 ⟨hfollow, haudit⟩, h.sequence, h.previous, h.fresh, hcov,
      h.in_range, h.unique⟩, rfl⟩

/-- what an applied entry leaves in the books does not depend on who signed it -/
theorem view_of_applied {c : Crypto} {st s₁ s₂ : LedgerStore} {cert cert' : QuorumCertificate} {set : ValidatorSet}
    (hentry : cert'.entry = cert.entry) (h₁ : st.apply c cert set = .ok s₁) (h₂ : st.apply c cert' set = .ok s₂) :
    view s₁ = view s₂ ∧ s₁.validatorSets = s₂.validatorSets := by
  obtain ⟨n₁, b₁, a₁, rfl⟩ := apply_ok.1 h₁
  obtain ⟨n₂, b₂, a₂, rfl⟩ := apply_ok.1 h₂
  have hev₁ := ((evidence_iff _).1 a₁.evidence).1
  have hev₂ := ((evidence_iff _).1 a₂.evidence).1
  have hcov₁ := a₁.covered
  have hcov₂ := a₂.covered
  rw [hentry] at hev₂ hcov₂
  rw [hev₁] at hev₂
  rw [hcov₁] at hcov₂
  cases hev₂
  cases hcov₂
  unfold LedgerStore.commitRows
  rw [hentry]
  exact ⟨rfl, rfl⟩

/-- **When packaging matters.** Two certificates of one entry, both counted as valid: `apply` takes both or neither
exactly when the entry does not extend the store anyway or the audits drawn from the two signature lists agree; and
when it takes both, the books they leave are the same. -/
theorem packaging_agrees_iff {c : Crypto} {st : LedgerStore} {set : ValidatorSet} {cert cert' : QuorumCertificate}
    (hentry : cert'.entry = cert.entry) (hv : verifyCertificate c cert set = .ok ())
    (hv' : verifyCertificate c cert' set = .ok ()) :
    (((∃ s, st.apply c cert set = .ok s) ↔ ∃ s, st.apply c cert' set = .ok s) ↔
      (Extends c st set cert.entry →
        ((∀ tx ∈ cert.entry.transactions, auditPasses c cert.entry.previousHash cert.signatures tx) ↔
          ∀ tx ∈ cert.entry.transactions, auditPasses c cert.entry.previousHash cert'.signatures tx))) ∧
    ∀ s₁ s₂, st.apply c cert set = .ok s₁ → st.apply c cert' set = .ok s₂ →
      view s₁ = view s₂ ∧ s₁.validatorSets = s₂.validatorSets := by
  refine ⟨?_, fun _ _ h₁ h₂ => view_of_applied hentry h₁ h₂⟩
  rw [apply_accepts_iff, apply_accepts_iff, hentry]
  simp only [hv, hv', true_and]
  constructor
  · intro h hext
    constructor
    · intro h1
      exact (h.1 ⟨hext, h1⟩).2
    · intro h2
      exact (h.2 ⟨hext, h2⟩).2
  · intro h
    constructor
    · rintro ⟨hext, h1⟩
      exact ⟨hext, (h hext).1 h1⟩
    · rintro ⟨hext, h2⟩
      exact ⟨hext, (h hext).2 h2⟩

/-! ## What propose already established -/

/-- the live rule of a transaction implies its historical evidence, audit and membership apart -/
theorem evidence_of_rule {c : Crypto} {tx : LedgerTransaction} {prev : String}
    {res : String → Option InferenceReservation} {set : ValidatorSet} (h : kindRule c tx prev res set = .ok ())
    (hmember : ∀ e, tx.evidence ≠ .membershipChange e) : evidenceAside c tx = .ok () := by
  unfold kindRule at h
  unfold evidenceAside
  cases he : tx.evidence with
  | jobReserve e =>
    simp only [he, verifyHistoricalEvidence, validateReserve, bind_ok, bailIf_ok, exists_const,
      exists_ok_unit_and] at h ⊢
    exact h.2.2.2.1
  | communityReserve e =>
    simp only [he, verifyHistoricalEvidence, validateCommunityReserve, bind_ok, bailIf_ok, exists_const,
      exists_ok_unit_and] at h ⊢
    exact ⟨h.1, h.2.1, h.2.2.1⟩
  | providerReward e =>
    simp only [he, validateReward, bind_ok, bailIf_ok, exists_const, exists_ok_unit_and] at h ⊢
    exact ⟨h.1, h.2.1⟩
  | jobRefund e =>
    simp only [he, verifyHistoricalEvidence, validateRefund, bind_ok, bailIf_ok, exists_const, exists_ok_unit_and,
      pure_ok] at h ⊢
    obtain ⟨hwork, _, _, payee, hpayee, _⟩ := h
    exact ⟨hwork, payee, hpayee, trivial⟩
  | inferenceReserve e =>
    simp only [he, verifyHistoricalEvidence, validateInferenceReserve, bind_ok, bailIf_ok, exists_const,
      exists_ok_unit_and] at h ⊢
    exact ⟨h.2.2.1, h.2.2.2.1⟩
  | inferenceReceipt e =>
    simp only [he, verifyHistoricalEvidence, validateInferenceReceipt, bind_ok, exists_ok_unit_and] at h ⊢
    exact h.1
  | inferenceReward e =>
    simp only [he, verifyHistoricalEvidence, validateInferenceReward, bind_ok, bailIf_ok, exists_const,
      exists_ok_unit_and, Prod.exists] at h ⊢
    obtain ⟨hreport, _, r, _, b, price, _, _, _, _, hverdict, _⟩ := h
    exact ⟨hreport, requesterVerdict_ok.2 ⟨rfl, (requesterVerdict_ok.1 hverdict).2⟩⟩
  | inferenceDispute e =>
    simp only [he, verifyHistoricalEvidence, validateInferenceDispute, bind_ok, bailIf_ok, exists_const,
      exists_ok_unit_and, Prod.exists] at h ⊢
    obtain ⟨r, _, _, b, price, _, _, hverdict, _⟩ := h
    exact requesterVerdict_ok.2 ⟨rfl, (requesterVerdict_ok.1 hverdict).2⟩
  | inferenceExpiry e =>
    simp only [he, verifyHistoricalEvidence, validateInferenceExpiry, bind_ok, exists_ok_unit_and] at h ⊢
    exact h.1
  | inferenceRefund e =>
    simp only [he, verifyHistoricalEvidence, validateInferenceRefund, bind_ok, exists_ok_unit_and] at h ⊢
    exact h.1
  | membershipChange e => exact absurd he (hmember e)

/-- the membership changes of a batch verify one after another, each under the set the previous one left -/
def membershipStep (c : Crypto) (set : ValidatorSet) (tx : LedgerTransaction) : Check ValidatorSet :=
  match tx.evidence with
  | .membershipChange e => do
    verifyHistoricalEvidence c tx "" []
    verifyMembershipChange c set e
  | _ => pure set

/-- live rules and verified membership changes are all the evidence loop asks for besides the audit -/
theorem follows_of_rules {c : Crypto} {txs : List LedgerTransaction} {set next : ValidatorSet}
    (hrule : ∀ tx ∈ txs, ∃ prev res set, kindRule c tx prev res set = .ok ())
    (hmember : txs.foldlM (membershipStep c) set = .ok next) : txs.foldlM (followStep c) set = .ok next := by
  induction txs generalizing set with
  | nil => exact hmember
  | cons tx txs ih =>
    simp only [List.foldlM_cons, bind_ok] at hmember ⊢
    obtain ⟨set1, h1, h2⟩ := hmember
    refine ⟨set1, ?_, ih (fun t ht => hrule t (List.mem_cons_of_mem _ ht)) h2⟩
    obtain ⟨prev, res, set0, hr⟩ := hrule tx List.mem_cons_self
    cases he : tx.evidence with
    | membershipChange e =>
      simp only [membershipStep, followStep, evidenceAside, he, bind_ok, exists_ok_unit_and] at h1 ⊢
      exact h1
    | _ =>
      have hev := evidence_of_rule hr (by simp [he])
      simp only [membershipStep, he] at h1
      simp only [followStep, he, bind_ok, exists_ok_unit_and]
      exact ⟨hev, h1⟩

theorem distinctClaims_ok (seen : List String) (txs : List LedgerTransaction) (hnd : (txs.map claimKey).Nodup)
    (hseen : ∀ t ∈ txs, claimKey t ∉ seen) : distinctClaims seen txs = .ok () := by
  induction txs generalizing seen with
  | nil => rfl
  | cons t txs ih =>
    rw [List.map_cons, List.nodup_cons] at hnd
    simp only [distinctClaims, bind_ok, bailIf_ok, exists_const]
    refine ⟨hseen t List.mem_cons_self, ih _ hnd.2 ?_⟩
    intro t' ht' hin
    rcases List.mem_cons.1 hin with heq | hin
    · exact hnd.1 (heq ▸ List.mem_map_of_mem ht')
    · exact hseen t' (List.mem_cons_of_mem _ ht') hin

/-- the parts of a proposal that was signed -/
theorem acceptProposal_ok {c : Crypto} {a : App} {req : ProposalRequest} {store : LedgerStore} {e : LedgerEntry}
    (h : acceptProposal c a req = .ok (store, e)) :
    proposeChecks c a.store a.set req.transactions = .ok () ∧ e = nextEntry c a.store req.transactions ∧
      (e.sequence : ℤ) ≤ i64Max ∧ ∃ table, store = { a.store with ballots := table } := by
  simp only [acceptProposal, LedgerStore.acceptBallot_ok, bind_ok, bailIf_ok, exists_const, exists_ok_unit_and, pure_ok,
    Prod.mk.injEq] at h
  obtain ⟨_, hp, store', ⟨hrange, _, _, rfl⟩, rfl, rfl⟩ := h
  exact ⟨hp, rfl, hrange, _, rfl⟩

section

variable {c : Crypto} {genesis : ValidatorSet}

/-- **A signed entry extends the store** it was signed on, if its membership changes verify and its hash is new. -/
theorem extends_of_propose (hg : validateValidatorSet genesis = .ok ()) {a : App} (hr : Reachable c genesis a.store)
    (hset : a.set = sittingSet genesis a.store) {req : ProposalRequest} {store : LedgerStore} {e : LedgerEntry}
    (hacc : acceptProposal c a req = .ok (store, e)) {next : ValidatorSet}
    (hmember : req.transactions.foldlM (membershipStep c) a.set = .ok next)
    (hhash : ∀ held ∈ a.store.certificates, held.entry.entryHash ≠ e.entryHash) : Extends c store a.set e := by
  obtain ⟨hp, rfl, hrange, table, rfl⟩ := acceptProposal_ok hacc
  rw [hset] at hp hmember ⊢
  obtain ⟨_, hadm⟩ := hr.propose hg hp
  have hrule : ∀ tx ∈ req.transactions, ∃ prev res set, kindRule c tx prev res set = .ok () := by
    intro tx htx
    obtain ⟨_, _, _, ha⟩ := hadm.of_mem htx
    obtain ⟨prev, set, _, _, hk⟩ := ha.rule
    exact ⟨prev, _, set, hk⟩
  simp only [proposeChecks, bind_ok, exists_ok_unit_and] at hp
  obtain ⟨hall, _⟩ := settleLoop_ok _ _ hp.1
  exact ⟨⟨next, follows_of_rules hrule hmember⟩, rfl, rfl, fun t ht => (hall t ht).1, hr.balance_pass hg hp.2, hrange,
    hhash⟩

/-- a certificate over a signed, nonempty entry is valid as soon as it counts enough signatures -/
theorem verifyCertificate_of_propose {a : App} {req : ProposalRequest} {store : LedgerStore} {e : LedgerEntry}
    (hacc : acceptProposal c a req = .ok (store, e)) (hne : req.transactions ≠ []) {cert : QuorumCertificate}
    (hentry : cert.entry = e) (hmh : cert.membershipHash = membershipHash c a.set)
    (hsigs : a.set.threshold ≤ goodSigners c a.set (ledgerEntrySigningMessage cert.membershipHash e.entryHash) []
      cert.signatures) : verifyCertificate c cert a.set = .ok () := by
  obtain ⟨hp, rfl, _⟩ := acceptProposal_ok hacc
  simp only [proposeChecks, bind_ok, exists_ok_unit_and] at hp
  obtain ⟨_, hnd⟩ := settleLoop_ok _ _ hp.1
  simp only [verifyCertificate, hentry, nextEntry, buildEntry, bind_ok, bailIf_ok, exists_const, exists_ok_unit_and,
    not_not, not_lt]
  exact ⟨hmh, hne, distinctClaims_ok [] _ hnd (by simp), trivial, trivial, by simpa [nextEntry, buildEntry] using hsigs⟩

/-- **When a signed entry commits.** A validator of a reachable store signs a nonempty batch whose membership changes
verify; a certificate is formed from any signatures over the entry that reach the threshold. `apply` takes it at that
head exactly when every provider reward passes the audit drawn from those signatures. -/
theorem signed_entry_commits_iff (hg : validateValidatorSet genesis = .ok ()) {a : App}
    (hr : Reachable c genesis a.store) (hset : a.set = sittingSet genesis a.store) {req : ProposalRequest}
    {store : LedgerStore} {e : LedgerEntry} (hacc : acceptProposal c a req = .ok (store, e))
    (hne : req.transactions ≠ []) {next : ValidatorSet}
    (hmember : req.transactions.foldlM (membershipStep c) a.set = .ok next)
    (hhash : ∀ held ∈ a.store.certificates, held.entry.entryHash ≠ e.entryHash) {cert : QuorumCertificate}
    (hentry : cert.entry = e) (hmh : cert.membershipHash = membershipHash c a.set)
    (hsigs : a.set.threshold ≤ goodSigners c a.set (ledgerEntrySigningMessage cert.membershipHash e.entryHash) []
      cert.signatures) :
    (∃ st', store.apply c cert a.set = .ok st') ↔
      ∀ tx ∈ req.transactions, auditPasses c e.previousHash cert.signatures tx := by
  have hcert := verifyCertificate_of_propose hacc hne hentry hmh hsigs
  have hext := extends_of_propose hg hr hset hacc hmember hhash
  obtain ⟨_, rfl, _⟩ := acceptProposal_ok hacc
  rw [apply_accepts_iff, hentry]
  constructor
  · rintro ⟨_, _, haudit⟩
    exact haudit
  · intro haudit
    exact ⟨hcert, hext, haudit⟩

end

/-! ## A reward the vote misses and the beacon catches -/

/-- validator 0 over a store of a set of one -/
def soleValidator (st : LedgerStore) : App := ⟨st, Sample.committee 1, Sample.nodeId 0, Sample.sign 0⟩

def lazyRequest : ProposalRequest := ⟨[Sample.lazyReward], 2, ⟨1, "client"⟩⟩

/-- the certificate validator 0 signs for the proposal -/
def lazyCertificate (st : LedgerStore) : QuorumCertificate :=
  Sample.certify (Sample.committee 1) [0] st lazyRequest.transactions

/-- the same certificate with a signature nobody counts -/
def repackaged (st : LedgerStore) : QuorumCertificate :=
  { lazyCertificate st with signatures := (lazyCertificate st).signatures ++ [⟨"ghost", "x"⟩] }

/-- what happens to the lazy reward on a store -/
structure LazyOutcome (st store : LedgerStore) : Prop where
  sits : sittingSet (Sample.committee 1) st = Sample.committee 1
  accepted : acceptProposal Sample.crypto (soleValidator st) lazyRequest = .ok (store, (lazyCertificate st).entry)
  unique : ∀ held ∈ st.certificates, held.entry.entryHash ≠ (lazyCertificate st).entry.entryHash
  signed : 1 ≤ goodSigners Sample.crypto (Sample.committee 1) (ledgerEntrySigningMessage
    (lazyCertificate st).membershipHash (lazyCertificate st).entry.entryHash) [] (lazyCertificate st).signatures
  counted : verifyCertificate Sample.crypto (lazyCertificate st) (Sample.committee 1) = .ok ()
  counted' : verifyCertificate Sample.crypto (repackaged st) (Sample.committee 1) = .ok ()
  refused : ¬ ∃ st', store.apply Sample.crypto (lazyCertificate st) (Sample.committee 1) = .ok st'
  taken : ∃ st', store.apply Sample.crypto (repackaged st) (Sample.committee 1) = .ok st'

/-- a store with the community job minted, and the lazy reward's fate on it -/
theorem lazy_run : ∃ st store, Reachable Sample.crypto (Sample.committee 1) st ∧ LazyOutcome st store := by
  have hrun : (Sample.commitBatches (Sample.committee 1) [0] [[Sample.smallMint]]).okWith (fun st =>
      (acceptProposal Sample.crypto (soleValidator st) lazyRequest).okWith fun p =>
        (sittingSet (Sample.committee 1) st = Sample.committee 1 ∧ p.2 = (lazyCertificate st).entry ∧
          (∀ held ∈ st.certificates, held.entry.entryHash ≠ (lazyCertificate st).entry.entryHash) ∧
          1 ≤ goodSigners Sample.crypto (Sample.committee 1) (ledgerEntrySigningMessage
            (lazyCertificate st).membershipHash (lazyCertificate st).entry.entryHash) []
            (lazyCertificate st).signatures ∧
          verifyCertificate Sample.crypto (lazyCertificate st) (Sample.committee 1) = .ok () ∧
          verifyCertificate Sample.crypto (repackaged st) (Sample.committee 1) = .ok () ∧
          ¬ (p.1.apply Sample.crypto (lazyCertificate st) (Sample.committee 1)).okWith (fun _ => true) = true ∧
          (p.1.apply Sample.crypto (repackaged st) (Sample.committee 1)).okWith (fun _ => true) = true)) = true := by
    decide +kernel
  obtain ⟨st, hst, hrun⟩ := (okWith_iff _ _).1 hrun
  obtain ⟨⟨store, e⟩, hacc, hfacts⟩ := (okWith_iff _ _).1 hrun
  rw [decide_eq_true_eq] at hfacts
  obtain ⟨h1, rfl, h2, h3, h4, h5, h6, h7⟩ := hfacts
  refine ⟨st, store, Sample.reachable_of_commitBatches hst, ⟨h1, hacc, h2, h3, h4, h5, ?_, ?_⟩⟩
  · rintro ⟨st', hst'⟩
    exact h6 ((okWith_iff _ _).2 ⟨st', hst', rfl⟩)
  · obtain ⟨st', hst', _⟩ := (okWith_iff _ _).1 h7
    exact ⟨st', hst'⟩

/-- the proposal was signed and its certificate counts, yet the reward fails the audit its signatures draw -/
theorem lazy_reward_fails_beacon :
    ∃ st store, Reachable Sample.crypto (Sample.committee 1) st ∧
      acceptProposal Sample.crypto (soleValidator st) lazyRequest = .ok (store, (lazyCertificate st).entry) ∧
      ¬ ∀ tx ∈ lazyRequest.transactions,
        auditPasses Sample.crypto (lazyCertificate st).entry.previousHash (lazyCertificate st).signatures tx := by
  obtain ⟨st, store, hr, h⟩ := lazy_run
  have hg : validateValidatorSet (Sample.committee 1) = .ok () := by decide +kernel
  have hsame : lazyRequest.transactions.foldlM (membershipStep Sample.crypto) (soleValidator st).set =
      .ok (Sample.committee 1) := rfl
  have hentry : (lazyCertificate st).entry = (lazyCertificate st).entry := rfl
  have hiff := signed_entry_commits_iff hg (a := soleValidator st) hr h.sits.symm h.accepted (by simp [lazyRequest])
    hsame h.unique hentry rfl h.signed
  exact ⟨st, store, hr, h.accepted, hiff.not.1 h.refused⟩

/-- a signed proposal whose own certificate is refused at the head it was signed on -/
theorem signed_entry_refused :
    ∃ st store, Reachable Sample.crypto (Sample.committee 1) st ∧
      acceptProposal Sample.crypto (soleValidator st) lazyRequest = .ok (store, (lazyCertificate st).entry) ∧
      verifyCertificate Sample.crypto (lazyCertificate st) (Sample.committee 1) = .ok () ∧
      ¬ ∃ st', store.apply Sample.crypto (lazyCertificate st) (Sample.committee 1) = .ok st' := by
  obtain ⟨st, store, hr, h⟩ := lazy_run
  exact ⟨st, store, hr, h.accepted, h.counted, h.refused⟩

/-- a signature nobody counts redraws the audit: the entry extends the store and the two audits disagree -/
theorem repackaged_audits_disagree :
    ∃ st store, LazyOutcome st store ∧
      ¬ (Extends Sample.crypto store (Sample.committee 1) (lazyCertificate st).entry →
        ((∀ tx ∈ (lazyCertificate st).entry.transactions, auditPasses Sample.crypto
            (lazyCertificate st).entry.previousHash (lazyCertificate st).signatures tx) ↔
          ∀ tx ∈ (lazyCertificate st).entry.transactions, auditPasses Sample.crypto
            (lazyCertificate st).entry.previousHash (repackaged st).signatures tx)) := by
  obtain ⟨st, store, _, h⟩ := lazy_run
  have hentry : (repackaged st).entry = (lazyCertificate st).entry := rfl
  obtain ⟨hiff, _⟩ := packaging_agrees_iff hentry h.counted h.counted'
  refine ⟨st, store, h, hiff.not.1 ?_⟩
  intro hboth
  exact h.refused (hboth.2 h.taken)

/-- two valid certificates of one entry, one refused and one taken by the same store -/
theorem repackaging_changes_verdict :
    ∃ (store : LedgerStore) (set : ValidatorSet) (cert cert' : QuorumCertificate),
      cert'.entry = cert.entry ∧ verifyCertificate Sample.crypto cert set = .ok () ∧
      verifyCertificate Sample.crypto cert' set = .ok () ∧ (¬ ∃ s, store.apply Sample.crypto cert set = .ok s) ∧
      ∃ s, store.apply Sample.crypto cert' set = .ok s := by
  obtain ⟨st, store, _, h⟩ := lazy_run
  exact ⟨store, Sample.committee 1, lazyCertificate st, repackaged st, rfl, h.counted, h.counted', h.refused, h.taken⟩

end Hocmesh.Books
