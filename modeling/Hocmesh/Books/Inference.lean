/-
Inference settlement is exactly once, in two stages.

A batch leaves its job's escrow once, by receipt or by refund, and what a receipt put into holding leaves it once, by
reward, dispute or expiry. The two stages have a claim key each, so each happens at most once; that a payout needs its
receipt is enforced by the holding balance alone.
-/
import Hocmesh.Base.Remaining
import Hocmesh.Books.Batches
import Hocmesh.Books.Sample

namespace Hocmesh.Books

open Hocmesh.Base Hocmesh.Protocol Hocmesh.Compute Hocmesh.Ledger Hocmesh.Validator

/-! ## Counting settlements of one batch -/

/-- whether a settlement names this job and these bounds -/
def ofBatch (j : String) (b e : ℕ) (o : Option (String × String × ℕ × ℕ)) : Bool :=
  o.any fun q => q.1 = j ∧ q.2.2.1 = b ∧ q.2.2.2 = e

theorem ofBatch_iff {j : String} {b e : ℕ} {o : Option (String × String × ℕ × ℕ)} :
    ofBatch j b e o = true ↔ ∃ id, o = some (j, id, b, e) := by
  cases o with
  | none => simp [ofBatch]
  | some q =>
    obtain ⟨j', id, b', e'⟩ := q
    simp only [ofBatch, Option.any_some, decide_eq_true_eq, Option.some.injEq, Prod.mk.injEq]
    constructor
    · rintro ⟨rfl, rfl, rfl⟩
      exact ⟨id, rfl, rfl, rfl, rfl⟩
    · rintro ⟨_, rfl, _, rfl, rfl⟩
      exact ⟨rfl, rfl, rfl⟩

/-- receipts and refunds of a batch -/
def takenOf (j : String) (b e : ℕ) (H : List LedgerTransaction) : ℕ := H.countP fun t => ofBatch j b e (takesBatch t)

/-- receipts of a batch -/
def receiptsOf (j : String) (b e : ℕ) (H : List LedgerTransaction) : ℕ :=
  H.countP fun t => ofBatch j b e (receiptsBatch t)

/-- rewards, disputes and expiries of a batch -/
def payoutsOf (j : String) (b e : ℕ) (H : List LedgerTransaction) : ℕ := H.countP fun t => ofBatch j b e (paysBatch t)

section

variable {c : Crypto} {limit : ℤ} {s : LedgerState} {H : List LedgerTransaction} {j : String} {r : InferenceRecord}
  {i : ℕ} {plan : PricedBatch}

theorem BatchBooks.takes_key (h : BatchBooks c limit s H) {t : LedgerTransaction} (ht : t ∈ H) {b e : ℕ}
    (hs : ofBatch j b e (takesBatch t) = true) : claimKey t = inferenceClaimKey j b e := by
  obtain ⟨id, hid⟩ := ofBatch_iff.1 hs
  obtain ⟨s₀, ha, _⟩ := h.origin t ht
  obtain ⟨_, _, _, _, _, _, _, hkey⟩ := ha.batch hid
  exact hkey

theorem BatchBooks.pays_key (h : BatchBooks c limit s H) {t : LedgerTransaction} (ht : t ∈ H) {b e : ℕ}
    (hs : ofBatch j b e (paysBatch t) = true) : claimKey t = inferencePayoutKey j b e := by
  obtain ⟨id, hid⟩ := ofBatch_iff.1 hs
  obtain ⟨s₀, ha, _⟩ := h.origin t ht
  obtain ⟨_, _, _, _, _, _, _, _, hkey⟩ := ha.payout hid
  exact hkey

theorem BatchBooks.taken_le_one (h : BatchBooks c limit s H) (j : String) (b e : ℕ) : takenOf j b e H ≤ 1 :=
  countP_le_one h.ledgered.nodup fun _ ht hs => h.takes_key ht hs

theorem BatchBooks.payouts_le_one (h : BatchBooks c limit s H) (j : String) (b e : ℕ) : payoutsOf j b e H ≤ 1 :=
  countP_le_one h.ledgered.nodup fun _ ht hs => h.pays_key ht hs

theorem receipts_le_taken (j : String) (b e : ℕ) (H : List LedgerTransaction) :
    receiptsOf j b e H ≤ takenOf j b e H := by
  refine List.countP_mono_left ?_
  intro t _ hs
  obtain ⟨id, hid⟩ := ofBatch_iff.1 hs
  exact ofBatch_iff.2 ⟨id, takes_of_receipts hid⟩

theorem BatchBooks.payouts_le_receipts (h : BatchBooks c limit s H) (halone : Alone c s j) (b e : ℕ) :
    payoutsOf j b e H ≤ receiptsOf j b e H := by
  rcases Nat.eq_zero_or_pos (payoutsOf j b e H) with hz | hp
  · omega
  · obtain ⟨t, ht, hs⟩ := List.countP_pos_iff.1 hp
    obtain ⟨id, hid⟩ := ofBatch_iff.1 hs
    obtain ⟨t', ht', hrec⟩ := h.receipted t ht j id b e hid halone
    have hpos : 0 < receiptsOf j b e H := List.countP_pos_iff.2 ⟨t', ht', ofBatch_iff.2 ⟨id, hrec⟩⟩
    have := h.payouts_le_one j b e
    omega

/-! ## The holding account of one batch -/

/-- the assignment id of a batch and its bounds name the same settlements -/
theorem BatchBooks.id_iff (h : BatchBooks c limit s H) (halone : Alone c s j) (hr : s.inference[j]? = some r)
    (hplan : r.batches[i]? = some plan) {t : LedgerTransaction} (ht : t ∈ H) {j' id : String} {b e : ℕ}
    (hs : settlesBatch t = some (j', id, b, e)) :
    id = inferenceAssignmentId c j i ↔ j' = j ∧ b = plan.batchStart ∧ e = plan.batchEnd := by
  obtain ⟨r', i', plan', hr', hn⟩ := h.names ht hs
  constructor
  · rintro rfl
    exact names_unique halone hr hplan hr' hn
  · rintro ⟨rfl, rfl, rfl⟩
    rw [hr] at hr'
    cases hr'
    have hi := (h.planned _ _ hr).tiled.index_unique hn.at_index hplan hn.starts
    rw [← hn.id, hi]

/-- what one recorded transaction does to the holding account of a batch -/
theorem BatchBooks.net_holding (h : BatchBooks c limit s H) (halone : Alone c s j) (hr : s.inference[j]? = some r)
    (hplan : r.batches[i]? = some plan) {t : LedgerTransaction} (ht : t ∈ H) :
    net (.holding (inferenceAssignmentId c j i)) t =
      (if ofBatch j plan.batchStart plan.batchEnd (receiptsBatch t) then
        batchPrice r.billing plan.batchStart plan.batchEnd else 0) -
      (if ofBatch j plan.batchStart plan.batchEnd (paysBatch t) then
        batchPrice r.billing plan.batchStart plan.batchEnd else 0) := by
  obtain ⟨s₀, ha, hkept⟩ := h.origin t ht
  have hprice : ∀ {r₀ : InferenceRecord}, s₀.inference[j]? = some r₀ → r₀ = r := by
    intro r₀ hr₀
    have := (hkept j r₀ hr₀).symm.trans hr
    cases this
    rfl
  -- a receipt adds the price, a payout takes it away, and nothing else names a holding account
  cases hrec : receiptsBatch t with
  | some q =>
    obtain ⟨j', id, b, e⟩ := q
    have hpay : paysBatch t = none := by
      unfold receiptsBatch at hrec
      unfold paysBatch
      cases he : t.evidence <;> rw [he] at hrec <;> simp_all
    have hiff := h.id_iff halone hr hplan ht (settles_of_takes (takes_of_receipts hrec))
    obtain ⟨r₀, _, _, hr₀, _, hf⟩ := ha.receipt hrec
    have hnone : ofBatch j plan.batchStart plan.batchEnd none = false := rfl
    rw [hpay, hnone]
    simp only [net, hf, Account.holding.injEq, reduceCtorEq, if_false, sub_zero, Bool.false_eq_true]
    by_cases hid : id = inferenceAssignmentId c j i
    · obtain ⟨rfl, rfl, rfl⟩ := hiff.1 hid
      rw [if_pos hid, if_pos (ofBatch_iff.2 ⟨id, rfl⟩), hprice hr₀]
    · rw [if_neg hid, if_neg]
      intro hof
      obtain ⟨_, heq⟩ := ofBatch_iff.1 hof
      cases heq
      exact hid (hiff.2 ⟨rfl, rfl, rfl⟩)
  | none =>
    have hdst : ∀ f, flow t = some f → f.dst ≠ .holding (inferenceAssignmentId c j i) := by
      intro f hf hd
      obtain ⟨_, _, _, hsome⟩ := holding_in hf hd
      rw [hrec] at hsome
      cases hsome
    have hnone : ofBatch j plan.batchStart plan.batchEnd none = false := rfl
    rw [hnone]
    cases hpay : paysBatch t with
    | some q =>
      obtain ⟨j', id, b, e⟩ := q
      have hiff := h.id_iff halone hr hplan ht (settles_of_pays hpay)
      obtain ⟨r₀, _, _, dst, hr₀, _, hf, _⟩ := ha.payout hpay
      have hd := hdst _ hf
      simp only [net, hf, if_neg hd, Account.holding.injEq, Bool.false_eq_true, if_false, zero_sub]
      by_cases hid : id = inferenceAssignmentId c j i
      · obtain ⟨rfl, rfl, rfl⟩ := hiff.1 hid
        rw [if_pos hid, if_pos (ofBatch_iff.2 ⟨id, rfl⟩), hprice hr₀]
      · rw [if_neg hid, if_neg]
        intro hof
        obtain ⟨_, heq⟩ := ofBatch_iff.1 hof
        cases heq
        exact hid (hiff.2 ⟨rfl, rfl, rfl⟩)
    | none =>
      rw [hnone]
      unfold net
      cases hf : flow t with
      | none => simp
      | some f =>
        have hsrc : f.src ≠ .holding (inferenceAssignmentId c j i) := by
          intro hs
          obtain ⟨_, _, _, hsome⟩ := holding_out hf hs
          rw [hpay] at hsome
          cases hsome
        simp [hdst f hf, hsrc]

/-- the holding account of a batch is a price times receipts less payouts -/
theorem BatchBooks.holding_eq (h : BatchBooks c limit s H) (halone : Alone c s j) (hr : s.inference[j]? = some r)
    (hplan : r.batches[i]? = some plan) :
    s.balances.entry (inferenceHoldingAccount (inferenceAssignmentId c j i)) =
      batchPrice r.billing plan.batchStart plan.batchEnd *
        (receiptsOf j plan.batchStart plan.batchEnd H - payoutsOf j plan.batchStart plan.batchEnd H) := by
  rw [h.holding, List.map_congr_left fun t ht => h.net_holding halone hr hplan ht]
  exact sum_map_ite_sub _ _ _ _

/-! ## The requester's account -/

/-- nothing that settles a receipted batch posts to the requester's account -/
theorem BatchBooks.requester_untouched (h : BatchBooks c limit s H) (hr : s.inference[j]? = some r) {b e : ℕ}
    (hrec : 0 < receiptsOf j b e H) {t : LedgerTransaction} (ht : t ∈ H) (hs : ofBatch j b e (settlesBatch t) = true)
    {p : Posting} (hp : p ∈ t.postings) : p.accountId ≠ r.requester := by
  obtain ⟨s₀, ha, hkept⟩ := h.origin t ht
  obtain ⟨id, hid⟩ := ofBatch_iff.1 hs
  have hproper := (h.planned j r hr).requester
  -- the accounts of the transfer are not the requester's, so neither is the posting's
  have hfrom : ∀ f, flow t = some f → f.src ≠ .node r.requester → f.dst ≠ .node r.requester →
      p.accountId ≠ r.requester := by
    intro f hf hsrc hdst heq
    have hflows := (ha.flows hf).1
    rcases hflows.posting_account hp with hacc | hacc
    · exact hsrc ((Account.name_inj (b := .node r.requester) hflows.src_proper hproper).1 (hacc.symm.trans heq))
    · exact hdst ((Account.name_inj (b := .node r.requester) hflows.dst_proper hproper).1 (hacc.symm.trans heq))
  rcases settlesBatch_cases hid with htake | hpay
  · obtain ⟨t', ht', hs'⟩ := List.countP_pos_iff.1 hrec
    obtain ⟨id', hid'⟩ := ofBatch_iff.1 hs'
    have hkey : claimKey t' = claimKey t :=
      (h.takes_key ht' (ofBatch_iff.2 ⟨id', takes_of_receipts hid'⟩)).trans
        (h.takes_key ht (ofBatch_iff.2 ⟨id, htake⟩)).symm
    have heq := List.inj_on_of_nodup_map h.ledgered.nodup ht' ht hkey
    rw [heq] at hid'
    obtain ⟨_, _, _, _, _, hf⟩ := ha.receipt hid'
    exact hfrom _ hf (by simp) (by simp)
  · obtain ⟨r₀, _, _, dst, hr₀, _, hf, hne, _⟩ := ha.payout hpay
    have := (hkept j r₀ hr₀).symm.trans hr
    cases this
    exact hfrom _ hf (by simp) hne

end

/-! ## Every reachable store -/

section

variable {c : Crypto} {genesis : ValidatorSet} {st : LedgerStore}

/-- **Exactly once, in two stages.** In every reachable store, for every batch of every certified inference job whose
assignment ids no other certified job shares: at most one receipt or refund, at most one payout and none without the
receipt, a holding account that contains the price between the two stages and nothing otherwise, and no posting to the
requester's account by anything that settles a receipted batch. The batch's assignment id and its bounds name the same
settlements. -/
theorem inference_settled_once (hg : validateValidatorSet genesis = .ok ()) (h : Reachable c genesis st)
    {reserve : LedgerTransaction} (hin : reserve ∈ history st) {j : String} {r : InferenceRecord}
    (hr : LedgerStore.inferenceRecord reserve = some (j, r))
    (hids : ∀ j', st.inferenceReservation j' ≠ none → jobDigest c j' = jobDigest c j → j' = j) {i : ℕ}
    {plan : PricedBatch} (hplan : r.batches[i]? = some plan) :
    takenOf j plan.batchStart plan.batchEnd (history st) ≤ 1 ∧
    payoutsOf j plan.batchStart plan.batchEnd (history st) ≤ 1 ∧
    payoutsOf j plan.batchStart plan.batchEnd (history st) ≤ receiptsOf j plan.batchStart plan.batchEnd (history st) ∧
    st.balance (inferenceHoldingAccount (inferenceAssignmentId c j i)) =
      (if 0 < receiptsOf j plan.batchStart plan.batchEnd (history st) ∧
          payoutsOf j plan.batchStart plan.batchEnd (history st) = 0 then
        batchPrice r.billing plan.batchStart plan.batchEnd else 0) ∧
    (0 < receiptsOf j plan.batchStart plan.batchEnd (history st) → ∀ t ∈ history st,
      ofBatch j plan.batchStart plan.batchEnd (settlesBatch t) = true → ∀ p ∈ t.postings, p.accountId ≠ r.requester) ∧
    ∀ t ∈ history st, ∀ j' id b e, settlesBatch t = some (j', id, b, e) →
      (id = inferenceAssignmentId c j i ↔ j' = j ∧ b = plan.batchStart ∧ e = plan.batchEnd) := by
  have hb := (h.batchBooks hg).1
  have hres := (hb.certified j r).2 ⟨reserve, hin, hr⟩
  have halone : Alone c (view st) j := by
    intro j' hj' hdig
    refine hids j' ?_ hdig
    obtain ⟨r', hr'⟩ := Option.isSome_iff_exists.1 (Std.ExtTreeMap.mem_iff_isSome_getElem?.1 hj')
    rw [← view_inferenceReservation, reservedIn, hr']
    simp
  have htaken := hb.taken_le_one j plan.batchStart plan.batchEnd
  have hpaid := hb.payouts_le_one j plan.batchStart plan.batchEnd
  have hle := hb.payouts_le_receipts halone plan.batchStart plan.batchEnd
  have hrec := receipts_le_taken j plan.batchStart plan.batchEnd (history st)
  refine ⟨htaken, hpaid, hle, ?_, ?_, ?_⟩
  · refine (hb.holding_eq halone hres hplan).trans ?_
    generalize receiptsOf j plan.batchStart plan.batchEnd (history st) = receipts at *
    generalize payoutsOf j plan.batchStart plan.batchEnd (history st) = payouts at *
    have hcases : (receipts = 0 ∧ payouts = 0) ∨ (receipts = 1 ∧ payouts = 0) ∨ (receipts = 1 ∧ payouts = 1) := by omega
    rcases hcases with ⟨rfl, rfl⟩ | ⟨rfl, rfl⟩ | ⟨rfl, rfl⟩ <;> simp
  · intro hpos t ht hs p hp
    exact hb.requester_untouched hres hpos ht hs hp
  · intro t ht j' id b e hs
    exact hb.id_iff halone hres hplan ht hs

end

/-- a receipted batch: one receipt, no payout, and its price in holding -/
theorem inference_settled_once_after_receipt :
    ∃ st, Reachable Sample.crypto (Sample.committee 1) st ∧ Sample.smallReserve ∈ history st ∧
      receiptsOf Sample.smallJob 0 1 (history st) = 1 ∧ takenOf Sample.smallJob 0 1 (history st) ≤ 1 ∧
      st.balance (inferenceHoldingAccount Sample.smallAssignment) =
        batchPrice Sample.smallBilling 0 1 := by
  obtain ⟨st, hr, hhist, _⟩ := Sample.small_run
  have hin : Sample.smallReserve ∈ history st := by
    rw [hhist]
    simp [Sample.smallHistory]
  obtain ⟨hrec, hpaid⟩ : receiptsOf Sample.smallJob 0 1 (history st) = 1 ∧ payoutsOf Sample.smallJob 0 1 (history st) = 0 := by
    rw [hhist]
    decide +kernel
  -- the only certified inference job of the run is this one
  have hids : ∀ j', st.inferenceReservation j' ≠ none → jobDigest Sample.crypto j' = jobDigest Sample.crypto
      Sample.smallJob → j' = Sample.smallJob := by
    intro j' hj' _
    have hb := (hr.batchBooks (by decide +kernel)).1
    rw [← view_inferenceReservation, reservedIn] at hj'
    obtain ⟨r, hres⟩ := Option.ne_none_iff_exists'.1 (Option.map_eq_none_iff.not.1 hj')
    obtain ⟨t, ht, hrec'⟩ := (hb.certified j' r).1 hres
    rw [hhist] at ht
    simp only [Sample.smallHistory, List.mem_cons, List.not_mem_nil, or_false] at ht
    rcases ht with rfl | rfl | rfl | rfl
    · cases hrec'
    · cases hrec'
    · cases hrec'
      decide +kernel
    · cases hrec'
  have hplan : [Sample.smallBatch][0]? = some Sample.smallBatch := rfl
  have h := inference_settled_once (by decide +kernel) hr hin (j := Sample.smallJob)
    (r := ⟨Sample.smallBilling, [Sample.smallBatch], Sample.nodeId 5, 300⟩) (by decide +kernel) hids hplan
  obtain ⟨htaken, _, _, hheld, _⟩ := h
  refine ⟨st, hr, hin, hrec, htaken, hheld.trans (if_pos ⟨?_, hpaid⟩)⟩
  exact hrec ▸ Nat.one_pos

end Hocmesh.Books
