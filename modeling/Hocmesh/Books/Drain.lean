/-
Inference escrow: what is left in the escrow of an inference job, and when its batches use it up exactly.

The escrow of a certified job always holds the job's price less the prices of the batches taken out of it
(`BatchEscrow`). The requester pays the price of the whole job, each batch costs its own rounded price, and the two agree
exactly for the plans that `Drains` describes. For those the escrow is the price of the unsettled batches, never short
and empty at the end; for any other plan the batches cost more than the job and can never all be settled.
-/
import Hocmesh.Base.Remaining
import Hocmesh.Books.Batches
import Hocmesh.Books.Sample
import Hocmesh.Compute.Rounding

namespace Hocmesh.Books

open Hocmesh.Base Hocmesh.Protocol Hocmesh.Compute Hocmesh.Ledger Hocmesh.Validator

/-! ## Prices of a plan -/

/-- what the bill says one batch costs -/
def priceOf (billing : InferenceBilling) (b : PricedBatch) : ℤ := batchPrice billing b.batchStart b.batchEnd

/-- operations a run of prompts asks for: two for each token and parameter -/
def opsOf (billing : InferenceBilling) (promptBytes : List ℕ) : ℕ :=
  2 * billing.parameterCount * exactTokens promptBytes billing.maxTokens

/-- operations of one batch -/
def batchOps (billing : InferenceBilling) (b : PricedBatch) : ℕ :=
  opsOf billing ((billing.promptBytes.take b.batchEnd).drop b.batchStart)

/-- the plans whose batches cost exactly what the job costs: a single batch, or a job whose operations fit 64 bits and
whose batches are rounded up by less than one unit between them -/
def Drains (billing : InferenceBilling) (batches : List PricedBatch) : Prop :=
  batches.length = 1 ∨ (opsOf billing billing.promptBytes ≤ 2 ^ 64 ∧
    (batches.map fun b => padding (batchOps billing b)).sum < referenceOpsPerMcu)

instance (billing : InferenceBilling) (batches : List PricedBatch) : Decidable (Drains billing batches) := by
  unfold Drains; infer_instance

theorem exactTokens_append (l₁ l₂ : List ℕ) (maxTokens : ℕ) :
    exactTokens (l₁ ++ l₂) maxTokens = exactTokens l₁ maxTokens + exactTokens l₂ maxTokens := by
  simp [exactTokens]

theorem Tiled.le {cursor n : ℕ} {batches : List PricedBatch} (h : Tiled cursor batches n) : cursor ≤ n := by
  induction h with
  | done n => exact le_rfl
  | next hlt _ ih => omega

/-- every batch of a plan ends inside the prompts -/
theorem Tiled.end_le {cursor n : ℕ} {batches : List PricedBatch} (h : Tiled cursor batches n) :
    ∀ b ∈ batches, b.batchEnd ≤ n := by
  induction h with
  | done n => simp
  | @next b rest n hlt hrest ih =>
    intro b' hb'
    rcases List.mem_cons.1 hb' with rfl | hb'
    · exact hrest.le
    · exact ih b' hb'

/-- the operations of the batches are the operations of the prompts they tile -/
theorem Tiled.sum_ops {cursor n : ℕ} {batches : List PricedBatch} (h : Tiled cursor batches n)
    (billing : InferenceBilling) :
    (batches.map (batchOps billing)).sum = opsOf billing ((billing.promptBytes.take n).drop cursor) := by
  induction h with
  | done n => simp [opsOf, exactTokens]
  | @next b rest n hlt hrest ih =>
    have hsplit : (billing.promptBytes.take n).drop b.batchStart =
        (billing.promptBytes.take b.batchEnd).drop b.batchStart ++ (billing.promptBytes.take n).drop b.batchEnd := by
      have hle := hrest.le
      rw [List.drop_take, List.drop_take, List.drop_take]
      have h1 : n - b.batchStart = (b.batchEnd - b.batchStart) + (n - b.batchEnd) := by omega
      have h2 : billing.promptBytes.drop b.batchEnd =
          (billing.promptBytes.drop b.batchStart).drop (b.batchEnd - b.batchStart) := by
        rw [List.drop_drop]
        congr 1
        omega
      rw [h1, List.take_add, h2]
    rw [List.map_cons, List.sum_cons, ih, hsplit]
    simp only [batchOps, opsOf, exactTokens_append, mul_add]

section

variable {billing : InferenceBilling} {batches : List PricedBatch}

theorem jobPrice_eq (hp : 1 ≤ billing.parameterCount) :
    jobPrice billing = roundedMcu (opsOf billing billing.promptBytes) := inferenceCostMcu_eq hp

theorem priceOf_eq (hp : 1 ≤ billing.parameterCount) {b : PricedBatch} (hlt : b.batchStart < b.batchEnd)
    (hend : b.batchEnd ≤ billing.promptBytes.length) : priceOf billing b = roundedMcu (batchOps billing b) := by
  have hlo : min b.batchStart billing.promptBytes.length = b.batchStart := by omega
  have hhi : min (max b.batchEnd b.batchStart) billing.promptBytes.length = b.batchEnd := by omega
  unfold priceOf batchPrice inferenceBatchCostMcu
  simp only [hlo, hhi]
  exact inferenceCostMcu_eq hp

theorem sum_priceOf (hp : 1 ≤ billing.parameterCount) (h : Tiled 0 batches billing.promptBytes.length) :
    (batches.map (priceOf billing)).sum = ((batches.map (batchOps billing)).map roundedMcu).sum := by
  have hall : batches.map (priceOf billing) = batches.map fun b => (roundedMcu (batchOps billing b) : ℤ) := by
    apply List.map_congr_left
    intro b hb
    exact priceOf_eq hp (h.bounds b hb).2 (h.end_le b hb)
  rw [hall, List.map_map, Nat.cast_list_sum, List.map_map]
  rfl

theorem ops_of_plan (h : Tiled 0 batches billing.promptBytes.length) :
    (batches.map (batchOps billing)).sum = opsOf billing billing.promptBytes := by
  rw [h.sum_ops]
  simp

theorem partition_ne_nil {prompts : ℕ} (h : batchesPartitionPrompts batches prompts = .ok ()) : batches ≠ [] := by
  simp only [batchesPartitionPrompts, bind_ok, bailIf_ok, exists_const] at h
  exact h.1

/-- **Which plans add up.** -/
theorem prices_add_up_iff (hpl : parameterCountIsPlausible billing.parameterCount billing.totalSizeBytes)
    (hpart : batchesPartitionPrompts batches billing.promptBytes.length = .ok ()) :
    (batches.map (priceOf billing)).sum = jobPrice billing ↔ Drains billing batches := by
  have hp : 1 ≤ billing.parameterCount := hpl.1
  have ht := tiled_of_partition hpart
  have hops := ops_of_plan ht
  rw [sum_priceOf hp ht, jobPrice_eq hp, ← hops]
  norm_cast
  unfold Drains
  rcases Nat.lt_or_ge batches.length 2 with hshort | hlong
  · have hne := partition_ne_nil hpart
    have hone : batches.length = 1 := by
      have := List.length_pos_of_ne_nil hne
      omega
    obtain ⟨b, rfl⟩ := List.length_eq_one_iff.1 hone
    simp
  · have hnot : batches.length ≠ 1 := by omega
    rw [sum_roundedMcu_iff (by simpa using hlong), hops, List.map_map]
    simp only [hnot, false_or]
    rfl

/-- a plan never costs less than its job -/
theorem jobPrice_le_sum (hpl : parameterCountIsPlausible billing.parameterCount billing.totalSizeBytes)
    (hpart : batchesPartitionPrompts batches billing.promptBytes.length = .ok ()) :
    jobPrice billing ≤ (batches.map (priceOf billing)).sum := by
  have hp : 1 ≤ billing.parameterCount := hpl.1
  have ht := tiled_of_partition hpart
  rw [sum_priceOf hp ht, jobPrice_eq hp, ← ops_of_plan ht]
  exact_mod_cast roundedMcu_sum_le (by simpa using partition_ne_nil hpart)

end

/-! ## Batches taken out of escrow -/

/-- the batches of a plan that a history has taken out of escrow, by receipt or by refund, in order -/
def settledBatches (c : Crypto) (j : String) (r : InferenceRecord) (H : List LedgerTransaction) : List ℕ :=
  H.filterMap fun tx => (takesBatch tx).bind fun q => if q.1 = j then certifiedIndex c j r.batches q.2.1 else none

/-- what the batches still in escrow cost -/
def unsettledPrice (c : Crypto) (j : String) (r : InferenceRecord) (H : List LedgerTransaction) : ℤ :=
  remaining (priceOf r.billing) r.batches (settledBatches c j r H)

theorem mem_settledBatches {c : Crypto} {j : String} {r : InferenceRecord} {H : List LedgerTransaction} {i : ℕ} :
    i ∈ settledBatches c j r H ↔
      ∃ t ∈ H, ∃ id b e, takesBatch t = some (j, id, b, e) ∧ certifiedIndex c j r.batches id = some i := by
  unfold settledBatches
  rw [List.mem_filterMap]
  constructor
  · rintro ⟨t, ht, hi⟩
    obtain ⟨⟨j', id, b, e⟩, hs, hif⟩ := Option.bind_eq_some_iff.1 hi
    split_ifs at hif with hj
    exact ⟨t, ht, id, b, e, hj ▸ hs, hif⟩
  · rintro ⟨t, ht, id, b, e, hs, hi⟩
    exact ⟨t, ht, by rw [hs]; simpa using hi⟩

theorem settledBatches_snoc_of_takes {c : Crypto} {j id : String} {r : InferenceRecord} (H : List LedgerTransaction)
    {tx : LedgerTransaction} {b e i : ℕ} (h : takesBatch tx = some (j, id, b, e))
    (hi : certifiedIndex c j r.batches id = some i) :
    settledBatches c j r (H ++ [tx]) = settledBatches c j r H ++ [i] := by
  simp [settledBatches, List.filterMap_append, h, hi]

theorem settledBatches_snoc_of_not {c : Crypto} {j : String} {r : InferenceRecord} (H : List LedgerTransaction)
    {tx : LedgerTransaction} (h : ∀ id b e, takesBatch tx ≠ some (j, id, b, e)) :
    settledBatches c j r (H ++ [tx]) = settledBatches c j r H := by
  have hnone : ((takesBatch tx).bind fun q => if q.1 = j then certifiedIndex c j r.batches q.2.1 else none) = none := by
    rw [Option.bind_eq_none_iff]
    rintro ⟨j', id, b, e⟩ hs
    have hj : j' ≠ j := fun hj => h id b e (hj ▸ hs)
    exact if_neg hj
  simp [settledBatches, List.filterMap_append, hnone]

/-! ## The invariant -/

/-- the escrow of an inference job: its price, less the prices of all its batches, plus those still unsettled -/
structure BatchEscrow (c : Crypto) (limit : ℤ) (s : LedgerState) (H : List LedgerTransaction) : Prop where
  books : BatchBooks c limit s H
  exact : ∀ j r, s.inference[j]? = some r → s.balances.entry (escrowAccount j) =
    jobPrice r.billing - (r.batches.map (priceOf r.billing)).sum + unsettledPrice c j r H

section

variable {c : Crypto} {limit : ℤ} {s : LedgerState} {tx : LedgerTransaction} {H : List LedgerTransaction}

/-- a fresh receipt or refund takes a batch nobody has taken -/
theorem BatchBooks.untaken (h : BatchBooks c limit s H) {j id : String} {b e i : ℕ} {r : InferenceRecord}
    {plan : PricedBatch} (hfresh : inferenceClaimKey j b e ∉ s.claims) (hr : s.inference[j]? = some r)
    (hn : NamesBatch c j r.batches id b e i plan) : i ∉ settledBatches c j r H := by
  intro hin
  obtain ⟨t, ht, id', b', e', hs, hi⟩ := mem_settledBatches.1 hin
  obtain ⟨s₀, ha, hkept⟩ := h.origin t ht
  obtain ⟨r', i', plan', _, hr', hn', _, hkey⟩ := ha.batch hs
  have hsame := (hkept j r' hr').symm.trans hr
  cases hsame
  have hindex := hn'.found.symm.trans hi
  cases hindex
  have hplan := hn'.at_index.symm.trans hn.at_index
  cases hplan
  rw [← hn'.starts, hn.starts, ← hn'.ends, hn.ends] at hkey
  exact hfresh ((h.ledgered.claims _).2 ⟨t, ht, hkey⟩)

/-- **One transaction keeps inference escrow exact.** -/
theorem BatchEscrow.record (h : BatchEscrow c limit s H) (ha : Admitted c limit s tx) :
    BatchEscrow c limit (record s tx) (H ++ [tx]) where
  books := h.books.record ha
  exact := by
    intro j r hr
    have hled := h.books.ledgered
    obtain ⟨d, hd, hstep⟩ := ha.escrow_step j
    rw [hd]
    rcases inference_record hr with hrec | hold
    · -- the job is reserved by this very transaction, so nothing of it was ever taken
      have hnew : "reserve:" ++ j ∉ s.claims := claimKey_of_inferenceRecord hrec ▸ ha.fresh
      have hnone : settledBatches c j r H = [] := by
        rw [List.eq_nil_iff_forall_not_mem]
        intro i hi
        obtain ⟨t, ht, id, b, e, hs, _⟩ := mem_settledBatches.1 hi
        obtain ⟨r', _, _, hr', _⟩ := h.books.names ht (settles_of_takes hs)
        exact hnew (hled.booked.inference j (mem_of_get hr'))
      have hno : ∀ id b e, takesBatch tx ≠ some (j, id, b, e) := by
        intro id b e hs
        obtain ⟨r', _, _, _, hr', _⟩ := ha.batch hs
        exact hnew (hled.booked.inference j (mem_of_get hr'))
      have hopen : unsettledPrice c j r (H ++ [tx]) = (r.batches.map (priceOf r.billing)).sum := by
        unfold unsettledPrice
        rw [settledBatches_snoc_of_not H hno, hnone, remaining_nil]
      rw [hled.idle j hnew, hopen]
      cases hstep with
      | reserve r' hr' =>
        obtain ⟨_, _, _, hnone'⟩ := flow_of_jobRecord hr'
        rw [hnone'] at hrec
        cases hrec
      | reserveInference r' hr' =>
        rw [hrec] at hr'
        cases hr'
        ring
      | shard i r' work hi hr' hw => exact absurd (hled.booked.jobs j (mem_of_get hr')) hnew
      | batch id b e i r' plan hb hr' hn => exact absurd hb (hno id b e)
      | untouched hu => exact absurd hrec (hu.not_inference r)
    · have hres := mem_of_get hold
      rw [h.exact j r hold]
      cases hstep with
      | reserve r' hr' => exact absurd (claimKey_of_jobRecord hr' ▸ hled.booked.inference j hres) ha.fresh
      | reserveInference r' hr' =>
        exact absurd (claimKey_of_inferenceRecord hr' ▸ hled.booked.inference j hres) ha.fresh
      | shard i r' work hi hr' hw => exact absurd hres (hled.exclusive j (mem_of_get hr'))
      | batch id b e i r' plan hb hr' hn =>
        rw [hold] at hr'
        cases hr'
        obtain ⟨_, _, _, _, _, _, _, hkey⟩ := ha.batch hb
        have hfree := h.books.untaken (hkey ▸ ha.fresh) hold hn
        have hprice : batchPrice r.billing b e = priceOf r.billing plan := by rw [priceOf, hn.starts, hn.ends]
        unfold unsettledPrice
        rw [settledBatches_snoc_of_takes H hb hn.found, remaining_snoc _ hn.at_index hfree, hprice]
        ring
      | untouched hu =>
        unfold unsettledPrice
        rw [settledBatches_snoc_of_not H hu.not_batch, add_zero]

theorem batchEscrow_empty (c : Crypto) (limit : ℤ) : BatchEscrow c limit LedgerState.empty [] where
  books := batchBooks_empty c limit
  exact := by simp [LedgerState.empty]

/-! ## No batch is short of escrow -/

/-- the rule of a receipt or a batch refund looks up one job -/
theorem validateKind_of_takes {prev : String} {inf inf' : String → Option InferenceReservation} {set : ValidatorSet}
    {j id : String} {b e : ℕ} (hs : takesBatch tx = some (j, id, b, e)) (hinf : inf j = inf' j)
    (h : validateKind c tx prev inf set = .ok ()) : validateKind c tx prev inf' set = .ok () := by
  unfold takesBatch at hs
  unfold validateKind at h ⊢
  cases he : tx.evidence with
  | inferenceReceipt ev =>
    rw [he] at hs
    cases hs
    cases hk : tx.kind <;> simp_all
  | inferenceRefund ev =>
    rw [he] at hs
    cases hs
    cases hk : tx.kind <;> simp_all
  | _ => simp [he] at hs

theorem BatchEscrow.eq_unsettled (h : BatchEscrow c limit s H) {j : String} {r : InferenceRecord}
    (hr : s.inference[j]? = some r) :
    s.balances.entry (escrowAccount j) = unsettledPrice c j r H ↔ Drains r.billing r.batches := by
  have hplan := h.books.planned j r hr
  rw [← prices_add_up_iff hplan.weights hplan.partition, h.exact j r hr]
  constructor
  · intro heq
    omega
  · intro heq
    omega

/-- **A batch that passes its own rule is paid for**, when the plan drains. -/
theorem BatchEscrow.validAt (h : BatchEscrow c limit s H) {prev : String} {set : ValidatorSet} {j id : String} {b e : ℕ}
    (hdrains : ∀ r, s.inference[j]? = some r → Drains r.billing r.batches) (hfresh : claimKey tx ∉ s.claims)
    (hs : takesBatch tx = some (j, id, b, e)) (hk : validateKind c tx prev (reservedIn s) set = .ok ()) :
    ValidAt c prev set s tx := by
  obtain ⟨_, hrule⟩ := validateKind_ok hk
  obtain ⟨r, i, plan, dst, hr, hn, hf, hkey⟩ := batch_of_rule hrule hs
  have hfree := h.books.untaken (hkey ▸ hfresh) hr hn
  have hcov : batchPrice r.billing b e ≤ s.balances.entry (escrowAccount j) := by
    rw [(h.eq_unsettled hr).2 (hdrains r hr), ← hn.starts, ← hn.ends]
    refine price_le_remaining (priceOf r.billing) ?_ hn.at_index hfree
    intro p _
    have := batchPrice_pos r.billing p.batchStart p.batchEnd
    unfold priceOf
    omega
  have hpost : validatePostings "insufficient balance for" tx s.balances.entry set = .ok () :=
    postings_of_covered (kindRule_flow hrule hf) (by simp) hcov
  unfold takesBatch at hs
  unfold ValidAt validateTransaction
  cases he : tx.evidence with
  | inferenceReceipt ev => simp [hpost, hk]
  | inferenceRefund ev => simp [hpost, hk]
  | _ => simp [he] at hs

end

/-! ## Every reachable store -/

section

variable {c : Crypto} {genesis : ValidatorSet} {st : LedgerStore}

theorem Chain.batchEscrow {Q : LedgerStore → QuorumCertificate → Prop} (h : Chain c genesis Q st)
    (hg : validateValidatorSet genesis = .ok ()) :
    BatchEscrow c genesis.communityIssuanceLimitMcu (view st) (history st) ∧
      ∀ txs, proposeChecks c st (sittingSet genesis st) txs = .ok () →
        BatchEscrow c genesis.communityIssuanceLimitMcu (recordAll (view st) txs) (history st ++ txs) :=
  h.books hg (BatchEscrow c genesis.communityIssuanceLimitMcu) (batchEscrow_empty c _) fun _ _ _ hs ha => hs.record ha

/-- a receipt or a batch refund of a plan that drains goes through, alone or behind any accepted batch -/
theorem propose_batch (hg : validateValidatorSet genesis = .ok ()) (h : Reachable c genesis st)
    {pre : List LedgerTransaction} {tx : LedgerTransaction} {j id : String} {b e : ℕ} {r : InferenceRecord}
    (hr : (view st).inference[j]? = some r) (hdrains : Drains r.billing r.batches)
    (hs : takesBatch tx = some (j, id, b, e)) (hpre : proposeChecks c st (sittingSet genesis st) pre = .ok ())
    (hclaim : ¬ st.hasClaim (claimKey tx)) (hkeys : claimKey tx ∉ pre.map claimKey)
    (hmem : validateSettlementMembership c st.reservation st.inferenceReservation tx = .ok ())
    (hkind : validateKind c tx st.headHash st.inferenceReservation (sittingSet genesis st) = .ok ()) :
    proposeChecks c st (sittingSet genesis st) (pre ++ [tx]) = .ok () := by
  obtain ⟨hnow, hnext⟩ := h.batchEscrow hg
  have hafter := hnext pre hpre
  -- the plan behind the batch is the plan the store holds
  have hkept : (recordAll (view st) pre).inference[j]? = some r := by
    obtain ⟨t, ht, hrec⟩ := (hnow.books.certified j r).1 hr
    exact (hafter.books.certified j r).2 ⟨t, List.mem_append_left _ ht, hrec⟩
  have hsame : st.inferenceReservation j = reservedIn (recordAll (view st) pre) j := by
    rw [inferenceReservation_eq, reservedIn, reservedIn, hr, hkept]
  refine h.propose_snoc hg hpre hclaim hkeys hmem ?_
  refine hafter.validAt (j := j) ?_ (h.fresh_behind hg hpre hclaim hkeys) hs (validateKind_of_takes hs hsame hkind)
  intro r' hr'
  rw [hkept] at hr'
  cases hr'
  exact hdrains

/-- **When inference escrow drains.** Batch prices sum to the job price exactly for the plans `Drains` describes. In
every reachable store, the escrow of a certified job is the price of its unsettled batches exactly when its plan drains;
then no receipt and no refund that passes every other check is ever short of escrow, and nothing is left once every batch
is settled. A plan that does not drain can never be settled in full. -/
theorem inference_escrow_drains_iff (hg : validateValidatorSet genesis = .ok ()) (h : Reachable c genesis st)
    {reserve : LedgerTransaction} (hin : reserve ∈ history st) {j : String} {r : InferenceRecord}
    (hr : LedgerStore.inferenceRecord reserve = some (j, r)) :
    (∀ billing batches, parameterCountIsPlausible billing.parameterCount billing.totalSizeBytes →
      batchesPartitionPrompts batches billing.promptBytes.length = .ok () →
      ((batches.map (priceOf billing)).sum = jobPrice billing ↔ Drains billing batches)) ∧
    (st.balance (escrowAccount j) = unsettledPrice c j r (history st) ↔ Drains r.billing r.batches) ∧
    (Drains r.billing r.batches →
      (∀ pre tx id b e, takesBatch tx = some (j, id, b, e) →
        proposeChecks c st (sittingSet genesis st) pre = .ok () → ¬ st.hasClaim (claimKey tx) →
        claimKey tx ∉ pre.map claimKey →
        validateSettlementMembership c st.reservation st.inferenceReservation tx = .ok () →
        validateKind c tx st.headHash st.inferenceReservation (sittingSet genesis st) = .ok () →
        proposeChecks c st (sittingSet genesis st) (pre ++ [tx]) = .ok ()) ∧
      ((∀ i < r.batches.length, i ∈ settledBatches c j r (history st)) → st.balance (escrowAccount j) = 0)) ∧
    (¬ Drains r.billing r.batches → ¬ ∀ i < r.batches.length, i ∈ settledBatches c j r (history st)) := by
  have hnow := (h.batchEscrow hg).1
  have hres := (hnow.books.certified j r).2 ⟨reserve, hin, hr⟩
  have hplan := hnow.books.planned j r hres
  have hiff := hnow.eq_unsettled hres
  refine ⟨fun billing batches hpl hpart => prices_add_up_iff hpl hpart, hiff, fun hdrains => ⟨?_, ?_⟩, ?_⟩
  · intro pre tx id b e hs hpre hclaim hkeys hmem hkind
    exact propose_batch hg h hres hdrains hs hpre hclaim hkeys hmem hkind
  · intro hall
    exact (hiff.2 hdrains).trans (remaining_eq_zero _ hall)
  · intro hnot hall
    -- with everything taken the escrow is the job's price less the batches', which is below zero
    have hle := jobPrice_le_sum hplan.weights hplan.partition
    have hne : (r.batches.map (priceOf r.billing)).sum ≠ jobPrice r.billing := fun heq =>
      hnot ((prices_add_up_iff hplan.weights hplan.partition).1 heq)
    have hexact := hnow.exact j r hres
    rw [unsettledPrice, remaining_eq_zero _ hall] at hexact
    have hnn := (h.sound hg).conserved.nonneg (escrowAccount j) (Account.escrow_ne_issuance j)
    omega

end

/-- a job of one batch, already receipted: its escrow is empty -/
theorem inference_escrow_drains_after_receipt :
    ∃ st, Reachable Sample.crypto (Sample.committee 1) st ∧ Sample.smallReserve ∈ history st ∧
      st.balance (escrowAccount Sample.smallJob) = 0 := by
  obtain ⟨st, hr, hhist, _⟩ := Sample.small_run
  have hin : Sample.smallReserve ∈ history st := by
    rw [hhist]
    simp [Sample.smallHistory]
  have h := inference_escrow_drains_iff (by decide +kernel) hr hin (j := Sample.smallJob)
    (r := ⟨Sample.smallBilling, [Sample.smallBatch], Sample.nodeId 5, 300⟩) (by decide +kernel)
  refine ⟨st, hr, hin, (h.2.2.1 (Or.inl rfl)).2 ?_⟩
  rw [hhist]
  decide +kernel

/-- two one-token prompts, one batch each: the job costs one unit and its batches two -/
theorem split_bill_costs_more :
    ∃ billing batches, parameterCountIsPlausible billing.parameterCount billing.totalSizeBytes ∧
      batchesPartitionPrompts batches billing.promptBytes.length = .ok () ∧ jobPrice billing = 1 ∧
      (batches.map (priceOf billing)).sum = 2 :=
  ⟨{ Sample.smallBilling with promptBytes := [4, 4], maxTokens := 0 }, [⟨0, 1, "a"⟩, ⟨1, 2, "b"⟩], by decide, by decide,
    by decide +kernel, by decide +kernel⟩

end Hocmesh.Books
