/-
Inference batches in the books: the plan a job was reserved under, which transaction settles which batch, and what the
holding account of a batch contains.

A plan tiles the prompts, so bounds and index name the same batch (`Tiled.index_unique`). A balance is the sum of the
flows of the history (`net`), and only a receipt pays into a holding account and only a reward, a dispute or an expiry
pays out of it. `BatchBooks` is what every transaction keeps of all that. Assignment ids carry twenty hex characters of
the job id's digest; `Alone` says that no other certified job shares them, which is all that is ever asked of the hash.
-/
import Hocmesh.Books.Jobs

namespace Hocmesh.Books

open Hocmesh.Base Hocmesh.Protocol Hocmesh.Compute Hocmesh.Ledger Hocmesh.Validator

/-! ## Plans -/

/-- consecutive nonempty runs of prompts from `cursor` to `n` -/
inductive Tiled : ℕ → List PricedBatch → ℕ → Prop
  | done (n : ℕ) : Tiled n [] n
  | next {b : PricedBatch} {rest : List PricedBatch} {n : ℕ} (hlt : b.batchStart < b.batchEnd)
      (h : Tiled b.batchEnd rest n) : Tiled b.batchStart (b :: rest) n

theorem tiled_of_tileLoop {cursor n : ℕ} {batches : List PricedBatch} (h : tileLoop cursor batches = .ok n) :
    Tiled cursor batches n := by
  induction batches generalizing cursor with
  | nil =>
    simp only [tileLoop, Except.ok.injEq] at h
    exact h ▸ .done cursor
  | cons b rest ih =>
    simp only [tileLoop, bind_ok, bailIf_ok, exists_const, not_or, not_not, not_le] at h
    obtain ⟨⟨rfl, hlt⟩, h⟩ := h
    exact .next hlt (ih h)

theorem tiled_of_partition {batches : List PricedBatch} {prompts : ℕ}
    (h : batchesPartitionPrompts batches prompts = .ok ()) : Tiled 0 batches prompts := by
  simp only [batchesPartitionPrompts, bind_ok, bailIf_ok, exists_const, not_not] at h
  obtain ⟨_, n, hn, rfl⟩ := h
  exact tiled_of_tileLoop hn

theorem Tiled.bounds {cursor n : ℕ} {batches : List PricedBatch} (h : Tiled cursor batches n) :
    ∀ b ∈ batches, cursor ≤ b.batchStart ∧ b.batchStart < b.batchEnd := by
  induction h with
  | done n => simp
  | @next b rest n hlt _ ih =>
    intro b' hb'
    rcases List.mem_cons.1 hb' with rfl | hb'
    · exact ⟨le_rfl, hlt⟩
    · have := ih b' hb'
      exact ⟨by omega, this.2⟩

theorem Tiled.starts_nodup {cursor n : ℕ} {batches : List PricedBatch} (h : Tiled cursor batches n) :
    (batches.map PricedBatch.batchStart).Nodup := by
  induction h with
  | done n => simp
  | @next b rest n hlt hrest ih =>
    rw [List.map_cons, List.nodup_cons]
    refine ⟨?_, ih⟩
    intro hin
    obtain ⟨b', hb', heq⟩ := List.mem_map.1 hin
    have := (hrest.bounds b' hb').1
    omega

/-- the start of a batch tells which batch it is -/
theorem Tiled.index_unique {cursor n : ℕ} {batches : List PricedBatch} (h : Tiled cursor batches n) {i k : ℕ}
    {p q : PricedBatch} (hi : batches[i]? = some p) (hk : batches[k]? = some q) (hs : p.batchStart = q.batchStart) :
    i = k := by
  have hlen : i < (batches.map PricedBatch.batchStart).length := by
    rw [List.length_map]
    exact (List.getElem?_eq_some_iff.1 hi).1
  refine (List.getElem?_inj hlen h.starts_nodup).1 ?_
  rw [List.getElem?_map, List.getElem?_map, hi, hk]
  exact congrArg some hs

/-- what a certified inference reserve has been checked for -/
structure Planned (j : String) (r : InferenceRecord) : Prop where
  partition : batchesPartitionPrompts r.batches r.billing.promptBytes.length = .ok ()
  weights : parameterCountIsPlausible r.billing.parameterCount r.billing.totalSizeBytes
  requester : IsNodeId r.requester
  job : ∃ x, j = "ai_" ++ x

theorem Planned.tiled {j : String} {r : InferenceRecord} (h : Planned j r) :
    Tiled 0 r.batches r.billing.promptBytes.length := tiled_of_partition h.partition

/-! ## Who settles a batch -/

/-- the batch a receipt takes delivery of -/
def receiptsBatch (tx : LedgerTransaction) : Option (String × String × ℕ × ℕ) :=
  match tx.evidence with
  | .inferenceReceipt e => some (e.jobId, e.assignmentId, e.batchStart, e.batchEnd)
  | _ => none

/-- the batch a reward, a dispute or an expiry closes -/
def paysBatch (tx : LedgerTransaction) : Option (String × String × ℕ × ℕ) :=
  match tx.evidence with
  | .inferenceReward e => some (e.jobId, e.assignmentId, e.batchStart, e.batchEnd)
  | .inferenceDispute e => some (e.jobId, e.assignmentId, e.batchStart, e.batchEnd)
  | .inferenceExpiry e => some (e.jobId, e.assignmentId, e.batchStart, e.batchEnd)
  | _ => none

/-- the batch a settlement of either stage is about -/
def settlesBatch (tx : LedgerTransaction) : Option (String × String × ℕ × ℕ) := (takesBatch tx).or (paysBatch tx)

section

variable {c : Crypto} {limit : ℤ} {s : LedgerState} {tx : LedgerTransaction} {j id : String} {b e : ℕ}

theorem takes_of_receipts (h : receiptsBatch tx = some (j, id, b, e)) : takesBatch tx = some (j, id, b, e) := by
  unfold receiptsBatch at h
  unfold takesBatch
  cases he : tx.evidence <;> rw [he] at h <;> simp_all

theorem settles_of_takes (h : takesBatch tx = some (j, id, b, e)) : settlesBatch tx = some (j, id, b, e) := by
  rw [settlesBatch, h]
  rfl

theorem settles_of_pays (h : paysBatch tx = some (j, id, b, e)) : settlesBatch tx = some (j, id, b, e) := by
  have hnone : takesBatch tx = none := by
    unfold paysBatch at h
    unfold takesBatch
    cases he : tx.evidence <;> rw [he] at h <;> simp_all
  rw [settlesBatch, hnone, h]
  rfl

theorem settlesBatch_cases (h : settlesBatch tx = some (j, id, b, e)) :
    takesBatch tx = some (j, id, b, e) ∨ paysBatch tx = some (j, id, b, e) := by
  unfold settlesBatch at h
  rcases Option.or_eq_some_iff.1 h with h | ⟨_, h⟩
  · exact Or.inl h
  · exact Or.inr h

theorem Admitted.planned (h : Admitted c limit s tx) {r : InferenceRecord}
    (hr : LedgerStore.inferenceRecord tx = some (j, r)) : Planned j r := by
  obtain ⟨prev, set, _, _, hrule⟩ := h.rule
  unfold LedgerStore.inferenceRecord at hr
  cases he : tx.evidence with
  | inferenceReserve ev =>
    simp only [he, Option.some.injEq, Prod.mk.injEq, kindRule, validateInferenceReserve, verifyBillAuth, bind_ok,
      bailIf_ok, exists_const, exists_ok_unit_and, not_not] at hr hrule
    obtain ⟨rfl, rfl⟩ := hr
    obtain ⟨hid, hpl, hsig, hpart, _⟩ := hrule
    exact ⟨hpart, hpl, nodeId_of_verified c hsig, _, hid⟩
  | _ => simp [he] at hr

/-- the destination of a receipt is the holding account it names -/
theorem Admitted.receipt (h : Admitted c limit s tx) (hs : receiptsBatch tx = some (j, id, b, e)) :
    ∃ r i plan, s.inference[j]? = some r ∧ NamesBatch c j r.batches id b e i plan ∧
      flow tx = some ⟨.escrow j, .holding id, batchPrice r.billing b e⟩ := by
  obtain ⟨r, i, plan, dst, hr, hn, hf, _⟩ := h.batch (takes_of_receipts hs)
  refine ⟨r, i, plan, hr, hn, ?_⟩
  unfold receiptsBatch at hs
  unfold flow at hf ⊢
  cases he : tx.evidence with
  | inferenceReceipt ev =>
    simp only [he, Option.some.injEq, Prod.mk.injEq, Transfer.mk.injEq] at hs hf ⊢
    exact ⟨hf.1, by rw [hs.2.1], hf.2.2⟩
  | _ => simp [he] at hs

/-- **A payout, inverted.** It pays the batch's price out of its holding account, to anyone but the requester. -/
theorem Admitted.payout (h : Admitted c limit s tx) (hs : paysBatch tx = some (j, id, b, e)) :
    ∃ r i plan dst, s.inference[j]? = some r ∧ NamesBatch c j r.batches id b e i plan ∧
      flow tx = some ⟨.holding id, dst, batchPrice r.billing b e⟩ ∧ dst ≠ .node r.requester ∧
      claimKey tx = inferencePayoutKey j b e := by
  obtain ⟨prev, set, _, _, hr⟩ := h.rule
  unfold paysBatch at hs
  cases he : tx.evidence with
  | inferenceReward ev =>
    simp only [he, Option.some.injEq, Prod.mk.injEq, kindRule, validateInferenceReward, bind_ok, bailIf_ok,
      exists_const, exists_ok_unit_and, not_not, Prod.exists, orBail_ok, reservedBatch_ok, reservedIn,
      Option.map_eq_some_iff] at hs hr
    obtain ⟨rfl, rfl, rfl, rfl⟩ := hs
    obtain ⟨_, _, _, ⟨r, hres, rfl⟩, plan, price, ⟨⟨i, hi⟩, rfl⟩, _, hp, hself, _⟩ := hr
    refine ⟨r, i, plan, .node ev.providerAuth.nodeId, hres, hi, ?_, ?_, by simp only [claimKey, he]⟩
    · simp only [flow, he, hp]
      rfl
    · intro heq
      injection heq with heq
      exact hself heq.symm
  | inferenceDispute ev =>
    simp only [he, Option.some.injEq, Prod.mk.injEq, kindRule, validateInferenceDispute, bind_ok, bailIf_ok,
      exists_const, exists_ok_unit_and, not_not, Prod.exists, orBail_ok, reservedBatch_ok, reservedIn,
      Option.map_eq_some_iff] at hs hr
    obtain ⟨rfl, rfl, rfl, rfl⟩ := hs
    obtain ⟨_, ⟨r, hres, rfl⟩, _, plan, price, ⟨⟨i, hi⟩, rfl⟩, hp, _⟩ := hr
    refine ⟨r, i, plan, .issuance, hres, hi, ?_, by simp, by simp only [claimKey, he]⟩
    simp only [flow, he, hp]
    rfl
  | inferenceExpiry ev =>
    simp only [he, Option.some.injEq, Prod.mk.injEq, kindRule, validateInferenceExpiry, bind_ok, bailIf_ok,
      exists_const, exists_ok_unit_and, not_not, Prod.exists, orBail_ok, reservedBatch_ok, reservedIn,
      Option.map_eq_some_iff] at hs hr
    obtain ⟨rfl, rfl, rfl, rfl⟩ := hs
    obtain ⟨_, _, ⟨r, hres, rfl⟩, _, plan, price, ⟨⟨i, hi⟩, rfl⟩, hp, _⟩ := hr
    refine ⟨r, i, plan, .issuance, hres, hi, ?_, by simp, by simp only [claimKey, he]⟩
    simp only [flow, he, hp]
    rfl
  | _ => simp [he] at hs

/-- every settlement of a batch, of either stage, names a batch of the certified plan -/
theorem Admitted.names (h : Admitted c limit s tx) (hs : settlesBatch tx = some (j, id, b, e)) :
    ∃ r i plan, s.inference[j]? = some r ∧ NamesBatch c j r.batches id b e i plan := by
  rcases settlesBatch_cases hs with hs | hs
  · obtain ⟨r, i, plan, _, hr, hn, _⟩ := h.batch hs
    exact ⟨r, i, plan, hr, hn⟩
  · obtain ⟨r, i, plan, _, hr, hn, _⟩ := h.payout hs
    exact ⟨r, i, plan, hr, hn⟩

/-- only a receipt pays into a holding account -/
theorem holding_in {f : Transfer} (hf : flow tx = some f) (hd : f.dst = .holding id) :
    ∃ j b e, receiptsBatch tx = some (j, id, b, e) := by
  unfold flow at hf
  cases he : tx.evidence with
  | inferenceReceipt ev =>
    simp only [he, Option.some.injEq] at hf
    subst hf
    cases hd
    exact ⟨_, _, _, by simp only [receiptsBatch, he]; rfl⟩
  | jobRefund ev =>
    simp only [he, Option.some.injEq] at hf
    subst hf
    unfold refundAccount at hd
    cases ha : ev.requesterAuth <;> rw [ha] at hd <;> cases hd
  | membershipChange ev => simp [he] at hf
  | _ =>
    simp only [he, Option.some.injEq] at hf
    subst hf
    cases hd

/-- only a payout pays out of a holding account -/
theorem holding_out {f : Transfer} (hf : flow tx = some f) (hs : f.src = .holding id) :
    ∃ j b e, paysBatch tx = some (j, id, b, e) := by
  unfold flow at hf
  cases he : tx.evidence with
  | inferenceReward ev =>
    simp only [he, Option.some.injEq] at hf
    subst hf
    cases hs
    exact ⟨_, _, _, by simp only [paysBatch, he]; rfl⟩
  | inferenceDispute ev =>
    simp only [he, Option.some.injEq] at hf
    subst hf
    cases hs
    exact ⟨_, _, _, by simp only [paysBatch, he]; rfl⟩
  | inferenceExpiry ev =>
    simp only [he, Option.some.injEq] at hf
    subst hf
    cases hs
    exact ⟨_, _, _, by simp only [paysBatch, he]; rfl⟩
  | membershipChange ev => simp [he] at hf
  | _ =>
    simp only [he, Option.some.injEq] at hf
    subst hf
    cases hs

/-! ## Balances as sums of flows -/

/-- what a transaction adds to an account -/
def net (a : Account) (tx : LedgerTransaction) : ℤ :=
  match flow tx with
  | some f => (if f.dst = a then f.amount else 0) - (if f.src = a then f.amount else 0)
  | none => 0

theorem Admitted.entry_net (h : Admitted c limit s tx) {a : Account} (ha : a.Proper) :
    (record s tx).balances.entry a.name = s.balances.entry a.name + net a tx := by
  unfold net
  cases hf : flow tx with
  | some f => exact entry_record_account (h.flows hf).1 ha
  | none =>
    obtain ⟨prev, set, _, _, hv⟩ := h.valid
    rcases flow_of_valid hv with ⟨_, hp⟩ | ⟨f, hf', _⟩
    · rw [balances_record_of_none hp, add_zero]
    · rw [hf] at hf'
      cases hf'

/-- a transaction adds to a holding account only by receipting its batch -/
theorem receipts_of_net_pos (h : 0 < net (.holding id) tx) (hpos : ∀ f, flow tx = some f → 1 ≤ f.amount) :
    ∃ j b e, receiptsBatch tx = some (j, id, b, e) := by
  unfold net at h
  cases hf : flow tx with
  | none => simp [hf] at h
  | some f =>
    have hamt := hpos f hf
    by_cases hd : f.dst = .holding id
    · exact holding_in hf hd
    · simp only [hf, if_neg hd] at h
      split_ifs at h <;> omega

/-! ## The invariant -/

/-- no other certified job shares the digest this job's assignment ids carry -/
def Alone (c : Crypto) (s : LedgerState) (j : String) : Prop :=
  ∀ j' ∈ s.inference, jobDigest c j' = jobDigest c j → j' = j

structure BatchBooks (c : Crypto) (limit : ℤ) (s : LedgerState) (H : List LedgerTransaction) : Prop where
  ledgered : Ledgered s H
  certified : ∀ j r, s.inference[j]? = some r ↔ ∃ t ∈ H, LedgerStore.inferenceRecord t = some (j, r)
  planned : ∀ j r, s.inference[j]? = some r → Planned j r
  /-- every transaction was admitted against books whose plans still stand -/
  origin : ∀ t ∈ H, ∃ s₀ : LedgerState, Admitted c limit s₀ t ∧
    ∀ (j : String) r, s₀.inference[j]? = some r → s.inference[j]? = some r
  holding : ∀ id, s.balances.entry (inferenceHoldingAccount id) = (H.map (net (.holding id))).sum
  receipted : ∀ t ∈ H, ∀ j id b e, paysBatch t = some (j, id, b, e) → Alone c s j →
    ∃ t' ∈ H, receiptsBatch t' = some (j, id, b, e)

theorem batchBooks_empty (c : Crypto) (limit : ℤ) : BatchBooks c limit LedgerState.empty [] where
  ledgered := ledgered_empty
  certified := by simp [LedgerState.empty]
  planned := by simp [LedgerState.empty]
  origin := by simp
  holding := by simp [LedgerState.empty, Table.entry]
  receipted := by simp

variable {H : List LedgerTransaction}

theorem BatchBooks.names (h : BatchBooks c limit s H) {t : LedgerTransaction} (ht : t ∈ H)
    (hs : settlesBatch t = some (j, id, b, e)) :
    ∃ r i plan, s.inference[j]? = some r ∧ NamesBatch c j r.batches id b e i plan := by
  obtain ⟨s₀, ha, hkept⟩ := h.origin t ht
  obtain ⟨r, i, plan, hr, hn⟩ := ha.names hs
  exact ⟨r, i, plan, hkept j r hr, hn⟩

/-- an assignment id settles batches of one job only, and of that job only the one it names -/
theorem names_unique {j' : String} {r r' : InferenceRecord} {i i' : ℕ} {plan plan' : PricedBatch}
    (halone : Alone c s j) (hr : s.inference[j]? = some r) (hplan : r.batches[i]? = some plan)
    (hr' : s.inference[j']? = some r') (hn : NamesBatch c j' r'.batches (inferenceAssignmentId c j i) b e i' plan') :
    j' = j ∧ b = plan.batchStart ∧ e = plan.batchEnd := by
  obtain ⟨hdig, hi⟩ := inferenceAssignmentId_inj c hn.id
  have hj := halone j' (mem_of_get hr') hdig
  subst hj hi
  rw [hr] at hr'
  cases hr'
  have hp := hn.at_index.symm.trans hplan
  cases hp
  exact ⟨rfl, hn.starts.symm, hn.ends.symm⟩

/-- a plan in the new books is an old one, or the one this transaction made -/
theorem inference_record {r : InferenceRecord} (h : (record s tx).inference[j]? = some r) :
    LedgerStore.inferenceRecord tx = some (j, r) ∨ s.inference[j]? = some r := by
  rw [record_inference] at h
  exact upsert_cases h

/-- a payout finds its batch receipted, because only a receipt can have filled the holding account it draws on -/
theorem BatchBooks.receipted_new (h : BatchBooks c limit s H) (ha : Admitted c limit s tx)
    (hs : paysBatch tx = some (j, id, b, e)) (halone : Alone c s j) :
    ∃ t ∈ H, receiptsBatch t = some (j, id, b, e) := by
  obtain ⟨r, i, plan, dst, hr, hn, hf, _⟩ := ha.payout hs
  have hcov : batchPrice r.billing b e ≤ s.balances.entry (inferenceHoldingAccount id) :=
    (ha.flows hf).2.source (by simp)
  have hpos := batchPrice_pos r.billing b e
  rw [h.holding id] at hcov
  have hsum : (H.map fun _ => (0 : ℤ)).sum < (H.map (net (.holding id))).sum := by
    rw [List.map_const', List.sum_replicate, smul_zero]
    omega
  obtain ⟨t, ht, hnet⟩ := List.exists_lt_of_sum_lt _ _ hsum
  obtain ⟨s₀, ha₀, _⟩ := h.origin t ht
  obtain ⟨j', b', e', hrec⟩ := receipts_of_net_pos hnet fun f hf => (ha₀.flows hf).1.pos
  obtain ⟨r', i', plan', hr', hn'⟩ := h.names ht (settles_of_takes (takes_of_receipts hrec))
  obtain ⟨rfl, rfl, rfl⟩ := names_unique halone hr hn.at_index hr' (hn.id ▸ hn')
  exact ⟨t, ht, by rw [hrec, hn.starts, hn.ends]⟩

/-- **One transaction keeps the batch books**, whatever its kind. -/
theorem BatchBooks.record (h : BatchBooks c limit s H) (ha : Admitted c limit s tx) :
    BatchBooks c limit (record s tx) (H ++ [tx]) := by
  have hkept : ∀ j r, s.inference[j]? = some r → (Books.record s tx).inference[j]? = some r := fun j r hr =>
    inference_kept h.ledgered.booked ha.fresh hr
  have halone : ∀ j, Alone c (Books.record s tx) j → Alone c s j := by
    intro j hal j' hj' hdig
    obtain ⟨r, hr⟩ := Option.isSome_iff_exists.1 (Std.ExtTreeMap.mem_iff_isSome_getElem?.1 hj')
    exact hal j' (mem_of_get (hkept j' r hr)) hdig
  refine ⟨h.ledgered.record ha, ?_, ?_, ?_, ?_, ?_⟩
  · intro j r
    constructor
    · intro hr
      rcases inference_record hr with hrec | hold
      · exact ⟨tx, by simp, hrec⟩
      · obtain ⟨t, ht, hrec⟩ := (h.certified j r).1 hold
        exact ⟨t, List.mem_append_left _ ht, hrec⟩
    · rintro ⟨t, ht, hrec⟩
      rcases List.mem_append.1 ht with ht | ht
      · exact hkept j r ((h.certified j r).2 ⟨t, ht, hrec⟩)
      · rw [List.mem_singleton.1 ht] at hrec
        simp [record_inference, hrec, LedgerStore.upsert]
  · intro j r hr
    rcases inference_record hr with hrec | hold
    · exact ha.planned hrec
    · exact h.planned j r hold
  · intro t ht
    rcases List.mem_append.1 ht with ht | ht
    · obtain ⟨s₀, ha₀, hk₀⟩ := h.origin t ht
      exact ⟨s₀, ha₀, fun j r hr => hkept j r (hk₀ j r hr)⟩
    · rw [List.mem_singleton.1 ht]
      exact ⟨s, ha, hkept⟩
  · intro id
    have := ha.entry_net (a := .holding id) trivial
    simp only [Account.name] at this
    rw [this, h.holding id, List.map_append, List.sum_append]
    simp
  · intro t ht j id b e hs hal
    have hold : ∃ t' ∈ H, receiptsBatch t' = some (j, id, b, e) := by
      rcases List.mem_append.1 ht with ht | ht
      · exact h.receipted t ht j id b e hs (halone j hal)
      · rw [List.mem_singleton.1 ht] at hs
        exact h.receipted_new ha hs (halone j hal)
    obtain ⟨t', ht', hrec⟩ := hold
    exact ⟨t', List.mem_append_left _ ht', hrec⟩

end

theorem Chain.batchBooks {c : Crypto} {genesis : ValidatorSet} {Q : LedgerStore → QuorumCertificate → Prop}
    {st : LedgerStore} (h : Chain c genesis Q st) (hg : validateValidatorSet genesis = .ok ()) :
    BatchBooks c genesis.communityIssuanceLimitMcu (view st) (history st) ∧
      ∀ txs, proposeChecks c st (sittingSet genesis st) txs = .ok () →
        BatchBooks c genesis.communityIssuanceLimitMcu (recordAll (view st) txs) (history st ++ txs) :=
  h.books hg (BatchBooks c genesis.communityIssuanceLimitMcu) (batchBooks_empty c _) fun _ _ _ hs ha => hs.record ha

end Hocmesh.Books
