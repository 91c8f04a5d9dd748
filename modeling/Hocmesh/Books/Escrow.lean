/-
CPU escrow: what the escrow of a CPU job holds is what its unsettled shards cost.

A reward and a refund of one shard share one claim, named by the shard's assignment id, and the propose checks pin the
work they carry to the reserved shard. `CpuEscrow` ties claims, reservations and balances together; it is kept by every
transaction of every kind (`CpuEscrow.record`), so it holds of every reachable store.
-/
import Hocmesh.Base.Remaining
import Hocmesh.Books.Jobs
import Hocmesh.Books.Supply

namespace Hocmesh.Books

open Hocmesh.Base Hocmesh.Protocol Hocmesh.Compute Hocmesh.Ledger Hocmesh.Validator

/-! ## Settled shards -/

/-- the shards of a job that a history has settled, by reward or by refund, in order -/
def settledShards (j : String) (H : List LedgerTransaction) : List ℕ :=
  H.filterMap fun tx => (settlesShard tx).bind fun p => if p.1 = j then some p.2 else none

theorem mem_settledShards {j : String} {H : List LedgerTransaction} {i : ℕ} :
    i ∈ settledShards j H ↔ ∃ t ∈ H, settlesShard t = some (j, i) := by
  unfold settledShards
  rw [List.mem_filterMap]
  constructor
  · rintro ⟨t, ht, hi⟩
    obtain ⟨⟨j', i'⟩, hs, hif⟩ := Option.bind_eq_some_iff.1 hi
    split_ifs at hif with hj
    cases hif
    exact ⟨t, ht, hj ▸ hs⟩
  · rintro ⟨t, ht, hs⟩
    exact ⟨t, ht, by rw [hs]; simp⟩

theorem settledShards_snoc_of_settles {j : String} (H : List LedgerTransaction) {tx : LedgerTransaction} {i : ℕ}
    (h : settlesShard tx = some (j, i)) : settledShards j (H ++ [tx]) = settledShards j H ++ [i] := by
  simp [settledShards, List.filterMap_append, h]

theorem settledShards_snoc_of_not {j : String} (H : List LedgerTransaction) {tx : LedgerTransaction}
    (h : ∀ i, settlesShard tx ≠ some (j, i)) : settledShards j (H ++ [tx]) = settledShards j H := by
  have hnone : ((settlesShard tx).bind fun p => if p.1 = j then some p.2 else none) = none := by
    rw [Option.bind_eq_none_iff]
    rintro ⟨j', i⟩ hs
    have hj : j' ≠ j := fun hj => h i (hj ▸ hs)
    exact if_neg hj
  simp [settledShards, List.filterMap_append, hnone]

/-- what the shards of a reservation that are not yet settled cost -/
def unsettledCost (r : ReservationRecord) (settled : List ℕ) : ℤ :=
  remaining workCostMcu (splitWork r.work r.shards) settled

/-! ## The invariant -/

structure CpuEscrow (c : Crypto) (s : LedgerState) (H : List LedgerTransaction) : Prop where
  ledgered : Ledgered s H
  certified : ∀ j r, s.reservations[j]? = some r ↔ ∃ t ∈ H, LedgerStore.jobRecord t = some (j, r)
  keys : ∀ t ∈ H, ∀ j i, settlesShard t = some (j, i) → claimKey t = "reward:" ++ assignmentId c j i
  reserved : ∀ j i, i ∈ settledShards j H → j ∈ s.reservations
  once : ∀ j, (settledShards j H).Nodup
  in_range : ∀ j r, s.reservations[j]? = some r → ∀ i ∈ settledShards j H, i < (splitWork r.work r.shards).length
  exact : ∀ j r, s.reservations[j]? = some r →
    s.balances.entry (escrowAccount j) = unsettledCost r (settledShards j H)

theorem cpuEscrow_empty (c : Crypto) : CpuEscrow c LedgerState.empty [] where
  ledgered := ledgered_empty
  certified := by simp [LedgerState.empty]
  keys := by simp
  reserved := by simp [settledShards]
  once := by simp [settledShards]
  in_range := by simp [LedgerState.empty]
  exact := by simp [LedgerState.empty]

section

variable {c : Crypto} {limit : ℤ} {s : LedgerState} {tx : LedgerTransaction} {H : List LedgerTransaction}

/-- a fresh settlement names a shard nobody has settled -/
theorem CpuEscrow.unsettled (h : CpuEscrow c s H) (ha : Admitted c limit s tx) {j : String} {i : ℕ}
    (hs : settlesShard tx = some (j, i)) : i ∉ settledShards j H := by
  intro hin
  obtain ⟨t, ht, hts⟩ := mem_settledShards.1 hin
  obtain ⟨_, _, _, _, _, _, hkey⟩ := ha.shard hs
  exact ha.fresh ((h.ledgered.claims _).2 ⟨t, ht, (h.keys t ht j i hts).trans hkey.symm⟩)

/-- a reservation in the new books is an old one, or the one this transaction made -/
theorem reservation_record {j : String} {r : ReservationRecord} (h : (record s tx).reservations[j]? = some r) :
    LedgerStore.jobRecord tx = some (j, r) ∨ (s.reservations[j]? = some r ∧ ∀ r', LedgerStore.jobRecord tx ≠ some (j, r')) := by
  rw [record_reservations] at h
  cases hrow : LedgerStore.jobRecord tx with
  | none =>
    rw [hrow] at h
    exact Or.inr ⟨h, by simp⟩
  | some row =>
    rw [hrow] at h
    simp only [LedgerStore.upsert, Table.get_insert, id_eq] at h
    split_ifs at h with hj
    · left
      cases h
      rw [← hj]
    · right
      refine ⟨h, ?_⟩
      rintro r' heq
      cases heq
      exact hj rfl

theorem Admitted.shards_le (h : Admitted c limit s tx) {j : String} {r : ReservationRecord}
    (hr : LedgerStore.jobRecord tx = some (j, r)) : r.shards ≤ 256 := by
  obtain ⟨prev, set, _, _, hrule⟩ := h.rule
  unfold LedgerStore.jobRecord at hr
  cases he : tx.evidence with
  | jobReserve e =>
    simp only [he, Option.some.injEq, Prod.mk.injEq, kindRule, validateReserve, bind_ok, bailIf_ok, exists_const,
      exists_ok_unit_and, not_not] at hr hrule
    obtain ⟨_, rfl⟩ := hr
    exact hrule.2.2.1.2
  | communityReserve e =>
    simp only [he, Option.some.injEq, Prod.mk.injEq, kindRule, validateCommunityReserve, bind_ok, bailIf_ok,
      exists_const, exists_ok_unit_and, not_not] at hr hrule
    obtain ⟨_, rfl⟩ := hr
    exact hrule.2.2.1.2
  | _ => simp [he] at hr

/-- a reserve settles nothing -/
theorem settlesShard_of_jobRecord {row : String × ReservationRecord} (h : LedgerStore.jobRecord tx = some row) :
    settlesShard tx = none := by
  unfold LedgerStore.jobRecord at h
  unfold settlesShard
  cases he : tx.evidence <;> rw [he] at h <;> simp_all

/-- the shards settled after one more transaction -/
theorem CpuEscrow.settled_cases (h : CpuEscrow c s H) (ha : Admitted c limit s tx) (j : String) :
    (∃ i r work, settlesShard tx = some (j, i) ∧ s.reservations[j]? = some r ∧
      (splitWork r.work r.shards)[i]? = some work ∧ i ∉ settledShards j H ∧
      settledShards j (H ++ [tx]) = settledShards j H ++ [i]) ∨
    ((∀ i, settlesShard tx ≠ some (j, i)) ∧ settledShards j (H ++ [tx]) = settledShards j H) := by
  by_cases hex : ∃ i, settlesShard tx = some (j, i)
  · obtain ⟨i, hi⟩ := hex
    obtain ⟨r, work, _, hr, hw, _⟩ := ha.shard hi
    exact Or.inl ⟨i, r, work, hi, hr, hw, h.unsettled ha hi, settledShards_snoc_of_settles H hi⟩
  · have hno : ∀ i, settlesShard tx ≠ some (j, i) := fun i hi => hex ⟨i, hi⟩
    exact Or.inr ⟨hno, settledShards_snoc_of_not H hno⟩

/-- the escrow of a job this transaction reserves -/
theorem CpuEscrow.exact_of_reserve (h : CpuEscrow c s H) (ha : Admitted c limit s tx) {j : String}
    {r : ReservationRecord} (hr : LedgerStore.jobRecord tx = some (j, r)) :
    j ∉ s.reservations ∧ settledShards j (H ++ [tx]) = [] ∧
      (record s tx).balances.entry (escrowAccount j) = unsettledCost r [] := by
  have hnew : "reserve:" ++ j ∉ s.claims := claimKey_of_jobRecord hr ▸ ha.fresh
  have hres : j ∉ s.reservations := fun hj => hnew (h.ledgered.booked.jobs j hj)
  have hnone : settledShards j H = [] := by
    rw [List.eq_nil_iff_forall_not_mem]
    intro i hi
    exact hres (h.reserved j i hi)
  have hno := settlesShard_of_jobRecord hr
  refine ⟨hres, ?_, ?_⟩
  · rw [settledShards_snoc_of_not H (by rw [hno]; simp), hnone]
  · have hcost : unsettledCost r [] = jobCostMcu r.work r.shards := by
      unfold unsettledCost
      rw [remaining_nil, jobCost_eq_sum (ha.shards_le hr)]
    obtain ⟨d, hd, hstep⟩ := ha.escrow_step j
    rw [hd, h.ledgered.idle j hnew, hcost, zero_add]
    cases hstep with
    | reserve r' hr' =>
      rw [hr] at hr'
      cases hr'
      rfl
    | reserveInference r' hr' =>
      obtain ⟨_, _, _, hnone'⟩ := flow_of_jobRecord hr
      rw [hnone'] at hr'
      cases hr'
    | shard i r' work hi hr' hw =>
      rw [hno] at hi
      cases hi
    | batch id b e i r' plan hb hr' hn => exact absurd (h.ledgered.booked.inference j (mem_of_get hr')) hnew
    | untouched hu => exact absurd hr (hu.not_job r)

/-- **One transaction keeps CPU escrow exact**, whatever its kind and whichever job it is about. -/
theorem CpuEscrow.record (h : CpuEscrow c s H) (ha : Admitted c limit s tx) :
    CpuEscrow c (record s tx) (H ++ [tx]) where
  ledgered := h.ledgered.record ha
  certified := by
    intro j r
    constructor
    · intro hr
      rcases reservation_record hr with hrec | ⟨hold, _⟩
      · exact ⟨tx, by simp, hrec⟩
      · obtain ⟨t, ht, hrec⟩ := (h.certified j r).1 hold
        exact ⟨t, List.mem_append_left _ ht, hrec⟩
    · rintro ⟨t, ht, hrec⟩
      rcases List.mem_append.1 ht with ht | ht
      · exact reservation_kept h.ledgered.booked ha.fresh ((h.certified j r).2 ⟨t, ht, hrec⟩)
      · rw [List.mem_singleton.1 ht] at hrec
        simp [record_reservations, hrec, LedgerStore.upsert]
  keys := by
    intro t ht j i hs
    rcases List.mem_append.1 ht with ht | ht
    · exact h.keys t ht j i hs
    · rw [List.mem_singleton.1 ht] at hs ⊢
      obtain ⟨_, _, _, _, _, _, hkey⟩ := ha.shard hs
      exact hkey
  reserved := by
    intro j i hi
    have hkept : ∀ r, s.reservations[j]? = some r → j ∈ (Books.record s tx).reservations := fun r hr =>
      mem_of_get (reservation_kept h.ledgered.booked ha.fresh hr)
    rcases h.settled_cases ha j with ⟨_, r, _, _, hr, _⟩ | ⟨_, heq⟩
    · exact hkept r hr
    · rw [heq] at hi
      obtain ⟨r, hr⟩ := Option.isSome_iff_exists.1 (Std.ExtTreeMap.mem_iff_isSome_getElem?.1 (h.reserved j i hi))
      exact hkept r hr
  once := by
    intro j
    rcases h.settled_cases ha j with ⟨i, _, _, _, _, _, hnew, heq⟩ | ⟨_, heq⟩
    · rw [heq, List.nodup_append]
      refine ⟨h.once j, by simp, ?_⟩
      intro a ha' b hb hab
      rw [List.mem_singleton.1 hb] at hab
      exact hnew (hab ▸ ha')
    · rw [heq]
      exact h.once j
  in_range := by
    intro j r hr i hi
    rcases reservation_record hr with hrec | ⟨hold, _⟩
    · rw [(h.exact_of_reserve ha hrec).2.1] at hi
      cases hi
    · rcases h.settled_cases ha j with ⟨i', r', work, _, hr', hw, _, heq⟩ | ⟨_, heq⟩
      · rw [hold] at hr'
        cases hr'
        rw [heq] at hi
        rcases List.mem_append.1 hi with hi | hi
        · exact h.in_range j r hold i hi
        · rw [List.mem_singleton.1 hi]
          exact (List.getElem?_eq_some_iff.1 hw).1
      · rw [heq] at hi
        exact h.in_range j r hold i hi
  exact := by
    intro j r hr
    rcases reservation_record hr with hrec | ⟨hold, hnot⟩
    · obtain ⟨_, hnil, hbal⟩ := h.exact_of_reserve ha hrec
      rw [hbal, hnil]
    · have hres := mem_of_get hold
      obtain ⟨d, hd, hstep⟩ := ha.escrow_step j
      rw [hd, h.exact j r hold]
      cases hstep with
      | reserve r' hr' => exact absurd hr' (hnot r')
      | reserveInference r' hr' =>
        exact absurd (claimKey_of_inferenceRecord hr' ▸ h.ledgered.booked.jobs j hres) ha.fresh
      | shard i r' work hi hr' hw =>
        rw [hold] at hr'
        cases hr'
        rw [settledShards_snoc_of_settles H hi]
        unfold unsettledCost
        rw [remaining_snoc _ hw (h.unsettled ha hi)]
        ring
      | batch id b e i r' plan hb hr' hn => exact absurd (mem_of_get hr') (h.ledgered.exclusive j hres)
      | untouched hu => rw [settledShards_snoc_of_not H hu.not_shard, add_zero]

/-! ## No settlement is short of escrow -/

/-- the shards of a reservation are priced above zero, so what is left covers every shard that is left -/
theorem CpuEscrow.covers (h : CpuEscrow c s H) {j : String} {r : ReservationRecord} (hr : s.reservations[j]? = some r)
    {i : ℕ} {work : WorkSpec} (hw : (splitWork r.work r.shards)[i]? = some work) (hi : i ∉ settledShards j H) :
    workCostMcu work ≤ s.balances.entry (escrowAccount j) := by
  rw [h.exact j r hr]
  refine price_le_remaining workCostMcu ?_ hw hi
  intro w _
  have := workCostMcu_pos w
  omega

/-- the rule of a CPU settlement looks up no reservation -/
theorem validateKind_of_shard {prev : String} {inf inf' : String → Option InferenceReservation} {set : ValidatorSet}
    {p : String × ℕ} (hs : settlesShard tx = some p) (h : validateKind c tx prev inf set = .ok ()) :
    validateKind c tx prev inf' set = .ok () := by
  unfold settlesShard at hs
  unfold validateKind at h ⊢
  cases he : tx.evidence <;> cases hk : tx.kind <;> rw [he] at hs <;> simp_all

/-- **A settlement that passes its own rule is valid**, whatever else the batch before it did. -/
theorem CpuEscrow.validAt (h : CpuEscrow c s H) {prev : String} {set : ValidatorSet}
    {inf : String → Option InferenceReservation} (hfresh : claimKey tx ∉ s.claims) {j : String} {i : ℕ}
    (hs : settlesShard tx = some (j, i))
    (hm : validateSettlementMembership c (fun j => s.reservations[j]?) inf tx = .ok ())
    (hk : validateKind c tx prev inf set = .ok ()) : ValidAt c prev set s tx := by
  obtain ⟨_, hrule⟩ := validateKind_ok hk
  obtain ⟨r, work, dst, hr, hw, hf, hkey⟩ := shard_of_rule hrule hm hs
  have hnew : i ∉ settledShards j H := by
    intro hin
    obtain ⟨t, ht, hts⟩ := mem_settledShards.1 hin
    exact hfresh ((h.ledgered.claims _).2 ⟨t, ht, (h.keys t ht j i hts).trans hkey.symm⟩)
  have hpost : validatePostings "insufficient balance for" tx s.balances.entry set = .ok () :=
    postings_of_covered (kindRule_flow hrule hf) (by simp) (h.covers hr hw hnew)
  have hkind : validateKind c tx prev (reservedIn s) set = .ok () := validateKind_of_shard hs hk
  unfold settlesShard at hs
  unfold ValidAt validateTransaction
  cases he : tx.evidence with
  | providerReward e => simp [hpost, hkind]
  | jobRefund e => simp [hpost, hkind]
  | _ => simp [he] at hs

/-! ## Nobody else touches it -/

/-- the job a transaction is about -/
def jobOf : TransactionEvidence → Option String
  | .jobReserve e => some e.jobId
  | .communityReserve e => some e.jobId
  | .providerReward e => some e.jobId
  | .jobRefund e => some e.jobId
  | .inferenceReserve e => some e.jobId
  | .inferenceReceipt e => some e.jobId
  | .inferenceReward e => some e.jobId
  | .inferenceDispute e => some e.jobId
  | .inferenceExpiry e => some e.jobId
  | .inferenceRefund e => some e.jobId
  | .membershipChange _ => none

/-- a posting on the escrow of a job belongs to a transaction about that job -/
theorem Admitted.escrow_posting (ha : Admitted c limit s tx) {j : String} {p : Posting} (hp : p ∈ tx.postings)
    (hacc : p.accountId = escrowAccount j) : jobOf tx.evidence = some j := by
  obtain ⟨prev, set, _, _, hv⟩ := ha.valid
  rcases flow_of_valid hv with ⟨_, hnil⟩ | ⟨f, hf, hflows, _⟩
  · rw [hnil] at hp
    cases hp
  · have hside : f.src = .escrow j ∨ f.dst = .escrow j := by
      have hname := hflows.posting_account hp
      rw [hacc] at hname
      rcases hname with hn | hn
      · exact Or.inl ((Account.name_inj (b := .escrow j) hflows.src_proper trivial).1 hn.symm)
      · exact Or.inr ((Account.name_inj (b := .escrow j) hflows.dst_proper trivial).1 hn.symm)
    have hjob : (∃ r, LedgerStore.jobRecord tx = some (j, r)) ∨ (∃ r, LedgerStore.inferenceRecord tx = some (j, r)) ∨
        (∃ i, settlesShard tx = some (j, i)) ∨ ∃ id b e, takesBatch tx = some (j, id, b, e) := by
      rcases hside with hs | hd
      · rcases escrow_out hf hs with hi | hb
        · exact Or.inr (Or.inr (Or.inl hi))
        · exact Or.inr (Or.inr (Or.inr hb))
      · rcases escrow_in hf hd with ⟨r, hr, _⟩ | ⟨r, hr, _⟩
        · exact Or.inl ⟨r, hr⟩
        · exact Or.inr (Or.inl ⟨r, hr⟩)
    unfold LedgerStore.jobRecord LedgerStore.inferenceRecord settlesShard takesBatch at hjob
    unfold jobOf
    cases he : tx.evidence <;> rw [he] at hjob <;> simp_all

end

/-! ## Every reachable store -/

section

variable {c : Crypto} {genesis : ValidatorSet} {st : LedgerStore}

theorem Chain.cpuEscrow {Q : LedgerStore → QuorumCertificate → Prop} (h : Chain c genesis Q st)
    (hg : validateValidatorSet genesis = .ok ()) :
    CpuEscrow c (view st) (history st) ∧ ∀ txs, proposeChecks c st (sittingSet genesis st) txs = .ok () →
      CpuEscrow c (recordAll (view st) txs) (history st ++ txs) :=
  h.books hg (CpuEscrow c) (cpuEscrow_empty c) fun _ _ _ hs ha => hs.record ha

/-- a settlement that passes every check but the escrow's own goes through, alone or behind any accepted batch -/
theorem propose_settlement (hg : validateValidatorSet genesis = .ok ()) (h : Reachable c genesis st)
    {pre : List LedgerTransaction} {tx : LedgerTransaction} {j : String} {i : ℕ} (hs : settlesShard tx = some (j, i))
    (hpre : proposeChecks c st (sittingSet genesis st) pre = .ok ()) (hclaim : ¬ st.hasClaim (claimKey tx))
    (hkeys : claimKey tx ∉ pre.map claimKey)
    (hmem : validateSettlementMembership c st.reservation st.inferenceReservation tx = .ok ())
    (hkind : validateKind c tx st.headHash st.inferenceReservation (sittingSet genesis st) = .ok ()) :
    proposeChecks c st (sittingSet genesis st) (pre ++ [tx]) = .ok () := by
  obtain ⟨hnow, hnext⟩ := h.cpuEscrow hg
  have hafter := hnext pre hpre
  have hfresh := h.fresh_behind hg hpre hclaim hkeys
  have hmem' : validateSettlementMembership c (fun j => (recordAll (view st) pre).reservations[j]?)
      st.inferenceReservation tx = .ok () := by
    refine member_mono (fun j r hr => ?_) (fun _ _ hr => hr) hmem
    rw [← view_reservation] at hr
    obtain ⟨t, ht, hrec⟩ := (hnow.certified j r).1 hr
    exact (hafter.certified j r).2 ⟨t, List.mem_append_left _ ht, hrec⟩
  exact h.propose_snoc hg hpre hclaim hkeys hmem (hafter.validAt hfresh hs hmem' hkind)

/-- **CPU escrow is exact.** In every reachable store, for every certified CPU job: each shard is settled at most once,
whether by reward or by refund; the escrow holds exactly what the unsettled shards cost; a settlement that passes every
other check is never short of escrow, neither when it is proposed nor when it is applied; and nothing about another job
posts to this escrow. -/
theorem cpu_escrow_exact (hg : validateValidatorSet genesis = .ok ()) (h : Reachable c genesis st)
    {reserve : LedgerTransaction} (hin : reserve ∈ history st) {j : String} {r : ReservationRecord}
    (hr : LedgerStore.jobRecord reserve = some (j, r)) :
    ((settledShards j (history st)).Nodup ∧
      ∀ i ∈ settledShards j (history st), i < (splitWork r.work r.shards).length) ∧
    st.balance (escrowAccount j) = unsettledCost r (settledShards j (history st)) ∧
    (∀ pre tx i, settlesShard tx = some (j, i) → proposeChecks c st (sittingSet genesis st) pre = .ok () →
      ¬ st.hasClaim (claimKey tx) → claimKey tx ∉ pre.map claimKey →
      validateSettlementMembership c st.reservation st.inferenceReservation tx = .ok () →
      validateKind c tx st.headHash st.inferenceReservation (sittingSet genesis st) = .ok () →
      proposeChecks c st (sittingSet genesis st) (pre ++ [tx]) = .ok () ∧
        ∃ balances, LedgerStore.applyBalances st.balances (pre ++ [tx]) = .ok balances) ∧
    ∀ txs, proposeChecks c st (sittingSet genesis st) txs = .ok () → ∀ tx ∈ txs, ∀ p ∈ tx.postings,
      p.accountId = escrowAccount j → jobOf tx.evidence = some j := by
  have hnow := (h.cpuEscrow hg).1
  have hres := (hnow.certified j r).2 ⟨reserve, hin, hr⟩
  refine ⟨⟨hnow.once j, hnow.in_range j r hres⟩, hnow.exact j r hres, ?_, ?_⟩
  · intro pre tx i hs hpre hclaim hkeys hmem hkind
    have hprop := propose_settlement hg h hs hpre hclaim hkeys hmem hkind
    refine ⟨hprop, ?_⟩
    simp only [proposeChecks, bind_ok, exists_ok_unit_and] at hprop
    exact h.balance_pass hg hprop.2
  · intro txs hp tx htx p hpost hacc
    obtain ⟨_, _, _, ha⟩ := (h.propose hg hp).2.of_mem htx
    exact ha.escrow_posting hpost hacc

end

/-- a community job whose only shard was paid for: settled once, and its escrow is empty -/
theorem cpu_escrow_exact_after_reward :
    ∃ st, Reachable Sample.crypto (Sample.committee 1) st ∧ Sample.smallMint ∈ history st ∧
      settledShards "seed" (history st) = [0] ∧ st.balance (escrowAccount "seed") = 0 := by
  obtain ⟨st, hr, hhist, _⟩ := Sample.small_run
  have hin : Sample.smallMint ∈ history st := by
    rw [hhist]
    simp [Sample.smallHistory]
  have hset : settledShards "seed" (history st) = [0] := by
    rw [hhist]
    decide +kernel
  have hexact := (cpu_escrow_exact (by decide +kernel) hr hin (j := "seed")
    (r := ⟨Sample.smallWork, 1, true, none, 100⟩) rfl).2.1
  rw [hset] at hexact
  exact ⟨st, hr, hin, hset, hexact.trans (by decide +kernel)⟩

end Hocmesh.Books
