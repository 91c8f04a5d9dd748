/-
Live acceptance against the participant audit.

The audit replays a chain from genesis with its own copy of every rule. Entry by entry the replay stays in step with the
books (`replay_transaction`): what a validator checked before signing implies what the replay checks, with three
exceptions that `Auditable` names. A receipt may arrive after the settlement window, a community mint behind a membership
change in the same entry is sponsored under the set before the change, and lifetime totals may outgrow an SQLite integer;
the live path looks at none of the three.
-/
import Hocmesh.Books.Batches
import Hocmesh.Books.Certify

namespace Hocmesh.Books

open Hocmesh.Base Hocmesh.Protocol Hocmesh.Compute Hocmesh.Ledger Hocmesh.Validator

/-! ## The historical rule of a live transaction -/

/-- the rules the replay enforces and the live path does not, for one transaction against the books and the set in force
when it is replayed -/
structure Auditable (c : Crypto) (active : ValidatorSet) (s : LedgerState) (tx : LedgerTransaction) : Prop where
  on_time : ∀ e r, tx.evidence = .inferenceReceipt e → s.inference[e.jobId]? = some r →
    tx.createdAt ≤ windowEnd r.reservedAt
  sponsored : ∀ e, tx.evidence = .communityReserve e → active.threshold ≤ goodSponsors c e active

section

variable {c : Crypto} {limit : ℤ} {s : LedgerState} {tx : LedgerTransaction} {active : ValidatorSet}
  {H : List LedgerTransaction}

/-- a named batch of a certified plan is not empty -/
theorem BatchBooks.batch_nonempty (h : BatchBooks c limit s H) {j id : String} {b e i : ℕ} {r : InferenceRecord}
    {plan : PricedBatch} (hr : s.inference[j]? = some r) (hn : NamesBatch c j r.batches id b e i plan) : b < e := by
  have := ((h.planned j r hr).tiled.bounds plan (List.mem_of_getElem? hn.at_index)).2
  rw [hn.starts, hn.ends] at this
  exact this

theorem job_ne_node {j n : String} (hj : ∃ x, j = "ai_" ++ x) (hn : IsNodeId n) : j ≠ n := by
  obtain ⟨x, rfl⟩ := hj
  obtain ⟨y, rfl⟩ := hn
  intro h
  have := congrArg String.toList h
  simp at this

/-- **The live rule implies the historical one.** -/
theorem historical_of_rule (hb : BatchBooks c limit s H) {prev : String} {set : ValidatorSet}
    (hk : tx.kind = kindOf tx.evidence) (h : kindRule c tx prev (reservedIn s) set = .ok ())
    (ha : Auditable c active s tx) (hmember : ∀ e, tx.evidence ≠ .membershipChange e) :
    historicalKind c tx active = .ok () := by
  unfold kindRule at h
  unfold historicalKind
  cases he : tx.evidence with
  | jobReserve e =>
    rw [he] at hk
    simp only [he, hk, kindOf, historicalReserve, validateReserve, bind_ok, bailIf_ok, exists_const,
      exists_ok_unit_and] at h ⊢
    exact ⟨h.2.1, h.2.2.2.2⟩
  | communityReserve e =>
    have hsp := ha.sponsored e he
    rw [he] at hk
    simp only [he, hk, kindOf, validateCommunityReserve, bind_ok, bailIf_ok, exists_const, exists_ok_unit_and,
      not_lt] at h ⊢
    exact ⟨h.1, h.2.1, h.2.2.1, h.2.2.2.1, hsp⟩
  | providerReward e =>
    rw [he] at hk
    simp only [he, hk, kindOf, historicalReward, validateReward, bind_ok, bailIf_ok, exists_const, exists_ok_unit_and,
      not_not, not_or] at h ⊢
    obtain ⟨_, _, _, hr, hid, hm⟩ := h
    exact ⟨⟨hr, hid⟩, hm⟩
  | jobRefund e =>
    rw [he] at hk
    simp only [he, hk, kindOf, historicalRefund, validateRefund, bind_ok, bailIf_ok, exists_const, exists_ok_unit_and,
      not_not, not_or] at h ⊢
    obtain ⟨_, hid, hr, payee, hp, hm⟩ := h
    exact ⟨⟨hr, hid⟩, payee, hp, hm⟩
  | inferenceReserve e =>
    rw [he] at hk
    simp only [he, hk, kindOf, historicalInferenceReserve, validateInferenceReserve, bind_ok, bailIf_ok, exists_const,
      exists_ok_unit_and, not_not] at h ⊢
    obtain ⟨hid, hpl, _, hpart, hmax, hm⟩ := h
    exact ⟨hid, hpl, hmax, hpart, hm⟩
  | inferenceReward e =>
    rw [he] at hk
    simp only [he, hk, kindOf, historicalInferenceReward, validateInferenceReward, bind_ok, bailIf_ok, exists_const,
      exists_ok_unit_and, not_not, Prod.exists, orBail_ok, reservedBatch_ok, reservedIn, Option.map_eq_some_iff,
      requesterVerdict_ok] at h ⊢
    obtain ⟨hrep, hpos, _, ⟨r, hr, rfl⟩, plan, price, ⟨⟨i, hn⟩, _⟩, _, _, _, ⟨_, hverdict⟩, hm⟩ := h
    have hne := hb.batch_nonempty hr hn
    have hnode := nodeId_of_verified c hrep
    exact ⟨job_ne_node (hb.planned _ r hr).job hnode, by omega, hpos, hrep, hverdict, hm⟩
  | inferenceRefund e =>
    rw [he] at hk
    simp only [he, hk, kindOf, historicalInferenceRefund, validateInferenceRefund, bind_ok, bailIf_ok, exists_const,
      exists_ok_unit_and, not_not, not_or, Prod.exists, orBail_ok, reservedBatch_ok, reservedIn,
      Option.map_eq_some_iff] at h ⊢
    obtain ⟨hsig, hpos, _, ⟨r, hr, rfl⟩, plan, price, ⟨⟨i, hn⟩, _⟩, _, _, hm⟩ := h
    have hne := hb.batch_nonempty hr hn
    exact ⟨⟨by omega, hpos⟩, hsig, hm⟩
  | inferenceReceipt e =>
    rw [he] at hk
    simp only [he, hk, kindOf, historicalInferenceReceipt, validateInferenceReceipt, bind_ok, bailIf_ok, exists_const,
      exists_ok_unit_and, not_not, Prod.exists, orBail_ok, reservedBatch_ok, reservedIn,
      Option.map_eq_some_iff] at h ⊢
    obtain ⟨hsig, _, ⟨r, hr, rfl⟩, _, plan, price, ⟨⟨i, hn⟩, rfl⟩, hp, hm⟩ := h
    have hne := hb.batch_nonempty hr hn
    have hpos := batchPrice_pos (LedgerStore.InferenceRecord.under r e.jobId).billing e.batchStart e.batchEnd
    exact ⟨by omega, by omega, hsig, hp ▸ hm⟩
  | inferenceDispute e =>
    rw [he] at hk
    simp only [he, hk, kindOf, historicalInferenceDispute, validateInferenceDispute, bind_ok, bailIf_ok, exists_const,
      exists_ok_unit_and, not_not, Prod.exists, orBail_ok, reservedBatch_ok, reservedIn, Option.map_eq_some_iff,
      requesterVerdict_ok] at h ⊢
    obtain ⟨_, ⟨r, hr, rfl⟩, _, plan, price, ⟨⟨i, hn⟩, rfl⟩, hp, ⟨_, hverdict⟩, hreason, hm⟩ := h
    have hne := hb.batch_nonempty hr hn
    have hpos := batchPrice_pos (LedgerStore.InferenceRecord.under r e.jobId).billing e.batchStart e.batchEnd
    exact ⟨by omega, by omega, hreason, hverdict, hp ▸ hm⟩
  | inferenceExpiry e =>
    rw [he] at hk
    simp only [he, hk, kindOf, historicalInferenceExpiry, validateInferenceExpiry, bind_ok, bailIf_ok, exists_const,
      exists_ok_unit_and, not_not, Prod.exists, orBail_ok, reservedBatch_ok] at h ⊢
    obtain ⟨hexp, r, _, _, plan, price, ⟨_, rfl⟩, hp, hm⟩ := h
    exact ⟨hexp, hp ▸ hm⟩
  | membershipChange e => exact absurd he (hmember e)

/-! ## What the replay binds -/

/-- the set in force after one transaction -/
def setAfter (c : Crypto) (set : ValidatorSet) (tx : LedgerTransaction) : ValidatorSet :=
  match tx.evidence with
  | .membershipChange e => match verifyMembershipChange c set e with
    | .ok next => next
    | .error _ => set
  | _ => set

/-- the replay's books, with the reservation this transaction makes -/
def reserveIn (s : LedgerState) (tx : LedgerTransaction) : LedgerState :=
  { s with reservations := LedgerStore.upsert s.reservations (LedgerStore.jobRecord tx) id
           inference := LedgerStore.upsert s.inference (LedgerStore.inferenceRecord tx) id }

theorem reserveIn_of_settlement (s : LedgerState) (hj : LedgerStore.jobRecord tx = none)
    (hi : LedgerStore.inferenceRecord tx = none) : reserveIn s tx = s := by
  unfold reserveIn
  rw [hj, hi]
  rfl

/-- **The propose checks imply the replay's bindings.** The replay's reservations are the books'; the clock of a receipt
is the one thing that was not checked. -/
theorem bind_of_admitted (hled : Booked s) (ha : Admitted c limit s tx) (haud : Auditable c active s tx) {r : Replay}
    (hres : r.state.reservations = s.reservations) (hinf : r.state.inference = s.inference) (hact : r.active = active)
    (hmember : ∀ e, tx.evidence = .membershipChange e → ∃ next, verifyMembershipChange c active e = .ok next) :
    bindEvidence c r tx = .ok { r with state := reserveIn r.state tx, active := setAfter c r.active tx } := by
  obtain ⟨prev, set, _, _, hrule⟩ := ha.rule
  have hm := ha.member
  have hfresh := ha.fresh
  unfold bindEvidence
  cases he : tx.evidence with
  | jobReserve e =>
    have hnew : e.jobId ∉ s.reservations := fun hin => hfresh (by
      have := hled.jobs _ hin
      simpa only [claimKey, he] using this)
    simp only [hres, hnew, bailIf, if_false, reserveIn, setAfter, he, LedgerStore.inferenceRecord, LedgerStore.upsert]
    rfl
  | communityReserve e =>
    have hnew : e.jobId ∉ s.reservations := fun hin => hfresh (by
      have := hled.jobs _ hin
      simpa only [claimKey, he] using this)
    simp only [hres, hnew, bailIf, if_false, reserveIn, setAfter, he, LedgerStore.inferenceRecord, LedgerStore.upsert]
    rfl
  | inferenceReserve e =>
    have hnew : e.jobId ∉ s.inference := fun hin => hfresh (by
      have := hled.inference _ hin
      simpa only [claimKey, he] using this)
    simp only [hinf, hnew, bailIf, if_false, reserveIn, setAfter, he, LedgerStore.jobRecord, LedgerStore.upsert]
    rfl
  | membershipChange e =>
    obtain ⟨next, hnext⟩ := hmember e he
    rw [reserveIn_of_settlement _ (by simp [LedgerStore.jobRecord, he]) (by simp [LedgerStore.inferenceRecord, he])]
    simp only [setAfter, he, hact, hnext, bind_ok, pure_ok]
    exact ⟨next, rfl, rfl⟩
  | providerReward e =>
    rw [reserveIn_of_settlement _ (by simp [LedgerStore.jobRecord, he]) (by simp [LedgerStore.inferenceRecord, he])]
    simp only [validateSettlementMembership, shardMembership, he, bind_ok, bailIf_ok, exists_const, orBail_ok, not_not,
      Bool.false_eq_true, if_false, false_and, true_and, not_lt, gt_iff_lt] at hm
    simp only [setAfter, he, bindReward, hres, bind_ok, bailIf_ok, exists_const, orBail_ok,
      not_not, not_lt, gt_iff_lt, pure_ok]
    obtain ⟨rec, h1, h2, h3, w, h4, h5, _, h6⟩ := hm
    exact ⟨⟨rec, h1, h2, h3, w, h4, h5, h6⟩, trivial⟩
  | jobRefund e =>
    rw [reserveIn_of_settlement _ (by simp [LedgerStore.jobRecord, he]) (by simp [LedgerStore.inferenceRecord, he])]
    simp only [validateSettlementMembership, shardMembership, he, bind_ok, bailIf_ok, exists_const, orBail_ok, not_not,
      if_true, true_and, not_le] at hm
    simp only [setAfter, he, bindRefund, hres, bind_ok, bailIf_ok, exists_const, orBail_ok,
      not_not, not_le, pure_ok]
    obtain ⟨rec, h1, h2, h3, w, h4, h5, h6, _⟩ := hm
    exact ⟨⟨rec, h1, h2, h3, w, h4, h5, h6⟩, trivial⟩
  | inferenceReward e =>
    rw [reserveIn_of_settlement _ (by simp [LedgerStore.jobRecord, he]) (by simp [LedgerStore.inferenceRecord, he])]
    simp only [validateSettlementMembership, validateInferenceMembership, inferenceMembership, he, bind_ok, bailIf_ok,
      exists_const, orBail_ok, not_not, not_or, Bool.false_eq_true, if_false, false_and, true_and, not_lt, gt_iff_lt,
      reservedIn, Option.map_eq_some_iff] at hm
    simp only [setAfter, he, bindInferenceReward, hinf, bind_ok, bailIf_ok, exists_const, orBail_ok,
      not_not, not_or, not_lt, gt_iff_lt, pure_ok]
    obtain ⟨_, ⟨rec, h1, rfl⟩, i, h2, plan, h3, h4, ⟨h5, h6⟩, h7, _, h8⟩ := hm
    exact ⟨⟨rec, h1, i, h2, plan, h3, h4, h5, h6, h7, h8⟩, trivial⟩
  | inferenceRefund e =>
    rw [reserveIn_of_settlement _ (by simp [LedgerStore.jobRecord, he]) (by simp [LedgerStore.inferenceRecord, he])]
    simp only [validateSettlementMembership, validateInferenceMembership, inferenceMembership, he, bind_ok, bailIf_ok,
      exists_const, orBail_ok, not_not, not_or, if_true, true_and, not_le, reservedIn, Option.map_eq_some_iff] at hm
    simp only [setAfter, he, bindInferenceRefund, hinf, bind_ok, bailIf_ok, exists_const, orBail_ok,
      not_not, not_or, not_le, pure_ok]
    obtain ⟨_, ⟨rec, h1, rfl⟩, i, h2, plan, h3, h4, h5, h6, h7, _⟩ := hm
    exact ⟨⟨rec, h1, i, h2, plan, h3, h4, h5, h6, h7⟩, trivial⟩
  | inferenceReceipt e =>
    rw [reserveIn_of_settlement _ (by simp [LedgerStore.jobRecord, he]) (by simp [LedgerStore.inferenceRecord, he])]
    simp only [he, kindRule, validateInferenceReceipt, bind_ok, bailIf_ok, exists_const, exists_ok_unit_and, not_not,
      Prod.exists, orBail_ok, reservedBatch_ok, reservedIn, Option.map_eq_some_iff] at hrule
    simp only [setAfter, he, bindInferenceReceipt, hinf, bind_ok, bailIf_ok, exists_const,
      orBail_ok, not_not, not_lt, gt_iff_lt, pure_ok]
    obtain ⟨_, _, ⟨rec, h1, rfl⟩, h2, plan, price, ⟨⟨i, hn⟩, h3⟩, h4, _⟩ := hrule
    exact ⟨⟨rec, h1, h2, ⟨plan, List.mem_of_getElem? hn.at_index, hn.starts, hn.ends⟩, h3.trans h4.symm,
      haud.on_time e rec he h1⟩, trivial⟩
  | inferenceDispute e =>
    rw [reserveIn_of_settlement _ (by simp [LedgerStore.jobRecord, he]) (by simp [LedgerStore.inferenceRecord, he])]
    simp only [he, kindRule, validateInferenceDispute, bind_ok, bailIf_ok, exists_const, exists_ok_unit_and, not_not,
      Prod.exists, orBail_ok, reservedBatch_ok, reservedIn, Option.map_eq_some_iff] at hrule
    simp only [setAfter, he, bindInferenceDispute, hinf, bind_ok, bailIf_ok, exists_const,
      orBail_ok, not_not, pure_ok]
    obtain ⟨_, ⟨rec, h1, rfl⟩, h2, plan, price, ⟨_, h3⟩, h4, _⟩ := hrule
    exact ⟨⟨rec, h1, h2, h3.trans h4.symm⟩, trivial⟩
  | inferenceExpiry e =>
    rw [reserveIn_of_settlement _ (by simp [LedgerStore.jobRecord, he]) (by simp [LedgerStore.inferenceRecord, he])]
    simp only [he, kindRule, validateInferenceExpiry, bind_ok, bailIf_ok, exists_const, exists_ok_unit_and, not_not,
      Prod.exists, orBail_ok, reservedBatch_ok, reservedIn, Option.map_eq_some_iff] at hrule
    simp only [setAfter, he, bindInferenceExpiry, hinf, bind_ok, bailIf_ok, exists_const,
      orBail_ok, not_not, pure_ok]
    obtain ⟨_, _, ⟨rec, h1, rfl⟩, h2, plan, price, ⟨_, h3⟩, h4, _⟩ := hrule
    exact ⟨⟨rec, h1, h2, h3.trans h4.symm⟩, trivial⟩

/-! ## Lifetime totals -/

def wrapPair (p : ℤ × ℤ) : ℤ × ℤ := (wrap64 p.1, wrap64 p.2)

/-- books whose lifetime totals have been kept in `i64` -/
def wrapped (s : LedgerState) : LedgerState := { s with activity := s.activity.map fun _ p => wrapPair p }

theorem wrapPair_addActivity (p : ℤ × ℤ) (delta : ℤ) :
    wrapPair (addActivity (wrapPair p) delta) = wrapPair (addActivity p delta) := by
  unfold addActivity wrapPair
  split_ifs
  · simp only [wrap64_wrap64_add, wrap64_wrap64]
  · simp only [sub_eq_add_neg, wrap64_wrap64_add, wrap64_wrap64]

theorem map_postActivity (t : Table String (ℤ × ℤ)) (a : String) (delta : ℤ) :
    (t.map fun _ p => wrapPair p).insert a (wrapPair (addActivity ((t.map fun _ p => wrapPair p)[a]?.getD (0, 0)) delta)) =
      (postActivity t a delta).map fun _ p => wrapPair p := by
  unfold postActivity
  rw [Table.map_insert, Std.ExtTreeMap.getElem?_map]
  cases t[a]? with
  | none => rfl
  | some p => simp only [Option.map_some, Option.getD_some, wrapPair_addActivity]

/-- totals that fit are their own wrap -/
theorem wrapped_of_fits {s : LedgerState} (h : LedgerStore.activityFits s.activity) : wrapped s = s := by
  apply LedgerState.ext
  · rfl
  · rfl
  · rfl
  · rfl
  · apply Std.ExtTreeMap.ext_getElem?
    intro a
    simp only [wrapped, Std.ExtTreeMap.getElem?_map]
    cases hp : s.activity[a]? with
    | none => rfl
    | some p =>
      have hfit := h (a, p) (Std.ExtTreeMap.mem_toList_iff_getElem?_eq_some.2 hp)
      simp only [Option.map_some, wrapPair, wrap64_of_fits hfit.1, wrap64_of_fits hfit.2]

/-! ## One posting, one transaction -/

/-- the replay takes every posting `apply` takes -/
theorem replayPosting_of_applied {t : LedgerState} {p : Posting} {balances : Table String ℤ}
    (h : LedgerStore.applyPosting t.balances p = .ok balances) :
    replayPosting (wrapped t) p = .ok (wrapped { t with balances := balances
                                                        activity := postActivity t.activity p.accountId p.deltaMcu }) := by
  simp only [LedgerStore.applyPosting, bind_ok, orBail_ok, bailIf_ok, exists_const, pure_ok] at h
  obtain ⟨next, hnext, huser, hescrow, rfl⟩ := h
  simp only [replayPosting, bind_ok, orBail_ok, bailIf_ok, exists_const, pure_ok]
  refine ⟨next, hnext, ?_, ?_⟩
  · rintro ⟨hneg, hne⟩
    by_cases hesc : p.accountId.startsWith "hocmesh:escrow:" = true
    · exact hescrow ⟨hneg, hesc⟩
    · exact huser ⟨hneg, hne, by simpa using hesc⟩
  · unfold wrapped
    rw [← map_postActivity]
    rfl

theorem replayPostings_of_applied (ps : List Posting) {t : LedgerState} {balances : Table String ℤ}
    (h : ps.foldlM LedgerStore.applyPosting t.balances = .ok balances) :
    ps.foldlM replayPosting (wrapped t) = .ok (wrapped (ps.foldl post t)) := by
  induction ps generalizing t with
  | nil => rfl
  | cons p ps ih =>
    simp only [List.foldlM_cons, bind_ok] at h ⊢
    obtain ⟨b1, h1, h2⟩ := h
    have hb1 := applyPosting_eq h1
    subst hb1
    exact ⟨_, replayPosting_of_applied h1, ih h2⟩

/-- **One transaction, replayed.** The replay takes what the books recorded and stays in step with them. -/
theorem replay_transaction (hb : BatchBooks c limit s H) (hcons : Conserved limit s) (ha : Admitted c limit s tx)
    (hlim : active.communityIssuanceLimitMcu = limit) (haud : Auditable c active s tx) {prev : String}
    {sigs : List ValidatorSignature} (hev : verifyHistoricalEvidence c tx prev sigs = .ok ())
    (hmember : ∀ e, tx.evidence = .membershipChange e → ∃ next, verifyMembershipChange c active e = .ok next)
    (seq : ℕ) (head : String) :
    replayTransaction c prev sigs ⟨seq, head, wrapped s, active⟩ tx =
      .ok ⟨seq, head, wrapped (record s tx), setAfter c active tx⟩ := by
  obtain ⟨lprev, set, hset, hsl, hv⟩ := ha.valid
  obtain ⟨hk, hrule, hpost⟩ := validateTransaction_ok hv
  have hhist : validateHistoricalTransaction c tx prev sigs s.balances.entry active = .ok () := by
    simp only [validateHistoricalTransaction, bind_ok, exists_ok_unit_and]
    refine ⟨hev, ?_⟩
    cases he : tx.evidence with
    | membershipChange e => simpa only [kindRule, he] using hrule
    | _ =>
      have hkind := historical_of_rule hb hk hrule haud (by simp [he])
      have hpost' : validatePostings "insufficient historical balance for" tx s.balances.entry active = .ok () :=
        validatePostings_congr (hlim.trans hsl.symm) (hpost (by simp [flow, he]))
      simp only [bind_ok, exists_ok_unit_and]
      exact ⟨hpost', hkind⟩
  have hbind := bind_of_admitted (r := ⟨seq, head, { wrapped s with claims := s.claims.insert (claimKey tx) () }, active⟩)
    hb.ledgered.booked ha haud rfl rfl rfl hmember
  have hfits : FitsI64 limit := hsl ▸ set.limit_fits
  have hpostings : tx.postings.foldlM LedgerStore.applyPosting s.balances = .ok (record s tx).balances := by
    rcases flow_of_valid hv with ⟨_, hp⟩ | ⟨f, _, hf, _⟩
    · rw [hp, balances_record_of_none hp]
      rfl
    · exact applyPostings_ok hfits hf (admitted_conserved hcons ha)
  simp only [replayTransaction, bind_ok, bailIf_ok, exists_const, exists_ok_unit_and, pure_ok]
  refine ⟨ha.fresh, hhist, _, hbind, _, ?_, rfl⟩
  exact replayPostings_of_applied tx.postings (t := { s with
    claims := s.claims.insert (claimKey tx) ()
    reservations := LedgerStore.upsert s.reservations (LedgerStore.jobRecord tx) id
    inference := LedgerStore.upsert s.inference (LedgerStore.inferenceRecord tx) id }) hpostings

/-! ## One entry, one chain -/

/-- the books and the set in force, one transaction on -/
def auditStep (c : Crypto) (p : LedgerState × ValidatorSet) (tx : LedgerTransaction) : LedgerState × ValidatorSet :=
  (record p.1 tx, setAfter c p.2 tx)

/-- one pass of the evidence loop checks the evidence and moves to the set in force afterwards -/
theorem evidenceStep_ok {prev : String} {sigs : List ValidatorSignature} {set next : ValidatorSet}
    (h : LedgerStore.evidenceStep c prev sigs set tx = .ok next) :
    verifyHistoricalEvidence c tx prev sigs = .ok () ∧ next = setAfter c set tx ∧
      ∀ e, tx.evidence = .membershipChange e → ∃ next, verifyMembershipChange c set e = .ok next := by
  simp only [LedgerStore.evidenceStep, bind_ok, exists_ok_unit_and] at h
  obtain ⟨hev, h⟩ := h
  refine ⟨hev, ?_⟩
  unfold setAfter
  cases he : tx.evidence with
  | membershipChange e =>
    simp only [he] at h
    refine ⟨by simp only [h], ?_⟩
    rintro e' heq
    cases heq
    exact ⟨next, h⟩
  | _ =>
    simp only [he, pure_ok] at h
    exact ⟨h.symm, by simp⟩

/-- **One entry, replayed.** -/
theorem replay_entry {genesis : ValidatorSet} (hg : validateValidatorSet genesis = .ok ()) {prev : String}
    {sigs : List ValidatorSignature} (seq : ℕ) (head : String) (txs : List LedgerTransaction) {next : ValidatorSet}
    (hb : BatchBooks c genesis.communityIssuanceLimitMcu s H) (hcons : Conserved genesis.communityIssuanceLimitMcu s)
    (hset : SetChain c genesis active)
    (hadm : Along record (Admitted c genesis.communityIssuanceLimitMcu) s txs)
    (haud : Along (auditStep c) (fun p tx => Auditable c p.2 p.1 tx) (s, active) txs)
    (hev : txs.foldlM (LedgerStore.evidenceStep c prev sigs) active = .ok next) :
    txs.foldlM (replayTransaction c prev sigs) ⟨seq, head, wrapped s, active⟩ =
      .ok ⟨seq, head, wrapped (recordAll s txs), next⟩ := by
  induction txs generalizing s active H with
  | nil =>
    simp only [List.foldlM_nil, pure_ok] at hev
    subst hev
    rfl
  | cons tx txs ih =>
    obtain ⟨ha, hadm⟩ := hadm
    obtain ⟨haud, hauds⟩ := haud
    simp only [List.foldlM_cons, bind_ok] at hev ⊢
    obtain ⟨set1, h1, h2⟩ := hev
    have hset1 : SetChain c genesis set1 :=
      (evidence_setChain [tx] (by simp only [List.foldlM_cons, List.foldlM_nil, bind_ok]; exact ⟨set1, h1, rfl⟩) hset).1
    obtain ⟨hhist, rfl, hmember⟩ := evidenceStep_ok h1
    exact ⟨_, replay_transaction hb hcons ha (hset.keeps hg).2 haud hhist hmember seq head,
      ih (hb.record ha) (admitted_conserved hcons ha) hset1 hadm hauds h2⟩

end

section

variable {c : Crypto} {genesis : ValidatorSet} {st : LedgerStore}

/-- the entries an audit will take back: every receipt inside its job's settlement window, every community mint sponsored
under the set in force where it stands in the entry, and no lifetime total beyond an SQLite integer -/
def AuditableEntry (c : Crypto) (genesis : ValidatorSet) (st : LedgerStore) (cert : QuorumCertificate) : Prop :=
  Along (auditStep c) (fun p tx => Auditable c p.2 p.1 tx) (view st, sittingSet genesis st) cert.entry.transactions ∧
    LedgerStore.activityFits (recordAll (view st) cert.entry.transactions).activity

theorem fits_empty : LedgerStore.activityFits LedgerState.empty.activity := by
  simp [LedgerStore.activityFits, LedgerState.empty]

/-- the totals of a store whose entries are auditable fit -/
theorem Chain.fits (h : Chain c genesis (AuditableEntry c genesis) st) (hg : validateValidatorSet genesis = .ok ()) :
    LedgerStore.activityFits (view st).activity := by
  induction h with
  | empty =>
    rw [view_empty]
    exact fits_empty
  | ballots table _ ih => exact ih
  | commit hprev hq hc _ =>
    rw [(hprev.committed hg hc).recorded]
    exact hq.2

/-- **A chain of auditable entries replays to its own head, books and set.** -/
theorem Chain.replays (h : Chain c genesis (AuditableEntry c genesis) st) (hg : validateValidatorSet genesis = .ok ()) :
    st.certificates.foldlM (replayCertificate c) ⟨0, "GENESIS", LedgerState.empty, genesis⟩ =
      .ok ⟨st.headSequence, st.headHash, wrapped (view st), sittingSet genesis st⟩ := by
  induction h with
  | empty =>
    rw [view_empty, wrapped_of_fits fits_empty]
    rfl
  | ballots table _ ih => exact ih
  | @commit st st' cert hprev hq hc ih =>
    have hdone := hprev.committed hg hc
    obtain ⟨balances, hap⟩ := hdone.applied
    have hb := (hprev.batchBooks hg).1
    have hentry := replay_entry hg st.headSequence st.headHash cert.entry.transactions hb (hprev.sound hg).conserved
      (hprev.kept hg).1.set_chain hdone.admitted hq.1 hap.evidence
    rw [hdone.certificates, foldlM_append_ok]
    refine ⟨_, ih, ?_⟩
    have hseq : st'.headSequence = cert.entry.sequence := by simp [LedgerStore.headSequence, hdone.certificates]
    have hhash : st'.headHash = cert.entry.entryHash := by simp [LedgerStore.headHash, hdone.certificates]
    simp only [List.foldlM_cons, List.foldlM_nil, bind_ok, pure_ok, replayCertificate, bailIf_ok, exists_const,
      exists_ok_unit_and, not_or, not_not]
    refine ⟨_, ⟨hap.certified, ⟨hap.sequence, hap.previous⟩, _, hentry, rfl⟩, ?_⟩
    rw [hdone.recorded, hseq, hhash]

/-- a reachable chain is numbered from one -/
theorem Chain.numbered {Q : LedgerStore → QuorumCertificate → Prop} (h : Chain c genesis Q st)
    (hg : validateValidatorSet genesis = .ok ()) :
    (∀ cert ∈ st.certificates, 1 ≤ cert.entry.sequence) ∧
      ∀ first, st.certificates.head? = some first → first.entry.sequence = 1 := by
  induction h with
  | empty => simp [LedgerStore.empty]
  | ballots table _ ih => exact ih
  | @commit st st' cert hprev _ hc ih =>
    have hdone := hprev.committed hg hc
    obtain ⟨balances, hap⟩ := hdone.applied
    have hseq := hap.sequence
    rw [hdone.certificates]
    refine ⟨?_, ?_⟩
    · intro cert' hc'
      rcases List.mem_append.1 hc' with hc' | hc'
      · exact ih.1 cert' hc'
      · rw [List.mem_singleton.1 hc']
        omega
    · intro first hfirst
      cases hl : st.certificates with
      | nil =>
        rw [hl] at hfirst
        simp only [List.nil_append, List.head?_cons, Option.some.injEq] at hfirst
        subst hfirst
        simp [hseq, LedgerStore.headSequence, hl]
      | cons x l =>
        rw [hl] at hfirst
        refine ih.2 first ?_
        rw [hl]
        simpa using hfirst

/-- what an audit from genesis establishes -/
theorem audit_ok {set : ValidatorSet} {head : LedgerHead} :
    st.audit c set = .ok head ↔
      (∀ first, (st.certificatesFrom 1).head? = some first → first.entry.sequence ≤ 1) ∧
        ∃ r kept, (st.certificatesFrom 1).foldlM (replayCertificate c) ⟨0, "GENESIS", LedgerState.empty, set⟩ = .ok r ∧
          st.state = .ok kept ∧ r.state.digest c = kept.digest c ∧
          head = ⟨r.seq, r.prev, membershipHash c set⟩ := by
  have hrange : ¬ ((0 + 1 : ℕ) : ℤ) > i64Max := by decide
  simp only [LedgerStore.audit, LedgerStore.auditFrom, LedgerStore.auditStart, bind_ok, pure_ok,
    LedgerStore.sqliteSequence, bailIf_ok, exists_const]
  constructor
  · rintro ⟨_, rfl, _, h⟩
    cases hh : (st.certificatesFrom 1).head? with
    | none =>
      simp only [zero_add, hh, bind_ok, bailIf_ok, exists_const, pure_ok, not_not] at h
      obtain ⟨r, hr, kept, hk, hd, rfl⟩ := h
      exact ⟨by simp, r, kept, hr, hk, hd, rfl⟩
    | some first =>
      simp only [zero_add, hh, bind_ok, bailIf_ok, exists_const, pure_ok, not_not, not_lt, gt_iff_lt] at h
      obtain ⟨hfirst, r, hr, kept, hk, hd, rfl⟩ := h
      refine ⟨?_, r, kept, hr, hk, hd, rfl⟩
      intro x hx
      cases hx
      exact hfirst
  · rintro ⟨hfirst, r, kept, hr, hk, hd, rfl⟩
    refine ⟨_, rfl, hrange, ?_⟩
    cases hh : (st.certificatesFrom 1).head? with
    | none =>
      simp only [zero_add, bind_ok, bailIf_ok, exists_const, pure_ok, not_not]
      exact ⟨r, hr, kept, hk, hd, rfl⟩
    | some first =>
      simp only [zero_add, bind_ok, bailIf_ok, exists_const, pure_ok, not_not, not_lt, gt_iff_lt]
      exact ⟨hfirst first hh, r, hr, kept, hk, hd, rfl⟩

/-- **Live acceptance implies audit**, for every run whose entries meet the three rules the live path does not check: the
audit from genesis succeeds in every store reached, and returns its head. -/
theorem audit_of_live (hg : validateValidatorSet genesis = .ok ())
    (h : Chain c genesis (AuditableEntry c genesis) st) :
    st.audit c genesis = .ok ⟨st.headSequence, st.headHash, membershipHash c genesis⟩ := by
  obtain ⟨hone, hfirst⟩ := h.numbered hg
  have hfits := h.fits hg
  have hall : st.certificatesFrom 1 = st.certificates := by
    unfold LedgerStore.certificatesFrom
    rw [List.filter_eq_self]
    intro cert hcert
    simpa using hone cert hcert
  have hstate : st.state = .ok (view st) := by
    rw [state_ok]
    refine ⟨?_, rfl⟩
    simpa only [view, (h.kept hg).1.baseline, Table.toList_empty, List.foldl_nil] using hfits
  have hreplay := h.replays hg
  rw [wrapped_of_fits hfits] at hreplay
  rw [audit_ok, hall]
  exact ⟨fun first hf => (hfirst first hf).le, _, _, hreplay, hstate, rfl, rfl⟩

end

/-- a chain with one community mint, and its audit -/
theorem audit_of_live_after_mint :
    ∃ st, Chain Sample.crypto (Sample.committee 1) (AuditableEntry Sample.crypto (Sample.committee 1)) st ∧
      st.headSequence = 1 ∧ st.audit Sample.crypto (Sample.committee 1) =
        .ok ⟨1, st.headHash, membershipHash Sample.crypto (Sample.committee 1)⟩ := by
  have hrun : (commitEntry Sample.crypto (Sample.committee 1) LedgerStore.empty (Sample.certify (Sample.committee 1) [0]
      LedgerStore.empty [Sample.smallMint])).okWith (fun st => st.headSequence = 1) = true := by decide +kernel
  obtain ⟨st, hst, hseq⟩ := (okWith_iff _ _).1 hrun
  rw [decide_eq_true_eq] at hseq
  have hchain : Chain Sample.crypto (Sample.committee 1) (AuditableEntry Sample.crypto (Sample.committee 1)) st := by
    refine .commit .empty ⟨(Along.cons_iff _ _ _).2 ⟨⟨?_, ?_⟩, Along.nil _⟩, by decide +kernel⟩ hst
    · intro e r he
      cases he
    · intro e he
      cases he
      decide +kernel
  have haudit := audit_of_live (by decide +kernel) hchain
  rw [hseq] at haudit
  exact ⟨st, hchain, hseq, haudit⟩

/-- validator 0 admits validator 1 and, in the same entry, mints on its own sponsorship -/
def joinThenMint : List LedgerTransaction :=
  [Sample.membershipChange "join-1" (Ledger.Sample.vouchedChange (Sample.committee 1) (Sample.committee 2) .join
    (Sample.member 1) [0]) 50, Sample.smallMint]

/-- an entry proposed and applied under the sitting set that no auditor accepts -/
theorem live_chain_fails_audit :
    ∃ st, Reachable Sample.crypto (Sample.committee 1) st ∧
      ¬ ∃ head, st.audit Sample.crypto (Sample.committee 1) = .ok head := by
  have hrun : (Sample.commitBatches (Sample.committee 1) [0] [joinThenMint]).okWith (fun st =>
      ¬ (st.audit Sample.crypto (Sample.committee 1)).okWith (fun _ => true) = true) = true := by decide +kernel
  obtain ⟨st, hst, hfails⟩ := (okWith_iff _ _).1 hrun
  rw [decide_eq_true_eq] at hfails
  refine ⟨st, Sample.reachable_of_commitBatches hst, ?_⟩
  rintro ⟨head, hhead⟩
  exact hfails ((okWith_iff _ _).2 ⟨head, hhead, rfl⟩)

end Hocmesh.Books
