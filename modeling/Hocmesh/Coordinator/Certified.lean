/-
The shards a chain certifies, and what a rebuild writes of them.

`certifiedShards` are the shards of every certified reservation, settled as the chain settled them. `Passed` is what an
audit has checked of a transaction. A rebuild that applies what an audit has passed writes those shards and no others
(`Written.apply`), and over the tables it has left it changes nothing (`Written.again`).
-/
import Hocmesh.Books.Binding
import Hocmesh.Coordinator.Rebuild

namespace Hocmesh.Coordinator.Rebuild

open Hocmesh.Base Hocmesh.Protocol Hocmesh.Compute Hocmesh.Ledger Hocmesh.Network Hocmesh.Books

/-! ## The shards a chain certifies -/

section

variable (c : Crypto)

/-- the transactions of a chain, in order -/
def transactions (certs : List QuorumCertificate) : List LedgerTransaction := certs.flatMap (·.entry.transactions)

/-- the row a shard starts as -/
def shardRow (jobId : String) (part : WorkSpec × ℕ) : ShardRow :=
  ⟨assignmentId c jobId part.2, jobId, part.2, part.1, .pending, workCostMcu part.1, none, none, none⟩

/-- the shards of a reservation -/
def reservedShards (tx : LedgerTransaction) : List ShardRow :=
  match LedgerStore.jobRecord tx with
  | some (jobId, r) => (splitWork r.work r.shards).zipIdx.map (shardRow c jobId)
  | none => []

/-- the claim a shard is settled under -/
def ShardRow.claim (row : ShardRow) : String := "reward:" ++ row.assignmentId

/-- what a reward or a refund makes of the row of its shard -/
def settledBy (row : ShardRow) (tx : LedgerTransaction) : ShardRow :=
  match tx.evidence with
  | .providerReward e => { row with status := .completed, result := some e.result, completedAt := some tx.createdAt }
  | .jobRefund _ => { row with status := .refunded, completedAt := some tx.createdAt }
  | _ => row

/-- the row of a shard after a history: settled by what is certified under its claim, or as it started -/
def settled (H : List LedgerTransaction) (row : ShardRow) : ShardRow :=
  match H.find? fun tx => claimKey tx = row.claim with
  | some tx => settledBy row tx
  | none => row

/-- the shards of every certified reservation -/
def allShards (H : List LedgerTransaction) : List ShardRow := H.flatMap (reservedShards c)

/-- and how the chain has settled them -/
def certifiedShards (H : List LedgerTransaction) : List ShardRow := (allShards c H).map (settled H)

end

section

variable {c : Crypto} {H : List LedgerTransaction} {tx : LedgerTransaction} {row : ShardRow}

theorem claim_inj {a b : ShardRow} : a.claim = b.claim ↔ a.assignmentId = b.assignmentId := String.append_right_inj _

@[simp] theorem settledBy_assignmentId (row : ShardRow) (tx : LedgerTransaction) :
    (settledBy row tx).assignmentId = row.assignmentId := by
  unfold settledBy
  split <;> rfl

@[simp] theorem settled_assignmentId (H : List LedgerTransaction) (row : ShardRow) :
    (settled H row).assignmentId = row.assignmentId := by
  unfold settled
  split
  · exact settledBy_assignmentId _ _
  · rfl

theorem certifiedShards_ids (H : List LedgerTransaction) :
    (certifiedShards c H).map (·.assignmentId) = (allShards c H).map (·.assignmentId) := by
  simp [certifiedShards, Function.comp_def]

/-- nothing certified under its claim leaves a row as it started -/
theorem settled_of_open (h : ∀ t ∈ H, claimKey t ≠ row.claim) : settled H row = row := by
  have hnone : (H.find? fun tx => claimKey tx = row.claim) = none := by
    rw [List.find?_eq_none]
    intro t ht
    simpa using h t ht
  rw [settled, hnone]

theorem settled_snoc_ne (h : claimKey tx ≠ row.claim) : settled (H ++ [tx]) row = settled H row := by
  have hlast : ([tx].find? fun t => claimKey t = row.claim) = none := by simp [h]
  rw [settled, settled, List.find?_append, hlast, Option.or_none]

theorem settled_snoc (hopen : ∀ t ∈ H, claimKey t ≠ row.claim) (h : claimKey tx = row.claim) :
    settled (H ++ [tx]) row = settledBy row tx := by
  have hnone : (H.find? fun tx => claimKey tx = row.claim) = none := by
    rw [List.find?_eq_none]
    intro t ht
    simpa using hopen t ht
  have hlast : ([tx].find? fun t => claimKey t = row.claim) = some tx := by simp [h]
  rw [settled, List.find?_append, hnone, hlast, Option.none_or]

/-- where every claim is used once, a shard is settled by the transaction under its claim -/
theorem settled_of_mem (hnodup : (H.map claimKey).Nodup) (htx : tx ∈ H) (h : claimKey tx = row.claim) :
    settled H row = settledBy row tx := by
  have hfind : (H.find? fun t => claimKey t = row.claim) = some tx := by
    induction H with
    | nil => cases htx
    | cons t H ih =>
      obtain ⟨hnew, hrest⟩ := List.nodup_cons.1 hnodup
      rcases List.mem_cons.1 htx with rfl | hin
      · simp [h]
      · have hne : claimKey t ≠ row.claim := by
          intro heq
          exact hnew (List.mem_map.2 ⟨tx, hin, h.trans heq.symm⟩)
        rw [List.find?_cons_of_neg (by simpa using hne)]
        exact ih hrest hin
  rw [settled, hfind]

/-- a shard starts pending and unleased, without a result -/
theorem reservedShards_fresh (h : row ∈ reservedShards c tx) : ∃ jobId part, row = shardRow c jobId part := by
  unfold reservedShards at h
  split at h
  · obtain ⟨part, -, rfl⟩ := List.mem_map.1 h
    exact ⟨_, _, rfl⟩
  · cases h

theorem allShards_fresh (h : row ∈ allShards c H) : ∃ jobId part, row = shardRow c jobId part := by
  obtain ⟨tx, -, hrow⟩ := List.mem_flatMap.1 h
  exact reservedShards_fresh hrow

theorem allShards_snoc (H : List LedgerTransaction) (tx : LedgerTransaction) :
    allShards c (H ++ [tx]) = allShards c H ++ reservedShards c tx := by
  simp [allShards, List.flatMap_append]

/-! ## What settles a shard -/

/-- the shard a transaction settles, how, and with what result -/
def settlementOf (tx : LedgerTransaction) : Option (String × AssignmentStatus × Option WorkResult) :=
  match tx.evidence with
  | .providerReward e => some (e.assignmentId, .completed, some e.result)
  | .jobRefund e => some (e.assignmentId, .refunded, none)
  | _ => none

/-- only settlements are claimed under a shard -/
theorem claim_iff {id : String} :
    claimKey tx = "reward:" ++ id ↔ ∃ status result, settlementOf tx = some (id, status, result) := by
  unfold claimKey settlementOf
  cases he : tx.evidence with
  | providerReward e | jobRefund e => simp
  | inferenceReward e | inferenceReceipt e | inferenceDispute e | inferenceExpiry e | inferenceRefund e =>
    refine ⟨fun h => ?_, by simp⟩
    exact absurd (congrArg String.toList h) (by simp [inferencePayoutKey, inferenceClaimKey])
  | _ =>
    refine ⟨fun h => ?_, by simp⟩
    exact absurd (congrArg String.toList h) (by simp)

theorem settledBy_of {id : String} {status : AssignmentStatus} {result : Option WorkResult}
    (h : settlementOf tx = some (id, status, result)) (row : ShardRow) : settledBy row tx =
      { row with status := status, result := result.or row.result, completedAt := some tx.createdAt } := by
  unfold settlementOf at h
  unfold settledBy
  cases he : tx.evidence with
  | providerReward e | jobRefund e =>
    simp only [he, Option.some.injEq, Prod.mk.injEq] at h
    obtain ⟨-, rfl, rfl⟩ := h
    rfl
  | _ => simp [he] at h

theorem applyTransaction_of {id : String} {status : AssignmentStatus} {result : Option WorkResult}
    (h : settlementOf tx = some (id, status, result)) (t : Tables) (report : RebuildReport) :
    applyTransaction c t report tx = settleShard t id status result tx.createdAt >>= fun t =>
      pure (t, { report with settledShards := report.settledShards + 1 }) := by
  unfold settlementOf at h
  unfold applyTransaction
  cases he : tx.evidence with
  | providerReward e | jobRefund e =>
    simp only [he, Option.some.injEq, Prod.mk.injEq] at h
    obtain ⟨rfl, rfl, rfl⟩ := h
    rfl
  | _ => simp [he] at h

theorem reservedShards_of {id : String} {status : AssignmentStatus} {result : Option WorkResult}
    (h : settlementOf tx = some (id, status, result)) : LedgerStore.jobRecord tx = none := by
  unfold settlementOf at h
  unfold LedgerStore.jobRecord
  cases he : tx.evidence with
  | providerReward e | jobRefund e => rfl
  | _ => simp [he] at h

/-! ## The rows of one reservation -/

/-- new shards are added in order -/
theorem insertShards_new {jobId : String} (parts : List (WorkSpec × ℕ)) {shards : List ShardRow}
    (h : ((shards ++ parts.map (shardRow c jobId)).map (·.assignmentId)).Nodup) :
    parts.foldl (insertShard c jobId) shards = shards ++ parts.map (shardRow c jobId) := by
  induction parts generalizing shards with
  | nil => simp
  | cons part parts ih =>
    have hnew : ¬ ∃ a ∈ shards, a.assignmentId = assignmentId c jobId part.2 := by
      rintro ⟨a, ha, hid⟩
      rw [List.map_append, List.nodup_append] at h
      exact h.2.2 _ (List.mem_map.2 ⟨a, ha, rfl⟩) _
        (List.mem_map.2 ⟨shardRow c jobId part, List.mem_cons_self, rfl⟩) hid
    have hone : insertShard c jobId shards part = shards ++ [shardRow c jobId part] := if_neg hnew
    rw [List.foldl_cons, hone, ih (by simpa using h)]
    simp

/-- shards that are there are left alone -/
theorem insertShards_present {jobId : String} (parts : List (WorkSpec × ℕ)) {shards : List ShardRow}
    (h : ∀ part ∈ parts, ∃ a ∈ shards, a.assignmentId = assignmentId c jobId part.2) :
    parts.foldl (insertShard c jobId) shards = shards := by
  induction parts with
  | nil => rfl
  | cons part parts ih =>
    have hone : insertShard c jobId shards part = shards := if_pos (h part List.mem_cons_self)
    rw [List.foldl_cons, hone]
    exact ih fun p hp => h p (List.mem_cons_of_mem _ hp)

/-- no insertion gives two rows one id -/
theorem insertShards_nodup {jobId : String} (parts : List (WorkSpec × ℕ)) {shards : List ShardRow}
    (h : (shards.map (·.assignmentId)).Nodup) :
    ((parts.foldl (insertShard c jobId) shards).map (·.assignmentId)).Nodup := by
  induction parts generalizing shards with
  | nil => exact h
  | cons part parts ih =>
    refine ih ?_
    unfold insertShard
    split_ifs with hin
    · exact h
    · rw [List.map_append, List.nodup_append]
      refine ⟨h, by simp, ?_⟩
      intro id hid id' hid' heq
      obtain ⟨a, ha, rfl⟩ := List.mem_map.1 hid
      rw [List.map_singleton, List.mem_singleton] at hid'
      exact hin ⟨a, ha, heq.trans hid'⟩

end

/-! ## What an audit has checked -/

section

variable {c : Crypto} {H : List LedgerTransaction} {tx : LedgerTransaction} {r r' : Replay} {prev : String}
  {sigs : List ValidatorSignature}

/-- the books of an audit, as the shards of its history see them -/
structure Backed (c : Crypto) (H : List LedgerTransaction) (s : LedgerState) : Prop where
  claimed : ∀ t ∈ H, claimKey t ∈ s.claims
  distinct : (H.map claimKey).Nodup
  reserved : ∀ (j : String) rec, s.reservations[j]? = some rec → ∃ t ∈ H, LedgerStore.jobRecord t = some (j, rec)
  /-- what settles a shard settles a reserved one -/
  bound : ∀ t ∈ H, ∀ id, claimKey t = "reward:" ++ id → ∃ row ∈ allShards c H, row.assignmentId = id

theorem backed_empty (c : Crypto) : Backed c [] LedgerState.empty where
  claimed := by simp
  distinct := List.nodup_nil
  reserved := by simp [LedgerState.empty]
  bound := by simp

/-- the evidence block records a reservation, follows the set and leaves the claims alone -/
theorem bind_reservations (h : bindEvidence c r tx = .ok r') :
    r'.state.reservations = LedgerStore.upsert r.state.reservations (LedgerStore.jobRecord tx) id ∧
      r'.state.claims = r.state.claims := by
  unfold bindEvidence at h
  cases he : tx.evidence with
  | jobReserve ev | communityReserve ev =>
    simp only [he, bind_ok, bailIf_ok, exists_const, pure_ok] at h
    obtain ⟨-, rfl⟩ := h
    exact ⟨rfl, rfl⟩
  | inferenceReserve ev =>
    simp only [he, bind_ok, bailIf_ok, exists_const, pure_ok] at h
    obtain ⟨-, rfl⟩ := h
    exact ⟨by simp [LedgerStore.jobRecord, he, LedgerStore.upsert], rfl⟩
  | membershipChange ev =>
    simp only [he, bind_ok, pure_ok] at h
    obtain ⟨_, -, rfl⟩ := h
    exact ⟨by simp [LedgerStore.jobRecord, he, LedgerStore.upsert], rfl⟩
  | _ =>
    simp only [he, bind_ok, exists_ok_unit_and, pure_ok] at h
    obtain ⟨-, rfl⟩ := h
    exact ⟨by simp [LedgerStore.jobRecord, he, LedgerStore.upsert], rfl⟩

/-- the set a transaction leaves -/
def setAfterTx (c : Crypto) (set : ValidatorSet) (tx : LedgerTransaction) : Check ValidatorSet :=
  match tx.evidence with
  | .membershipChange e => verifyMembershipChange c set e
  | _ => pure set

theorem bind_active (h : bindEvidence c r tx = .ok r') : setAfterTx c r.active tx = .ok r'.active := by
  unfold bindEvidence at h
  unfold setAfterTx
  cases he : tx.evidence with
  | membershipChange ev =>
    simp only [he, bind_ok, pure_ok] at h ⊢
    obtain ⟨_, hset, rfl⟩ := h
    exact hset
  | _ =>
    simp only [he, bind_ok, bailIf_ok, exists_const, exists_ok_unit_and, pure_ok] at h
    obtain ⟨-, rfl⟩ := h
    rfl

theorem replayPostings_books (ps : List Posting) {s s' : LedgerState} (h : ps.foldlM replayPosting s = .ok s') :
    s'.reservations = s.reservations ∧ s'.claims = s.claims := by
  refine foldlM_inv replayPosting (fun _ t => t.reservations = s.reservations ∧ t.claims = s.claims) ?_ ps [] s s'
    ⟨rfl, rfl⟩ h
  intro _ t p t' hsame hstep
  simp only [replayPosting, bind_ok, bailIf_ok, exists_const, pure_ok] at hstep
  obtain ⟨_, -, -, rfl⟩ := hstep
  exact hsame

/-- what one transaction of an audit has passed -/
structure Passed (c : Crypto) (prev : String) (sigs : List ValidatorSignature) (r r' : Replay) (tx : LedgerTransaction) :
    Prop where
  fresh : claimKey tx ∉ r.state.claims
  evidence : verifyHistoricalEvidence c tx prev sigs = .ok ()
  rule : historicalRule c tx r.active = .ok ()
  reservations : r'.state.reservations = LedgerStore.upsert r.state.reservations (LedgerStore.jobRecord tx) id
  claims : r'.state.claims = r.state.claims.insert (claimKey tx) ()
  active : setAfterTx c r.active tx = .ok r'.active
  seq : r'.seq = r.seq
  binds : ∃ r₁ r₂, r₁.state.reservations = r.state.reservations ∧ bindEvidence c r₁ tx = .ok r₂

theorem bind_seq (h : bindEvidence c r tx = .ok r') : r'.seq = r.seq := by
  unfold bindEvidence at h
  cases he : tx.evidence with
  | membershipChange ev =>
    simp only [he, bind_ok, pure_ok] at h
    obtain ⟨_, -, rfl⟩ := h
    rfl
  | _ =>
    simp only [he, bind_ok, bailIf_ok, exists_const, exists_ok_unit_and, pure_ok] at h
    obtain ⟨-, rfl⟩ := h
    rfl

theorem rule_of_historical {bal : String → ℤ} {set : ValidatorSet}
    (h : validateHistoricalTransaction c tx prev sigs bal set = .ok ()) :
    verifyHistoricalEvidence c tx prev sigs = .ok () ∧ historicalRule c tx set = .ok () := by
  simp only [validateHistoricalTransaction, bind_ok, exists_ok_unit_and] at h
  refine ⟨h.1, ?_⟩
  cases he : tx.evidence with
  | membershipChange e => simp [historicalRule, he]
  | _ =>
    rw [he] at h
    simp only [bind_ok, exists_ok_unit_and] at h
    exact historicalKind_ok h.2.2

theorem passed_of_replay (h : Ledger.replayTransaction c prev sigs r tx = .ok r') : Passed c prev sigs r r' tx := by
  simp only [Ledger.replayTransaction, bind_ok, bailIf_ok, exists_const, exists_ok_unit_and, pure_ok] at h
  obtain ⟨hfresh, hhist, r₂, hbind, s', hpost, rfl⟩ := h
  obtain ⟨hres, hclaims⟩ := bind_reservations hbind
  obtain ⟨hres', hclaims'⟩ := replayPostings_books _ hpost
  obtain ⟨hevidence, hrule⟩ := rule_of_historical hhist
  have hactive := bind_active hbind
  have hseq := bind_seq hbind
  refine ⟨hfresh, hevidence, hrule, hres'.trans hres, hclaims'.trans hclaims, hactive, hseq, _, r₂, ?_, hbind⟩
  rfl

/-- the shard that a reward or a refund names -/
theorem Passed.shard (h : Passed c prev sigs r r' tx) {id : String} (hclaim : claimKey tx = "reward:" ++ id) :
    ∃ (j : String) (rec : ReservationRecord) (index : ℕ) (part : WorkSpec), r.state.reservations[j]? = some rec ∧
      (splitWork rec.work rec.shards)[index]? = some part ∧ id = assignmentId c j index := by
  obtain ⟨r₁, r₂, hsame, hbind⟩ := h.binds
  have hrule := h.rule
  obtain ⟨status, result, hs⟩ := claim_iff.1 hclaim
  unfold settlementOf at hs
  unfold bindEvidence at hbind
  unfold historicalRule at hrule
  cases he : tx.evidence with
  | providerReward e =>
    simp only [he, bind_ok, bindReward, orBail_ok, historicalReward, bailIf_ok, exists_const, not_or, not_not,
      Option.some.injEq, Prod.mk.injEq] at hs hbind hrule
    obtain ⟨⟨rec, hrec, -, -, part, hpart, -⟩, -⟩ := hbind
    exact ⟨e.jobId, rec, e.shardIndex, part, hsame ▸ hrec, hpart, hs.1.symm.trans hrule.1.2⟩
  | jobRefund e =>
    simp only [he, bind_ok, bindRefund, orBail_ok, historicalRefund, bailIf_ok, exists_const, not_or, not_not,
      Option.some.injEq, Prod.mk.injEq] at hs hbind hrule
    obtain ⟨⟨rec, hrec, -, -, part, hpart, -⟩, -⟩ := hbind
    exact ⟨e.jobId, rec, e.shardIndex, part, hsame ▸ hrec, hpart, hs.1.symm.trans hrule.1.2⟩
  | _ => simp [he] at hs

/-- **Audit step.** -/
theorem Backed.step (h : Backed c H r.state) (hp : Passed c prev sigs r r' tx) : Backed c (H ++ [tx]) r'.state where
  claimed := by
    intro t ht
    rw [hp.claims, Std.ExtTreeMap.mem_insert]
    rcases List.mem_append.1 ht with hin | hin
    · exact .inr (h.claimed t hin)
    · rw [List.mem_singleton.1 hin]
      exact .inl (by simp)
  distinct := by
    rw [List.map_append, List.nodup_append]
    refine ⟨h.distinct, by simp, ?_⟩
    intro key hkey key' hkey' heq
    obtain ⟨t, ht, rfl⟩ := List.mem_map.1 hkey
    rw [List.map_singleton, List.mem_singleton] at hkey'
    exact hp.fresh (hkey' ▸ heq ▸ h.claimed t ht)
  reserved := by
    intro j rec hrec
    rw [hp.reservations] at hrec
    rcases upsert_cases hrec with hnew | hold
    · exact ⟨tx, by simp, hnew⟩
    · obtain ⟨t, ht, hrecord⟩ := h.reserved j rec hold
      exact ⟨t, by simp [ht], hrecord⟩
  bound := by
    intro t ht id hclaim
    rw [allShards_snoc]
    rcases List.mem_append.1 ht with hin | hin
    · obtain ⟨row, hrow, hid⟩ := h.bound t hin id hclaim
      exact ⟨row, List.mem_append_left _ hrow, hid⟩
    · obtain rfl := List.mem_singleton.1 hin
      obtain ⟨j, rec, index, part, hrec, hpart, rfl⟩ := hp.shard hclaim
      obtain ⟨t', ht', hrecord⟩ := h.reserved j rec hrec
      refine ⟨shardRow c j (part, index), List.mem_append_left _ (List.mem_flatMap.2 ⟨t', ht', ?_⟩), rfl⟩
      rw [reservedShards, hrecord]
      exact List.mem_map.2 ⟨_, List.mem_zipIdx_iff_getElem?.2 hpart, rfl⟩

end

/-! ## In step with an audit -/

section

variable {c : Crypto} {H : List LedgerTransaction} {tx : LedgerTransaction} {r r' : Replay} {prev : String}
  {sigs : List ValidatorSignature} {t : Tables}

/-- the requester of a reservation has a row -/
def RequesterKnown (c : Crypto) (nodes : List (String × String)) (tx : LedgerTransaction) : Prop :=
  ∀ e, tx.evidence = .jobReserve e → ∀ id, nodeIdFromPublicKeyB64 c e.requesterPublicKeyB64 = some id →
    ∃ n ∈ nodes, n.1 = id

theorem RequesterKnown.mono {nodes nodes' : List (String × String)} (h : RequesterKnown c nodes tx)
    (hsub : ∀ n ∈ nodes, n ∈ nodes') : RequesterKnown c nodes' tx := by
  intro e he id hid
  obtain ⟨n, hn, heq⟩ := h e he id hid
  exact ⟨n, hsub n hn, heq⟩

/-- the tables of a rebuild that has read a history -/
structure Written (c : Crypto) (H : List LedgerTransaction) (t : Tables) : Prop where
  jobs : ∀ tx ∈ H, ∀ j rec, LedgerStore.jobRecord tx = some (j, rec) → ∃ x ∈ t.jobs, x.jobId = j
  nodes : ∀ tx ∈ H, RequesterKnown c t.nodes tx
  shards : t.shards = certifiedShards c H

theorem written_empty (c : Crypto) : Written c [] Tables.empty where
  jobs := by simp
  nodes := by simp
  shards := rfl

/-- a settled shard is there to be settled -/
theorem Written.shard (h : Written c H t) {id : String} (hbound : ∃ row ∈ allShards c H, row.assignmentId = id) :
    ∃ a ∈ t.shards, a.assignmentId = id := by
  obtain ⟨row, hrow, hid⟩ := hbound
  exact ⟨settled H row, h.shards ▸ List.mem_map.2 ⟨row, hrow, rfl⟩, (settled_assignmentId _ _).trans hid⟩

theorem settleShard_eq {id : String} (h : ∃ a ∈ t.shards, a.assignmentId = id) (status : AssignmentStatus)
    (result : Option WorkResult) (completedAt : ℤ) : settleShard t id status result completedAt =
      .ok { t with shards := t.shards.map fun a => if a.assignmentId = id then
        { a with status := status, result := result.or a.result, completedAt := some completedAt, leasedTo := none }
        else a } := if_pos h

/-- **A settlement.** The row of its shard is settled, and no other row is touched. -/
theorem Written.settle (h : Written c H t) (hb : Backed c H r.state) (hp : Passed c prev sigs r r' tx) {id : String}
    {status : AssignmentStatus} {result : Option WorkResult} (hs : settlementOf tx = some (id, status, result))
    (report : RebuildReport) :
    ∃ t' report', applyTransaction c t report tx = .ok (t', report') ∧ Written c (H ++ [tx]) t' := by
  have hclaim : claimKey tx = "reward:" ++ id := claim_iff.2 ⟨status, result, hs⟩
  have hnone := reservedShards_of hs
  obtain ⟨row, hrow, hid⟩ := (hb.step hp).bound tx (by simp) id hclaim
  have hsame : allShards c (H ++ [tx]) = allShards c H := by
    rw [allShards_snoc, reservedShards, hnone, List.append_nil]
  rw [hsame] at hrow
  rw [applyTransaction_of hs, settleShard_eq (h.shard ⟨row, hrow, hid⟩)]
  refine ⟨_, _, rfl, ?_, ?_, ?_⟩
  · intro t' ht' j rec hrec
    rcases List.mem_append.1 ht' with hin | hin
    · exact h.jobs t' hin j rec hrec
    · rw [List.mem_singleton.1 hin, hnone] at hrec
      cases hrec
  · intro t' ht'
    rcases List.mem_append.1 ht' with hin | hin
    · exact h.nodes t' hin
    · rw [List.mem_singleton.1 hin]
      intro e he
      simp [settlementOf, he] at hs
  · simp only [h.shards, certifiedShards, hsame, List.map_map]
    refine List.map_congr_left ?_
    intro row hrow
    simp only [Function.comp_apply, settled_assignmentId]
    split_ifs with hown
    · have hkey : claimKey tx = row.claim := by rw [hclaim, ← hown, ShardRow.claim]
      have hopen : ∀ t ∈ H, claimKey t ≠ row.claim := fun t ht heq => hp.fresh (hkey ▸ heq ▸ hb.claimed t ht)
      obtain ⟨jobId, part, rfl⟩ := allShards_fresh hrow
      rw [settled_of_open hopen, settled_snoc hopen hkey, settledBy_of hs]
      rfl
    · refine (settled_snoc_ne ?_).symm
      intro hkey
      rw [hclaim, ShardRow.claim, String.append_right_inj] at hkey
      exact hown hkey.symm

/-- who signed a reservation is a node -/
theorem nodeId_of_signed {publicKeyB64 action bodyHash : String} {proof : AuthProof}
    (h : verifyAuthSignature c publicKeyB64 proof action bodyHash = .ok ()) :
    nodeIdFromPublicKeyB64 c publicKeyB64 = some proof.nodeId := by
  simp only [verifyAuthSignature, bind_ok, orBail_ok, bailIf_ok, exists_const, not_not] at h
  obtain ⟨pk, hpk, hlen, hid, -⟩ := h
  simp [nodeIdFromPublicKeyB64, hpk, hlen, hid]

/-- the requester's row is added, if it is not there -/
theorem requesterNode_ok {publicKeyB64 id : String} (h : nodeIdFromPublicKeyB64 c publicKeyB64 = some id) (t : Tables) :
    ∃ nodes, requesterNode c t publicKeyB64 = .ok ({ t with nodes := nodes }, id) ∧ (∀ n ∈ t.nodes, n ∈ nodes) ∧
      (∃ n ∈ nodes, n.1 = id) ∧ ((∃ n ∈ t.nodes, n.1 = id) → nodes = t.nodes) := by
  simp only [requesterNode, bind_ok, orBail_ok, h, Option.some.injEq, exists_eq_left', pure_ok]
  by_cases hin : ∃ n ∈ t.nodes, n.1 = id
  · exact ⟨t.nodes, by rw [if_pos hin], fun _ hn => hn, hin, fun _ => rfl⟩
  · exact ⟨t.nodes ++ [(id, publicKeyB64)], by rw [if_neg hin], fun _ hn => List.mem_append_left _ hn,
      ⟨_, List.mem_append_right _ List.mem_cons_self, rfl⟩, fun h => absurd h hin⟩

section

variable (t : Tables) (jobId : String) (requester : Option String) (systemFunded : Bool) (work : WorkSpec) (shards : ℕ)
  (createdAt : ℤ)

theorem insertJob_jobs : (∀ x ∈ t.jobs, x ∈ (insertJob c t jobId requester systemFunded work shards createdAt).jobs) ∧
    ∃ x ∈ (insertJob c t jobId requester systemFunded work shards createdAt).jobs, x.jobId = jobId := by
  unfold insertJob
  dsimp only
  split_ifs with hin
  · exact ⟨fun _ hx => hx, hin⟩
  · exact ⟨fun _ hx => List.mem_append_left _ hx, _, List.mem_append_right _ List.mem_cons_self, rfl⟩

/-- a job that is there with its shards is left alone -/
theorem insertJob_present (hjob : ∃ x ∈ t.jobs, x.jobId = jobId)
    (hshards : ∀ part ∈ (splitWork work shards).zipIdx, ∃ a ∈ t.shards, a.assignmentId = assignmentId c jobId part.2) :
    insertJob c t jobId requester systemFunded work shards createdAt = t := by
  simp only [insertJob, if_pos hjob, insertShards_present _ hshards]

end

/-- a reservation leaves a row for its requester and its job with the shards -/
theorem applyTransaction_reserve (hp : Passed c prev sigs r r' tx) {jobId : String} {rec : ReservationRecord}
    (hrecord : LedgerStore.jobRecord tx = some (jobId, rec)) (t : Tables) (report : RebuildReport) :
    ∃ nodes requester systemFunded report', applyTransaction c t report tx =
        .ok (insertJob c { t with nodes := nodes } jobId requester systemFunded rec.work rec.shards tx.createdAt, report') ∧
      (∀ n ∈ t.nodes, n ∈ nodes) ∧ RequesterKnown c nodes tx ∧ (RequesterKnown c t.nodes tx → nodes = t.nodes) := by
  have hevidence := hp.evidence
  unfold LedgerStore.jobRecord at hrecord
  unfold applyTransaction
  cases he : tx.evidence with
  | jobReserve e =>
    simp only [he, Option.some.injEq, Prod.mk.injEq] at hrecord
    obtain ⟨rfl, rfl⟩ := hrecord
    simp only [verifyHistoricalEvidence, he] at hevidence
    have hnode := nodeId_of_signed hevidence
    obtain ⟨nodes, hok, hsub, hin, hsame⟩ := requesterNode_ok hnode t
    refine ⟨nodes, some e.requesterAuth.nodeId, false, { report with jobs := report.jobs + 1 }, ?_, hsub, ?_, ?_⟩
    · simp only [bind_ok, hok, Except.ok.injEq, exists_eq_left', pure_ok]
    · intro e' he' id hid
      cases he.symm.trans he'
      cases hnode.symm.trans hid
      exact hin
    · exact fun hknown => hsame (hknown e he _ hnode)
  | communityReserve e =>
    simp only [he, Option.some.injEq, Prod.mk.injEq] at hrecord
    obtain ⟨rfl, rfl⟩ := hrecord
    exact ⟨t.nodes, none, true, _, rfl, fun _ hn => hn, fun e' he' => (by cases he.symm.trans he'), fun _ => rfl⟩
  | _ => simp [he] at hrecord

/-- **A reservation.** Its shards are added behind the others. -/
theorem Written.reserve (h : Written c H t) (hb : Backed c H r.state) (hp : Passed c prev sigs r r' tx)
    (hnodup : ((allShards c (H ++ [tx])).map (·.assignmentId)).Nodup) {jobId : String} {rec : ReservationRecord}
    (hrecord : LedgerStore.jobRecord tx = some (jobId, rec)) (report : RebuildReport) :
    ∃ t' report', applyTransaction c t report tx = .ok (t', report') ∧ Written c (H ++ [tx]) t' := by
  obtain ⟨nodes, requester, systemFunded, report', hok, hsub, hknown, -⟩ := applyTransaction_reserve hp hrecord t report
  have hnew : reservedShards c tx = (splitWork rec.work rec.shards).zipIdx.map (shardRow c jobId) := by
    rw [reservedShards, hrecord]
  have hnone : ∀ row : ShardRow, claimKey tx ≠ row.claim := by
    intro row hkey
    obtain ⟨status, result, hs⟩ := claim_iff.1 hkey
    rw [reservedShards_of hs] at hrecord
    cases hrecord
  obtain ⟨hjobs, hjob⟩ := insertJob_jobs (c := c) { t with nodes := nodes } jobId requester systemFunded rec.work rec.shards
    tx.createdAt
  refine ⟨_, _, hok, ?_, ?_, ?_⟩
  · intro t' ht' j rec' hrec
    rcases List.mem_append.1 ht' with hin | hin
    · obtain ⟨x, hx, hid⟩ := h.jobs t' hin j rec' hrec
      exact ⟨x, hjobs x hx, hid⟩
    · rw [List.mem_singleton.1 hin, hrecord] at hrec
      cases hrec
      exact hjob
  · intro t' ht'
    rcases List.mem_append.1 ht' with hin | hin
    · exact (h.nodes t' hin).mono hsub
    · rw [List.mem_singleton.1 hin]
      exact hknown
  · have hold : (certifiedShards c H).map (·.assignmentId) = (allShards c H).map (·.assignmentId) := certifiedShards_ids H
    have hadded : (insertJob c { t with nodes := nodes } jobId requester systemFunded rec.work rec.shards
        tx.createdAt).shards = certifiedShards c H ++ (splitWork rec.work rec.shards).zipIdx.map (shardRow c jobId) := by
      refine (insertShards_new _ ?_).trans ?_
      · rw [allShards_snoc, hnew, List.map_append] at hnodup
        rw [h.shards, List.map_append, hold]
        exact hnodup
      · rw [h.shards]
    rw [hadded, certifiedShards, certifiedShards, allShards_snoc, List.map_append, ← hnew]
    refine congrArg₂ _ ?_ ?_
    · exact List.map_congr_left fun row _ => (settled_snoc_ne (hnone row)).symm
    · -- a new shard has not been settled: what settles one settles a reserved one, and this id is new
      have hopen : ∀ row ∈ reservedShards c tx, settled (H ++ [tx]) row = row := by
        intro row hrow
        rw [settled_snoc_ne (hnone row)]
        refine settled_of_open fun t' ht' hkey => ?_
        obtain ⟨row', hrow', hid⟩ := hb.bound t' ht' _ hkey
        rw [allShards_snoc, List.map_append, List.nodup_append] at hnodup
        exact hnodup.2.2 _ (List.mem_map.2 ⟨row', hrow', rfl⟩) _ (List.mem_map.2 ⟨row, hrow, rfl⟩) hid
      exact ((List.map_congr_left hopen).trans (List.map_id _)).symm

/-- every other kind is not the business of a rebuild -/
theorem applyTransaction_other (hs : settlementOf tx = none) (hrecord : LedgerStore.jobRecord tx = none) (t : Tables)
    (report : RebuildReport) : applyTransaction c t report tx = .ok (t, report) := by
  unfold settlementOf at hs
  unfold LedgerStore.jobRecord at hrecord
  unfold applyTransaction
  cases he : tx.evidence with
  | jobReserve e | communityReserve e => simp [he] at hrecord
  | providerReward e | jobRefund e => simp [he] at hs
  | _ => rfl

/-- **Transaction step.** What an audit has passed, a rebuild writes. -/
theorem Written.apply (h : Written c H t) (hb : Backed c H r.state) (hp : Passed c prev sigs r r' tx)
    (hnodup : ((allShards c (H ++ [tx])).map (·.assignmentId)).Nodup) (report : RebuildReport) :
    ∃ t' report', applyTransaction c t report tx = .ok (t', report') ∧ Written c (H ++ [tx]) t' := by
  cases hs : settlementOf tx with
  | some s => exact h.settle hb hp hs report
  | none =>
    cases hrecord : LedgerStore.jobRecord tx with
    | some record => exact h.reserve hb hp hnodup hrecord report
    | none =>
      refine ⟨t, report, applyTransaction_other hs hrecord t report, ?_, ?_, ?_⟩
      · intro t' ht' j rec hrec
        rcases List.mem_append.1 ht' with hin | hin
        · exact h.jobs t' hin j rec hrec
        · rw [List.mem_singleton.1 hin, hrecord] at hrec
          cases hrec
      · intro t' ht'
        rcases List.mem_append.1 ht' with hin | hin
        · exact h.nodes t' hin
        · rw [List.mem_singleton.1 hin]
          intro e he
          simp [LedgerStore.jobRecord, he] at hrecord
      · have hsame : allShards c (H ++ [tx]) = allShards c H := by
          rw [allShards_snoc, reservedShards, hrecord, List.append_nil]
        rw [h.shards, certifiedShards, certifiedShards, hsame]
        refine List.map_congr_left fun row _ => (settled_snoc_ne fun hkey => ?_).symm
        obtain ⟨status, result, hsome⟩ := claim_iff.1 hkey
        rw [hs] at hsome
        cases hsome

/-- **And writes once.** Over the tables of the whole chain, a transaction of it changes nothing. -/
theorem Written.again {s : LedgerState} (h : Written c H t) (hb : Backed c H s) (hp : Passed c prev sigs r r' tx)
    (htx : tx ∈ H) (report : RebuildReport) : ∃ report', applyTransaction c t report tx = .ok (t, report') := by
  cases hs : settlementOf tx with
  | some settlement =>
    obtain ⟨id, status, result⟩ := settlement
    have hclaim : claimKey tx = "reward:" ++ id := claim_iff.2 ⟨status, result, hs⟩
    rw [applyTransaction_of hs, settleShard_eq (h.shard (hb.bound tx htx id hclaim))]
    have hsame : t.shards.map (fun a => if a.assignmentId = id then
        { a with status := status, result := result.or a.result, completedAt := some tx.createdAt, leasedTo := none }
        else a) = t.shards := by
      refine (List.map_congr_left ?_).trans (List.map_id _)
      intro a ha
      rw [h.shards] at ha
      obtain ⟨row, hrow, rfl⟩ := List.mem_map.1 ha
      rw [settled_assignmentId]
      split_ifs with hown
      · have hkey : claimKey tx = row.claim := by rw [hclaim, ← hown, ShardRow.claim]
        obtain ⟨jobId, part, rfl⟩ := allShards_fresh hrow
        rw [settled_of_mem hb.distinct htx hkey, settledBy_of hs]
        cases result <;> rfl
      · rfl
    refine ⟨{ report with settledShards := report.settledShards + 1 }, ?_⟩
    rw [hsame]
    rfl
  | none =>
    cases hrecord : LedgerStore.jobRecord tx with
    | none => exact ⟨report, applyTransaction_other hs hrecord t report⟩
    | some record =>
      obtain ⟨jobId, rec⟩ := record
      obtain ⟨nodes, requester, systemFunded, report', hok, -, -, hsame⟩ := applyTransaction_reserve hp hrecord t report
      obtain rfl := hsame (h.nodes tx htx)
      refine ⟨report', ?_⟩
      rw [hok, insertJob_present _ _ _ _ _ _ _ (h.jobs tx htx jobId rec hrecord)]
      intro part hpart
      refine h.shard ⟨shardRow c jobId part, List.mem_flatMap.2 ⟨tx, htx, ?_⟩, rfl⟩
      rw [reservedShards, hrecord]
      exact List.mem_map.2 ⟨part, hpart, rfl⟩

end

end Hocmesh.Coordinator.Rebuild
