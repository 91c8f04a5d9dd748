/-
Recovery after a crash.

A crash loses the handlers that were under way and nothing else, so a coordinator that starts again has a database some
run of handlers has left, at any point of any of them, and a ledger that may or may not have certified what they
proposed. `Sound` is what every such database keeps: intents are filed under their own claim, and the shard a reward
waits for exists. The rest is what one pass does to one pending intent: the others in the pass rewrite other rows
(`Eases`), and nothing in it blocks an object.

Of the kinds the handlers persist, the pass knows all but one.
-/
import Hocmesh.Base.Rows
import Hocmesh.Books.Sample
import Hocmesh.Coordinator.Intents

namespace Hocmesh.Coordinator

open Hocmesh.Base Hocmesh.Protocol Hocmesh.Compute Hocmesh.Ledger Hocmesh.Validator

/-! ## What an update leaves alone -/

/-- an intent keeps what it is about, and never becomes pending again -/
structure IntentKept (r r' : LedgerIntent) : Prop where
  claimKey : r'.claimKey = r.claimKey
  kind : r'.kind = r.kind
  objectId : r'.objectId = r.objectId
  transactionJson : r'.transactionJson = r.transactionJson
  pending : r'.status = .pending → r.status = .pending

/-- a job is not sent back to funding -/
def JobEased (x x' : JobRow) : Prop := x'.jobId = x.jobId ∧ (x'.status = .funding → x.status = .funding)

/-- an assignment stays where it belongs, and is not blocked anew -/
structure AssignmentEased (a a' : AssignmentRow) : Prop where
  assignmentId : a'.assignmentId = a.assignmentId
  jobId : a'.jobId = a.jobId
  blocked : a'.status = .blocked → a.status = .blocked
  settling : a'.status = .settling → a.status = .settling

/-- updates that rewrite only the intents under the given claims, and block nothing -/
structure Eases (keys : List String) (db db' : Db) : Prop where
  intents : Rewrites (fun r r' => IntentKept r r' ∧ (r.claimKey ∉ keys → r' = r)) db.intents db'.intents
  jobs : Rewrites JobEased db.jobs db'.jobs
  assignments : Rewrites AssignmentEased db.assignments db'.assignments
  aiJobs : Rewrites JobEased db.aiJobs db'.aiJobs
  aiAssignments : Rewrites AssignmentEased db.aiAssignments db'.aiAssignments

theorem IntentKept.refl (r : LedgerIntent) : IntentKept r r := ⟨rfl, rfl, rfl, rfl, id⟩

theorem IntentKept.trans {r s t : LedgerIntent} (h : IntentKept r s) (h' : IntentKept s t) : IntentKept r t :=
  ⟨h'.claimKey.trans h.claimKey, h'.kind.trans h.kind, h'.objectId.trans h.objectId,
    h'.transactionJson.trans h.transactionJson, fun hp => h.pending (h'.pending hp)⟩

theorem JobEased.refl (x : JobRow) : JobEased x x := ⟨rfl, id⟩

theorem JobEased.trans {x y z : JobRow} (h : JobEased x y) (h' : JobEased y z) : JobEased x z :=
  ⟨h'.1.trans h.1, fun hf => h.2 (h'.2 hf)⟩

theorem AssignmentEased.refl (a : AssignmentRow) : AssignmentEased a a := ⟨rfl, rfl, id, id⟩

theorem AssignmentEased.trans {a b d : AssignmentRow} (h : AssignmentEased a b) (h' : AssignmentEased b d) :
    AssignmentEased a d :=
  ⟨h'.assignmentId.trans h.assignmentId, h'.jobId.trans h.jobId, fun hb => h.blocked (h'.blocked hb),
    fun hs => h.settling (h'.settling hs)⟩

section

variable {keys keys' : List String} {db db' db'' : Db}

theorem Eases.refl (keys : List String) (db : Db) : Eases keys db db where
  intents := Rewrites.refl fun r => ⟨IntentKept.refl r, fun _ => rfl⟩
  jobs := Rewrites.refl JobEased.refl
  assignments := Rewrites.refl AssignmentEased.refl
  aiJobs := Rewrites.refl JobEased.refl
  aiAssignments := Rewrites.refl AssignmentEased.refl

theorem Eases.mono (hsub : keys ⊆ keys') (h : Eases keys db db') : Eases keys' db db' :=
  ⟨h.intents.mono fun _ _ hr => ⟨hr.1, fun hout => hr.2 fun hin => hout (hsub hin)⟩, h.jobs, h.assignments, h.aiJobs,
    h.aiAssignments⟩

theorem Eases.trans (h : Eases keys db db') (h' : Eases keys db' db'') : Eases keys db db'' where
  intents := by
    refine Rewrites.trans ?_ h.intents h'.intents
    intro r s t hrs hst
    refine ⟨hrs.1.trans hst.1, ?_⟩
    intro hout
    have hs := hrs.2 hout
    subst hs
    exact hst.2 hout
  jobs := Rewrites.trans (fun _ _ _ => JobEased.trans) h.jobs h'.jobs
  assignments := Rewrites.trans (fun _ _ _ => AssignmentEased.trans) h.assignments h'.assignments
  aiJobs := Rewrites.trans (fun _ _ _ => JobEased.trans) h.aiJobs h'.aiJobs
  aiAssignments := Rewrites.trans (fun _ _ _ => AssignmentEased.trans) h.aiAssignments h'.aiAssignments

/-- updates of intents alone -/
theorem eases_intents {intents : List LedgerIntent}
    (h : Rewrites (fun r r' => IntentKept r r' ∧ (r.claimKey ∉ keys → r' = r)) db.intents intents) :
    Eases keys db { db with intents := intents } :=
  { Eases.refl keys db with intents := h }

/-- a row an update under other claims leaves as it was -/
theorem Eases.row_kept (h : Eases keys db db') {r : LedgerIntent} (hr : r ∈ db.intents) (hout : r.claimKey ∉ keys) :
    r ∈ db'.intents := by
  obtain ⟨r', hr', _, heq⟩ := h.intents.after hr
  rwa [heq hout] at hr'

theorem Eases.row_before (h : Eases keys db db') {r : LedgerIntent} (hr : r ∈ db'.intents) (hout : r.claimKey ∉ keys) :
    r ∈ db.intents := by
  obtain ⟨r₀, hr₀, hkept, heq⟩ := h.intents.before hr
  have hsame := heq (hkept.claimKey ▸ hout)
  rwa [hsame]

theorem Eases.claims (h : Eases keys db db') : db'.intents.map (·.claimKey) = db.intents.map (·.claimKey) :=
  h.intents.column fun _ _ hr => hr.1.claimKey

/-! ## What each update does -/

theorem eases_certify (db : Db) (ck entryHash : String) : Eases [ck] db (db.certifyLedgerIntent ck entryHash) := by
  refine eases_intents (Rewrites.of_map ?_)
  intro r
  by_cases hr : r.claimKey = ck
  · rw [if_pos hr]
    exact ⟨⟨rfl, rfl, rfl, rfl, fun hp => by cases hp⟩, fun hout => absurd (by simp [hr]) hout⟩
  · rw [if_neg hr]
    exact ⟨IntentKept.refl r, fun _ => rfl⟩

theorem eases_defer (db : Db) (ck reason : String) : Eases [ck] db (db.deferLedgerIntent ck reason).1 := by
  refine eases_intents (Rewrites.of_map ?_)
  intro r
  by_cases hr : r.claimKey = ck ∧ r.status = .pending
  · rw [if_pos hr]
    exact ⟨⟨rfl, rfl, rfl, rfl, fun _ => hr.2⟩, fun hout => absurd (by simp [hr.1]) hout⟩
  · rw [if_neg hr]
    exact ⟨IntentKept.refl r, fun _ => rfl⟩

theorem eases_abandon (db : Db) (ck reason : String) : Eases [ck] db (db.abandonLedgerIntent ck reason) := by
  refine eases_intents (Rewrites.of_map ?_)
  intro r
  by_cases hr : r.claimKey = ck ∧ r.status = .pending
  · rw [if_pos hr]
    exact ⟨⟨rfl, rfl, rfl, rfl, fun _ => hr.2⟩, fun hout => absurd (by simp [hr.1]) hout⟩
  · rw [if_neg hr]
    exact ⟨IntentKept.refl r, fun _ => rfl⟩

theorem rewrites_fund (jobs : List JobRow) (jobId : String) : Rewrites JobEased jobs (Db.fund jobs jobId) := by
  refine Rewrites.of_map ?_
  intro x
  by_cases hx : x.jobId = jobId ∧ x.status = .funding
  · rw [if_pos hx]
    exact ⟨rfl, fun _ => hx.2⟩
  · rw [if_neg hx]
    exact JobEased.refl x

theorem rewrites_unblock (assignments : List AssignmentRow) (jobId : String) :
    Rewrites AssignmentEased assignments (Db.unblock assignments jobId) := by
  refine Rewrites.of_map ?_
  intro a
  by_cases ha : a.jobId = jobId ∧ a.status = .blocked
  · rw [if_pos ha]
    exact ⟨rfl, rfl, fun _ => ha.2, fun hs => (by cases hs)⟩
  · rw [if_neg ha]
    exact AssignmentEased.refl a

theorem eases_finalizeReservation (db : Db) (jobId ck entryHash : String) :
    Eases [ck] db (db.finalizeReservationDb jobId ck entryHash) :=
  { eases_certify db ck entryHash with
    jobs := rewrites_fund _ _
    assignments := rewrites_unblock _ _ }

theorem eases_finalizeInference (db : Db) (jobId ck entryHash : String) :
    Eases [ck] db (db.finalizeInferenceReservation jobId ck entryHash) :=
  { eases_certify db ck entryHash with
    aiJobs := rewrites_fund _ _
    aiAssignments := rewrites_unblock _ _ }

theorem eases_closeSettledJob (keys : List String) (db : Db) (jobId : String) :
    Eases keys db (db.closeSettledJob jobId) := by
  unfold Db.closeSettledJob
  dsimp only
  split_ifs with hopen hrefunded
  · exact Eases.refl keys db
  all_goals
    refine { Eases.refl keys db with jobs := Rewrites.of_map ?_ }
    intro x
    by_cases hx : x.jobId = jobId
    · rw [if_pos hx]
      exact ⟨rfl, fun hf => by cases hf⟩
    · rw [if_neg hx]
      exact JobEased.refl x

theorem eases_finalizeReward {db db' : Db} {assignmentId ck entryHash : String}
    (h : db.finalizeRewardDb assignmentId ck entryHash = .ok db') : Eases [ck] db db' := by
  unfold Db.finalizeRewardDb at h
  dsimp only at h
  split at h
  · cases h
  · cases h
    refine Eases.trans ?_ (eases_closeSettledJob _ _ _)
    refine { eases_certify db ck entryHash with assignments := Rewrites.of_map ?_ }
    intro a
    by_cases ha : a.assignmentId = assignmentId ∧ a.status = .settling
    · rw [if_pos ha]
      exact ⟨rfl, rfl, fun hb => (by cases hb), fun _ => ha.2⟩
    · rw [if_neg ha]
      exact AssignmentEased.refl a

theorem eases_recordSettled {db db' : Db} {r : LedgerIntent} {entryHash : String}
    (h : recordSettled db r entryHash = .ok db') : Eases [r.claimKey] db db' := by
  unfold recordSettled at h
  split at h
  · exact eases_finalizeReward h
  · cases h
    exact eases_finalizeReservation _ _ _ _

theorem eases_recoverOne (db : Db) (r : LedgerIntent) (w : IntentAnswers) :
    Eases [r.claimKey] db (recoverOne db r w).1 := by
  unfold recoverOne
  split
  · exact Eases.refl _ db
  · split_ifs
    · exact Eases.refl _ db
    · exact Eases.refl _ db
    · split
      · exact Eases.refl _ db
      · dsimp only
        split
        · exact Eases.refl _ db
        · split
          · exact Eases.refl _ db
          · rename_i hok
            exact eases_recordSettled hok

/-- **Step.** One intent of a pass rewrites its own row and blocks nothing. -/
theorem eases_recoverStep (answers : String → IntentAnswers) (p : Pass) (r : LedgerIntent) :
    Eases [r.claimKey] p.db (recoverStep answers p r).db := by
  have hone := eases_recoverOne p.db r (answers r.claimKey)
  unfold recoverStep
  generalize recoverOne p.db r (answers r.claimKey) = out at hone ⊢
  obtain ⟨db, txs, outcome⟩ := out
  dsimp only at hone ⊢
  split
  · exact hone
  · split_ifs
    · exact (hone.trans (eases_defer _ _ _)).trans (eases_abandon _ _ _)
    · exact hone.trans (eases_defer _ _ _)
  · exact hone.trans (eases_abandon _ _ _)

/-- **Run.** So does a whole pass, row by row. -/
theorem eases_recover (answers : String → IntentAnswers) (rows : List LedgerIntent) (p : Pass) :
    Eases (rows.map (·.claimKey)) p.db (rows.foldl (recoverStep answers) p).db := by
  induction rows generalizing p with
  | nil => exact Eases.refl _ p.db
  | cons r rows ih =>
    refine Eases.trans ?_ ((ih _).mono ?_)
    · exact (eases_recoverStep answers p r).mono (by simp)
    · simp

end

/-! ## Runs of a coordinator -/

/-- everything else the coordinator does: it leaves the intents alone and deletes no shard -/
structure Elsewhere (db db' : Db) : Prop where
  intents : db'.intents = db.intents
  assignments : ∀ a ∈ db.assignments, ∃ a' ∈ db'.assignments, a'.assignmentId = a.assignmentId

/-- the databases a coordinator can have: handlers that persist an intent, the ones that finalize it, recovery passes
under any answers, and everything else, in any order; a crash is a handler that is never finalized -/
inductive Run (c : Crypto) : Db → Prop
  | start : Run c .empty
  | submitJob {db db' : Db} {e : JobReserveEvidence} {now : ℤ} :
      Run c db → submitJob c db e now = some db' → Run c db'
  | seed {db db' : Db} {e : CommunityReserveEvidence} {now : ℤ} : Run c db → seed c db e now = some db' → Run c db'
  | submitInference {db db' : Db} {e : InferenceReserveEvidence} {now : ℤ} :
      Run c db → submitInference c db e now = some db' → Run c db'
  | submitResult {db db' : Db} {e : ProviderRewardEvidence} {now : ℤ} :
      Run c db → submitResult db e now = some db' → Run c db'
  | refundShard {db : Db} (e : JobRefundEvidence) (entryHash : String) (now : ℤ) :
      Run c db → Run c (refundShard db e entryHash now)
  | finalizeReservation {db : Db} (jobId ck entryHash : String) :
      Run c db → Run c (db.finalizeReservationDb jobId ck entryHash)
  | finalizeInference {db : Db} (jobId ck entryHash : String) :
      Run c db → Run c (db.finalizeInferenceReservation jobId ck entryHash)
  | finalizeReward {db db' : Db} {assignmentId ck entryHash : String} :
      Run c db → db.finalizeRewardDb assignmentId ck entryHash = .ok db' → Run c db'
  | recover {db : Db} (answers : String → IntentAnswers) : Run c db → Run c (recoverPending db answers).db
  | elsewhere {db db' : Db} : Run c db → Elsewhere db db' → Run c db'

/-- what holds of every database of a run -/
structure Sound (db : Db) : Prop where
  /-- a claim is filed once -/
  claims : (db.intents.map (·.claimKey)).Nodup
  /-- an intent is filed under its own transaction's claim -/
  readable : ∀ r ∈ db.intents, ∃ tx, r.transactionJson = .ok tx ∧ Ledger.claimKey tx = r.claimKey
  /-- the shard a reward waits for exists -/
  placed : ∀ r ∈ db.intents, r.kind = .providerReward → ∃ a ∈ db.assignments, a.assignmentId = r.objectId

/-- a refund is written down only when it is certified -/
def RefundsCertified (db : Db) : Prop := ∀ r ∈ db.intents, r.kind = .jobRefund → r.status ≠ .pending

section

variable {c : Crypto} {keys : List String} {db db' : Db}

theorem Sound.eases (h : Sound db) (he : Eases keys db db') : Sound db' where
  claims := he.claims ▸ h.claims
  readable := by
    intro r' hr'
    obtain ⟨r, hr, hkept, _⟩ := he.intents.before hr'
    obtain ⟨tx, htx, hck⟩ := h.readable r hr
    exact ⟨tx, hkept.transactionJson.trans htx, hck.trans hkept.claimKey.symm⟩
  placed := by
    intro r' hr' hkind
    obtain ⟨r, hr, hkept, _⟩ := he.intents.before hr'
    obtain ⟨a, ha, hid⟩ := h.placed r hr (hkept.kind ▸ hkind)
    obtain ⟨a', ha', heased⟩ := he.assignments.after ha
    exact ⟨a', ha', by rw [heased.assignmentId, hid, hkept.objectId]⟩

theorem RefundsCertified.eases (h : RefundsCertified db) (he : Eases keys db db') : RefundsCertified db' := by
  intro r' hr' hkind hp
  obtain ⟨r, hr, hkept, _⟩ := he.intents.before hr'
  exact h r hr (hkept.kind ▸ hkind) (hkept.pending hp)

theorem Sound.elsewhere (h : Sound db) (he : Elsewhere db db') : Sound db' where
  claims := he.intents ▸ h.claims
  readable := he.intents ▸ h.readable
  placed := by
    intro r hr hkind
    rw [he.intents] at hr
    obtain ⟨a, ha, hid⟩ := h.placed r hr hkind
    obtain ⟨a', ha', hid'⟩ := he.assignments a ha
    exact ⟨a', ha', hid'.trans hid⟩

theorem RefundsCertified.elsewhere (h : RefundsCertified db) (he : Elsewhere db db') : RefundsCertified db' := by
  intro r hr
  rw [he.intents] at hr
  exact h r hr

/-- persisting files a transaction under its own claim, in a row of its own or in the one that is there -/
theorem Sound.persist (h : Sound db) {tx : LedgerTransaction} {kind : IntentKind} {objectId : String} {now : ℤ}
    (hplaced : kind = .providerReward → ∃ a ∈ db.assignments, a.assignmentId = objectId) :
    Sound (db.persistLedgerIntent (claimKey tx) kind objectId tx now) := by
  unfold Db.persistLedgerIntent
  split_ifs with hthere
  · refine ⟨?_, ?_, ?_⟩
    · have hsame : (db.intents.map fun r => if r.claimKey = claimKey tx then { r with transactionJson := .ok tx }
          else r).map (·.claimKey) = db.intents.map (·.claimKey) := by
        rw [List.map_map]
        refine List.map_congr_left ?_
        intro r _
        by_cases hr : r.claimKey = claimKey tx
        · simp [hr]
        · simp [hr]
      simp only [hsame]
      exact h.claims
    · intro r' hr'
      obtain ⟨r, hr, rfl⟩ := List.mem_map.1 hr'
      split_ifs with hck
      · exact ⟨tx, rfl, hck.symm⟩
      · exact h.readable r hr
    · intro r' hr' hkind
      obtain ⟨r, hr, rfl⟩ := List.mem_map.1 hr'
      split_ifs at hkind ⊢
      · exact h.placed r hr hkind
      · exact h.placed r hr hkind
  · refine ⟨?_, ?_, ?_⟩
    · rw [List.map_append, List.nodup_append]
      refine ⟨h.claims, by simp, ?_⟩
      intro ck hck ck' hck'
      rintro rfl
      obtain ⟨r, hr, hrck⟩ := List.mem_map.1 hck
      simp only [List.map_cons, List.map_nil, List.mem_singleton] at hck'
      exact hthere ⟨r, hr, hrck.trans hck'⟩
    · intro r hr
      rcases List.mem_append.1 hr with hr | hr
      · exact h.readable r hr
      · rw [List.mem_singleton.1 hr]
        exact ⟨tx, rfl, rfl⟩
    · intro r hr hkind
      rcases List.mem_append.1 hr with hr | hr
      · exact h.placed r hr hkind
      · rw [List.mem_singleton.1 hr] at hkind ⊢
        exact hplaced hkind

theorem RefundsCertified.persist (h : RefundsCertified db) {tx : LedgerTransaction} {kind : IntentKind}
    {ck objectId : String} {now : ℤ} (hkind : kind ≠ .jobRefund) :
    RefundsCertified (db.persistLedgerIntent ck kind objectId tx now) := by
  unfold Db.persistLedgerIntent
  split_ifs with hthere
  · intro r' hr' hk
    obtain ⟨r, hr, rfl⟩ := List.mem_map.1 hr'
    split_ifs at hk ⊢
    · exact h r hr hk
    · exact h r hr hk
  · intro r hr hk
    rcases List.mem_append.1 hr with hr | hr
    · exact h r hr hk
    · rw [List.mem_singleton.1 hr] at hk
      exact absurd hk hkind

/-- a refund's own row is certified in the same breath -/
theorem RefundsCertified.refund (h : RefundsCertified db) {tx : LedgerTransaction} {kind : IntentKind}
    {ck objectId entryHash : String} {now : ℤ} :
    RefundsCertified ((db.persistLedgerIntent ck kind objectId tx now).certifyLedgerIntent ck entryHash) := by
  intro r' hr' hk
  obtain ⟨r, hr, rfl⟩ := List.mem_map.1 hr'
  split_ifs at hk ⊢ with hck
  · simp
  · unfold Db.persistLedgerIntent at hr
    split_ifs at hr with hthere
    · obtain ⟨r₀, hr₀, rfl⟩ := List.mem_map.1 hr
      split_ifs at hck hk ⊢ with hck₀
      · exact absurd hck₀ hck
      · exact h r₀ hr₀ hk
    · rcases List.mem_append.1 hr with hr | hr
      · exact h r hr hk
      · rw [List.mem_singleton.1 hr] at hck
        exact absurd rfl hck

theorem insertJob_some {jobs jobs' : List JobRow} {assignments assignments' : List AssignmentRow} {jobId : String}
    {ids : List String} (h : insertJob jobs assignments jobId ids = some (jobs', assignments')) :
    jobs' = jobs ++ [⟨jobId, .funding⟩] ∧ assignments' = assignments ++ ids.map fun id => ⟨id, jobId, .blocked, none⟩ := by
  unfold insertJob at h
  split_ifs at h
  cases h
  exact ⟨rfl, rfl⟩

/-- new shards are one of the things that happen elsewhere -/
theorem elsewhere_insert {jobs : List JobRow} {more : List AssignmentRow} :
    Elsewhere db { db with jobs := jobs, assignments := db.assignments ++ more } :=
  ⟨rfl, fun a ha => ⟨a, List.mem_append_left _ ha, rfl⟩⟩

theorem sound_start : Sound .empty ∧ RefundsCertified .empty := by
  refine ⟨⟨?_, ?_, ?_⟩, ?_⟩ <;> simp [Db.empty, RefundsCertified]

/-- a handler that adds rows and then files its intent -/
theorem sound_file (hs : Sound db) (hr : RefundsCertified db) (he : Elsewhere db db') {tx : LedgerTransaction}
    {kind : IntentKind} {objectId : String} {now : ℤ} (hkind : kind ≠ .jobRefund)
    (hplaced : kind = .providerReward → ∃ a ∈ db'.assignments, a.assignmentId = objectId) :
    Sound (db'.persistLedgerIntent (claimKey tx) kind objectId tx now) ∧
      RefundsCertified (db'.persistLedgerIntent (claimKey tx) kind objectId tx now) :=
  ⟨(hs.elsewhere he).persist hplaced, (hr.elsewhere he).persist hkind⟩

theorem sound_submitResult (hs : Sound db) (hr : RefundsCertified db) {e : ProviderRewardEvidence} {now : ℤ}
    (h : submitResult db e now = some db') : Sound db' ∧ RefundsCertified db' := by
  unfold submitResult at h
  dsimp only at h
  split_ifs at h with hleased
  cases h
  set settling : Db := { db with assignments := db.assignments.map fun a =>
      if a.assignmentId = e.assignmentId ∧ a.status = .leased ∧ a.leasedTo = some e.providerAuth.nodeId then
        { a with status := .settling } else a } with hsettling
  have he : Elsewhere db settling := by
    refine ⟨rfl, ?_⟩
    intro a ha
    refine ⟨_, List.mem_map_of_mem ha, ?_⟩
    split_ifs <;> rfl
  refine sound_file hs hr he (by simp) ?_
  intro _
  obtain ⟨a, ha, hid, _⟩ := hleased
  obtain ⟨a', ha', hid'⟩ := he.assignments a ha
  exact ⟨a', ha', hid'.trans hid⟩

theorem sound_refundShard (hs : Sound db) (hr : RefundsCertified db) (e : JobRefundEvidence) (entryHash : String)
    (now : ℤ) : Sound (refundShard db e entryHash now) ∧ RefundsCertified (refundShard db e entryHash now) := by
  unfold refundShard
  dsimp only
  set tx := jobRefundTransaction e now
  have hsound : Sound ((db.persistLedgerIntent (claimKey tx) .jobRefund e.assignmentId tx now).certifyLedgerIntent
      (claimKey tx) entryHash) := (hs.persist (by simp)).eases (eases_certify _ _ _)
  have hrefund : RefundsCertified ((db.persistLedgerIntent (claimKey tx) .jobRefund e.assignmentId tx
      now).certifyLedgerIntent (claimKey tx) entryHash) := hr.refund
  generalize (db.persistLedgerIntent (claimKey tx) .jobRefund e.assignmentId tx now).certifyLedgerIntent
    (claimKey tx) entryHash = certified at hsound hrefund ⊢
  set marked : Db := { certified with assignments := certified.assignments.map fun a =>
      if a.assignmentId = e.assignmentId then { a with status := .refunded } else a } with hmarked
  have he : Elsewhere certified marked := by
    refine ⟨rfl, ?_⟩
    intro a ha
    refine ⟨_, List.mem_map_of_mem ha, ?_⟩
    split_ifs <;> rfl
  have hclose := eases_closeSettledJob [] marked e.jobId
  exact ⟨(hsound.elsewhere he).eases hclose, (hrefund.elsewhere he).eases hclose⟩

/-- **Run.** Every database of a run is sound. -/
theorem Run.sound (h : Run c db) : Sound db ∧ RefundsCertified db := by
  induction h with
  | start => exact sound_start
  | submitJob _ hstep ih =>
    simp only [Coordinator.submitJob, Option.bind_eq_bind, Option.bind_eq_some_iff, Option.pure_def,
      Option.some.injEq] at hstep
    obtain ⟨⟨jobs, assignments⟩, hins, rfl⟩ := hstep
    obtain ⟨rfl, rfl⟩ := insertJob_some hins
    exact sound_file ih.1 ih.2 elsewhere_insert (by simp) (by simp)
  | seed _ hstep ih =>
    simp only [Coordinator.seed, Option.bind_eq_bind, Option.bind_eq_some_iff, Option.pure_def,
      Option.some.injEq] at hstep
    obtain ⟨⟨jobs, assignments⟩, hins, rfl⟩ := hstep
    obtain ⟨rfl, rfl⟩ := insertJob_some hins
    exact sound_file ih.1 ih.2 elsewhere_insert (by simp) (by simp)
  | @submitInference db _ _ _ _ hstep ih =>
    simp only [Coordinator.submitInference, Option.bind_eq_bind, Option.bind_eq_some_iff, Option.pure_def,
      Option.some.injEq] at hstep
    obtain ⟨⟨aiJobs, aiAssignments⟩, _, rfl⟩ := hstep
    have he : Elsewhere db { db with aiJobs := aiJobs, aiAssignments := aiAssignments } :=
      ⟨rfl, fun a ha => ⟨a, ha, rfl⟩⟩
    exact sound_file ih.1 ih.2 he (by simp) (by simp)
  | submitResult _ hstep ih => exact sound_submitResult ih.1 ih.2 hstep
  | refundShard e entryHash now _ ih => exact sound_refundShard ih.1 ih.2 e entryHash now
  | finalizeReservation jobId ck entryHash _ ih =>
    exact ⟨ih.1.eases (eases_finalizeReservation _ _ _ _), ih.2.eases (eases_finalizeReservation _ _ _ _)⟩
  | finalizeInference jobId ck entryHash _ ih =>
    exact ⟨ih.1.eases (eases_finalizeInference _ _ _ _), ih.2.eases (eases_finalizeInference _ _ _ _)⟩
  | finalizeReward _ hstep ih =>
    exact ⟨ih.1.eases (eases_finalizeReward hstep), ih.2.eases (eases_finalizeReward hstep)⟩
  | @recover db answers _ ih =>
    have he := eases_recover answers db.pendingIntents ⟨db, ⟨0, 0, 0⟩, []⟩
    exact ⟨ih.1.eases he, ih.2.eases he⟩
  | elsewhere _ he ih => exact ⟨ih.1.elsewhere he, ih.2.elsewhere he⟩

end

/-! ## One intent of a pass -/

/-- the objects of an intent are waiting for its entry -/
def Blocked (db : Db) (r : LedgerIntent) : Prop :=
  match r.kind with
  | .jobReserve | .communityReserve =>
    (∃ x ∈ db.jobs, x.jobId = r.objectId ∧ x.status = .funding) ∨
      ∃ a ∈ db.assignments, a.jobId = r.objectId ∧ a.status = .blocked
  | .inferenceReserve =>
    (∃ x ∈ db.aiJobs, x.jobId = r.objectId ∧ x.status = .funding) ∨
      ∃ a ∈ db.aiAssignments, a.jobId = r.objectId ∧ a.status = .blocked
  | .providerReward | .jobRefund => ∃ a ∈ db.assignments, a.assignmentId = r.objectId ∧ a.status = .settling

/-- the row of an intent that was finalized -/
def LedgerIntent.certified (r : LedgerIntent) (entryHash : String) : LedgerIntent :=
  { r with status := .certified, entryHash := some entryHash, lastError := none }

section

variable {keys : List String} {db db' : Db} {r : LedgerIntent}

/-- nothing that eases blocks an object -/
theorem Eases.unblocked (h : Eases keys db db') (hfree : ¬ Blocked db r) : ¬ Blocked db' r := by
  have hjob : ∀ {jobs jobs' : List JobRow} {assignments assignments' : List AssignmentRow}, Rewrites JobEased jobs jobs' →
      Rewrites AssignmentEased assignments assignments' →
      ((∃ x ∈ jobs', x.jobId = r.objectId ∧ x.status = .funding) ∨
        ∃ a ∈ assignments', a.jobId = r.objectId ∧ a.status = .blocked) →
      (∃ x ∈ jobs, x.jobId = r.objectId ∧ x.status = .funding) ∨
        ∃ a ∈ assignments, a.jobId = r.objectId ∧ a.status = .blocked := by
    intro jobs jobs' assignments assignments' hj ha hb
    rcases hb with ⟨x, hx, hid, hst⟩ | ⟨a, hin, hid, hst⟩
    · obtain ⟨x₀, hx₀, hid₀, hst₀⟩ := hj.before hx
      exact Or.inl ⟨x₀, hx₀, hid₀.symm.trans hid, hst₀ hst⟩
    · obtain ⟨a₀, ha₀, hkept⟩ := ha.before hin
      exact Or.inr ⟨a₀, ha₀, hkept.jobId.symm.trans hid, hkept.blocked hst⟩
  have hshard : (∃ a ∈ db'.assignments, a.assignmentId = r.objectId ∧ a.status = .settling) →
      ∃ a ∈ db.assignments, a.assignmentId = r.objectId ∧ a.status = .settling := by
    rintro ⟨a, hin, hid, hst⟩
    obtain ⟨a₀, ha₀, hkept⟩ := h.assignments.before hin
    exact ⟨a₀, ha₀, hkept.assignmentId.symm.trans hid, hkept.settling hst⟩
  unfold Blocked at hfree ⊢
  intro hb
  cases hk : r.kind with
  | jobReserve =>
    rw [hk] at hfree hb
    exact hfree (hjob h.jobs h.assignments hb)
  | communityReserve =>
    rw [hk] at hfree hb
    exact hfree (hjob h.jobs h.assignments hb)
  | inferenceReserve =>
    rw [hk] at hfree hb
    exact hfree (hjob h.aiJobs h.aiAssignments hb)
  | providerReward =>
    rw [hk] at hfree hb
    exact hfree (hshard hb)
  | jobRefund =>
    rw [hk] at hfree hb
    exact hfree (hshard hb)

theorem mem_certify (hr : r ∈ db.intents) (entryHash : String) :
    r.certified entryHash ∈ (db.certifyLedgerIntent r.claimKey entryHash).intents :=
  List.mem_map.2 ⟨r, hr, by simp [LedgerIntent.certified]⟩

theorem closeSettledJob_intents (db : Db) (jobId : String) : (db.closeSettledJob jobId).intents = db.intents := by
  unfold Db.closeSettledJob
  dsimp only
  split_ifs <;> rfl

theorem closeSettledJob_assignments (db : Db) (jobId : String) :
    (db.closeSettledJob jobId).assignments = db.assignments := by
  unfold Db.closeSettledJob
  dsimp only
  split_ifs <;> rfl

/-- a funded job and its shards are no longer waiting -/
theorem finalizeReservation_frees (hk : r.kind = .jobReserve ∨ r.kind = .communityReserve) (ck entryHash : String) :
    ¬ Blocked (db.finalizeReservationDb r.objectId ck entryHash) r := by
  have hfree : ¬ ((∃ x ∈ Db.fund db.jobs r.objectId, x.jobId = r.objectId ∧ x.status = .funding) ∨
      ∃ a ∈ Db.unblock db.assignments r.objectId, a.jobId = r.objectId ∧ a.status = .blocked) := by
    rintro (⟨x, hx, hid, hst⟩ | ⟨a, ha, hid, hst⟩)
    · obtain ⟨x₀, _, rfl⟩ := List.mem_map.1 hx
      split_ifs at hid hst with h0
      exact h0 ⟨hid, hst⟩
    · obtain ⟨a₀, _, rfl⟩ := List.mem_map.1 ha
      split_ifs at hid hst with h0
      exact h0 ⟨hid, hst⟩
  unfold Blocked
  rcases hk with hk | hk <;> rw [hk] <;> exact hfree

/-- **Recording.** The entry of a known kind of intent can be recorded; its row is certified and its object is free. -/
theorem recordSettled_frees (hs : Sound db) (hr : r ∈ db.intents)
    (hk : r.kind = .jobReserve ∨ r.kind = .communityReserve ∨ r.kind = .providerReward) (entryHash : String) :
    ∃ db', recordSettled db r entryHash = .ok db' ∧ r.certified entryHash ∈ db'.intents ∧ ¬ Blocked db' r := by
  rcases hk with hk | hk | hk
  · refine ⟨db.finalizeReservationDb r.objectId r.claimKey entryHash, ?_, mem_certify hr entryHash,
      finalizeReservation_frees (Or.inl hk) _ _⟩
    rw [recordSettled, hk]
  · refine ⟨db.finalizeReservationDb r.objectId r.claimKey entryHash, ?_, mem_certify hr entryHash,
      finalizeReservation_frees (Or.inr hk) _ _⟩
    rw [recordSettled, hk]
  · obtain ⟨a, ha, hid⟩ := hs.placed r hr hk
    obtain ⟨found, hfound⟩ : ∃ found, db.assignments.find? (fun a => a.assignmentId = r.objectId) = some found := by
      rw [← Option.isSome_iff_exists, List.find?_isSome]
      exact ⟨a, ha, by simpa using hid⟩
    have hfound' : (db.certifyLedgerIntent r.claimKey entryHash).assignments.find?
        (fun a => a.assignmentId = r.objectId) = some found := hfound
    refine ⟨_, by rw [recordSettled, hk]; simp only [Db.finalizeRewardDb, hfound']; rfl, ?_, ?_⟩
    · rw [closeSettledJob_intents]
      exact mem_certify hr entryHash
    · unfold Blocked
      rw [hk]
      simp only [closeSettledJob_assignments]
      rintro ⟨b, hb, hbid, hst⟩
      obtain ⟨b₀, _, rfl⟩ := List.mem_map.1 hb
      split_ifs at hbid hst with h0
      exact h0 ⟨hbid, hst⟩

variable {answers : String → IntentAnswers} {p : Pass}

theorem recoverStep_proposed (answers : String → IntentAnswers) (p : Pass) (r : LedgerIntent) :
    (recoverStep answers p r).proposed =
      p.proposed ++ (recoverOne p.db r (answers r.claimKey)).2.1.map fun tx => (r.claimKey, tx) := by
  unfold recoverStep
  generalize recoverOne p.db r (answers r.claimKey) = out
  obtain ⟨db, txs, outcome⟩ := out
  dsimp only
  split
  · rfl
  · split_ifs <;> rfl
  · rfl

/-- what a pass proposes under a claim, only that claim's own intent proposes -/
theorem recover_proposed_other {ck : String} (rows : List LedgerIntent) (hout : ∀ s ∈ rows, s.claimKey ≠ ck) (p : Pass) :
    (rows.foldl (recoverStep answers) p).proposed.filter (fun x => x.1 = ck) = p.proposed.filter fun x => x.1 = ck := by
  induction rows generalizing p with
  | nil => rfl
  | cons s rows ih =>
    rw [List.foldl_cons, ih fun t ht => hout t (List.mem_cons_of_mem _ ht)]
    have hs : s.claimKey ≠ ck := hout s (List.mem_cons_self ..)
    rw [recoverStep_proposed, List.filter_append]
    simp [hs]

/-- **An intent that settles.** Its kind is known, the quorum answers, and the entry is there or can be made. -/
theorem recoverStep_settles (hs : Sound p.db) (hr : r ∈ p.db.intents)
    (hk : r.kind = .jobReserve ∨ r.kind = .communityReserve ∨ r.kind = .providerReward) {tx : LedgerTransaction}
    (htx : r.transactionJson = .ok tx) {existing : ClaimProof} (hclaim : (answers r.claimKey).claim = .ok existing)
    {entryHash : String} (hentry : (answers r.claimKey).entryHash existing.entryHash = .ok entryHash) :
    r.certified entryHash ∈ (recoverStep answers p r).db.intents ∧ ¬ Blocked (recoverStep answers p r).db r ∧
      (recoverStep answers p r).proposed =
        p.proposed ++ if existing.entryHash = none then [(r.claimKey, tx)] else [] := by
  obtain ⟨db', hrec, hin, hfree⟩ := recordSettled_frees hs hr hk entryHash
  have hck : claimKey tx = r.claimKey := by
    obtain ⟨tx', htx', hck⟩ := hs.readable r hr
    rw [htx] at htx'
    cases htx'
    exact hck
  have hknown : ¬ (r.kind ≠ .jobReserve ∧ r.kind ≠ .communityReserve ∧ r.kind ≠ .providerReward) := by
    rcases hk with hk | hk | hk <;> simp [hk]
  have hone : recoverOne p.db r (answers r.claimKey) =
      (db', if existing.entryHash = none then [tx] else [], .ok entryHash) := by
    simp only [recoverOne, htx, ne_eq, hck, not_true_eq_false, if_false, if_neg hknown, hclaim, hentry, hrec]
  have hstep : (recoverStep answers p r).db = db' := by
    simp only [recoverStep, hone]
  refine ⟨hstep ▸ hin, hstep ▸ hfree, ?_⟩
  rw [recoverStep_proposed, hone]
  split_ifs <;> rfl

/-- deferring and parking certify nothing -/
theorem defer_status (reason : String) {s : LedgerIntent} (hin : s ∈ (db.deferLedgerIntent r.claimKey reason).1.intents) :
    ∃ s₀ ∈ db.intents, s₀.claimKey = s.claimKey ∧ (s.status = .certified → s₀.status = .certified) := by
  obtain ⟨s₀, hs₀, rfl⟩ := List.mem_map.1 hin
  refine ⟨s₀, hs₀, ?_⟩
  split_ifs <;> simp

theorem abandon_status (reason : String) {s : LedgerIntent} (hin : s ∈ (db.abandonLedgerIntent r.claimKey reason).intents) :
    ∃ s₀ ∈ db.intents, s₀.claimKey = s.claimKey ∧ (s.status = .certified → s₀.status = .certified) := by
  obtain ⟨s₀, hs₀, rfl⟩ := List.mem_map.1 hin
  refine ⟨s₀, hs₀, ?_⟩
  split_ifs <;> simp

/-- **An intent that does not settle** is not certified: what failed wrote nothing, and deferring or parking certifies
nothing. -/
theorem recoverStep_fails (hs : Sound p.db) (hr : r ∈ p.db.intents) (hp : r.status = .pending) {txs : List LedgerTransaction}
    {fault : IntentFault} (hone : recoverOne p.db r (answers r.claimKey) = (p.db, txs, .error fault)) :
    ∀ s ∈ (recoverStep answers p r).db.intents, s.claimKey = r.claimKey → s.status ≠ .certified := by
  have hown : ∀ s₀ ∈ p.db.intents, s₀.claimKey = r.claimKey → s₀.status ≠ .certified := by
    intro s₀ hs₀ hck
    rw [List.inj_on_of_nodup_map hs.claims hs₀ hr hck, hp]
    simp
  intro s hin hck hcert
  cases fault with
  | terminal why =>
    have hdb : (recoverStep answers p r).db = p.db.abandonLedgerIntent r.claimKey why := by
      simp only [recoverStep, hone]
    rw [hdb] at hin
    obtain ⟨s₀, hs₀, hck₀, hst₀⟩ := abandon_status why hin
    exact hown s₀ hs₀ (hck₀.trans hck) (hst₀ hcert)
  | transient why =>
    have hdefer : ∀ s ∈ (p.db.deferLedgerIntent r.claimKey why).1.intents, s.claimKey = r.claimKey →
        s.status ≠ .certified := by
      intro s hin hck hcert
      obtain ⟨s₀, hs₀, hck₀, hst₀⟩ := defer_status why hin
      exact hown s₀ hs₀ (hck₀.trans hck) (hst₀ hcert)
    simp only [recoverStep, hone] at hin
    split_ifs at hin
    · obtain ⟨s₁, hs₁, hck₁, hst₁⟩ := abandon_status _ hin
      exact hdefer s₁ hs₁ (hck₁.trans hck) (hst₁ hcert)
    · exact hdefer s hin hck hcert

end

/-! ## A whole pass -/

/-- a quorum that can be reached answers a lookup with the entry the claim was settled by, if it was -/
def Reaches (answers : String → IntentAnswers) (settled : String → Option String) : Prop :=
  ∀ ck, ∃ existing, (answers ck).claim = .ok existing ∧ existing.entryHash = settled ck

/-- what recovery owes a pending intent -/
structure Recovered (db : Db) (answers : String → IntentAnswers) (settled : String → Option String) (r : LedgerIntent) :
    Prop where
  /-- a certified claim is not proposed again, and an absent one is proposed once, exactly as persisted -/
  proposed : ∃ tx, r.transactionJson = .ok tx ∧ (recoverPending db answers).proposed.filter (fun x => x.1 = r.claimKey) =
    if settled r.claimKey = none then [(r.claimKey, tx)] else []
  /-- its row is certified, under the entry that carries the claim -/
  finalized : ∃ s ∈ (recoverPending db answers).db.intents, s.claimKey = r.claimKey ∧ s.status = .certified ∧
    s.entryHash = ((answers r.claimKey).entryHash (settled r.claimKey)).toOption
  /-- it is not parked -/
  kept : ∀ s ∈ (recoverPending db answers).db.intents, s.claimKey = r.claimKey → s.status ≠ .unrecoverable
  /-- its objects are no longer blocked -/
  freed : ¬ Blocked (recoverPending db answers).db r

section

variable {c : Crypto} {db : Db} {answers : String → IntentAnswers} {r : LedgerIntent}

/-- a pending intent is judged once in a pass, and the others judged before and after it have other claims -/
theorem pending_split (hs : Sound db) (hr : r ∈ db.intents) (hp : r.status = .pending) :
    ∃ pre post, db.pendingIntents = pre ++ r :: post ∧ r.claimKey ∉ pre.map (·.claimKey) ∧
      r.claimKey ∉ post.map (·.claimKey) := by
  have hperm : db.pendingIntents.Perm (db.intents.filter fun r => r.status = .pending) := List.perm_insertionSort _ _
  have hin : r ∈ db.pendingIntents := hperm.mem_iff.2 (List.mem_filter.2 ⟨hr, by simpa using hp⟩)
  obtain ⟨pre, post, hsplit⟩ := List.append_of_mem hin
  have hnodup : (db.pendingIntents.map (·.claimKey)).Nodup :=
    (hperm.map _).nodup_iff.2 (hs.claims.sublist (List.filter_sublist.map _))
  rw [hsplit, List.map_append, List.map_cons, List.nodup_append] at hnodup
  refine ⟨pre, post, hsplit, ?_, (List.nodup_cons.1 hnodup.2.1).1⟩
  intro hpre
  exact hnodup.2.2 _ hpre _ (List.mem_cons_self ..) rfl

/-- the pass as one intent sees it: others before it, itself, others after it -/
theorem recoverPending_split (answers : String → IntentAnswers) (hs : Sound db) (hr : r ∈ db.intents) (hp : r.status = .pending) :
    ∃ (p : Pass) (keys : List String), Sound p.db ∧ r ∈ p.db.intents ∧
      p.proposed.filter (fun x => x.1 = r.claimKey) = [] ∧ r.claimKey ∉ keys ∧
      Eases keys (recoverStep answers p r).db (recoverPending db answers).db ∧
      (recoverPending db answers).proposed.filter (fun x => x.1 = r.claimKey) =
        (recoverStep answers p r).proposed.filter fun x => x.1 = r.claimKey := by
  obtain ⟨pre, post, hsplit, hpre, hpost⟩ := pending_split hs hr hp
  have hother : ∀ {rows : List LedgerIntent}, r.claimKey ∉ rows.map (·.claimKey) → ∀ s ∈ rows, s.claimKey ≠ r.claimKey :=
    fun hout s hin heq => hout (List.mem_map.2 ⟨s, hin, heq⟩)
  have hbefore := eases_recover answers pre ⟨db, ⟨0, 0, 0⟩, []⟩
  refine ⟨pre.foldl (recoverStep answers) ⟨db, ⟨0, 0, 0⟩, []⟩, post.map (·.claimKey), hs.eases hbefore,
    hbefore.row_kept hr hpre, ?_, hpost, ?_, ?_⟩
  · rw [recover_proposed_other pre (hother hpre)]
    rfl
  · rw [recoverPending, hsplit, List.foldl_append, List.foldl_cons]
    exact eases_recover answers post _
  · rw [recoverPending, hsplit, List.foldl_append, List.foldl_cons]
    exact recover_proposed_other post (hother hpost) _

/-- there is an entry to record when the claim is settled or the proposal goes through -/
theorem IntentAnswers.settles_iff (w : IntentAnswers) (found : Option String) :
    ((∃ entryHash, found = some entryHash) ∨ ∃ cert, w.reply = .ok cert) ↔
      ∃ entryHash, w.entryHash found = .ok entryHash := by
  cases found with
  | some hash => simp [IntentAnswers.entryHash]
  | none =>
    cases hreply : w.reply with
    | error e => simp [IntentAnswers.entryHash, hreply, Except.map]
    | ok cert => simp [IntentAnswers.entryHash, hreply, Except.map]

/-- an intent that settles is recovered, whatever else is in the pass -/
theorem recovered_of_known (hs : Sound db) (hr : r ∈ db.intents) (hp : r.status = .pending)
    {settled : String → Option String} (hreach : Reaches answers settled)
    (hk : r.kind = .jobReserve ∨ r.kind = .communityReserve ∨ r.kind = .providerReward) {entryHash : String}
    (hentry : (answers r.claimKey).entryHash (settled r.claimKey) = .ok entryHash) :
    Recovered db answers settled r := by
  obtain ⟨p, keys, hsp, hrp, hnone, hout, hafter, hproposed⟩ := recoverPending_split answers hs hr hp
  obtain ⟨existing, hclaim, hexisting⟩ := hreach r.claimKey
  obtain ⟨tx, htx, _⟩ := hsp.readable r hrp
  obtain ⟨hcert, hfree, hprop⟩ := recoverStep_settles hsp hrp hk htx hclaim (hexisting ▸ hentry)
  have hrow := hafter.row_kept hcert hout
  have hclaims : ((recoverPending db answers).db.intents.map (·.claimKey)).Nodup := by
    have := (hsp.eases (eases_recoverStep answers p r)).eases hafter
    exact this.claims
  refine ⟨⟨tx, htx, ?_⟩, ⟨_, hrow, rfl, rfl, ?_⟩, ?_, hafter.unblocked hfree⟩
  · rw [hproposed, hprop, List.filter_append, hnone, hexisting, List.nil_append]
    split_ifs <;> simp
  · rw [hentry]
    rfl
  · intro s hin hck
    rw [List.inj_on_of_nodup_map hclaims hin hrow hck]
    simp [LedgerIntent.certified]

/-- an intent that does not settle is not recovered -/
theorem not_recovered_of_fault (hs : Sound db) (hr : r ∈ db.intents) (hp : r.status = .pending)
    {settled : String → Option String}
    (hfault : ∀ p : Pass, Sound p.db → r ∈ p.db.intents →
      ∃ txs fault, recoverOne p.db r (answers r.claimKey) = (p.db, txs, .error fault)) :
    ¬ Recovered db answers settled r := by
  obtain ⟨p, keys, hsp, hrp, _, hout, hafter, _⟩ := recoverPending_split answers hs hr hp
  obtain ⟨txs, fault, hone⟩ := hfault p hsp hrp
  intro hrec
  obtain ⟨s, hin, hck, hcert, _⟩ := hrec.finalized
  exact recoverStep_fails hsp hrp hp hone s (hafter.row_before hin (hck ▸ hout)) hck hcert

end

/-- an intent that is not pending is not judged: its row stays, and nothing is proposed for it -/
theorem recoverPending_others {db : Db} (hs : Sound db) {r : LedgerIntent} (hr : r ∈ db.intents) (hp : r.status ≠ .pending)
    (answers : String → IntentAnswers) :
    r ∈ (recoverPending db answers).db.intents ∧
      (recoverPending db answers).proposed.filter (fun x => x.1 = r.claimKey) = [] := by
  have hout : ∀ s ∈ db.pendingIntents, s.claimKey ≠ r.claimKey := by
    intro s hin heq
    obtain ⟨hs', hpending⟩ := List.mem_filter.1 ((List.perm_insertionSort _ _).mem_iff.1 hin)
    rw [List.inj_on_of_nodup_map hs.claims hs' hr heq] at hpending
    exact hp (by simpa using hpending)
  refine ⟨?_, recover_proposed_other _ hout _⟩
  refine (eases_recover answers _ ⟨db, ⟨0, 0, 0⟩, []⟩).row_kept hr ?_
  intro hin
  obtain ⟨s, hs', heq⟩ := List.mem_map.1 hin
  exact hout s hs' heq

/-- **Crash recovery.** Take any database a run of handlers, crashes and recovery passes can leave, and a pass over it with
a quorum that can be reached. The pass recovers a pending intent if and only if it is not an inference reservation and its
claim is settled or the quorum still takes its transaction. An intent that is certified or parked already it leaves
alone. -/
theorem recovery_complete_iff {c : Crypto} {db : Db} (h : Run c db) {answers : String → IntentAnswers}
    {settled : String → Option String} (hreach : Reaches answers settled) :
    ∀ r ∈ db.intents,
      (r.status = .pending → (Recovered db answers settled r ↔ r.kind ≠ .inferenceReserve ∧
        ((∃ entryHash, settled r.claimKey = some entryHash) ∨ ∃ cert, (answers r.claimKey).reply = .ok cert))) ∧
      (r.status ≠ .pending → r ∈ (recoverPending db answers).db.intents ∧
        (recoverPending db answers).proposed.filter (fun x => x.1 = r.claimKey) = []) := by
  obtain ⟨hs, hrefund⟩ := h.sound
  intro r hr
  refine ⟨?_, fun hp => recoverPending_others hs hr hp answers⟩
  intro hp
  rw [IntentAnswers.settles_iff]
  constructor
  · intro hrec
    by_contra hcond
    refine not_recovered_of_fault hs hr hp ?_ hrec
    intro p hsp hrp
    obtain ⟨tx, htx, hck⟩ := hsp.readable r hrp
    obtain ⟨existing, hclaim, hexisting⟩ := hreach r.claimKey
    by_cases hk : r.kind = .inferenceReserve
    · -- the kind is refused before anybody is asked
      simp only [recoverOne, htx, ne_eq, hck, not_true_eq_false, if_false, hk, reduceCtorEq, not_false_eq_true, and_self,
        if_true]
      exact ⟨_, _, rfl⟩
    · have hrefused : ∃ e, (answers r.claimKey).entryHash existing.entryHash = .error e := by
        rw [hexisting]
        cases hentry : (answers r.claimKey).entryHash (settled r.claimKey) with
        | error e => exact ⟨e, rfl⟩
        | ok hash => exact absurd ⟨hk, hash, hentry⟩ hcond
      obtain ⟨e, he⟩ := hrefused
      simp only [recoverOne, htx, ne_eq, hck, not_true_eq_false, if_false, hclaim, he]
      split_ifs
      all_goals exact ⟨_, _, rfl⟩
  · rintro ⟨hk, entryHash, hentry⟩
    refine recovered_of_known hs hr hp hreach ?_ hentry
    cases hkind : r.kind with
    | jobReserve => exact Or.inl rfl
    | communityReserve => exact Or.inr (Or.inl rfl)
    | providerReward => exact Or.inr (Or.inr rfl)
    | inferenceReserve => exact absurd hkind hk
    | jobRefund => exact absurd hp (hrefund r hr hkind)

/-! ## A crash in each kind of reservation -/

namespace Sample

open Hocmesh.Protocol.Sample

/-- a seeded community job, and what its handler proposes -/
def mintEvidence : CommunityReserveEvidence :=
  { jobId := "seed", work := smallWork, shards := 1
    sponsors := signatures [0] (communityReserveSigningMessage crypto "seed" smallWork 1 (jobCostMcu smallWork 1)) }

def mint : LedgerTransaction := communityReserveTransaction mintEvidence 100

/-- community escrow going back once the window of the seeded job has closed -/
def seedRefund : JobRefundEvidence :=
  ⟨"seed", assignmentId crypto "seed" 0, 0, workCostMcu smallWork, smallWork, true, none, none⟩

/-- an inference job that node 5 pays for -/
def inferenceEvidence : InferenceReserveEvidence :=
  { jobId := smallJob, requesterPublicKeyB64 := publicKeyB64 5, billing := smallBilling, settingsDigest := "settings"
    requesterAuth := authProof 5 300 "nonce" "submit_inference"
      (inferenceSubmitBodyHash crypto (inferenceBillingHash crypto smallBilling) "settings")
    batches := [smallBatch] }

def reserve : LedgerTransaction := inferenceReserveTransaction inferenceEvidence 300

/-- the only validator, answering from a store, and a client that proposes to it -/
def answersFrom (st : LedgerStore) (tx : LedgerTransaction) (ck : String) : IntentAnswers where
  claim := .ok (claimProof crypto ⟨st, committee 1, nodeId 0, sign 0⟩ ck)
  reply := .ok (certify (committee 1) [0] st [tx])

theorem answersFrom_reaches (st : LedgerStore) (tx : LedgerTransaction) :
    Reaches (answersFrom st tx) fun ck => (st.claimDetail ck).map (·.2) :=
  fun _ => ⟨_, rfl, rfl⟩

/-- the intent a handler has just written -/
def written (kind : IntentKind) (jobId : String) (tx : LedgerTransaction) (now : ℤ) : LedgerIntent :=
  ⟨claimKey tx, kind, jobId, .ok tx, .pending, none, 0, none, now⟩

/-- the database `seed` leaves, if the coordinator then stops -/
def seeded : Db :=
  { Db.empty with
    intents := [written .communityReserve "seed" mint 100]
    jobs := [⟨"seed", .funding⟩]
    assignments := [⟨assignmentId crypto "seed" 0, "seed", .blocked, none⟩] }

theorem seeded_run : Run crypto seeded := by
  refine @Run.seed _ _ _ mintEvidence 100 Run.start ?_
  have hparts : (splitWork smallWork 1).length = 1 := by decide
  simp [seed, hparts, insertJob, Db.empty, Db.persistLedgerIntent, seeded, written, mint, mintEvidence]

/-- the database `submit_inference` leaves, if the coordinator then stops -/
def submitted : Db :=
  { Db.empty with
    intents := [written .inferenceReserve smallJob reserve 300]
    aiJobs := [⟨smallJob, .funding⟩]
    aiAssignments := [⟨inferenceAssignmentId crypto smallJob 0, smallJob, .blocked, none⟩] }

theorem submitted_run : Run crypto submitted := by
  refine @Run.submitInference _ _ _ inferenceEvidence 300 Run.start ?_
  simp [submitInference, insertJob, Db.empty, Db.persistLedgerIntent, submitted, written, reserve, inferenceEvidence]

end Sample

/-- an inference reservation that the ledger certified before the coordinator stopped is parked, and its job stays in
funding -/
theorem inference_reserve_parked :
    ∃ db r answers settled, Run Sample.crypto db ∧ r ∈ db.intents ∧ r.status = .pending ∧ Reaches answers settled ∧
      (∃ entryHash, settled r.claimKey = some entryHash) ∧ ¬ Recovered db answers settled r ∧
      (∃ s ∈ (recoverPending db answers).db.intents, s.claimKey = r.claimKey ∧ s.status = .unrecoverable) ∧
      Blocked (recoverPending db answers).db r := by
  -- the validator has settled the reservation under the claim the intent names
  obtain ⟨st, -, -, -, -, hsettled⟩ := Sample.small_run
  set r := Sample.written .inferenceReserve Sample.smallJob Sample.reserve 300 with hr
  have hpass : (recoverPending Sample.submitted (Sample.answersFrom st Sample.reserve)).db =
      Sample.submitted.abandonLedgerIntent r.claimKey "unknown ledger intent kind inference_reserve" := by
    simp [recoverPending, Db.pendingIntents, Sample.submitted, recoverStep, recoverOne, Sample.written, hr]
    rfl
  have hparked : ∃ s ∈ (recoverPending Sample.submitted (Sample.answersFrom st Sample.reserve)).db.intents,
      s.claimKey = r.claimKey ∧ s.status = .unrecoverable := by
    rw [hpass]
    refine ⟨_, List.mem_map.2 ⟨r, List.mem_singleton.2 rfl, rfl⟩, ?_⟩
    simp [hr, Sample.written]
  refine ⟨Sample.submitted, r, _, _, Sample.submitted_run, List.mem_singleton.2 rfl, rfl,
    Sample.answersFrom_reaches st Sample.reserve, Option.isSome_iff_exists.1 hsettled, ?_, hparked, ?_⟩
  · intro hrec
    obtain ⟨s, hin, hck, hst⟩ := hparked
    exact hrec.kept s hin hck hst
  · rw [hpass]
    exact Or.inl ⟨_, List.mem_singleton.2 rfl, rfl, rfl⟩

/-- a seeded job whose coordinator stopped before it proposed the mint is recovered by the first pass that finds the
validator -/
theorem seeded_job_recovered :
    ∃ db r answers settled, Run Sample.crypto db ∧ r ∈ db.intents ∧ r.kind = .communityReserve ∧
      settled r.claimKey = none ∧ Recovered db answers settled r := by
  have hreach := Sample.answersFrom_reaches LedgerStore.empty Sample.mint
  have hin : Sample.written .communityReserve "seed" Sample.mint 100 ∈ Sample.seeded.intents := List.mem_singleton.2 rfl
  have hiff := (recovery_complete_iff Sample.seeded_run hreach _ hin).1 rfl
  refine ⟨_, _, _, _, Sample.seeded_run, hin, rfl, rfl, hiff.2 ⟨by simp [Sample.written], ?_⟩⟩
  exact Or.inr ⟨_, rfl⟩

end Hocmesh.Coordinator
