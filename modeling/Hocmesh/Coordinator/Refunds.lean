/-
Escrow behind the coordinator: which shards `refund_shard` turns away.

The handler looks at the shard's status before it proposes anything: a shard that settled has nothing to give back, and
one whose reservation was never certified holds nothing. The status `settling` is refused with them. A shard gets there
when a result is reported, and leaves it when a reward is certified, so a reward that misses its window leaves the shard
where it is: too late to be paid, and not to be refunded. `NoStuckEscrow` is what refunding is for; it holds of every run
in which rewards and reservations reach the chain inside the window (`escrow_never_stuck`).
-/
import Hocmesh.Coordinator.Outcomes

namespace Hocmesh.Coordinator

open Hocmesh.Base Hocmesh.Protocol Hocmesh.Compute Hocmesh.Ledger Hocmesh.Validator

/-! ## The gate -/

structure RefundRequest where
  assignmentId : String
  auth : Option AuthProof
deriving DecidableEq

def AssignmentStatus.text : AssignmentStatus → String
  | .pending => "pending"
  | .blocked => "blocked"
  | .leased => "leased"
  | .settling => "settling"
  | .completed => "completed"
  | .refunded => "refunded"

/-- the shard a request names, joined with its job -/
def Office.shard? (o : Office) (assignmentId : String) : Option (AssignmentRow × ShardFacts) := do
  let a ← o.db.assignments.find? fun a => a.assignmentId = assignmentId
  let f ← o.facts.find? fun f => f.assignmentId = assignmentId
  pure (a, f)

/-- who may claim is decided by who funded: the key of the requester whose signature checked out, if one is needed;
`authenticated` is what `authenticate_known_node` and the look-up of the key said -/
def refundPayer (f : ShardFacts) (auth : Option AuthProof) (authenticated : Check String) : Check (Option String) :=
  match auth, f.systemFunded with
  | some _, true => .error "community escrow returns to the issuance account, not to a node"
  | none, false => .error "escrow somebody paid for needs that requester's signature"
  | none, true => .ok none
  | some auth, false => do
    bailIf (f.requester ≠ some auth.nodeId) "only the requester who funded this job can reclaim its escrow"
    let publicKey ← authenticated
    pure (some publicKey)

/-- `refund_shard` up to its proposal, which it returns -/
def refundGate (o : Office) (req : RefundRequest) (authenticated : Check String) : Check LedgerTransaction := do
  let (a, f) ← orBail (o.shard? req.assignmentId) "unknown assignment"
  bailIf (a.status ≠ .pending ∧ a.status ≠ .leased) s!"a shard in state '{a.status.text}' holds no reclaimable escrow"
  bailIf (o.now ≤ windowEnd f.createdAt) "the settlement window for this shard has not closed yet"
  let publicKey ← refundPayer f req.auth authenticated
  pure (jobRefundTransaction ⟨f.jobId, req.assignmentId, f.shardIndex, workCostMcu f.work, f.work, f.systemFunded,
    publicKey, req.auth⟩ o.now)

/-- a shard whose result is in is turned away, however late it is -/
theorem refundGate_settling {o : Office} {req : RefundRequest} {a : AssignmentRow} {f : ShardFacts}
    (hshard : o.shard? req.assignmentId = some (a, f)) (hst : a.status = .settling) (authenticated : Check String) :
    refundGate o req authenticated = .error "a shard in state 'settling' holds no reclaimable escrow" := by
  obtain ⟨id, jobId, status, nodeId⟩ := a
  subst hst
  unfold refundGate
  rw [hshard]
  rfl

/-! ## No escrow is stuck -/

/-- the request is the requester's own: signed by who funded the job, or unsigned for community escrow -/
def OwnRequest (f : ShardFacts) (req : RefundRequest) (authenticated : Check String) : Prop :=
  (f.systemFunded = true ∧ req.auth = none) ∨
    f.systemFunded = false ∧ ∃ auth key, req.auth = some auth ∧ f.requester = some auth.nodeId ∧ authenticated = .ok key

/-- a shard of a certified reservation whose window has closed with nothing certified under its claim is refunded to its
requester on request: the gate lets the refund through to the quorum -/
def NoStuckEscrow (o : Office) : Prop :=
  ∀ req authenticated a f, o.shard? req.assignmentId = some (a, f) → o.Spent (reserveKey f.jobId) →
    windowEnd f.createdAt < o.now → ¬ o.Spent (rewardKey req.assignmentId) → OwnRequest f req authenticated →
    ∃ tx, refundGate o req authenticated = .ok tx ∧ claimKey tx = rewardKey req.assignmentId

/-- the shard, its job and its window, as a condition on an act sees them -/
def Office.AnyShard (o : Office) (p : AssignmentRow → ShardFacts → Prop) : Prop :=
  ∀ a ∈ o.db.assignments, ∀ f ∈ o.facts, f.assignmentId = a.assignmentId → p a f

/-- results are reported and reservations certified inside the window, and a window closes on no shard that still waits
for a reward or for its reservation to be written down -/
def Office.Prompt (o : Office) : Act → Prop
  | .reportResult e => o.AnyShard fun a f => a.assignmentId = e.assignmentId → o.now ≤ windowEnd f.createdAt
  | .certify tx => o.AnyShard fun a f =>
      a.status = .blocked → claimKey tx = reserveKey f.jobId → o.now ≤ windowEnd f.createdAt
  | .tick now => o.AnyShard fun a f => windowEnd f.createdAt < now →
      (a.status = .settling → o.Spent (rewardKey a.assignmentId)) ∧
        (a.status = .blocked → ¬ o.Spent (reserveKey f.jobId))
  | .submitJob _ | .seed _ => o.now ≤ windowEnd o.now
  | _ => True

/-- what a prompt run keeps -/
structure Office.Open (o : Office) : Prop where
  /-- a shard that reads settled has an entry under its claim -/
  outcome : ∀ a ∈ o.db.assignments, a.status = .completed ∨ a.status = .refunded → o.Spent (rewardKey a.assignmentId)
  known : ∀ f ∈ o.facts, ∃ a ∈ o.db.assignments, a.assignmentId = f.assignmentId
  settling : o.AnyShard fun a f =>
    a.status = .settling → ¬ o.Spent (rewardKey a.assignmentId) → o.now ≤ windowEnd f.createdAt
  blocked : o.AnyShard fun a f => a.status = .blocked → o.Spent (reserveKey f.jobId) → o.now ≤ windowEnd f.createdAt

section

variable {c : Crypto} {o : Office}

/-- an open office refunds -/
theorem Office.Open.no_stuck (h : o.Open) : NoStuckEscrow o := by
  intro req authenticated a f hshard hreserved hclosed hfree hown
  have hshard' := hshard
  simp only [Office.shard?, Option.bind_eq_bind, Option.bind_eq_some_iff, Option.pure_def, Option.some.injEq,
    Prod.mk.injEq] at hshard'
  obtain ⟨a', ha, f', hf, rfl, rfl⟩ := hshard'
  have hain := List.mem_of_find?_eq_some ha
  have hfin := List.mem_of_find?_eq_some hf
  have haid : a'.assignmentId = req.assignmentId := by simpa using List.find?_some ha
  have hfid : f'.assignmentId = req.assignmentId := by simpa using List.find?_some hf
  have hsame : f'.assignmentId = a'.assignmentId := hfid.trans haid.symm
  have hstatus : a'.status = .pending ∨ a'.status = .leased := by
    rw [← haid] at hfree
    cases hst : a'.status with
    | pending => exact Or.inl rfl
    | leased => exact Or.inr rfl
    | blocked => exact absurd (h.blocked a' hain f' hfin hsame hst hreserved) (not_le.2 hclosed)
    | settling => exact absurd (h.settling a' hain f' hfin hsame hst hfree) (not_le.2 hclosed)
    | completed => exact absurd (h.outcome a' hain (Or.inl hst)) hfree
    | refunded => exact absurd (h.outcome a' hain (Or.inr hst)) hfree
  obtain ⟨key, hkey⟩ : ∃ key, refundPayer f' req.auth authenticated = .ok key := by
    rcases hown with ⟨hfund, hauth⟩ | ⟨hfund, auth, key, hauth, hreq, hok⟩
    · exact ⟨none, by simp [refundPayer, hfund, hauth]⟩
    · exact ⟨some key, by simp [refundPayer, hfund, hauth, hreq, hok, bailIf]⟩
  refine ⟨jobRefundTransaction ⟨f'.jobId, req.assignmentId, f'.shardIndex, workCostMcu f'.work, f'.work, f'.systemFunded,
    key, req.auth⟩ o.now, ?_, rfl⟩
  simp only [refundGate, bind_ok, orBail_ok, bailIf_ok, exists_const, pure_ok]
  refine ⟨(a', f'), hshard, ?_, not_le.2 hclosed, key, hkey, rfl⟩
  rintro ⟨hp, hl⟩
  exact hstatus.elim hp hl

/-! ## Runs -/

theorem map_id_kept {rows : List AssignmentRow} {g : AssignmentRow → AssignmentRow}
    (hg : ∀ a, (g a).assignmentId = a.assignmentId) {a : AssignmentRow} (ha : a ∈ rows) :
    ∃ a' ∈ rows.map g, a'.assignmentId = a.assignmentId :=
  ⟨g a, List.mem_map_of_mem ha, hg a⟩

theorem Eases.shard_kept {keys : List String} {db db' : Db} (h : Eases keys db db') {a : AssignmentRow}
    (ha : a ∈ db.assignments) : ∃ a' ∈ db'.assignments, a'.assignmentId = a.assignmentId := by
  obtain ⟨a', ha', heased⟩ := h.assignments.after ha
  exact ⟨a', ha', heased.assignmentId⟩

/-- no act deletes a shard -/
theorem step_kept (act : Act) {a : AssignmentRow} (ha : a ∈ o.db.assignments) :
    ∃ a' ∈ (o.step c act).db.assignments, a'.assignmentId = a.assignmentId := by
  have hstay : ∃ a' ∈ o.db.assignments, a'.assignmentId = a.assignmentId := ⟨a, ha, rfl⟩
  cases act with
  | submitJob e =>
    simp only [Office.step]
    split
    · exact hstay
    · rename_i db hdb
      obtain ⟨jobs, rows, ids, hins, _, rfl⟩ := submitJob_ok hdb
      obtain ⟨rfl, _⟩ := insertJob_assignments hins
      exact ⟨a, by rw [persist_assignments]; exact List.mem_append_left _ ha, rfl⟩
  | seed e =>
    simp only [Office.step]
    split
    · exact hstay
    · rename_i db hdb
      obtain ⟨jobs, rows, ids, hins, _, rfl⟩ := seed_ok hdb
      obtain ⟨rfl, _⟩ := insertJob_assignments hins
      exact ⟨a, by rw [persist_assignments]; exact List.mem_append_left _ ha, rfl⟩
  | finalizeReservation tx entryHash =>
    simp only [Office.step]
    split
    · exact hstay
    · split_ifs
      · exact (eases_finalizeReservation ..).shard_kept ha
      · exact hstay
  | lease id nodeId => exact map_id_kept (by intro a; split_ifs <;> rfl) ha
  | expire ids => exact map_id_kept (by intro a; split_ifs <;> rfl) ha
  | reject id => exact map_id_kept (by intro a; split_ifs <;> rfl) ha
  | reportResult e =>
    simp only [Office.step]
    split
    · exact hstay
    · rename_i db hdb
      rw [submitResult_assignments hdb]
      exact map_id_kept (by intro a; split_ifs <;> rfl) ha
  | finalizeReward e entryHash =>
    simp only [Office.step]
    split_ifs
    · split
      · exact hstay
      · rename_i db hdb
        exact (eases_finalizeReward hdb).shard_kept ha
    · exact hstay
  | refundShard e entryHash =>
    simp only [Office.step]
    split_ifs
    · rw [refundShard_assignments]
      exact map_id_kept (by intro a; split_ifs <;> rfl) ha
    · exact hstay
  | recover r w =>
    simp only [Office.step]
    split_ifs
    · exact (eases_recoverStep _ _ _).shard_kept ha
    · exact hstay
  | submitInference e =>
    simp only [Office.step]
    split
    · exact hstay
    · rename_i db hdb
      obtain ⟨_, _, rfl⟩ := submitInference_ok hdb
      exact ⟨a, by rw [persist_assignments]; exact ha, rfl⟩
  | _ =>
    simp only [Office.step]
    repeat' split
    all_goals exact hstay

/-- the rows and the facts of a new job name the same shards -/
theorem mem_shardFacts {jobId : String} {work : WorkSpec} {shards : ℕ} {systemFunded : Bool} {requester : Option String}
    {now : ℤ} {f : ShardFacts} (h : f ∈ shardFacts c jobId work shards systemFunded requester now) :
    f.createdAt = now ∧ f.assignmentId ∈ (List.range (splitWork work shards).length).map (assignmentId c jobId) := by
  obtain ⟨p, hp, rfl⟩ := List.mem_map.1 h
  refine ⟨rfl, List.mem_map.2 ⟨p.2, ?_, rfl⟩⟩
  have := List.mem_zipIdx hp
  exact List.mem_range.2 (by omega)

/-- **Step.** A shard whose facts are new was not there before, and is there now. -/
theorem step_facts {act : Act} {f : ShardFacts} (h : f ∈ (o.step c act).facts) :
    f ∈ o.facts ∨ act.opens ∧ f.createdAt = o.now ∧ (∀ a ∈ o.db.assignments, a.assignmentId ≠ f.assignmentId) ∧
      ∃ a ∈ (o.step c act).db.assignments, a.assignmentId = f.assignmentId := by
  cases act with
  | submitJob e =>
    simp only [Office.step] at h ⊢
    split at h
    · exact Or.inl h
    · rename_i db hdb
      obtain ⟨jobs, rows, ids, hins, rfl, rfl⟩ := submitJob_ok hdb
      obtain ⟨rfl, hfresh⟩ := insertJob_assignments hins
      rcases List.mem_append.1 h with hold | hnew
      · exact Or.inl hold
      · obtain ⟨hat, hid⟩ := mem_shardFacts hnew
        refine Or.inr ⟨trivial, hat, fun a ha heq => hfresh a ha (heq ▸ hid), ?_⟩
        simp only [persist_assignments]
        exact ⟨⟨f.assignmentId, e.jobId, .blocked, none⟩,
          List.mem_append_right _ (List.mem_map.2 ⟨_, hid, rfl⟩), rfl⟩
  | seed e =>
    simp only [Office.step] at h ⊢
    split at h
    · exact Or.inl h
    · rename_i db hdb
      obtain ⟨jobs, rows, ids, hins, rfl, rfl⟩ := seed_ok hdb
      obtain ⟨rfl, hfresh⟩ := insertJob_assignments hins
      rcases List.mem_append.1 h with hold | hnew
      · exact Or.inl hold
      · obtain ⟨hat, hid⟩ := mem_shardFacts hnew
        refine Or.inr ⟨trivial, hat, fun a ha heq => hfresh a ha (heq ▸ hid), ?_⟩
        simp only [persist_assignments]
        exact ⟨⟨f.assignmentId, e.jobId, .blocked, none⟩,
          List.mem_append_right _ (List.mem_map.2 ⟨_, hid, rfl⟩), rfl⟩
  | _ =>
    left
    simp only [Office.step] at h
    repeat' split at h
    all_goals exact h

theorem step_now (c : Crypto) (o : Office) (act : Act) : (o.step c act).now = o.now ∨
    ∃ now, act = .tick now ∧ (o.step c act).now = now ∧ (o.step c act).chain = o.chain := by
  cases act with
  | tick now =>
    simp only [Office.step]
    split_ifs
    · exact Or.inr ⟨now, rfl, rfl, rfl⟩
    · exact Or.inl rfl
  | _ =>
    left
    simp only [Office.step]
    repeat' split
    all_goals rfl

theorem Office.Spent.step {ck : String} (h : o.Spent ck) (act : Act) : (o.step c act).Spent ck := by
  obtain ⟨tx, htx, hck⟩ := h
  rcases step_chain c o act with heq | ⟨t, _, _, heq⟩
  · exact ⟨tx, heq ▸ htx, hck⟩
  · exact ⟨tx, heq ▸ List.mem_append_left _ htx, hck⟩

theorem spent_of_step {ck : String} {act : Act} (h : (o.step c act).Spent ck) :
    o.Spent ck ∨ ∃ tx, act = .certify tx ∧ claimKey tx = ck := by
  obtain ⟨tx, htx, hck⟩ := h
  rcases step_chain c o act with heq | ⟨t, hact, _, heq⟩
  · exact Or.inl ⟨tx, heq ▸ htx, hck⟩
  · rw [heq] at htx
    rcases List.mem_append.1 htx with hold | hnew
    · exact Or.inl ⟨tx, hold, hck⟩
    · rw [List.mem_singleton.1 hnew] at hck
      exact Or.inr ⟨t, hact, hck⟩

/-- a shard moves to a final status only with an entry under its claim -/
theorem ShardMove.spent (hf : o.Filed) {act : Act} {id : String} {status status' : AssignmentStatus}
    (h : ShardMove o act id status status') (hfinal : status' = .completed ∨ status' = .refunded) :
    status = status' ∨ o.Spent (rewardKey id) := by
  cases h with
  | stay => exact Or.inl rfl
  | @pay e entryHash hcert =>
    obtain ⟨tx, htx, hev⟩ := hcert
    exact Or.inr ⟨tx, htx, by simp only [claimKey, hev, rewardKey]⟩
  | @recover r w hkind hrow hspent =>
    obtain ⟨s, hs, hck, hk, hobj⟩ := hrow
    have hkey : r.claimKey = rewardKey r.objectId := by
      rw [← hck, ← hobj]
      exact hf.intents s hs (hk.trans hkind)
    exact Or.inr (hkey ▸ hspent)
  | @refund e entryHash _ hcert =>
    obtain ⟨tx, htx, hev⟩ := hcert
    exact Or.inr ⟨tx, htx, by simp only [claimKey, hev, rewardKey]⟩
  | _ => rcases hfinal with h | h <;> cases h

theorem Office.Open.step (h : o.Open) (hf : o.Filed) {act : Act} (hp : o.Prompt act) : (o.step c act).Open where
  outcome := by
    intro a' ha' hfinal
    rcases step_shard ha' with ⟨_, hblocked, _⟩ | ⟨a, ha, hid, hmove⟩
    · rw [hblocked] at hfinal
      rcases hfinal with hst | hst <;> cases hst
    · rw [hid]
      apply Office.Spent.step
      rcases hmove.spent hf hfinal with hsame | hspent
      · exact h.outcome a ha (hsame ▸ hfinal)
      · exact hspent
  known := by
    intro f hfacts
    rcases step_facts hfacts with hold | ⟨_, _, _, hthere⟩
    · obtain ⟨a, ha, hid⟩ := h.known f hold
      obtain ⟨a', ha', hid'⟩ := step_kept act ha
      exact ⟨a', ha', hid'.trans hid⟩
    · exact hthere
  settling := by
    intro a' ha' f hfacts hid hst hfree
    rcases step_shard ha' with ⟨_, hblocked, _⟩ | ⟨a, ha, hid', hmove⟩
    · rw [hblocked] at hst
      cases hst
    · have hold : f ∈ o.facts := by
        rcases step_facts hfacts with hold | ⟨_, _, hnew, _⟩
        · exact hold
        · exact absurd (hid'.symm.trans hid.symm) (hnew a ha)
      have hfree' : ¬ o.Spent (rewardKey a.assignmentId) := fun hs => hfree (hid' ▸ hs.step act)
      rw [hst] at hmove
      generalize hstatus : a.status = status at hmove
      generalize hname : a.assignmentId = id at hmove
      cases hmove with
      | stay =>
        rcases step_now c o act with hnow | ⟨now, rfl, hnow, _⟩
        · rw [hnow]
          exact h.settling a ha f hold (hid.trans hid') hstatus hfree'
        · rw [hnow]
          by_contra hlate
          exact hfree' ((hp a ha f hold (hid.trans hid') (not_le.1 hlate)).1 hstatus)
      | settle e =>
        rcases step_now c o (.reportResult e) with hnow | ⟨_, hact, _⟩
        · rw [hnow]
          exact hp a ha f hold (hid.trans hid') hname
        · cases hact
  blocked := by
    intro a' ha' f hfacts hid hst hspent
    rcases step_shard ha' with ⟨hopens, _, hfresh⟩ | ⟨a, ha, hid', hmove⟩
    · rcases step_facts hfacts with hold | ⟨_, hat, _⟩
      · obtain ⟨a, ha, heq⟩ := h.known f hold
        exact absurd (heq.trans hid) (hfresh a ha)
      · have hopen : o.now ≤ windowEnd o.now := by
          cases act with
          | submitJob e => exact hp
          | seed e => exact hp
          | _ => exact hopens.elim
        rw [hat]
        rcases step_now c o act with hnow | ⟨now, rfl, _⟩
        · rw [hnow]
          exact hopen
        · exact hopens.elim
    · have hold : f ∈ o.facts := by
        rcases step_facts hfacts with hold | ⟨_, _, hnew, _⟩
        · exact hold
        · exact absurd (hid'.symm.trans hid.symm) (hnew a ha)
      rw [hst] at hmove
      generalize hstatus : a.status = status at hmove
      generalize a.assignmentId = id at hmove
      cases hmove with
      | stay =>
        rcases step_now c o act with hnow | ⟨now, rfl, hnow, hchain⟩
        · rw [hnow]
          rcases spent_of_step hspent with hwas | ⟨tx, rfl, hck⟩
          · exact h.blocked a ha f hold (hid.trans hid') hstatus hwas
          · exact hp a ha f hold (hid.trans hid') hstatus hck
        · rw [hnow]
          by_contra hlate
          have hwas : o.Spent (reserveKey f.jobId) := by
            rw [Office.Spent, hchain] at hspent
            exact hspent
          exact (hp a ha f hold (hid.trans hid') (not_le.1 hlate)).2 hstatus hwas

/-- **No escrow is stuck.** In every state of a run in which rewards and reservations reach the chain inside the window,
a shard whose window has closed with nothing under its claim is refunded to its requester. -/
theorem escrow_never_stuck {acts : List Act} (hall : EachAct c Office.Prompt acts) : NoStuckEscrow (Office.run c acts) := by
  suffices h : (Office.run c acts).Open from h.no_stuck
  induction acts using List.reverseRecOn with
  | nil =>
    constructor
    all_goals simp [Office.run, Office.opened, Db.empty, Office.AnyShard]
  | append_singleton acts act ih =>
    obtain ⟨hbefore, hlast⟩ := hall.snoc
    rw [run_snoc]
    exact (ih hbefore).step (Office.filed_run c acts) hlast

end

/-- a seeded job that nobody takes: its window closes and anyone may have its escrow returned -/
def unclaimed : List Act :=
  [.tick 100, .seed Sample.mintEvidence, .certify Sample.mint, .finalizeReservation Sample.mint "mint", .tick 3000000]

/-- the request for the seeded shard -/
def seedRequest : RefundRequest := ⟨assignmentId Sample.crypto "seed" 0, none⟩

theorem unclaimed_refunded : ∃ tx, refundGate (Office.run Sample.crypto unclaimed) seedRequest (.error "unsigned") = .ok tx ∧
    claimKey tx = rewardKey seedRequest.assignmentId := by
  have hprompt : EachAct Sample.crypto Office.Prompt unclaimed := by
    intro i act hact
    have hlen : i < 5 := (List.getElem?_eq_some_iff.1 hact).1
    interval_cases i <;> cases hact <;> unfold Office.Prompt
    · unfold Office.AnyShard
      decide +kernel
    · decide +kernel
    · unfold Office.AnyShard
      decide +kernel
    · trivial
    · unfold Office.AnyShard
      decide +kernel
  obtain ⟨hshard, hreserved, hclosed, hfree⟩ : (Office.run Sample.crypto unclaimed).shard? seedRequest.assignmentId =
        some (⟨assignmentId Sample.crypto "seed" 0, "seed", .pending, none⟩,
          ⟨assignmentId Sample.crypto "seed" 0, "seed", 0, Sample.smallWork, true, none, 100⟩) ∧
      (Office.run Sample.crypto unclaimed).Spent (reserveKey "seed") ∧
      windowEnd 100 < (Office.run Sample.crypto unclaimed).now ∧
      ¬ (Office.run Sample.crypto unclaimed).Spent (rewardKey seedRequest.assignmentId) := by decide +kernel
  exact escrow_never_stuck hprompt seedRequest (.error "unsigned") _ _ hshard hreserved hclosed hfree (Or.inl ⟨rfl, rfl⟩)

/-- a result reported inside the window whose reward never reached the chain: the window closes, the shard is still
settling and the refund is turned away -/
theorem late_reward_sticks :
    let o := Office.run Sample.crypto (Sample.reported ++ [.tick 3000000])
    o.Spent (reserveKey "seed") ∧ ¬ o.Spent (rewardKey seedRequest.assignmentId) ∧ windowEnd 100 < o.now ∧
      refundGate o seedRequest (.error "unsigned") = .error "a shard in state 'settling' holds no reclaimable escrow" ∧
      ¬ NoStuckEscrow o := by
  intro o
  obtain ⟨hreserved, hfree, hclosed, hshard⟩ : o.Spent (reserveKey "seed") ∧ ¬ o.Spent (rewardKey seedRequest.assignmentId) ∧
      windowEnd 100 < o.now ∧ o.shard? seedRequest.assignmentId =
        some (⟨assignmentId Sample.crypto "seed" 0, "seed", .settling, some (Sample.nodeId 5)⟩,
          ⟨assignmentId Sample.crypto "seed" 0, "seed", 0, Sample.smallWork, true, none, 100⟩) := by decide +kernel
  have hgate : refundGate o seedRequest (.error "unsigned") =
      .error "a shard in state 'settling' holds no reclaimable escrow" := refundGate_settling hshard rfl _
  refine ⟨hreserved, hfree, hclosed, hgate, ?_⟩
  intro h
  obtain ⟨tx, htx, _⟩ := h seedRequest (.error "unsigned") _ _ hshard hreserved hclosed hfree (Or.inl ⟨rfl, rfl⟩)
  rw [hgate] at htx
  cases htx

end Hocmesh.Coordinator
