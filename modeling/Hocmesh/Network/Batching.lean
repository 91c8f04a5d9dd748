/-
Callers sharing rounds (`LedgerNetwork::transact`).

Each caller queues its transaction and then waits for the gate. Whoever gets the gate drains a bounded prefix of the queue,
which may not contain its own transaction, settles it, and answers the callers it drained. The machine below interleaves
any number of callers with the steps of whoever holds the gate and with other tasks that move the client's set.

What keeps a long queue from being stranded is `Served.covered`: there are never more transactions queued than callers
that have yet to take the gate, since each takes it once and takes at least one transaction when there is one.
-/
import Hocmesh.Network.Settle
import Hocmesh.Books.Sample

namespace Hocmesh.Network

open Hocmesh.Base Hocmesh.Protocol Hocmesh.Ledger Hocmesh.Validator

/-- the most transactions one entry will carry -/
def maxBatch : ℕ := 512

/-- an answer sent to a caller, with the sets the client held while its batch was being settled -/
structure Reply where
  outcome : Except String QuorumCertificate
  during : List ValidatorSet

/-- where a call of `transact` stands: waiting for the gate, inside it, or past it and waiting for its answer -/
inductive CallStage where
  | waiting
  | leading
  | parked
deriving DecidableEq

structure Call where
  tx : LedgerTransaction
  stage : CallStage
  replies : List Reply

/-- the gate: free, or held by a caller that is settling a batch or sending its answers out -/
inductive Gate where
  | free
  | settling (leader : ℕ) (batch : List (ℕ × LedgerTransaction)) (held : List ValidatorSet)
  | replying (leader : ℕ) (outbox : List (ℕ × Reply))

/-- a client with everybody who has ever called it; a queued transaction carries the number of its caller -/
structure Desk where
  client : LedgerNetwork
  calls : List Call
  queue : List (ℕ × LedgerTransaction)
  gate : Gate

namespace Desk

def start (n : LedgerNetwork) : Desk := ⟨n, [], [], .free⟩

/-- a new caller: queue the transaction, then ask for the gate -/
def transact (d : Desk) (tx : LedgerTransaction) : Desk :=
  { d with calls := d.calls ++ [⟨tx, .waiting, []⟩], queue := d.queue ++ [(d.calls.length, tx)] }

/-- another task has moved the client's set -/
def adopt (d : Desk) (set : ValidatorSet) (height : ℕ) : Desk :=
  { d with
    client := { d.client with set := set, setSequence := height }
    gate := match d.gate with
      | .settling leader batch held => .settling leader batch (held ++ [set])
      | gate => gate }

/-- caller `k` has the gate and drains the queue -/
def lead (d : Desk) (k : ℕ) (call : Call) : Desk :=
  let batch := d.queue.take (min d.queue.length maxBatch)
  let rest := d.queue.drop (min d.queue.length maxBatch)
  if batch = [] then { d with calls := d.calls.set k { call with stage := .parked }, queue := rest }
  else { d with calls := d.calls.set k { call with stage := .leading }, queue := rest
                gate := .settling k batch [d.client.set] }

/-- the answers of a settled batch, each with its caller -/
def outbox (batch : List (ℕ × LedgerTransaction)) (held : List ValidatorSet)
    (outcomes : List (Except String QuorumCertificate)) : List (ℕ × Reply) :=
  List.zipWith (fun p outcome => (p.1, ⟨outcome, held⟩)) batch outcomes

/-- the batch is settled: one answer for each of its callers -/
def settled (d : Desk) (c : Crypto) (leader : ℕ) (batch : List (ℕ × LedgerTransaction)) (held : List ValidatorSet)
    (w : SettleAnswers) : Desk :=
  let (client, outcomes) := settle c d.client (batch.map (·.2)) w
  { d with client := client
           gate := .replying leader (outbox batch held outcomes) }

def reply (d : Desk) (leader k : ℕ) (call : Call) (r : Reply) (rest : List (ℕ × Reply)) : Desk :=
  { d with calls := d.calls.set k { call with replies := call.replies ++ [r] }, gate := .replying leader rest }

def release (d : Desk) (leader : ℕ) (call : Call) : Desk :=
  { d with calls := d.calls.set leader { call with stage := .parked }, gate := .free }

/-- every set the client holds until a batch is settled, the one it refreshes to included -/
def window (held : List ValidatorSet) (w : SettleAnswers) : List ValidatorSet := held ++ (w.refresh.map (·.1)).toList

/-- the steps that serve the callers there are -/
inductive Serve (c : Crypto) : Desk → Desk → Prop
  | lead {d : Desk} {k : ℕ} {call : Call} : d.gate = .free → d.calls[k]? = some call → call.stage = .waiting →
      Serve c d (d.lead k call)
  | settle {d : Desk} {leader : ℕ} {batch : List (ℕ × LedgerTransaction)} {held : List ValidatorSet}
      {w : SettleAnswers} : d.gate = .settling leader batch held → w.Reads (window held w) →
      Serve c d (d.settled c leader batch (window held w) w)
  | reply {d : Desk} {leader k : ℕ} {call : Call} {r : Reply} {rest : List (ℕ × Reply)} :
      d.gate = .replying leader ((k, r) :: rest) → d.calls[k]? = some call → Serve c d (d.reply leader k call r rest)
  | release {d : Desk} {leader : ℕ} {call : Call} : d.gate = .replying leader [] → d.calls[leader]? = some call →
      Serve c d (d.release leader call)

/-- everything that can happen, in any order: new calls, a set that moves, and service, whose steps are counted -/
inductive Run (c : Crypto) (n : LedgerNetwork) : ℕ → Desk → Prop
  | start : Run c n 0 (start n)
  | transact {steps : ℕ} {d : Desk} (tx : LedgerTransaction) : Run c n steps d → Run c n steps (d.transact tx)
  | adopt {steps : ℕ} {d : Desk} (set : ValidatorSet) (height : ℕ) : Run c n steps d → Run c n steps (d.adopt set height)
  | serve {steps : ℕ} {d d' : Desk} : Run c n steps d → Serve c d d' → Run c n (steps + 1) d'

/-! ## Who is still waiting for what -/

/-- the callers whose transactions the holder of the gate has taken and not yet answered -/
def taken (d : Desk) : List ℕ :=
  match d.gate with
  | .free => []
  | .settling _ batch _ => batch.map (·.1)
  | .replying _ outbox => outbox.map (·.1)

/-- every caller whose answer is still to come -/
def pending (d : Desk) : List ℕ := d.queue.map (·.1) ++ d.taken

def waiting (d : Desk) : ℕ := d.calls.countP fun call => call.stage = .waiting

def leader? (d : Desk) : Option ℕ :=
  match d.gate with
  | .free => none
  | .settling k _ _ => some k
  | .replying k _ => some k

/-- how many steps of service are left at most -/
def work (d : Desk) : ℕ :=
  3 * d.waiting + d.pending.length + match d.gate with
    | .free => 0
    | .settling _ _ _ => 2
    | .replying _ _ => 1

/-- an answer is right for the transaction it is sent for -/
def Right (c : Crypto) (tx : LedgerTransaction) (r : Reply) : Prop :=
  ∀ cert, r.outcome = .ok cert → Settles c r.during tx cert

/-- the transactions of the callers, by their numbers -/
def txs (d : Desk) : List LedgerTransaction := d.calls.map (·.tx)

/-- what holds of the callers however their steps interleave -/
structure Served (c : Crypto) (d : Desk) : Prop where
  /-- a queued transaction is its caller's own -/
  queued : ∀ p ∈ d.queue, d.txs[p.1]? = some p.2
  batched : ∀ k batch held, d.gate = .settling k batch held → held ≠ [] ∧ ∀ p ∈ batch, d.txs[p.1]? = some p.2
  boxed : ∀ k outbox, d.gate = .replying k outbox → ∀ p ∈ outbox, ∃ tx, d.txs[p.1]? = some tx ∧ Right c tx p.2
  /-- nobody is owed two answers -/
  once : d.pending.Nodup
  owed : ∀ (k : ℕ) (call : Call), d.calls[k]? = some call → k ∈ d.pending → call.replies = []
  answered : ∀ (k : ℕ) (call : Call), d.calls[k]? = some call → k ∉ d.pending → call.replies.length = 1
  covered : d.queue.length ≤ d.waiting
  led : ∀ k, d.leader? = some k → ∃ call, d.calls[k]? = some call ∧ call.stage = .leading
  right : ∀ (k : ℕ) (call : Call), d.calls[k]? = some call → ∀ r ∈ call.replies, Right c call.tx r

section

variable {c : Crypto} {d : Desk}

theorem served_start (n : LedgerNetwork) : Served c (start n) where
  queued := by simp [start]
  batched := by simp [start]
  boxed := by simp [start]
  once := by simp [start, pending, taken]
  owed := by simp [start]
  answered := by simp [start]
  covered := by simp [start]
  led := by simp [start, leader?]
  right := by simp [start]

/-- only callers there are can be owed an answer -/
theorem Served.known (h : Served c d) {k : ℕ} (hk : k ∈ d.pending) : k < d.calls.length := by
  have hlen : ∀ tx, d.txs[k]? = some tx → k < d.calls.length := by
    intro tx htx
    have := (List.getElem?_eq_some_iff.1 htx).1
    rwa [txs, List.length_map] at this
  rcases List.mem_append.1 hk with hq | ht
  · obtain ⟨p, hp, rfl⟩ := List.mem_map.1 hq
    exact hlen _ (h.queued p hp)
  · unfold taken at ht
    split at ht
    · cases ht
    · rename_i hgate
      obtain ⟨p, hp, rfl⟩ := List.mem_map.1 ht
      exact hlen _ ((h.batched _ _ _ hgate).2 p hp)
    · rename_i hgate
      obtain ⟨p, hp, rfl⟩ := List.mem_map.1 ht
      obtain ⟨tx, htx, _⟩ := h.boxed _ _ hgate p hp
      exact hlen _ htx

/-! ## One step at a time -/

theorem Served.transact (h : Served c d) (tx : LedgerTransaction) : Served c (d.transact tx) := by
  have hgrow : ∀ (k : ℕ) (t : LedgerTransaction), d.txs[k]? = some t → (d.transact tx).txs[k]? = some t := by
    intro k t ht
    have hlt := (List.getElem?_eq_some_iff.1 ht).1
    simp only [Desk.transact, txs, List.map_append] at ht hlt ⊢
    rw [List.getElem?_append_left hlt]
    exact ht
  have hnew : d.calls.length ∉ d.pending := fun hin => lt_irrefl _ (h.known hin)
  have hpend : (d.transact tx).pending.Perm (d.calls.length :: d.pending) := by
    have heq : (d.transact tx).pending = d.queue.map (·.1) ++ d.calls.length :: d.taken := by
      simp [pending, Desk.transact, taken]
    rw [heq]
    exact List.perm_middle
  have hcalls : ∀ (k : ℕ) (call : Call), (d.transact tx).calls[k]? = some call →
      (k = d.calls.length ∧ call = ⟨tx, .waiting, []⟩) ∨ d.calls[k]? = some call := by
    intro k call hk
    rcases Nat.lt_or_ge k d.calls.length with hlt | hge
    · right
      rwa [Desk.transact, List.getElem?_append_left hlt] at hk
    · left
      rw [Desk.transact, List.getElem?_append_right hge, List.getElem?_singleton] at hk
      split_ifs at hk with h0
      cases hk
      exact ⟨by omega, rfl⟩
  refine ⟨?_, ?_, ?_, ?_, ?_, ?_, ?_, ?_, ?_⟩
  · intro p hp
    rcases List.mem_append.1 hp with hp | hp
    · exact hgrow _ _ (h.queued p hp)
    · rw [List.mem_singleton.1 hp]
      simp [Desk.transact, txs]
  · intro k batch held hgate
    obtain ⟨hne, hall⟩ := h.batched k batch held hgate
    exact ⟨hne, fun p hp => hgrow _ _ (hall p hp)⟩
  · intro k outbox hgate p hp
    obtain ⟨t, ht, hr⟩ := h.boxed k outbox hgate p hp
    exact ⟨t, hgrow _ _ ht, hr⟩
  · exact hpend.nodup_iff.2 (List.nodup_cons.2 ⟨hnew, h.once⟩)
  · intro k call hk hin
    rcases hcalls k call hk with ⟨rfl, rfl⟩ | hk
    · rfl
    · have hlt := (List.getElem?_eq_some_iff.1 hk).1
      rcases List.mem_cons.1 (hpend.mem_iff.1 hin) with rfl | hin
      · omega
      · exact h.owed k call hk hin
  · intro k call hk hout
    rw [hpend.mem_iff, List.mem_cons, not_or] at hout
    rcases hcalls k call hk with ⟨rfl, rfl⟩ | hk
    · exact absurd rfl hout.1
    · exact h.answered k call hk hout.2
  · have := h.covered
    simp only [Desk.transact, waiting, List.length_append, List.length_singleton, List.countP_append,
      List.countP_singleton, decide_true, if_true] at this ⊢
    omega
  · intro k hk
    obtain ⟨call, hcall, hstage⟩ := h.led k hk
    refine ⟨call, ?_, hstage⟩
    rw [Desk.transact, List.getElem?_append_left (List.getElem?_eq_some_iff.1 hcall).1]
    exact hcall
  · intro k call hk r hr
    rcases hcalls k call hk with ⟨_, rfl⟩ | hk
    · cases hr
    · exact h.right k call hk r hr

theorem Served.adopt (h : Served c d) (set : ValidatorSet) (height : ℕ) : Served c (d.adopt set height) := by
  have htaken : (d.adopt set height).taken = d.taken := by
    unfold taken Desk.adopt
    cases d.gate <;> rfl
  have hleader : (d.adopt set height).leader? = d.leader? := by
    unfold leader? Desk.adopt
    cases d.gate <;> rfl
  have hpend : (d.adopt set height).pending = d.pending := by
    unfold pending
    rw [htaken]
    rfl
  refine ⟨h.queued, ?_, ?_, hpend ▸ h.once, hpend ▸ h.owed, hpend ▸ h.answered, h.covered, hleader ▸ h.led, h.right⟩
  · intro k batch held hgate
    unfold Desk.adopt at hgate
    cases hg : d.gate with
    | settling k' batch' held' =>
      simp only [hg, Gate.settling.injEq] at hgate
      obtain ⟨rfl, rfl, rfl⟩ := hgate
      exact ⟨by simp, (h.batched _ _ _ hg).2⟩
    | free => simp [hg] at hgate
    | replying k' outbox => simp [hg] at hgate
  · intro k outbox hgate
    unfold Desk.adopt at hgate
    cases hg : d.gate with
    | replying k' outbox' =>
      simp only [hg, Gate.replying.injEq] at hgate
      obtain ⟨rfl, rfl⟩ := hgate
      exact h.boxed _ _ hg
    | free => simp [hg] at hgate
    | settling k' batch held => simp [hg] at hgate

/-- a call rewritten in place keeps every transaction where it was -/
theorem txs_set {calls : List Call} {k : ℕ} {call call' : Call} (hk : calls[k]? = some call) (htx : call'.tx = call.tx) :
    (calls.set k call').map (·.tx) = calls.map (·.tx) := by
  rw [List.map_set, htx]
  apply List.ext_getElem?
  intro j
  rw [List.getElem?_set]
  split_ifs with hj hlen
  · subst hj
    rw [List.getElem?_map, hk]
    rfl
  · subst hj
    exact (List.getElem?_eq_none (by omega)).symm
  · rfl

/-- what is found after one call was rewritten -/
theorem get_set_cases {calls : List Call} {k j : ℕ} {call' x : Call} (hx : (calls.set k call')[j]? = some x) :
    (j = k ∧ x = call') ∨ (j ≠ k ∧ calls[j]? = some x) := by
  rw [List.getElem?_set] at hx
  split_ifs at hx with hj hlen
  · cases hx
    exact Or.inl ⟨hj.symm, rfl⟩
  · exact Or.inr ⟨fun heq => hj heq.symm, hx⟩

theorem waiting_set {calls : List Call} {k : ℕ} {call : Call} (hk : calls[k]? = some call) (call' : Call) :
    (calls.set k call').countP (fun x => x.stage = .waiting) + (if call.stage = .waiting then 1 else 0) =
      calls.countP (fun x => x.stage = .waiting) + if call'.stage = .waiting then 1 else 0 := by
  obtain ⟨hlen, hget⟩ := List.getElem?_eq_some_iff.1 hk
  rw [List.countP_set hlen, hget]
  simp only [decide_eq_true_eq]
  by_cases hw : call.stage = .waiting
  · have hpos : 0 < calls.countP fun x => x.stage = .waiting :=
      List.countP_pos_iff.2 ⟨call, List.mem_of_getElem? hk, by simpa using hw⟩
    simp only [hw, if_true]
    omega
  · simp only [hw, if_false]
    omega

/-- **Taking the gate.** The caller leaves the line; what it takes out of the queue it now owes. -/
theorem Served.lead (h : Served c d) {k : ℕ} {call : Call} (hfree : d.gate = .free) (hk : d.calls[k]? = some call)
    (hw : call.stage = .waiting) : Served c (d.lead k call) ∧ (d.lead k call).work < d.work := by
  have htaken : d.taken = [] := by simp [taken, hfree]
  have hcovered := h.covered
  have hstages := waiting_set hk { call with stage := .parked }
  have hstages' := waiting_set hk { call with stage := .leading }
  simp only [hw, if_true, reduceCtorEq, if_false] at hstages hstages'
  unfold Desk.lead
  by_cases hempty : d.queue.take (min d.queue.length maxBatch) = []
  · -- nothing was queued: the caller's own transaction is with an earlier leader
    have hqueue : d.queue = [] := by
      have := congrArg List.length hempty
      simp only [List.length_take, List.length_nil, maxBatch] at this
      exact List.length_eq_zero_iff.1 (by omega)
    simp only [hempty, if_true]
    have hpend : ({ d with calls := d.calls.set k { call with stage := .parked },
                           queue := d.queue.drop (min d.queue.length maxBatch) } : Desk).pending = d.pending := by
      simp [pending, taken, hqueue]
    refine ⟨⟨?_, ?_, ?_, ?_, ?_, ?_, ?_, ?_, ?_⟩, ?_⟩
    · simp [hqueue]
    · simp [hfree]
    · simp [hfree]
    · rw [hpend]
      exact h.once
    · intro j x hx hin
      rw [hpend] at hin
      rcases get_set_cases hx with ⟨rfl, rfl⟩ | ⟨_, hx⟩
      · exact h.owed j call hk hin
      · exact h.owed j x hx hin
    · intro j x hx hout
      rw [hpend] at hout
      rcases get_set_cases hx with ⟨rfl, rfl⟩ | ⟨_, hx⟩
      · exact h.answered j call hk hout
      · exact h.answered j x hx hout
    · simp [hqueue]
    · simp [leader?, hfree]
    · intro j x hx r hr
      rcases get_set_cases hx with ⟨rfl, rfl⟩ | ⟨_, hx⟩
      · exact h.right j call hk r hr
      · exact h.right j x hx r hr
    · simp only [work, waiting, pending, taken, hfree, hqueue] at *
      simp only [List.drop_nil, List.map_nil, List.append_nil, List.length_nil] at *
      omega
  · simp only [hempty, if_false]
    have hlen : 0 < min d.queue.length maxBatch := by
      by_contra hle
      exact hempty (by rw [Nat.eq_zero_of_not_pos hle, List.take_zero])
    set m := min d.queue.length maxBatch with hm
    have hperm : ((d.queue.drop m).map (·.1) ++ (d.queue.take m).map (·.1)).Perm d.pending := by
      have hsplit : d.pending = (d.queue.take m).map (·.1) ++ (d.queue.drop m).map (·.1) := by
        rw [pending, htaken, List.append_nil, ← List.map_append, List.take_append_drop]
      rw [hsplit]
      exact List.perm_append_comm
    have htxs : (d.calls.set k { call with stage := .leading }).map (·.tx) = d.txs := txs_set hk rfl
    refine ⟨⟨?_, ?_, ?_, ?_, ?_, ?_, ?_, ?_, ?_⟩, ?_⟩
    · intro p hp
      rw [txs, htxs]
      exact h.queued p (List.mem_of_mem_drop hp)
    · intro j batch held hgate
      simp only [Gate.settling.injEq] at hgate
      obtain ⟨rfl, rfl, rfl⟩ := hgate
      refine ⟨by simp, ?_⟩
      intro p hp
      rw [txs, htxs]
      exact h.queued p (List.mem_of_mem_take hp)
    · simp
    · exact hperm.nodup_iff.2 h.once
    · intro j x hx hin
      have hin' := hperm.mem_iff.1 hin
      rcases get_set_cases hx with ⟨rfl, rfl⟩ | ⟨_, hx⟩
      · exact h.owed j call hk hin'
      · exact h.owed j x hx hin'
    · intro j x hx hout
      have hout' : j ∉ d.pending := fun hin => hout (hperm.mem_iff.2 hin)
      rcases get_set_cases hx with ⟨rfl, rfl⟩ | ⟨_, hx⟩
      · exact h.answered j call hk hout'
      · exact h.answered j x hx hout'
    · simp only [waiting, List.length_drop] at hcovered ⊢
      omega
    · intro j hj
      simp only [leader?, Option.some.injEq] at hj
      subst hj
      exact ⟨_, List.getElem?_set_self (List.getElem?_eq_some_iff.1 hk).1, rfl⟩
    · intro j x hx r hr
      rcases get_set_cases hx with ⟨rfl, rfl⟩ | ⟨_, hx⟩
      · exact h.right j call hk r hr
      · exact h.right j x hx r hr
    · have hsame := hperm.length_eq
      simp only [work, waiting, hfree] at *
      simp only [pending, taken] at *
      omega

/-- an answer for each caller of the batch, in its order -/
theorem outbox_callers {batch : List (ℕ × LedgerTransaction)} {held : List ValidatorSet}
    {outcomes : List (Except String QuorumCertificate)} (hlen : outcomes.length = batch.length) :
    (outbox batch held outcomes).map (·.1) = batch.map (·.1) := by
  induction batch generalizing outcomes with
  | nil => rfl
  | cons p batch ih =>
    cases outcomes with
    | nil => simp at hlen
    | cons outcome outcomes =>
      simp only [outbox, List.zipWith_cons_cons, List.map_cons, List.cons.injEq, true_and]
      exact ih (by simpa using hlen)

/-- an answer in the outbox is the one the batch got for its caller's transaction -/
theorem mem_outbox {batch : List (ℕ × LedgerTransaction)} {held : List ValidatorSet}
    {outcomes : List (Except String QuorumCertificate)} {x : ℕ × Reply} (hx : x ∈ outbox batch held outcomes) :
    ∃ p ∈ batch, x.1 = p.1 ∧ x.2.during = held ∧ (p.2, x.2.outcome) ∈ (batch.map (·.2)).zip outcomes := by
  induction batch generalizing outcomes with
  | nil => simp [outbox] at hx
  | cons p batch ih =>
    cases outcomes with
    | nil => simp [outbox] at hx
    | cons outcome outcomes =>
      simp only [outbox, List.zipWith_cons_cons, List.mem_cons] at hx
      rcases hx with rfl | hx
      · exact ⟨p, by simp, rfl, rfl, by simp⟩
      · obtain ⟨q, hq, hid, hheld, hin⟩ := ih hx
        exact ⟨q, by simp [hq], hid, hheld, by simp [hin]⟩

/-- **Settling a batch.** Nobody's answer is lost or doubled, and each is right for its caller. -/
theorem Served.settled (h : Served c d) {leader : ℕ} {batch : List (ℕ × LedgerTransaction)} {held : List ValidatorSet}
    {w : SettleAnswers} (hgate : d.gate = .settling leader batch held) (hw : w.Reads (window held w)) :
    Served c (d.settled c leader batch (window held w) w) ∧ (d.settled c leader batch (window held w) w).work < d.work := by
  rcases hs : settle c d.client (batch.map (·.2)) w with ⟨client, outcomes⟩
  have hlen : outcomes.length = batch.length := by
    have := settle_length (c := c) d.client (batch.map (·.2)) w
    rwa [hs, List.length_map] at this
  have hsettles := @settle_settles c _ d.client (batch.map (·.2)) w hw
  rw [hs] at hsettles
  have heq : d.settled c leader batch (window held w) w =
      { d with client := client, gate := .replying leader (outbox batch (window held w) outcomes) } := by
    simp only [Desk.settled, hs]
  rw [heq]
  have hpend : ({ d with client := client
                         gate := .replying leader (outbox batch (window held w) outcomes) } : Desk).pending = d.pending := by
    simp only [pending, taken, hgate, outbox_callers hlen]
  refine ⟨⟨h.queued, by simp, ?_, hpend ▸ h.once, hpend ▸ h.owed, hpend ▸ h.answered, h.covered, ?_, h.right⟩, ?_⟩
  · intro k box hbox x hx
    simp only [Gate.replying.injEq] at hbox
    obtain ⟨rfl, rfl⟩ := hbox
    obtain ⟨p, hp, hid, hheld, hin⟩ := mem_outbox hx
    refine ⟨p.2, hid ▸ (h.batched _ _ _ hgate).2 p hp, ?_⟩
    intro cert hok
    rw [hheld]
    exact hsettles _ hin cert hok
  · intro k hk
    apply h.led k
    simpa [leader?, hgate] using hk
  · simp only [work, hpend, hgate]
    exact Nat.add_lt_add_left (by omega) _

/-- **An answer goes out.** Its caller was owed one and had none. -/
theorem Served.reply (h : Served c d) {leader k : ℕ} {call : Call} {r : Reply} {rest : List (ℕ × Reply)}
    (hgate : d.gate = .replying leader ((k, r) :: rest)) (hk : d.calls[k]? = some call) :
    Served c (d.reply leader k call r rest) ∧ (d.reply leader k call r rest).work < d.work := by
  have hpend : d.pending.Perm (k :: (d.reply leader k call r rest).pending) := by
    simp only [pending, taken, hgate, Desk.reply, List.map_cons]
    exact List.perm_middle
  obtain ⟨hnot, honce⟩ := List.nodup_cons.1 (hpend.nodup_iff.1 h.once)
  have hnone : call.replies = [] := h.owed k call hk (hpend.mem_iff.2 (List.mem_cons_self ..))
  have htxs : (d.reply leader k call r rest).txs = d.txs := txs_set hk rfl
  have hwaiting : (d.reply leader k call r rest).waiting = d.waiting := by
    have := waiting_set hk { call with replies := call.replies ++ [r] }
    simp only [waiting, Desk.reply]
    exact Nat.add_right_cancel this
  have hright : Right c call.tx r := by
    obtain ⟨tx, htx, hr⟩ := h.boxed _ _ hgate (k, r) (List.mem_cons_self ..)
    rw [txs, List.getElem?_map, hk] at htx
    cases htx
    exact hr
  refine ⟨⟨?_, ?_, ?_, honce, ?_, ?_, ?_, ?_, ?_⟩, ?_⟩
  · rw [htxs]
    exact h.queued
  · simp [Desk.reply]
  · intro j box hbox x hx
    simp only [Desk.reply, Gate.replying.injEq] at hbox
    obtain ⟨rfl, rfl⟩ := hbox
    rw [htxs]
    exact h.boxed _ _ hgate x (List.mem_cons_of_mem _ hx)
  · intro j x hx hin
    rcases get_set_cases hx with ⟨rfl, rfl⟩ | ⟨_, hx⟩
    · exact absurd hin hnot
    · exact h.owed j x hx (hpend.mem_iff.2 (List.mem_cons_of_mem _ hin))
  · intro j x hx hout
    rcases get_set_cases hx with ⟨rfl, rfl⟩ | ⟨hne, hx⟩
    · simp [hnone]
    · apply h.answered j x hx
      rw [hpend.mem_iff, List.mem_cons, not_or]
      exact ⟨hne, hout⟩
  · rw [hwaiting]
    exact h.covered
  · intro j hj
    obtain ⟨x, hx, hstage⟩ := h.led j (by simpa [leader?, hgate, Desk.reply] using hj)
    by_cases hjk : j = k
    · subst hjk
      rw [hk] at hx
      cases hx
      exact ⟨_, List.getElem?_set_self (List.getElem?_eq_some_iff.1 hk).1, hstage⟩
    · refine ⟨x, ?_, hstage⟩
      simp only [Desk.reply]
      rw [List.getElem?_set_ne (Ne.symm hjk)]
      exact hx
  · intro j x hx a ha
    rcases get_set_cases hx with ⟨rfl, rfl⟩ | ⟨_, hx⟩
    · rcases List.mem_append.1 ha with ha | ha
      · exact h.right j call hk a ha
      · rw [List.mem_singleton.1 ha]
        exact hright
    · exact h.right j x hx a ha
  · have hsame := hpend.length_eq
    simp only [List.length_cons] at hsame
    simp only [work, hwaiting, hgate, hsame]
    simp only [Desk.reply]
    omega

/-- the leader leaves the gate -/
theorem Served.release (h : Served c d) {leader : ℕ} {call : Call} (hgate : d.gate = .replying leader [])
    (hk : d.calls[leader]? = some call) :
    Served c (d.release leader call) ∧ (d.release leader call).work < d.work := by
  have hleading : call.stage = .leading := by
    obtain ⟨x, hx, hstage⟩ := h.led leader (by simp [leader?, hgate])
    rw [hk] at hx
    cases hx
    exact hstage
  have hpend : (d.release leader call).pending = d.pending := by
    simp [pending, taken, hgate, Desk.release]
  have htxs : (d.release leader call).txs = d.txs := txs_set hk rfl
  have hwaiting : (d.release leader call).waiting = d.waiting := by
    have := waiting_set hk { call with stage := .parked }
    simpa [waiting, Desk.release, hleading] using this
  refine ⟨⟨?_, ?_, ?_, hpend ▸ h.once, ?_, ?_, ?_, ?_, ?_⟩, ?_⟩
  · rw [htxs]
    exact h.queued
  · simp [Desk.release]
  · simp [Desk.release]
  · intro j x hx hin
    rw [hpend] at hin
    rcases get_set_cases hx with ⟨rfl, rfl⟩ | ⟨_, hx⟩
    · exact h.owed j call hk hin
    · exact h.owed j x hx hin
  · intro j x hx hout
    rw [hpend] at hout
    rcases get_set_cases hx with ⟨rfl, rfl⟩ | ⟨_, hx⟩
    · exact h.answered j call hk hout
    · exact h.answered j x hx hout
  · rw [hwaiting]
    exact h.covered
  · simp [leader?, Desk.release]
  · intro j x hx r hr
    rcases get_set_cases hx with ⟨rfl, rfl⟩ | ⟨_, hx⟩
    · exact h.right j call hk r hr
    · exact h.right j x hx r hr
  · simp only [work, hpend, hwaiting, hgate]
    simp only [Desk.release]
    omega

/-- **Step.** Service keeps everybody's answer accounted for and leaves less of it to do. -/
theorem Served.serve (h : Served c d) {d' : Desk} (hstep : Serve c d d') : Served c d' ∧ d'.work < d.work := by
  cases hstep with
  | lead hfree hk hw => exact h.lead hfree hk hw
  | settle hgate hw => exact h.settled hgate hw
  | reply hgate hk => exact h.reply hgate hk
  | release hgate hk => exact h.release hgate hk

theorem Serve.calls_length {d' : Desk} (hstep : Serve c d d') : d'.calls.length = d.calls.length := by
  cases hstep with
  | lead =>
    unfold Desk.lead
    dsimp only
    split_ifs <;> simp
  | settle => rfl
  | reply => simp [Desk.reply]
  | release => simp [Desk.release]

theorem work_transact (tx : LedgerTransaction) : (d.transact tx).work = d.work + 4 := by
  have hw : (d.transact tx).waiting = d.waiting + 1 := by simp [waiting, Desk.transact]
  have hp : (d.transact tx).pending.length = d.pending.length + 1 := by
    simp only [pending, Desk.transact, taken, List.length_append, List.length_map, List.length_singleton]
    omega
  simp only [work, hw, hp]
  simp only [Desk.transact]
  omega

theorem work_adopt (set : ValidatorSet) (height : ℕ) : (d.adopt set height).work = d.work := by
  unfold work pending taken waiting Desk.adopt
  cases d.gate <;> rfl

/-- **Run.** Every answer is accounted for in every reachable state, and a call costs four steps of service at most. -/
theorem Run.served {n : LedgerNetwork} {steps : ℕ} (h : Run c n steps d) :
    Served c d ∧ steps + d.work ≤ 4 * d.calls.length := by
  induction h with
  | start => exact ⟨served_start n, by simp [work, Desk.start, waiting, pending, taken]⟩
  | transact tx _ ih =>
    refine ⟨ih.1.transact tx, ?_⟩
    have := ih.2
    rw [work_transact]
    simp only [Desk.transact, List.length_append, List.length_singleton]
    omega
  | adopt set height _ ih =>
    refine ⟨ih.1.adopt set height, ?_⟩
    rw [work_adopt]
    exact ih.2
  | serve _ hstep ih =>
    obtain ⟨hserved, hless⟩ := ih.1.serve hstep
    refine ⟨hserved, ?_⟩
    have := ih.2
    rw [hstep.calls_length]
    omega

/-! ## Nobody waits for ever -/

/-- no seat says anything -/
def silence (set : ValidatorSet) : SettleAnswers where
  first _ := ⟨set, [], id, set, [], set, [], set, [], set, []⟩
  refresh := none
  second _ := ⟨set, [], id, set, [], set, [], set, [], set, []⟩
  single _ _ := ⟨set, [], id, set, [], set, [], set, [], set, []⟩
  claims _ := ⟨set, [], id, set⟩

theorem silence_reads {held : List ValidatorSet} {set : ValidatorSet} (h : set ∈ held) :
    (silence set).Reads (window held (silence set)) := by
  have hin : set ∈ window held (silence set) := List.mem_append_left _ h
  have hattempt : ∀ w : AttemptAnswers, w = ⟨set, [], id, set, [], set, [], set, [], set, []⟩ →
      w.Reads (window held (silence set)) := by
    intro w hw
    rw [hw]
    exact ⟨hin, hin, hin, hin, hin⟩
  exact ⟨fun _ => hattempt _ rfl, fun _ => hattempt _ rfl, fun _ _ => hattempt _ rfl, fun _ => ⟨hin, hin⟩⟩

/-- when no step of service is left, nobody is owed an answer -/
theorem Served.idle (h : Served c d) (hidle : ∀ d', ¬ Serve c d d') : d.pending = [] := by
  have hcall : ∀ k ∈ d.pending, ∃ call, d.calls[k]? = some call := fun k hk =>
    ⟨_, List.getElem?_eq_getElem (h.known hk)⟩
  cases hgate : d.gate with
  | settling leader batch held =>
    obtain ⟨set, hset⟩ := List.exists_mem_of_ne_nil held (h.batched _ _ _ hgate).1
    exact absurd (Serve.settle hgate (silence_reads hset)) (hidle _)
  | replying leader box =>
    cases box with
    | nil =>
      obtain ⟨call, hk, _⟩ := h.led leader (by simp [leader?, hgate])
      exact absurd (Serve.release hgate hk) (hidle _)
    | cons p rest =>
      obtain ⟨call, hk⟩ := hcall p.1 (by simp [pending, taken, hgate])
      exact absurd (Serve.reply hgate hk) (hidle _)
  | free =>
    have hnone : d.waiting = 0 := by
      rw [waiting, List.countP_eq_zero]
      intro call hin hw
      obtain ⟨k, hk⟩ := List.mem_iff_getElem?.1 hin
      exact hidle _ (Serve.lead hgate hk (by simpa using hw))
    have hqueue : d.queue = [] := by
      have := h.covered
      exact List.length_eq_zero_iff.1 (by omega)
    simp [pending, taken, hgate, hqueue]

end

/-- **Batched settlement answers everybody.** However the callers, the rounds and the moves of the client's set interleave:
nobody ever has two answers, and an answer with a certificate carries one that a set the client held meanwhile verifies, of
an entry with that caller's own transaction; the service of all callers takes at most four steps for each; and unless
another step of service is possible, the queue is empty and everybody has exactly one answer. -/
theorem everybody_answered {c : Crypto} {n : LedgerNetwork} {steps : ℕ} {d : Desk} (h : Run c n steps d) :
    (∀ call ∈ d.calls, call.replies.length ≤ 1 ∧ ∀ r ∈ call.replies, ∀ cert, r.outcome = .ok cert →
      ∃ set ∈ r.during, verifyCertificate c cert set = .ok () ∧
        ∃ t ∈ cert.entry.transactions, transactionHash c t = transactionHash c call.tx) ∧
    steps ≤ 4 * d.calls.length ∧
    ((∃ d', Serve c d d') ∨ d.queue = [] ∧ ∀ call ∈ d.calls, call.replies.length = 1) := by
  obtain ⟨hserved, hsteps⟩ := h.served
  refine ⟨?_, by omega, ?_⟩
  · intro call hin
    obtain ⟨k, hk⟩ := List.mem_iff_getElem?.1 hin
    refine ⟨?_, hserved.right k call hk⟩
    by_cases hp : k ∈ d.pending
    · simp [hserved.owed k call hk hp]
    · exact (hserved.answered k call hk hp).le
  · by_cases hstep : ∃ d', Serve c d d'
    · exact Or.inl hstep
    · right
      have hnone := hserved.idle fun d' hd => hstep ⟨d', hd⟩
      refine ⟨?_, ?_⟩
      · rw [pending, List.append_eq_nil_iff, List.map_eq_nil_iff] at hnone
        exact hnone.1
      · intro call hin
        obtain ⟨k, hk⟩ := List.mem_iff_getElem?.1 hin
        exact hserved.answered k call hk (by simp [hnone])

/-- a round that ends in a certificate hands it to everybody in the batch -/
theorem settle_of_round {n : LedgerNetwork} {txs : List LedgerTransaction} {w : SettleAnswers}
    (h : (settleRound c n txs w).2.toOption.isSome = true) :
    ∃ n' cert, settle c n txs w = (n', txs.map fun _ => .ok cert) := by
  rcases hround : settleRound c n txs w with ⟨n', outcome⟩
  rw [hround] at h
  cases outcome with
  | error e => cases h
  | ok cert => exact ⟨n', cert, by simp only [settle, hround]⟩

theorem settled_of_settle {c : Crypto} {d : Desk} {leader : ℕ} {batch : List (ℕ × LedgerTransaction)}
    {held : List ValidatorSet} {w : SettleAnswers} {n : LedgerNetwork} {outcomes : List (Except String QuorumCertificate)}
    (h : settle c d.client (batch.map (·.2)) w = (n, outcomes)) :
    d.settled c leader batch held w =
      { d with client := n, gate := .replying leader (outbox batch held outcomes) } := by
  simp only [settled, h]

namespace Sample

open Hocmesh.Protocol.Sample

/-- two jobs that are reserved at once -/
def left : LedgerTransaction := communityReserve "left" smallWork 1 [0] 100

def right : LedgerTransaction := communityReserve "right" smallWork 1 [0] 100

def client : LedgerNetwork := ⟨committee 1, 0, "client", 0⟩

/-- what the only seat of a new ledger answers a client that puts a batch to it -/
def soloAnswers (txs : List LedgerTransaction) : AttemptAnswers :=
  let set := committee 1
  let seat : App := ⟨LedgerStore.empty, set, nodeId 0, sign 0⟩
  let ballot : Ballot := ⟨1, "client"⟩
  let promised := prepare seat ⟨1, ballot⟩
  let voted := propose crypto promised.1 ⟨txs, 1, ballot⟩
  let stored := (commit crypto voted.1 (certify set [0] LedgerStore.empty txs)).toOption.map fun x => ⟨true, x.2⟩
  { headSet := set, heads := [some (headProof crypto seat)], order := id, claimSet := set, promises := [some promised.2]
    voteSet := set, votes := [some voted.2], certSet := set, laterHeads := [], commitSet := set, commits := [stored] }

def answers : SettleAnswers := { silence (committee 1) with first := fun _ => soloAnswers [left, right] }

theorem answers_read : answers.Reads (window [committee 1] answers) := by
  have hin : committee 1 ∈ window [committee 1] answers := List.mem_append_left _ (List.mem_singleton.2 rfl)
  have hsilent := silence_reads (List.mem_singleton.2 (rfl : committee 1 = committee 1))
  exact ⟨fun _ => ⟨hin, hin, hin, hin, hin⟩, hsilent.second, hsilent.single, hsilent.claims⟩

theorem answers_settle : ∃ n cert, settle crypto client [left, right] answers = (n, [.ok cert, .ok cert]) := by
  have hround : (settleRound crypto client [left, right] answers).2.toOption.isSome = true := by decide +kernel
  exact settle_of_round hround

/-- both are settled by one round -/
theorem batch_settled : ∃ cert, (settle crypto client [left, right] answers).2 = [.ok cert, .ok cert] := by
  obtain ⟨n, cert, hsettle⟩ := answers_settle
  exact ⟨cert, congrArg Prod.snd hsettle⟩

/-- both callers have queued; the second gets the gate first and takes both transactions -/
def led : Desk :=
  ⟨client, [⟨left, .waiting, []⟩, ⟨right, .leading, []⟩], [], .settling 1 [(0, left), (1, right)] [committee 1]⟩

theorem led_run : Run crypto client 1 led := by
  have hqueued := (Run.start (c := crypto) (n := client)).transact left |>.transact right
  have hlead := Serve.lead (c := crypto) (d := ((start client).transact left).transact right) (k := 1) rfl rfl rfl
  exact hqueued.serve hlead

/-- the first caller has its answer before it gets the gate, and finds nothing to do there -/
def done (n : LedgerNetwork) (r : Reply) : Desk :=
  ⟨n, [⟨left, .parked, [r]⟩, ⟨right, .parked, [r]⟩], [], .free⟩

theorem done_run : ∃ n cert, Run crypto client 6 (done n ⟨.ok cert, window [committee 1] answers⟩) := by
  obtain ⟨n, cert, hs⟩ := answers_settle
  refine ⟨n, cert, ?_⟩
  have hsettled := led_run.serve (Serve.settle (w := answers) rfl answers_read)
  have heq : led.settled crypto 1 [(0, left), (1, right)] (window [committee 1] answers) answers =
      ⟨n, led.calls, [], .replying 1 [(0, ⟨.ok cert, window [committee 1] answers⟩),
        (1, ⟨.ok cert, window [committee 1] answers⟩)]⟩ := by
    have hs' : settle crypto led.client ([(0, left), (1, right)].map (·.2)) answers = (n, [.ok cert, .ok cert]) := hs
    rw [settled_of_settle hs']
    rfl
  rw [heq] at hsettled
  have hfirst := hsettled.serve (Serve.reply rfl rfl)
  have hsecond := hfirst.serve (Serve.reply rfl rfl)
  have hreleased := hsecond.serve (Serve.release rfl rfl)
  have hlast := hreleased.serve (Serve.lead (k := 0) rfl rfl rfl)
  exact hlast

end Sample

/-- two callers share one round, and both have its certificate -/
theorem pair_answered : ∃ steps d cert, Run Sample.crypto Sample.client steps d ∧
    d.calls.map (fun call => (call.tx, call.replies.map (·.outcome.toOption))) =
      [(Sample.left, [some cert]), (Sample.right, [some cert])] ∧
    verifyCertificate Sample.crypto cert (Sample.committee 1) = .ok () := by
  obtain ⟨n, cert, hrun⟩ := Sample.done_run
  refine ⟨_, _, cert, hrun, rfl, ?_⟩
  obtain ⟨hright, _⟩ := everybody_answered hrun
  obtain ⟨_, hcert⟩ := hright _ (List.mem_cons_self ..)
  obtain ⟨set, hin, hverify, _⟩ := hcert _ (List.mem_singleton.2 rfl) cert rfl
  have hset : set = Sample.committee 1 := by simpa [window, Sample.answers, silence] using hin
  rw [← hset]
  exact hverify

end Desk

end Hocmesh.Network
