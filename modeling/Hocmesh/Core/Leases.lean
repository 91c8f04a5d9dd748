/-
Any number of threads on one pool (`hocmesh-core/src/resources.rs`): `claim`, `try_claim` and the drops of leases, one
critical section after another in any order.

`refuse_impossible` reads only what is lent, so it stands before the lock; a thread that passed it gets the lock once, and
again after every wake-up while it waits. `Sound` is the invariant: the counts are exact and no thread on its way asks for
more than is lent. Below half of `u64` that leaves no addition room to overflow.
-/
import Mathlib.Logic.Function.Basic
import Hocmesh.Core.Resources

namespace Hocmesh.Core

/-- a call that is past `refuse_impossible`: on its way to the lock the first time, or waiting for room -/
inductive Call where
  | entering (claim : Amounts) (waits : Bool)
  | waiting (claim : Amounts)

def Call.claim : Call → Amounts
  | .entering claim _ => claim
  | .waiting claim => claim

/-- `claim` waits for room, `try_claim` does not -/
def Call.waits : Call → Bool
  | .entering _ waits => waits
  | .waiting _ => true

/-- what happens next: a thread calls, a thread gets the lock, a lease is dropped -/
inductive Move where
  | call (thread : ℕ) (claim : Amounts) (waits : Bool)
  | lock (thread : ℕ)
  | drop (lease : ℕ)

/-- a pool and the calls under way on it -/
structure Sharing where
  pool : ResourcePool
  calls : ℕ → Option Call

namespace Sharing

def start (lent : Amounts) : Sharing := ⟨.new lent, fun _ => none⟩

variable (s : Sharing)

/-- the critical section of `claim` and `try_claim`: a waiting thread that finds no room goes back to waiting -/
def lockStep (thread : ℕ) (call : Call) : Option Claimed × Sharing :=
  if s.pool.fits call.claim then
    (some .granted, ⟨s.pool.take call.claim, Function.update s.calls thread none⟩)
  else if call.waits then (none, { s with calls := Function.update s.calls thread (some (.waiting call.claim)) })
  else (some .notYet, { s with calls := Function.update s.calls thread none })

/-- what the step answers to the thread's call, and the state it leaves -/
def step : Move → Option Claimed × Sharing
  | .call thread claim waits =>
    match s.calls thread with
    | some _ => (none, s)
    | none =>
      if s.pool.impossible claim then (some .tooLarge, s)
      else (none, { s with calls := Function.update s.calls thread (some (.entering claim waits)) })
  | .lock thread =>
    match s.calls thread with
    | some call => s.lockStep thread call
    | none => (none, s)
  | .drop lease => (none, { s with pool := s.pool.release lease })

def run (moves : List Move) : Sharing := moves.foldl (fun s move => (s.step move).2) s

/-! ## The invariant -/

/-- the counts are exact, and whoever is on its way asks for no more than is lent -/
structure Sound (lent : Amounts) : Prop where
  exact : s.pool.Exact
  lent_eq : s.pool.lent = lent
  possible : ∀ thread call, s.calls thread = some call → ∀ axis, call.claim axis ≤ lent axis

end Sharing

section

variable {s : Sharing} {lent : Amounts}

theorem impossible_iff (pool : ResourcePool) (claim : Amounts) :
    pool.impossible claim = true ↔ ∃ axis, pool.lent axis < claim axis := decide_eq_true_iff

theorem not_impossible (pool : ResourcePool) (claim : Amounts) :
    ¬ pool.impossible claim = true ↔ ∀ axis, claim axis ≤ pool.lent axis := by
  rw [impossible_iff]
  push Not
  exact Iff.rfl

theorem sound_start (lent : Amounts) : (Sharing.start lent).Sound lent where
  exact := ResourcePool.exact_new lent
  lent_eq := rfl
  possible := fun _ _ h => nomatch h

/-- two amounts that are lent do not overflow together -/
theorem Sharing.Sound.no_overflow (h : s.Sound lent) (hlent : ∀ axis, lent axis < 2 ^ 63) {thread : ℕ} {call : Call}
    (hcall : s.calls thread = some call) (axis : Axis) : s.pool.held axis + call.claim axis < 2 ^ 64 := by
  have hheld : s.pool.held axis ≤ lent axis := h.lent_eq ▸ h.exact.within axis
  calc s.pool.held axis + call.claim axis ≤ lent axis + lent axis := Nat.add_le_add hheld (h.possible _ _ hcall axis)
    _ < 2 ^ 63 + 2 ^ 63 := Nat.add_lt_add (hlent axis) (hlent axis)
    _ = 2 ^ 64 := by norm_num

/-- a call under way fits exactly when its claim fits beside those of the live leases -/
theorem Sharing.Sound.fits_iff (h : s.Sound lent) (hlent : ∀ axis, lent axis < 2 ^ 63) {thread : ℕ} {call : Call}
    (hcall : s.calls thread = some call) :
    s.pool.fits call.claim = true ↔ ∀ axis, s.pool.claimed axis + call.claim axis ≤ lent axis := by
  unfold ResourcePool.fits
  rw [decide_eq_true_iff, h.lent_eq]
  refine forall_congr' fun axis => ?_
  rw [Nat.mod_eq_of_lt (h.no_overflow hlent hcall axis), h.exact.held_eq]

/-- a lease holds no more than is counted -/
theorem ResourcePool.Exact.lease_le {pool : ResourcePool} (h : pool.Exact) {claim : Amounts} (hlease : claim ∈ pool.leases)
    (axis : Axis) : claim axis ≤ pool.held axis := by
  rw [h.held_eq]
  exact List.single_le_sum (fun _ _ => Nat.zero_le _) _ (List.mem_map.2 ⟨claim, hlease, rfl⟩)

theorem forall_update_call {P : Call → Prop} {calls : ℕ → Option Call} {thread : ℕ} {new : Option Call}
    (h : ∀ t call, calls t = some call → P call) (hnew : ∀ call, new = some call → P call) :
    ∀ t call, Function.update calls thread new t = some call → P call := by
  intro t call ht
  by_cases heq : t = thread
  · subst heq
    rw [Function.update_self] at ht
    exact hnew call ht
  · rw [Function.update_of_ne heq] at ht
    exact h t call ht

/-- a claim that is taken under the lock keeps the counts exact -/
theorem Sharing.Sound.take (h : s.Sound lent) (hlent : ∀ axis, lent axis < 2 ^ 63) {thread : ℕ} {call : Call}
    (hcall : s.calls thread = some call) (hfits : s.pool.fits call.claim = true) : (s.pool.take call.claim).Exact := by
  have hpossible : ¬ s.pool.impossible call.claim = true := by
    rw [not_impossible, h.lent_eq]
    exact h.possible thread call hcall
  have htry : (s.pool.tryClaim call.claim).2 = s.pool.take call.claim := by
    rw [ResourcePool.tryClaim, if_neg hpossible, if_pos hfits]
  rw [← htry]
  exact h.exact.tryClaim fun _ axis => h.no_overflow hlent hcall axis

theorem Sharing.Sound.step (h : s.Sound lent) (hlent : ∀ axis, lent axis < 2 ^ 63) (move : Move) :
    (s.step move).2.Sound lent := by
  cases move with
  | call thread claim waits =>
    cases hcall : s.calls thread with
    | some call =>
      simp only [Sharing.step, hcall]
      exact h
    | none =>
      simp only [Sharing.step, hcall]
      split_ifs with himpossible
      · exact h
      · refine ⟨h.exact, h.lent_eq, forall_update_call h.possible fun call heq => ?_⟩
        rw [← Option.some.inj heq, ← h.lent_eq]
        exact (not_impossible _ _).1 himpossible
  | lock thread =>
    cases hcall : s.calls thread with
    | some call =>
      have hnone : ∀ other, (none : Option Call) = some other → ∀ axis, other.claim axis ≤ lent axis :=
        fun _ heq => nomatch heq
      simp only [Sharing.step, hcall, Sharing.lockStep]
      split_ifs with hfits hwaits
      · exact ⟨h.take hlent hcall hfits, h.lent_eq, forall_update_call h.possible hnone⟩
      · refine ⟨h.exact, h.lent_eq, forall_update_call h.possible fun other heq => ?_⟩
        rw [← Option.some.inj heq]
        exact h.possible thread call hcall
      · exact ⟨h.exact, h.lent_eq, forall_update_call h.possible hnone⟩
    | none =>
      simp only [Sharing.step, hcall]
      exact h
  | drop lease =>
    exact ⟨h.exact.release lease, (release_lent _ _).trans h.lent_eq, h.possible⟩

theorem Sharing.Sound.run (hlent : ∀ axis, lent axis < 2 ^ 63) (moves : List Move) :
    ∀ {s : Sharing}, s.Sound lent → (s.run moves).Sound lent := by
  induction moves with
  | nil => exact fun h => h
  | cons move moves ih => exact fun h => ih (h.step hlent move)

end

/-- **Accounting is exact.** After any interleaving of calls, critical sections and drops, the counts are the sums over the
live leases and within what is lent, no addition of the next critical section overflows and no subtraction of the next drop
saturates. A claim larger than what is lent is refused as it is made, and one under way is granted exactly when it fits
beside the live leases. -/
theorem accounting_exact (lent : Amounts) (hlent : ∀ axis, lent axis < 2 ^ 63) (moves : List Move) :
    let s := (Sharing.start lent).run moves
    (∀ axis, s.pool.held axis = s.pool.claimed axis ∧ s.pool.held axis ≤ lent axis) ∧
    (∀ thread call, s.calls thread = some call → ∀ axis, s.pool.held axis + call.claim axis < 2 ^ 64) ∧
    (∀ claim ∈ s.pool.leases, ∀ axis, claim axis ≤ s.pool.held axis) ∧
    (∀ thread claim waits, s.calls thread = none → (∃ axis, lent axis < claim axis) →
      s.step (.call thread claim waits) = (some .tooLarge, s)) ∧
    (∀ thread call, s.calls thread = some call → ∀ axis, call.claim axis ≤ lent axis) ∧
    (∀ thread call, s.calls thread = some call →
      ((s.step (.lock thread)).1 = some .granted ↔ ∀ axis, s.pool.claimed axis + call.claim axis ≤ lent axis)) ∧
    (∀ thread claim, s.calls thread = some (.entering claim false) → (s.step (.lock thread)).1 ≠ some .granted →
      (s.step (.lock thread)).1 = some .notYet) := by
  intro s
  have h : s.Sound lent := (sound_start lent).run hlent moves
  refine ⟨fun axis => ⟨h.exact.held_eq axis, h.lent_eq ▸ h.exact.within axis⟩, fun _ _ hcall => h.no_overflow hlent hcall,
    fun _ hlease => h.exact.lease_le hlease, ?_, h.possible, ?_, ?_⟩
  · intro thread claim waits hidle hlarge
    have himpossible : s.pool.impossible claim = true := by
      rw [impossible_iff, h.lent_eq]
      exact hlarge
    simp only [Sharing.step, hidle, if_pos himpossible]
  · intro thread call hcall
    rw [← h.fits_iff hlent hcall]
    simp only [Sharing.step, hcall, Sharing.lockStep]
    split_ifs with hfits hwaits <;> simp [hfits]
  · intro thread claim hcall hno
    simp only [Sharing.step, hcall, Sharing.lockStep, Call.waits, Bool.false_eq_true, if_false] at hno ⊢
    by_cases hfits : s.pool.fits (Call.entering claim false).claim = true
    · rw [if_pos hfits] at hno
      exact absurd rfl hno
    · rw [if_neg hfits]

/-- two threads on a node that lends two workers: the second is kept waiting and gets in when the first is done -/
theorem accounting_exact_two_threads :
    let lent : Amounts := fun _ => 2
    let moves : List Move := [.call 0 lent false, .lock 0, .call 1 lent true, .lock 1, .drop 0, .lock 1]
    (∀ axis, lent axis < 2 ^ 63) ∧
    ∀ axis, ((Sharing.start lent).run moves).pool.held axis = 2 ∧
      ((Sharing.start lent).run moves).pool.held axis = ((Sharing.start lent).run moves).pool.claimed axis := by
  intro lent moves
  have hlent : ∀ axis, lent axis < 2 ^ 63 := fun _ => by norm_num [lent]
  refine ⟨hlent, fun axis => ⟨?_, ((accounting_exact lent hlent moves).1 axis).1⟩⟩
  revert axis
  decide

end Hocmesh.Core
