/-
`hocmesh-core`: what an operator lends, and the counted permits behind it.

A pool is built with what is lent and keeps one count for each axis. Work claims what it is about to use; a claim larger than
everything lent is refused at once, and one that does not fit yet waits. As long as no addition wraps, the counts are the
sums of the claims of the live leases and stay within what is lent (`Pool.Exact`).
-/
import Mathlib.Tactic

namespace Hocmesh.Core

/-- the axes a budget is counted on -/
inductive Axis where
  | logicalCpus
  | memoryBytes
  | deviceMemoryBytes
deriving DecidableEq

instance : Fintype Axis := ⟨{.logicalCpus, .memoryBytes, .deviceMemoryBytes}, fun axis => by cases axis <;> decide⟩

/-- `Lent`, `Claim`, `Held` and `Usage` have an amount on each axis -/
abbrev Amounts := Axis → ℕ

/-! ## The pool -/

/-- a `ResourcePool`; the claims of the live leases are kept beside its counts -/
structure ResourcePool where
  lent : Amounts
  held : Amounts
  leases : List Amounts

/-- how a claim ends: a lease, or not yet, or never -/
inductive Claimed where
  | granted
  | notYet
  | tooLarge
deriving DecidableEq

namespace ResourcePool

def new (lent : Amounts) : ResourcePool := ⟨lent, 0, []⟩

variable (pool : ResourcePool)

/-- `refuse_impossible` -/
def impossible (claim : Amounts) : Bool := ∃ axis, pool.lent axis < claim axis

def fits (claim : Amounts) : Bool := ∀ axis, (pool.held axis + claim axis) % 2 ^ 64 ≤ pool.lent axis

def take (claim : Amounts) : ResourcePool :=
  { pool with held := fun axis => (pool.held axis + claim axis) % 2 ^ 64, leases := pool.leases ++ [claim] }

/-- `try_claim`, and `claim` when it gets the lock: one that does not fit leaves the pool as it is, and waits or returns -/
def tryClaim (claim : Amounts) : Claimed × ResourcePool :=
  if pool.impossible claim then (.tooLarge, pool)
  else if pool.fits claim then (.granted, pool.take claim)
  else (.notYet, pool)

/-- the lease at this place is dropped; the subtraction saturates -/
def release (i : ℕ) : ResourcePool :=
  match pool.leases[i]? with
  | some claim => { pool with held := fun axis => pool.held axis - claim axis, leases := pool.leases.eraseIdx i }
  | none => pool

/-- per mille of the fullest budget -/
def loadPermille : ℕ :=
  let ratio (axis : Axis) : ℕ :=
    if pool.lent axis = 0 then 1000 else min (pool.held axis) (pool.lent axis) * 1000 % 2 ^ 64 / pool.lent axis
  let device := if pool.lent .deviceMemoryBytes = 0 then 0 else ratio .deviceMemoryBytes
  min (max (max (ratio .logicalCpus) (ratio .memoryBytes)) device) 1000

/-! ## What the counts are -/

/-- what the live leases have claimed on an axis -/
def claimed (axis : Axis) : ℕ := (pool.leases.map fun claim => claim axis).sum

/-- the counts are the claims of the live leases, and within what is lent -/
structure Exact : Prop where
  held_eq : ∀ axis, pool.held axis = pool.claimed axis
  within : ∀ axis, pool.held axis ≤ pool.lent axis

end ResourcePool

section

variable {pool : ResourcePool}

theorem ResourcePool.exact_new (lent : Amounts) : (ResourcePool.new lent).Exact :=
  ⟨fun _ => rfl, fun _ => Nat.zero_le _⟩

/-- a claim keeps the counts exact if its additions do not wrap -/
theorem ResourcePool.Exact.tryClaim (h : pool.Exact) {claim : Amounts}
    (hfits : pool.impossible claim = false → ∀ axis, pool.held axis + claim axis < 2 ^ 64) : (pool.tryClaim claim).2.Exact := by
  unfold ResourcePool.tryClaim
  split_ifs with himpossible hroom
  · exact h
  · have hnowrap := hfits (Bool.eq_false_iff.2 himpossible)
    refine ⟨fun axis => ?_, fun axis => ?_⟩
    · have hsum : (pool.take claim).claimed axis = pool.claimed axis + claim axis := by
        simp [ResourcePool.claimed, ResourcePool.take]
      rw [hsum, ← h.held_eq]
      exact Nat.mod_eq_of_lt (hnowrap axis)
    · exact of_decide_eq_true hroom axis
  · exact h

/-- dropping a lease gives back what it holds -/
theorem ResourcePool.Exact.release (h : pool.Exact) (i : ℕ) : (pool.release i).Exact := by
  unfold ResourcePool.release
  split
  · next claim hclaim =>
    have hsum : ∀ axis, claim axis + ((pool.leases.eraseIdx i).map fun claim => claim axis).sum = pool.held axis := by
      intro axis
      rw [h.held_eq, ResourcePool.claimed]
      obtain ⟨hi, rfl⟩ := List.getElem?_eq_some_iff.1 hclaim
      have hperm := (List.getElem_cons_eraseIdx_perm hi).map fun claim : Amounts => claim axis
      rw [← hperm.sum_eq, List.map_cons, List.sum_cons]
    refine ⟨fun axis => ?_, fun axis => (Nat.sub_le _ _).trans (h.within axis)⟩
    show pool.held axis - claim axis = _
    rw [← hsum axis, Nat.add_sub_cancel_left]
    rfl
  · exact h

theorem tryClaim_lent (pool : ResourcePool) (claim : Amounts) : (pool.tryClaim claim).2.lent = pool.lent := by
  unfold ResourcePool.tryClaim
  split_ifs <;> rfl

theorem release_lent (pool : ResourcePool) (i : ℕ) : (pool.release i).lent = pool.lent := by
  unfold ResourcePool.release
  split <;> rfl

end

end Hocmesh.Core
