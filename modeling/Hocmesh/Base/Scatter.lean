/-
Writing values over a list, each at its own place.

`scatter` makes the writes one after another. If what is written at a place is what a list has there, and every place is
written, the result is that list (`scatter_eq`); lists of one length laid end to end are read by quotient and remainder.
-/
import Mathlib.Tactic

namespace Hocmesh.Base

variable {α β : Type}

def scatter (out : List α) (writes : List (ℕ × α)) : List α := writes.foldl (fun out w => out.set w.1 w.2) out

@[simp] theorem length_scatter (out : List α) (writes : List (ℕ × α)) : (scatter out writes).length = out.length := by
  induction writes generalizing out with
  | nil => rfl
  | cons w writes ih => exact (ih _).trans (by rw [List.length_set])

/-- a place that was right, or was written, is right in the end -/
theorem scatter_get {target : List α} {writes : List (ℕ × α)} (h : ∀ w ∈ writes, target[w.1]? = some w.2) {out : List α}
    (hlen : out.length = target.length) {q : ℕ} (hq : out[q]? = target[q]? ∨ q ∈ writes.map Prod.fst) :
    (scatter out writes)[q]? = target[q]? := by
  induction writes generalizing out with
  | nil => exact hq.resolve_right (by simp)
  | cons w writes ih =>
    have hwrite := h w List.mem_cons_self
    refine ih (fun v hv => h v (List.mem_cons_of_mem _ hv)) (by rw [List.length_set, hlen]) ?_
    by_cases hw : w.1 = q
    · -- the place is written now
      left
      subst hw
      have hbound : w.1 < out.length := by
        rw [hlen]
        exact (List.getElem?_eq_some_iff.1 hwrite).1
      rw [List.getElem?_set_self hbound, hwrite]
    · rcases hq with hq | hq
      · left
        rw [List.getElem?_set_ne hw, hq]
      · right
        rw [List.map_cons, List.mem_cons] at hq
        exact hq.resolve_left fun heq => hw heq.symm

/-- **Every place written.** -/
theorem scatter_eq {target out : List α} {writes : List (ℕ × α)} (h : ∀ w ∈ writes, target[w.1]? = some w.2)
    (hlen : out.length = target.length) (hall : ∀ q < out.length, q ∈ writes.map Prod.fst) : scatter out writes = target := by
  apply List.ext_getElem?
  intro q
  by_cases hq : q < out.length
  · exact scatter_get h hlen (Or.inr (hall q hq))
  · rw [List.getElem?_eq_none (by rw [length_scatter]; omega), List.getElem?_eq_none (by omega)]

/-- element `i` of list `b` of as many of one length -/
theorem getElem?_flatMap_range {m k : ℕ} {g : ℕ → List β} (hg : ∀ b, (g b).length = k) {b i : ℕ} (hb : b < m) (hi : i < k) :
    ((List.range m).flatMap g)[b * k + i]? = (g b)[i]? := by
  have hlength : ∀ m, ((List.range m).flatMap g).length = m * k := by
    intro m
    rw [List.length_flatMap, List.map_congr_left fun b _ => hg b, List.map_const', List.sum_replicate, List.length_range,
      smul_eq_mul]
  induction m with
  | zero => omega
  | succ m ih =>
    rw [List.range_succ, List.flatMap_append, List.flatMap_singleton]
    rcases Nat.lt_succ_iff_lt_or_eq.1 hb with hlt | rfl
    · have hbound : b * k + i < ((List.range m).flatMap g).length := by
        rw [hlength]
        calc b * k + i < (b + 1) * k := by rw [Nat.add_mul, Nat.one_mul]; omega
          _ ≤ m * k := Nat.mul_le_mul_right k hlt
      rw [List.getElem?_append_left hbound, ih hlt]
    · rw [List.getElem?_append_right (by rw [hlength]; omega), hlength, Nat.add_sub_cancel_left]

/-- the places of as many lists of one length, end to end -/
theorem range_mul (m k : ℕ) : ((List.range m).flatMap fun b => (List.range k).map fun p => b * k + p) = List.range (m * k) := by
  induction m with
  | zero => simp
  | succ m ih =>
    rw [List.range_succ, List.flatMap_append, List.flatMap_singleton, Nat.succ_mul, List.range_add, ih]

theorem range_mul_perm {m k : ℕ} :
    ((List.range m).flatMap fun b => (List.finRange k).map fun p => b * k + p.val).Perm (List.range (m * k)) := by
  have hfin : ∀ b, ((List.finRange k).map fun p => b * k + p.val) = (List.range k).map fun p => b * k + p := by
    intro b
    have hval : (List.finRange k).map Fin.val = List.range k := by simp
    rw [← hval, List.map_map]
    rfl
  simp only [hfin, range_mul]
  exact List.Perm.refl _

end Hocmesh.Base
