/-
A list of priced items that are taken one at a time, each at most once.

`remaining price items taken` is what the items whose index has not been taken still come to. It starts at the sum of all
prices, drops by exactly the price of the item taken, and covers every item that is left; so a fund that follows it is
never short and ends at zero. `countP_le_one` is how at most once follows from keys that never repeat.
-/
import Mathlib.Tactic

namespace Hocmesh.Base

variable {α : Type}

/-- what the items not yet taken come to -/
def remaining (price : α → ℤ) (items : List α) (taken : List ℕ) : ℤ :=
  ((items.zipIdx.filter fun p => p.2 ∉ taken).map fun p => price p.1).sum

theorem remaining_nil (price : α → ℤ) (items : List α) : remaining price items [] = (items.map price).sum := by
  unfold remaining
  have hall : items.zipIdx.filter (fun p => decide (p.2 ∉ [])) = items.zipIdx := by simp
  rw [hall, ← List.zipIdx_map_fst 0 items, List.map_map, List.zipIdx_map_fst]
  rfl

/-- taking index `i` out of numbered items removes exactly the item that carries it -/
theorem sum_filter_snoc (price : α → ℤ) (l : List (α × ℕ)) (taken : List ℕ) {a : α} {i : ℕ} (hl : (l.map Prod.snd).Nodup)
    (ha : (a, i) ∈ l) (hi : i ∉ taken) :
    ((l.filter fun p => p.2 ∉ taken ++ [i]).map fun p => price p.1).sum =
      ((l.filter fun p => p.2 ∉ taken).map fun p => price p.1).sum - price a := by
  induction l with
  | nil => cases ha
  | cons p l ih =>
    rw [List.map_cons, List.nodup_cons] at hl
    obtain ⟨hp, hl⟩ := hl
    rcases List.mem_cons.1 ha with rfl | ha
    · -- the head is the item taken, and no later item carries its index
      have hrest : l.filter (fun p => decide (p.2 ∉ taken ++ [i])) = l.filter fun p => decide (p.2 ∉ taken) := by
        apply List.filter_congr
        intro q hq
        have hne : q.2 ≠ i := fun h => hp (List.mem_map.2 ⟨q, hq, h⟩)
        simp [hne]
      rw [List.filter_cons_of_neg (by simp), List.filter_cons_of_pos (by simpa using hi), hrest, List.map_cons,
        List.sum_cons]
      ring
    · have hne : p.2 ≠ i := fun h => hp (List.mem_map.2 ⟨(a, i), ha, h.symm⟩)
      have hrest := ih hl ha
      by_cases hin : p.2 ∈ taken
      · rw [List.filter_cons_of_neg (by simp [hin]), List.filter_cons_of_neg (by simp [hin]), hrest]
      · rw [List.filter_cons_of_pos (by simp [hin, hne]), List.filter_cons_of_pos (by simpa using hin), List.map_cons,
          List.map_cons, List.sum_cons, List.sum_cons, hrest]
        omega

/-- **Taking one item costs its price.** -/
theorem remaining_snoc (price : α → ℤ) {items : List α} {taken : List ℕ} {a : α} {i : ℕ} (ha : items[i]? = some a)
    (hi : i ∉ taken) : remaining price items (taken ++ [i]) = remaining price items taken - price a := by
  refine sum_filter_snoc price items.zipIdx taken ?_ (List.mk_mem_zipIdx_iff_getElem?.2 ha) hi
  rw [List.zipIdx_map_snd]
  exact List.nodup_range'

theorem remaining_nonneg (price : α → ℤ) (items : List α) (taken : List ℕ) (h : ∀ a ∈ items, 0 ≤ price a) :
    0 ≤ remaining price items taken := by
  apply List.sum_nonneg
  intro x hx
  obtain ⟨p, hp, rfl⟩ := List.mem_map.1 hx
  exact h p.1 (List.fst_mem_of_mem_zipIdx (List.mem_of_mem_filter hp))

/-- what is left covers every item that is left -/
theorem price_le_remaining (price : α → ℤ) {items : List α} {taken : List ℕ} {a : α} {i : ℕ}
    (h : ∀ a ∈ items, 0 ≤ price a) (ha : items[i]? = some a) (hi : i ∉ taken) :
    price a ≤ remaining price items taken := by
  have h1 := remaining_snoc price ha hi
  have h2 := remaining_nonneg price items (taken ++ [i]) h
  omega

/-- nothing is left once every index is taken -/
theorem remaining_eq_zero (price : α → ℤ) {items : List α} {taken : List ℕ} (h : ∀ i < items.length, i ∈ taken) :
    remaining price items taken = 0 := by
  unfold remaining
  have hnone : items.zipIdx.filter (fun p => decide (p.2 ∉ taken)) = [] := by
    rw [List.filter_eq_nil_iff]
    rintro ⟨a, i⟩ hp
    have hlt := List.snd_lt_of_mem_zipIdx hp
    simpa using h i (by omega)
  rw [hnone]
  rfl

/-- among elements with distinct keys, at most one has a property that fixes the key -/
theorem countP_le_one {β : Type} {key : α → β} {p : α → Bool} {k : β} {l : List α} (hnd : (l.map key).Nodup)
    (hk : ∀ a ∈ l, p a = true → key a = k) : l.countP p ≤ 1 := by
  induction l with
  | nil => simp
  | cons a l ih =>
    rw [List.map_cons, List.nodup_cons] at hnd
    obtain ⟨ha, hnd⟩ := hnd
    have hrest := ih hnd fun a' ha' => hk a' (List.mem_cons_of_mem _ ha')
    rw [List.countP_cons]
    split_ifs with hp
    · have hnone : l.countP p = 0 := by
        rw [List.countP_eq_zero]
        intro a' ha' hp'
        have h1 := hk a List.mem_cons_self hp
        have h2 := hk a' (List.mem_cons_of_mem _ ha') hp'
        exact ha (List.mem_map.2 ⟨a', ha', h2.trans h1.symm⟩)
      omega
    · omega

/-- the same amount in for every element with one property and out for every element with another -/
theorem sum_map_ite_sub (p q : α → Bool) (x : ℤ) (l : List α) :
    (l.map fun a => (if p a then x else 0) - (if q a then x else 0)).sum = x * (l.countP p - l.countP q) := by
  induction l with
  | nil => simp
  | cons a l ih =>
    rw [List.map_cons, List.sum_cons, List.countP_cons, List.countP_cons, ih]
    split_ifs <;> push_cast <;> ring

end Hocmesh.Base
