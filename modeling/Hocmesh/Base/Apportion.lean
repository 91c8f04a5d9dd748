/-
Sharing out a whole number in proportion.

`largestRemainder` rounds every exact share down and gives what is left to those that were rounded down hardest.
`liftZeros` then gives one to every place that has nothing, from the place that has most. Both share out exactly the
whole (`sum_largestRemainder`, `liftZeros_spec`), and after both no place is left with nothing when there is more to
share than there are places (`apportion_spec`). Nothing in this file is about a layer.
-/
import Mathlib.Tactic
import Mathlib.Data.List.GetD
import Mathlib.Data.List.MinMax
import Mathlib.Data.List.Sort
import Mathlib.Data.Rat.Floor

namespace Hocmesh.Base

/-! ## One more, one less -/

/-- one more at a place -/
def addAt (counts : List ℕ) (i : ℕ) : List ℕ := counts.modify i (· + 1)

/-- one less at a place -/
def takeAt (counts : List ℕ) (i : ℕ) : List ℕ := counts.modify i (· - 1)

section

variable {counts : List ℕ} {i j : ℕ}

@[simp] theorem length_addAt : (addAt counts i).length = counts.length := List.length_modify ..

@[simp] theorem length_takeAt : (takeAt counts i).length = counts.length := List.length_modify ..

theorem getD_modify (f : ℕ → ℕ) (hj : j < counts.length) :
    (counts.modify i f).getD j 0 = if i = j then f (counts.getD j 0) else counts.getD j 0 := by
  rw [List.getD_eq_getElem?_getD, List.getD_eq_getElem?_getD, List.getElem?_modify, List.getElem?_eq_getElem hj]
  split_ifs <;> rfl

theorem sum_modify (f : ℕ → ℕ) (hi : i < counts.length) :
    (counts.modify i f).sum + counts.getD i 0 = counts.sum + f (counts.getD i 0) := by
  induction counts generalizing i with
  | nil => simp at hi
  | cons c counts ih =>
    cases i with
    | zero =>
      rw [List.modify_zero_cons, List.sum_cons, List.sum_cons, List.getD_cons_zero]
      omega
    | succ i =>
      have hrest := ih (Nat.lt_of_succ_lt_succ hi)
      rw [List.modify_succ_cons, List.sum_cons, List.sum_cons, List.getD_cons_succ]
      omega

theorem sum_addAt (hi : i < counts.length) : (addAt counts i).sum = counts.sum + 1 := by
  have h := sum_modify (· + 1) hi
  unfold addAt
  omega

/-- what is taken at one place and added at another stays in the whole -/
theorem sum_move (hi : i < counts.length) (hj : j < counts.length) (hpos : 0 < counts.getD i 0) :
    (addAt (takeAt counts i) j).sum = counts.sum := by
  have h := sum_modify (· - 1) hi
  rw [sum_addAt (by rwa [length_takeAt]), takeAt]
  omega

theorem foldl_addAt (places : List ℕ) : ∀ counts : List ℕ, (∀ i ∈ places, i < counts.length) →
    (places.foldl addAt counts).length = counts.length ∧
      (places.foldl addAt counts).sum = counts.sum + places.length := by
  induction places with
  | nil => exact fun _ _ => ⟨rfl, rfl⟩
  | cons i places ih =>
    intro counts h
    obtain ⟨hlen, hsum⟩ := ih (addAt counts i) fun j hj => by
      rw [length_addAt]
      exact h j (List.mem_cons_of_mem _ hj)
    rw [List.foldl_cons, hlen, hsum, length_addAt, sum_addAt (h i List.mem_cons_self), List.length_cons]
    omega

end

/-! ## Largest remainder -/

def floors (ideal : List ℚ) : List ℕ := ideal.map fun x => ⌊x⌋₊

/-- the places by how much rounding down takes from them, most first, and in order where it takes the same -/
def remainderOrder (ideal : List ℚ) : List ℕ :=
  (List.range ideal.length).insertionSort fun a b =>
    Int.fract (ideal.getD b 0) < Int.fract (ideal.getD a 0) ∨
      (Int.fract (ideal.getD b 0) = Int.fract (ideal.getD a 0) ∧ a ≤ b)

/-- every share rounded down, and one more for the first places of the order until nothing is left -/
def largestRemainder (total : ℕ) (ideal : List ℚ) : List ℕ :=
  ((remainderOrder ideal).take (total - (floors ideal).sum)).foldl addAt (floors ideal)

section

variable {ideal : List ℚ}

theorem sum_floors_le (h : ∀ x ∈ ideal, 0 ≤ x) : ((floors ideal).sum : ℚ) ≤ ideal.sum := by
  induction ideal with
  | nil => simp [floors]
  | cons x ideal ih =>
    have hx := Nat.floor_le (h x List.mem_cons_self)
    have hrest := ih fun y hy => h y (List.mem_cons_of_mem _ hy)
    unfold floors at *
    rw [List.map_cons, List.sum_cons, List.sum_cons, Nat.cast_add]
    exact add_le_add hx hrest

theorem sum_le_floors (ideal : List ℚ) : ideal.sum ≤ (floors ideal).sum + ideal.length := by
  induction ideal with
  | nil => simp [floors]
  | cons x ideal ih =>
    have hx := Nat.lt_floor_add_one x
    unfold floors at *
    rw [List.map_cons, List.sum_cons, List.sum_cons, List.length_cons, Nat.cast_add, Nat.cast_add, Nat.cast_one]
    linarith

/-- **Rounding loses nothing.** Whole shares that sum to the total, one for each exact share. -/
theorem sum_largestRemainder (h : ∀ x ∈ ideal, 0 ≤ x) {total : ℕ} (hsum : ideal.sum = total) :
    (largestRemainder total ideal).length = ideal.length ∧ (largestRemainder total ideal).sum = total := by
  have hlow : (floors ideal).sum ≤ total := by
    have := sum_floors_le h
    rw [hsum] at this
    exact_mod_cast this
  have hhigh : total ≤ (floors ideal).sum + ideal.length := by
    have := sum_le_floors ideal
    rw [hsum] at this
    exact_mod_cast this
  have horder : (remainderOrder ideal).Perm (List.range ideal.length) := List.perm_insertionSort _ _
  have hplaces : ∀ i ∈ (remainderOrder ideal).take (total - (floors ideal).sum), i < (floors ideal).length := by
    intro i hi
    rw [floors, List.length_map]
    exact List.mem_range.1 (horder.mem_iff.1 (List.mem_of_mem_take hi))
  obtain ⟨hlen, hcount⟩ := foldl_addAt _ _ hplaces
  rw [List.length_take, horder.length_eq, List.length_range] at hcount
  refine ⟨hlen.trans (List.length_map ..), hcount.trans ?_⟩
  omega

end

/-! ## No place with nothing -/

/-- the last of the places that have most, if that is more than one -/
def donor (counts : List ℕ) : Option ℕ :=
  ((List.range counts.length).reverse.argmax fun j => counts.getD j 0).filter fun j => 1 < counts.getD j 0

/-- one for each of these places that has nothing, from the donor; it ends when there is none -/
def liftZeros : List ℕ → List ℕ → List ℕ
  | [], counts => counts
  | i :: places, counts =>
    if 0 < counts.getD i 0 then liftZeros places counts
    else
      match donor counts with
      | none => counts
      | some d => liftZeros places (addAt (takeAt counts d) i)

section

variable {counts : List ℕ}

/-- with more to share than there are places, one has more than one -/
theorem exists_donor (h : counts.length < counts.sum) :
    ∃ d, donor counts = some d ∧ d < counts.length ∧ 1 < counts.getD d 0 := by
  have hmore : ∃ j, j < counts.length ∧ 1 < counts.getD j 0 := by
    by_contra hnone
    have hle : counts.sum ≤ counts.length • 1 := List.sum_le_card_nsmul counts 1 fun c hc => by
      obtain ⟨j, hj, rfl⟩ := List.getElem_of_mem hc
      by_contra hlt
      exact hnone ⟨j, hj, by rw [List.getD_eq_getElem _ _ hj]; omega⟩
    rw [smul_eq_mul, mul_one] at hle
    omega
  obtain ⟨j, hj, hone⟩ := hmore
  have hmem : ∀ k, k ∈ (List.range counts.length).reverse ↔ k < counts.length := fun k => by
    rw [List.mem_reverse, List.mem_range]
  cases hmax : (List.range counts.length).reverse.argmax fun j => counts.getD j 0 with
  | none =>
    rw [List.argmax_eq_none] at hmax
    exact absurd ((hmem j).2 hj) (by rw [hmax]; exact List.not_mem_nil)
  | some d =>
    have hlarge : counts.getD j 0 ≤ counts.getD d 0 := List.le_of_mem_argmax ((hmem j).2 hj) hmax
    refine ⟨d, ?_, (hmem d).1 (List.argmax_mem hmax), by omega⟩
    unfold donor
    rw [hmax]
    exact if_pos (by simpa using hone.trans_le hlarge)

/-- **Nothing is lost in lifting**, no place that has something loses it, and each of the places has something. -/
theorem liftZeros_spec (places : List ℕ) : ∀ counts : List ℕ, counts.length < counts.sum →
    (∀ i ∈ places, i < counts.length) →
    (liftZeros places counts).length = counts.length ∧ (liftZeros places counts).sum = counts.sum ∧
      (∀ j < counts.length, 0 < counts.getD j 0 → 0 < (liftZeros places counts).getD j 0) ∧
      ∀ i ∈ places, 0 < (liftZeros places counts).getD i 0 := by
  induction places with
  | nil => exact fun counts _ _ => ⟨rfl, rfl, fun _ _ h => h, fun i hi => absurd hi List.not_mem_nil⟩
  | cons i places ih =>
    intro counts hmore hplaces
    have hi := hplaces i List.mem_cons_self
    have hrest : ∀ j ∈ places, j < counts.length := fun j hj => hplaces j (List.mem_cons_of_mem _ hj)
    rw [liftZeros]
    split_ifs with hpos
    · obtain ⟨hlen, hsum, hkept, hlifted⟩ := ih counts hmore hrest
      refine ⟨hlen, hsum, hkept, fun j hj => ?_⟩
      rcases List.mem_cons.1 hj with rfl | hj
      · exact hkept _ hi hpos
      · exact hlifted j hj
    · obtain ⟨d, hdonor, hd, hone⟩ := exists_donor hmore
      have hne : d ≠ i := by
        rintro rfl
        omega
      have hmoved := sum_move hd hi (Nat.zero_lt_of_lt hone)
      obtain ⟨hlen, hsum, hkept, hlifted⟩ := ih (addAt (takeAt counts d) i)
        (by rw [hmoved, length_addAt, length_takeAt]; exact hmore)
        (fun j hj => by rw [length_addAt, length_takeAt]; exact hrest j hj)
      rw [length_addAt, length_takeAt] at hlen hkept
      have hplace : ∀ j < counts.length, 0 < counts.getD j 0 ∨ j = i → 0 < (addAt (takeAt counts d) i).getD j 0 := by
        intro j hj hwhich
        rw [addAt, getD_modify _ (by rwa [length_takeAt]), takeAt, getD_modify _ hj]
        split_ifs with h1 h2 h2
        · omega
        · omega
        · subst h2
          omega
        · omega
      rw [hdonor]
      refine ⟨hlen, hsum.trans hmoved, fun j hj hj' => hkept j hj (hplace j hj (.inl hj')), fun j hj => ?_⟩
      rcases List.mem_cons.1 hj with rfl | hj
      · exact hkept _ hi (hplace _ hi (.inr rfl))
      · exact hlifted j hj

end

/-- **Proportional shares, none of them nothing.** -/
theorem apportion_spec {ideal : List ℚ} (h : ∀ x ∈ ideal, 0 ≤ x) {total : ℕ} (hsum : ideal.sum = total)
    (hmore : ideal.length < total) :
    (liftZeros (List.range ideal.length) (largestRemainder total ideal)).length = ideal.length ∧
      (liftZeros (List.range ideal.length) (largestRemainder total ideal)).sum = total ∧
      ∀ c ∈ liftZeros (List.range ideal.length) (largestRemainder total ideal), 0 < c := by
  obtain ⟨hlen, htotal⟩ := sum_largestRemainder h hsum
  obtain ⟨hlen', hsum', -, hlifted⟩ := liftZeros_spec (List.range ideal.length) (largestRemainder total ideal)
    (by rwa [hlen, htotal]) (fun i hi => by rw [hlen]; exact List.mem_range.1 hi)
  refine ⟨hlen'.trans hlen, hsum'.trans htotal, fun c hc => ?_⟩
  obtain ⟨j, hj, rfl⟩ := List.getElem_of_mem hc
  have hpos := hlifted j (List.mem_range.2 (by rw [← hlen, ← hlen']; exact hj))
  rwa [List.getD_eq_getElem _ _ hj] at hpos

end Hocmesh.Base
