/-
Finite tables: sorted maps keyed by a column, as a database table with a primary key or a `BTreeMap` is.

A table is `Std.ExtTreeMap`, so two tables with the same rows are equal. What is added here is `total`, the sum of an
integer column, and how one upsert changes it (`total_insert`); and `total_zero_bound`, the bookkeeping consequence
that in a table summing to zero every row is bounded by the one row allowed to be negative.
-/
import Mathlib.Tactic

namespace Hocmesh.Base

open Std

abbrev Table (K V : Type) [Ord K] := ExtTreeMap K V

namespace Table

variable {K V : Type} [Ord K] [TransOrd K] [LawfulEqOrd K]

/-- the sum of an integer column -/
def total (t : Table K ℤ) : ℤ := (t.toList.map Prod.snd).sum

/-- the entry of a row, a missing row counting as zero -/
def entry (t : Table K ℤ) (k : K) : ℤ := t[k]?.getD 0

/-- the row of the greatest key: `ORDER BY key DESC LIMIT 1` -/
def last? (t : Table K V) : Option V := t.toList.getLast?.map Prod.snd

@[simp] theorem get_insert_self (t : Table K V) (k : K) (v : V) : (t.insert k v)[k]? = some v := by
  simp

theorem get_insert (t : Table K V) [DecidableEq K] (k a : K) (v : V) :
    (t.insert k v)[a]? = if k = a then some v else t[a]? := by
  rw [ExtTreeMap.getElem?_insert]
  by_cases h : k = a
  · subst h; simp
  · simp [h]

/-- writing a row that is already there changes nothing, and writing any other does -/
theorem insert_eq_self_iff (t : Table K V) (k : K) (v : V) : t.insert k v = t ↔ t[k]? = some v := by
  classical
  constructor
  · intro h
    rw [← h]
    exact get_insert_self t k v
  · intro h
    apply ExtTreeMap.ext_getElem?
    intro a
    rw [get_insert]
    split_ifs with ha
    · rw [← ha, h]
    · rfl

theorem map_insert {W : Type} (t : Table K V) (k : K) (v : V) (f : V → W) :
    (t.insert k v).map (fun _ x => f x) = (t.map fun _ x => f x).insert k (f v) := by
  classical
  apply ExtTreeMap.ext_getElem?
  intro a
  rw [ExtTreeMap.getElem?_map, get_insert, get_insert, ExtTreeMap.getElem?_map]
  split_ifs <;> rfl

theorem entry_insert [DecidableEq K] (t : Table K ℤ) (k a : K) (v : ℤ) :
    entry (t.insert k v) a = if k = a then v else entry t a := by
  unfold entry
  rw [get_insert]
  split_ifs <;> rfl

/-- a list in ascending order ends in the element nothing exceeds -/
theorem getLast?_of_max {α : Type} {r : α → α → Prop} {l : List α} {x : α} (hs : l.Pairwise r) (hx : x ∈ l)
    (hmax : ∀ y ∈ l, ¬ r x y) : l.getLast? = some x := by
  obtain ⟨l₁, l₂, rfl⟩ := List.append_of_mem hx
  cases l₂ with
  | nil => simp
  | cons y l₂ =>
    have hxy : r x y := by
      have := (List.pairwise_append.1 hs).2.1
      exact (List.pairwise_cons.1 this).1 y List.mem_cons_self
    exact absurd hxy (hmax y (by simp))

theorem last?_insert (t : Table K V) (k : K) (v : V) (h : ∀ a ∈ t, (compare a k).isLE) :
    last? (t.insert k v) = some v := by
  have hsorted : (t.insert k v).toList.Pairwise fun a b => compare a.1 b.1 = .lt := ExtTreeMap.ordered_keys_toList
  have hmem : (k, v) ∈ (t.insert k v).toList := by
    rw [ExtTreeMap.mem_toList_iff_getElem?_eq_some]
    simp
  have hlast : (t.insert k v).toList.getLast? = some (k, v) := by
    refine getLast?_of_max hsorted hmem ?_
    rintro ⟨a, w⟩ ha hlt
    have ha' : a ∈ t.insert k v := by
      rw [ExtTreeMap.mem_toList_iff_getElem?_eq_some] at ha
      rw [ExtTreeMap.mem_iff_isSome_getElem?, ha]
      rfl
    rcases ExtTreeMap.mem_insert.1 ha' with heq | hin
    · rw [heq] at hlt
      cases hlt
    · have hgt : compare a k = .gt := OrientedCmp.gt_of_lt hlt
      have := h a hin
      rw [hgt] at this
      cases this
  simp [last?, hlast]

theorem nodup_toList (t : Table K V) : t.toList.Nodup := by
  refine (ExtTreeMap.distinct_keys_toList (t := t)).imp ?_
  intro a b h hab
  subst hab
  exact h (by simp)

/-- every row but the one at `k`, plus the row at `k` -/
theorem toList_perm (t : Table K V) (k : K) :
    t.toList.Perm ((t[k]?.map fun v => (k, v)).toList ++ (t.erase k).toList) := by
  classical
  refine (List.perm_ext_iff_of_nodup (nodup_toList t) ?_).2 ?_
  · refine List.Nodup.append ?_ (nodup_toList _) ?_
    · cases t[k]? <;> simp
    · rintro ⟨a, v⟩ h1 h2
      rw [ExtTreeMap.mem_toList_iff_getElem?_eq_some, ExtTreeMap.getElem?_erase] at h2
      have hk : a = k := by
        cases h : t[k]? with
        | none => rw [h] at h1; simp at h1
        | some w => rw [h] at h1; simp at h1; exact h1.1
      subst hk
      simp at h2
  · rintro ⟨a, v⟩
    rw [List.mem_append, ExtTreeMap.mem_toList_iff_getElem?_eq_some, ExtTreeMap.mem_toList_iff_getElem?_eq_some,
      ExtTreeMap.getElem?_erase]
    by_cases h : k = a
    · subst h
      cases ht : t[k]? <;> simp [eq_comm]
    · have hc : ¬ compare k a = Ordering.eq := by rw [LawfulEqOrd.compare_eq_iff_eq]; exact h
      rw [if_neg hc]
      cases ht : t[k]? <;> simp [Ne.symm h]

theorem total_erase (t : Table K ℤ) (k : K) : total (t.erase k) = total t - entry t k := by
  have h := ((toList_perm t k).map Prod.snd).sum_eq
  unfold total entry
  rw [h]
  cases t[k]? <;> simp

/-- **One upsert moves the total by the difference of the two rows.** -/
theorem total_insert (t : Table K ℤ) (k : K) (v : ℤ) : total (t.insert k v) = total t - entry t k + v := by
  classical
  have h1 := total_erase (t.insert k v) k
  have h2 := total_erase t k
  have he : (t.insert k v).erase k = t.erase k := by
    apply ExtTreeMap.ext_getElem?
    intro a
    rw [ExtTreeMap.getElem?_erase, ExtTreeMap.getElem?_erase, get_insert]
    by_cases h : k = a
    · simp [h]
    · simp [h]
  rw [he, h2, entry_insert, if_pos rfl] at h1
  omega

theorem entry_erase [DecidableEq K] (t : Table K ℤ) (k a : K) :
    entry (t.erase k) a = if k = a then 0 else entry t a := by
  unfold entry
  rw [ExtTreeMap.getElem?_erase]
  by_cases h : k = a <;> simp [h]

omit [LawfulEqOrd K] in
@[simp] theorem last?_empty : last? (∅ : Table K V) = none := by
  simp [last?]

omit [LawfulEqOrd K] in
@[simp] theorem toList_empty : (∅ : Table K V).toList = [] := ExtTreeMap.toList_eq_nil_iff.2 rfl

omit [LawfulEqOrd K] in
theorem total_empty : total (∅ : Table K ℤ) = 0 := by
  simp [total]

theorem total_nonneg (t : Table K ℤ) (h : ∀ a, 0 ≤ entry t a) : 0 ≤ total t := by
  apply List.sum_nonneg
  intro x hx
  obtain ⟨⟨a, v⟩, hm, rfl⟩ := List.mem_map.1 hx
  rw [ExtTreeMap.mem_toList_iff_getElem?_eq_some] at hm
  have := h a
  simpa [entry, hm] using this

theorem entry_le_total (t : Table K ℤ) (h : ∀ a, 0 ≤ entry t a) (a : K) : entry t a ≤ total t := by
  classical
  have hw : 0 ≤ total (t.erase a) := total_nonneg _ fun b => by
    rw [entry_erase]
    split_ifs
    · exact le_rfl
    · exact h b
  rw [total_erase] at hw
  omega

/-- In a table of total zero whose rows are nonnegative except possibly the one at `k`, that row is at most zero and
bounds every other row. -/
theorem total_zero_bound (t : Table K ℤ) (k : K) (h0 : total t = 0) (hpos : ∀ a, a ≠ k → 0 ≤ entry t a) :
    entry t k ≤ 0 ∧ ∀ a, a ≠ k → entry t a ≤ - entry t k := by
  classical
  have hnn : ∀ a, 0 ≤ entry (t.erase k) a := by
    intro a
    rw [entry_erase]
    split_ifs with ha
    · exact le_rfl
    · exact hpos a (Ne.symm ha)
  have hsum := total_erase t k
  have h1 := total_nonneg _ hnn
  refine ⟨by omega, fun a ha => ?_⟩
  have h2 := entry_le_total _ hnn a
  rw [entry_erase, if_neg (Ne.symm ha)] at h2
  omega

/-- the last row is the one under the greatest key -/
theorem last?_eq_some_iff (t : Table K V) (v : V) :
    last? t = some v ↔ ∃ k, t[k]? = some v ∧ ∀ a ∈ t, (compare a k).isLE := by
  have hsorted : t.toList.Pairwise fun a b => compare a.1 b.1 = .lt := ExtTreeMap.ordered_keys_toList
  have hmem : ∀ a ∈ t, ∃ w, (a, w) ∈ t.toList := by
    intro a ha
    obtain ⟨w, hw⟩ := Option.isSome_iff_exists.1 (ExtTreeMap.mem_iff_isSome_getElem?.1 ha)
    exact ⟨w, ExtTreeMap.mem_toList_iff_getElem?_eq_some.2 hw⟩
  constructor
  · intro h
    obtain ⟨⟨k, w⟩, hlast, rfl⟩ := Option.map_eq_some_iff.1 h
    obtain ⟨l, hl⟩ := List.getLast?_eq_some_iff.1 hlast
    refine ⟨k, ExtTreeMap.mem_toList_iff_getElem?_eq_some.1 (by rw [hl]; simp), ?_⟩
    intro a ha
    obtain ⟨w', hw'⟩ := hmem a ha
    rw [hl] at hsorted hw'
    rcases List.mem_append.1 hw' with hw' | hw'
    · have := (List.pairwise_append.1 hsorted).2.2 _ hw' (k, w) (by simp)
      rw [this]
      rfl
    · simp only [List.mem_singleton, Prod.mk.injEq] at hw'
      rw [hw'.1]
      simp
  · intro h
    obtain ⟨k, hk, hmax⟩ := h
    have hlast : t.toList.getLast? = some (k, v) := by
      refine getLast?_of_max hsorted (ExtTreeMap.mem_toList_iff_getElem?_eq_some.2 hk) ?_
      intro y hy hlt
      have hya : y.1 ∈ t := ExtTreeMap.mem_iff_isSome_getElem?.2 (by
        rw [ExtTreeMap.mem_toList_iff_getElem?_eq_some.1 hy]
        rfl)
      have hle := hmax y.1 hya
      rw [OrientedCmp.gt_of_lt hlt] at hle
      cases hle
    simp [last?, hlast]

/-- rows that differ from a default are the rows of the function the table stands for -/
theorem filter_ne_congr [DecidableEq V] {t u : Table K V} (d : V) (h : ∀ k : K, t[k]?.getD d = u[k]?.getD d) :
    t.toList.filter (fun row => row.2 ≠ d) = u.toList.filter (fun row => row.2 ≠ d) := by
  have hrows : (t.filter fun _ v => v ≠ d) = u.filter fun _ v => v ≠ d := by
    apply ExtTreeMap.ext_getElem?
    intro k
    rw [ExtTreeMap.getElem?_filter', ExtTreeMap.getElem?_filter']
    have hk := h k
    generalize t[k]? = x at hk
    generalize u[k]? = y at hk
    cases x <;> cases y <;> simp_all [Option.filter]
  have hlist := congrArg ExtTreeMap.toList hrows
  rwa [ExtTreeMap.toList_filter, ExtTreeMap.toList_filter] at hlist

section Merge

variable {W : Type} (g : Option V → W → V)

/-- write one row over what the table holds under its key -/
def merge (t : Table K V) (row : K × W) : Table K V := t.insert row.1 (g t[row.1]? row.2)

theorem get_merge_of_absent (l : List (K × W)) (t : Table K V) (k : K) (h : ∀ w, (k, w) ∉ l) :
    (l.foldl (merge g) t)[k]? = t[k]? := by
  classical
  induction l generalizing t with
  | nil => rfl
  | cons row l ih =>
    have hne : row.1 ≠ k := by
      intro heq
      exact h row.2 (by rw [← heq]; exact List.mem_cons_self)
    rw [List.foldl_cons, ih _ (fun w hw => h w (List.mem_cons_of_mem _ hw)), merge, get_insert, if_neg hne]

theorem get_merge_of_mem (l : List (K × W)) (hl : l.Pairwise fun a b => a.1 ≠ b.1) (t : Table K V) (k : K) (w : W)
    (h : (k, w) ∈ l) : (l.foldl (merge g) t)[k]? = some (g t[k]? w) := by
  classical
  induction l generalizing t with
  | nil => cases h
  | cons row l ih =>
    obtain ⟨hrow, hl⟩ := List.pairwise_cons.1 hl
    rw [List.foldl_cons]
    rcases List.mem_cons.1 h with rfl | h
    · rw [get_merge_of_absent g l _ k fun w hw => hrow _ hw rfl, merge, get_insert, if_pos rfl]
    · rw [ih hl _ h, merge, get_insert, if_neg (hrow _ h)]

/-- **A table merged into another.** Each key is written once, so the rows do not see each other. -/
theorem get_mergeAll (rows : Table K W) (t : Table K V) (k : K) :
    (rows.toList.foldl (merge g) t)[k]? = match rows[k]? with
      | some w => some (g t[k]? w)
      | none => t[k]? := by
  have hkeys : rows.toList.Pairwise fun a b => a.1 ≠ b.1 := by
    refine (ExtTreeMap.distinct_keys_toList (t := rows)).imp ?_
    intro a b h hab
    rw [hab] at h
    exact h (by simp)
  cases hk : rows[k]? with
  | none =>
    refine get_merge_of_absent g _ t k ?_
    intro w hw
    rw [ExtTreeMap.mem_toList_iff_getElem?_eq_some, hk] at hw
    cases hw
  | some w => exact get_merge_of_mem g _ hkeys t k w (ExtTreeMap.mem_toList_iff_getElem?_eq_some.2 hk)

end Merge

end Table

end Hocmesh.Base
