/-
Cutting a range of integers into consecutive ranges.

`Tiles s e l` says that the half-open ranges of `l` follow one another from `s` to `e`. Whatever is computed element by
element over `[s, e)` is then computed range by range (`Tiles.flatMap_range`). `evenCut` are the places where a range is
cut into pieces whose widths differ by at most one, the wider ones first. Nothing in this file is about a workload.
-/
import Mathlib.Tactic

namespace Hocmesh.Base

/-- consecutive half-open ranges from `s` to `e` -/
def Tiles : ℕ → ℕ → List (ℕ × ℕ) → Prop
  | s, e, [] => s = e
  | s, e, p :: l => p.1 = s ∧ p.1 ≤ p.2 ∧ Tiles p.2 e l

namespace Tiles

variable {s e : ℕ} {l : List (ℕ × ℕ)}

theorem le (h : Tiles s e l) : s ≤ e := by
  induction l generalizing s with
  | nil => exact le_of_eq h
  | cons p l ih =>
    obtain ⟨rfl, hp, hrest⟩ := h
    exact hp.trans (ih hrest)

/-- every range lies between the ends -/
theorem within (h : Tiles s e l) : ∀ p ∈ l, s ≤ p.1 ∧ p.1 ≤ p.2 ∧ p.2 ≤ e := by
  induction l generalizing s with
  | nil => simp
  | cons p l ih =>
    obtain ⟨rfl, hp, hrest⟩ := h
    intro q hq
    rcases List.mem_cons.1 hq with rfl | hq
    · exact ⟨le_rfl, hp, hrest.le⟩
    · obtain ⟨h1, h2, h3⟩ := ih hrest q hq
      exact ⟨hp.trans h1, h2, h3⟩

/-- the elements of the ranges, in order, are those of the whole -/
theorem flatMap_range (h : Tiles s e l) : l.flatMap (fun p => List.range' p.1 (p.2 - p.1)) = List.range' s (e - s) := by
  induction l generalizing s with
  | nil =>
    obtain rfl : s = e := h
    simp
  | cons p l ih =>
    obtain ⟨rfl, hp, hrest⟩ := h
    have hle := hrest.le
    rw [List.flatMap_cons, ih hrest, show e - p.1 = (p.2 - p.1) + (e - p.2) by omega, ← List.range'_append_1,
      show p.1 + (p.2 - p.1) = p.2 by omega]

/-- what is computed from the elements one by one is computed range by range -/
theorem flatMap_flatMap (h : Tiles s e l) {α : Type} (f : ℕ → List α) :
    l.flatMap (fun p => (List.range' p.1 (p.2 - p.1)).flatMap f) = (List.range' s (e - s)).flatMap f := by
  rw [← h.flatMap_range, List.flatMap_assoc]

/-- an element of the whole is in one of the ranges -/
theorem mem_iff (h : Tiles s e l) (n : ℕ) : (∃ p ∈ l, n ∈ Set.Ico p.1 p.2) ↔ n ∈ Set.Ico s e := by
  have hrange : ∀ a b, n ∈ List.range' a (b - a) ↔ n ∈ Set.Ico a b := by
    intro a b
    rw [List.mem_range'_1, Set.mem_Ico]
    omega
  rw [← hrange, ← h.flatMap_range, List.mem_flatMap]
  exact exists_congr fun p => and_congr_right fun _ => (hrange p.1 p.2).symm

theorem sum_widths (h : Tiles s e l) : (l.map fun p => p.2 - p.1).sum = e - s := by
  have hlen := congrArg List.length h.flatMap_range
  rwa [List.length_flatMap, List.length_range', List.map_congr_left fun p _ => List.length_range'] at hlen

/-- as many ranges as there are, none of them empty, make a range of no less -/
theorem length_le (h : Tiles s e l) (hne : ∀ p ∈ l, p.1 < p.2) :
    l.length ≤ e - s := by
  have hsum := List.length_le_sum_of_one_le (l.map fun p => p.2 - p.1) fun w hw => by
    obtain ⟨p, hp, rfl⟩ := List.mem_map.1 hw
    have := hne p hp
    omega
  rwa [List.length_map, h.sum_widths] at hsum

theorem head (h : Tiles s e l) : ∀ p ∈ l.head?, p.1 = s := by
  cases l with
  | nil => simp
  | cons p l =>
    intro q hq
    obtain rfl : p = q := by simpa using hq
    exact h.1

/-- the last range ends where the whole does, and each ends where the next begins -/
theorem last (h : Tiles s e l) : (∀ p ∈ l.getLast?, p.2 = e) ∧ ∀ p ∈ l.zip l.tail, p.1.2 = p.2.1 := by
  induction l generalizing s with
  | nil => simp
  | cons p l ih =>
    obtain ⟨-, -, hrest⟩ := h
    obtain ⟨hlast, hnext⟩ := ih hrest
    cases l with
    | nil =>
      have hend : p.2 = e := hrest
      simpa using hend
    | cons q l =>
      refine ⟨by simpa using hlast, ?_⟩
      intro pair hpair
      rw [List.tail_cons, List.zip_cons_cons, List.mem_cons] at hpair
      rcases hpair with rfl | hpair
      · exact hrest.1.symm
      · exact hnext pair hpair

/-- the same of values whose ranges are tiles -/
theorem map {α : Type} {l : List α} {start stop : α → ℕ} (h : Tiles s e (l.map fun x => (start x, stop x))) :
    (∀ x ∈ l.head?, start x = s) ∧ (∀ x ∈ l.getLast?, stop x = e) ∧ ∀ p ∈ l.zip l.tail, stop p.1 = start p.2 := by
  obtain ⟨hlast, hnext⟩ := h.last
  refine ⟨fun x hx => ?_, fun x hx => ?_, fun p hp => ?_⟩
  · exact h.head (start x, stop x) (by rw [List.head?_map]; exact Option.mem_map_of_mem _ hx)
  · exact hlast (start x, stop x) (by rw [List.getLast?_map]; exact Option.mem_map_of_mem _ hx)
  · refine hnext ((start p.1, stop p.1), start p.2, stop p.2) ?_
    rw [← List.map_tail, List.zip_map]
    exact List.mem_map_of_mem (f := Prod.map _ _) hp

/-- consecutive cuts make a tiling -/
theorem of_cuts (cut : ℕ → ℕ) (hmono : ∀ i, cut i ≤ cut (i + 1)) (first n : ℕ) :
    Tiles (cut first) (cut (first + n)) ((List.range' first n).map fun i => (cut i, cut (i + 1))) := by
  induction n generalizing first with
  | zero => rfl
  | succ n ih =>
    rw [List.range'_succ, List.map_cons, show first + (n + 1) = first + 1 + n by omega]
    exact ⟨rfl, hmono first, ih (first + 1)⟩

end Tiles

/-! ## Even cuts -/

/-- where the `i`-th of `n` pieces of `[s, s + width)` begins -/
def evenCut (s width n i : ℕ) : ℕ := s + width / n * i + min i (width % n)

section

variable (s width n i : ℕ)

@[simp] theorem evenCut_zero : evenCut s width n 0 = s := by simp [evenCut]

theorem evenCut_last {n : ℕ} (hn : 0 < n) : evenCut s width n n = s + width := by
  have hmod := Nat.mod_lt width hn
  have hsplit := Nat.div_add_mod width n
  rw [evenCut, min_eq_right hmod.le, mul_comm, add_assoc, hsplit]

theorem evenCut_succ : evenCut s width n (i + 1) = evenCut s width n i + (width / n + if i < width % n then 1 else 0) := by
  unfold evenCut
  have hstep : width / n * (i + 1) = width / n * i + width / n := Nat.mul_succ _ _
  split_ifs <;> omega

theorem evenCut_le_succ : evenCut s width n i ≤ evenCut s width n (i + 1) := by
  rw [evenCut_succ]
  exact Nat.le_add_right _ _

/-- a piece of a range of at least as many elements as pieces is not empty -/
theorem evenCut_lt_succ {n : ℕ} (hn : 0 < n) (hwidth : n ≤ width) : evenCut s width n i < evenCut s width n (i + 1) := by
  have hbase : 0 < width / n := Nat.div_pos hwidth hn
  rw [evenCut_succ]
  omega

theorem evenCut_le {n i : ℕ} (hn : 0 < n) (hi : i ≤ n) : evenCut s width n i ≤ s + width := by
  rw [← evenCut_last s width hn]
  exact monotone_nat_of_le_succ (fun i => evenCut_le_succ s width n i) hi

/-- the pieces follow one another and lose nothing -/
theorem tiles_evenCut {n : ℕ} (hn : 0 < n) :
    Tiles s (s + width) ((List.range' 0 n).map fun i => (evenCut s width n i, evenCut s width n (i + 1))) := by
  have h := Tiles.of_cuts (evenCut s width n) (evenCut_le_succ s width n) 0 n
  rwa [evenCut_zero, Nat.zero_add, evenCut_last s width hn] at h

end

end Hocmesh.Base
