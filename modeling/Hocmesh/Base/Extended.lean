/-
Rationals with infinities and a non-number.

The values a float denotes when its finite arithmetic is exact: comparisons with `nan` are false, `max` passes over it, and
what has no value is `nan`. A running `max` over magnitudes is `peak`; a bound on it is a bound on every magnitude that is
a number (`peak_le`), which is the sense in which such a maximum sees nothing of the others.
-/
import Mathlib.Tactic

namespace Hocmesh.Base

inductive Ext where
  | fin (q : ℚ)
  | posInf
  | negInf
  | nan
deriving DecidableEq

namespace Ext

/-! ## Operations -/

def neg : Ext → Ext
  | fin q => fin (-q)
  | posInf => negInf
  | negInf => posInf
  | nan => nan

def abs : Ext → Ext
  | fin q => fin |q|
  | posInf => posInf
  | negInf => posInf
  | nan => nan

def add : Ext → Ext → Ext
  | fin x, fin y => fin (x + y)
  | nan, _ => nan
  | _, nan => nan
  | posInf, negInf => nan
  | negInf, posInf => nan
  | posInf, _ => posInf
  | _, posInf => posInf
  | negInf, _ => negInf
  | _, negInf => negInf

def sub (x y : Ext) : Ext := x.add y.neg

/-- an infinity with the sign of a number; nothing, for zero -/
def signed (q : ℚ) : Ext := if 0 < q then posInf else if q < 0 then negInf else nan

def mul : Ext → Ext → Ext
  | fin x, fin y => fin (x * y)
  | nan, _ => nan
  | _, nan => nan
  | fin x, posInf => signed x
  | fin x, negInf => signed (-x)
  | posInf, fin y => signed y
  | negInf, fin y => signed (-y)
  | posInf, posInf => posInf
  | negInf, negInf => posInf
  | _, _ => negInf

/-- zero is taken for positive where it divides -/
def div : Ext → Ext → Ext
  | nan, _ => nan
  | _, nan => nan
  | fin x, fin y => if y = 0 then signed x else fin (x / y)
  | fin _, _ => fin 0
  | posInf, fin y => if y < 0 then negInf else posInf
  | negInf, fin y => if y < 0 then posInf else negInf
  | _, _ => nan

def le : Ext → Ext → Bool
  | nan, _ => false
  | _, nan => false
  | negInf, _ => true
  | _, posInf => true
  | fin x, fin y => x ≤ y
  | _, _ => false

/-- the larger of two, the other of one that is no number -/
def max (x y : Ext) : Ext :=
  if x = nan then y else if y = nan then x else if x.le y then y else x

theorem signed_of_pos {q : ℚ} (h : 0 < q) : signed q = posInf := if_pos h

theorem fin_div_fin (x : ℚ) {y : ℚ} (h : y ≠ 0) : (fin x).div (fin y) = fin (x / y) := if_neg h

theorem posInf_div_fin {y : ℚ} (h : 0 ≤ y) : posInf.div (fin y) = posInf := if_neg h.not_gt

theorem max_of_ne_nan {x : Ext} (h : x ≠ nan) (y : Ext) : x.max y = if y = nan then x else if x.le y then y else x :=
  if_neg h

/-! ## The order -/

theorem le_refl {x : Ext} (h : x ≠ nan) : x.le x = true := by
  cases x with
  | fin q => simp [le]
  | posInf => rfl
  | negInf => rfl
  | nan => exact absurd rfl h

/-! ## Magnitudes -/

/-- a number that is not negative -/
inductive Magnitude : Ext → Prop
  | fin {q : ℚ} (h : 0 ≤ q) : Magnitude (fin q)
  | posInf : Magnitude posInf

theorem Magnitude.ne_nan {x : Ext} (h : Magnitude x) : x ≠ nan := by
  cases h with
  | fin _ => exact fun h => by cases h
  | posInf => exact fun h => by cases h

theorem magnitude_abs {x : Ext} (h : x ≠ nan) : Magnitude x.abs := by
  cases x with
  | fin q => exact .fin (abs_nonneg q)
  | posInf => exact .posInf
  | negInf => exact .posInf
  | nan => exact absurd rfl h

@[simp] theorem abs_eq_nan {x : Ext} : x.abs = nan ↔ x = nan := by
  cases x <;> simp [abs]

theorem magnitude_zero : Magnitude (fin 0) := .fin le_rfl

theorem le_trans {x y z : Ext} (hxy : x.le y = true) (hyz : y.le z = true) : x.le z = true := by
  cases x <;> cases y <;> cases z <;> simp_all [le]
  exact hxy.trans hyz

theorem le_of_not_le {x y : Ext} (hx : x ≠ nan) (hy : y ≠ nan) (h : ¬ x.le y = true) : y.le x = true := by
  cases x <;> cases y <;> simp_all [le]
  exact h.le

theorem zero_le {x : Ext} (h : Magnitude x) : (fin 0).le x = true := by
  cases h with
  | fin h => simpa [le] using h
  | posInf => rfl

theorem Magnitude.max {x y : Ext} (hx : Magnitude x) (hy : y = nan ∨ Magnitude y) : Magnitude (x.max y) := by
  rw [max_of_ne_nan hx.ne_nan]
  split_ifs with h1 h2
  · exact hx
  · exact hy.resolve_left h1
  · exact hx

/-- a bound of the larger is a bound of both that are numbers -/
theorem max_le {x y b : Ext} (hx : x ≠ nan) : (x.max y).le b = true ↔ x.le b = true ∧ (y = nan ∨ y.le b = true) := by
  rw [max_of_ne_nan hx]
  split_ifs with hy hxy
  · exact ⟨fun h => ⟨h, Or.inl hy⟩, And.left⟩
  · exact ⟨fun h => ⟨le_trans hxy h, Or.inr h⟩, fun h => h.2.resolve_left hy⟩
  · exact ⟨fun h => ⟨h, Or.inr (le_trans (le_of_not_le hx hy hxy) h)⟩, And.left⟩

/-! ## A running maximum -/

/-- the largest of some magnitudes -/
def peak (l : List Ext) : Ext := l.foldl max (fin 0)

theorem foldl_max {l : List Ext} (h : ∀ y ∈ l, y = nan ∨ Magnitude y) {x : Ext} (hx : Magnitude x) :
    Magnitude (l.foldl max x) ∧
      ∀ b, (l.foldl max x).le b = true ↔ x.le b = true ∧ ∀ y ∈ l, y = nan ∨ y.le b = true := by
  induction l generalizing x with
  | nil => exact ⟨hx, fun b => by simp⟩
  | cons y l ih =>
    obtain ⟨hmag, hle⟩ := ih (fun z hz => h z (List.mem_cons_of_mem _ hz)) (hx.max (h y List.mem_cons_self))
    refine ⟨hmag, fun b => ?_⟩
    rw [List.foldl_cons, hle b, max_le hx.ne_nan, and_assoc, List.forall_mem_cons]

theorem magnitude_peak {l : List Ext} (h : ∀ y ∈ l, y = nan ∨ Magnitude y) : Magnitude (peak l) :=
  (foldl_max h magnitude_zero).1

/-- **What a maximum sees.** A bound on it is a bound on every magnitude that is a number. -/
theorem peak_le {l : List Ext} (h : ∀ y ∈ l, y = nan ∨ Magnitude y) {b : Ext} (hb : Magnitude b) :
    (peak l).le b = true ↔ ∀ y ∈ l, y = nan ∨ y.le b = true := by
  rw [peak, (foldl_max h magnitude_zero).2, and_iff_right (zero_le hb)]

theorem foldl_max_eq_posInf {l : List Ext} {x : Ext} (h : l.foldl max x = posInf) : x = posInf ∨ posInf ∈ l := by
  induction l generalizing x with
  | nil => exact Or.inl h
  | cons y l ih =>
    rcases ih h with hmax | hmem
    · unfold Ext.max at hmax
      split_ifs at hmax
      · exact Or.inr (by rw [hmax]; exact List.mem_cons_self)
      · exact Or.inl hmax
      · exact Or.inr (by rw [hmax]; exact List.mem_cons_self)
      · exact Or.inl hmax
    · exact Or.inr (List.mem_cons_of_mem _ hmem)

theorem peak_eq_posInf {l : List Ext} (h : ∀ y ∈ l, y = nan ∨ Magnitude y) : peak l = posInf ↔ posInf ∈ l := by
  constructor
  · intro hpeak
    exact (foldl_max_eq_posInf hpeak).resolve_left (by simp)
  · intro hmem
    have hmag := magnitude_peak h
    have hle := (peak_le h hmag).1 (le_refl hmag.ne_nan) posInf hmem
    cases hpeak : peak l with
    | posInf => rfl
    | fin q =>
      rw [hpeak] at hle
      simp [le] at hle
    | negInf =>
      rw [hpeak] at hmag
      cases hmag
    | nan => exact absurd hpeak hmag.ne_nan

theorem nan_or_magnitude_abs (x : Ext) : x.abs = nan ∨ Magnitude x.abs := by
  by_cases h : x = nan
  · exact Or.inl (abs_eq_nan.2 h)
  · exact Or.inr (magnitude_abs h)

/-- nothing stands at or below infinity but numbers -/
theorem le_posInf {x : Ext} : x.le posInf = true ↔ x ≠ nan := by
  cases x <;> simp [le]

/-! ## Ratios -/

/-- a ratio of magnitudes within a bound, or of no value, is a magnitude within the bound's multiple -/
theorem div_le_iff {x y : Ext} (hx : Magnitude x) (hy : Magnitude y) (hpos : y ≠ fin 0) {q : ℚ} (hq : 0 < q) :
    (x.div y = nan ∨ (x.div y).le (fin q) = true) ↔ x.le ((fin q).mul y) = true := by
  cases hx with
  | fin hx =>
    cases hy with
    | fin hy =>
      rename_i x y
      have hy' : 0 < y := lt_of_le_of_ne hy fun h => hpos (by rw [h])
      rw [fin_div_fin x hy'.ne']
      show (fin (x / y) = nan ∨ decide (x / y ≤ q) = true) ↔ decide (x ≤ q * y) = true
      simp only [reduceCtorEq, false_or, decide_eq_true_eq]
      exact div_le_iff₀ hy'
    | posInf =>
      show (_ ∨ decide (0 ≤ q) = true) ↔ Ext.le _ (signed q) = true
      rw [signed_of_pos hq]
      exact ⟨fun _ => rfl, fun _ => Or.inr (decide_eq_true hq.le)⟩
  | posInf =>
    cases hy with
    | fin hy =>
      rw [posInf_div_fin hy]
      exact ⟨fun h => h.resolve_left (by simp), Or.inr⟩
    | posInf =>
      show _ ↔ posInf.le (signed q) = true
      rw [signed_of_pos hq]
      exact ⟨fun _ => rfl, fun _ => Or.inl rfl⟩

/-- a ratio that has a value within a bound is of a finite magnitude -/
theorem finite_of_div_le {x y : Ext} (hx : Magnitude x) (hy : Magnitude y) {q : ℚ} (h : (x.div y).le (fin q) = true) :
    x ≠ posInf := by
  rintro rfl
  cases hy with
  | fin hy =>
    rw [posInf_div_fin hy] at h
    exact Bool.false_ne_true h
  | posInf => exact Bool.false_ne_true h

theorem div_ne_nan {x y : Ext} (hx : Magnitude x) (hy : Magnitude y) (hpos : y ≠ fin 0) (hfin : x ≠ posInf) : x.div y ≠ nan := by
  cases hx with
  | fin hx =>
    cases hy with
    | fin hy =>
      rename_i x y
      have hy' : y ≠ 0 := fun h => hpos (by rw [h])
      rw [fin_div_fin x hy']
      exact fun h => by cases h
    | posInf =>
      show fin 0 ≠ nan
      exact fun h => by cases h
  | posInf => exact absurd rfl hfin

end Ext

end Hocmesh.Base
