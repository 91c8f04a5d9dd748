/-
Folds with a condition at every step.

`Along step P s l` says that `P` holds of every element of `l` in the state the fold has reached when it gets there. It is
what a loop of checks leaves behind, and the induction principle `Along.invariant` turns a one-step lemma into a fact
about the whole fold and the elements it has consumed.
-/
import Mathlib.Tactic

namespace Hocmesh.Base

variable {σ α : Type} {step : σ → α → σ} {P Q : σ → α → Prop}

def Along (step : σ → α → σ) (P : σ → α → Prop) : σ → List α → Prop
  | _, [] => True
  | s, a :: l => P s a ∧ Along step P (step s a) l

namespace Along

@[simp] theorem nil (s : σ) : Along step P s [] := trivial

@[simp] theorem cons_iff (s : σ) (a : α) (l : List α) : Along step P s (a :: l) ↔ P s a ∧ Along step P (step s a) l :=
  Iff.rfl

instance decidable [∀ s a, Decidable (P s a)] : ∀ (s : σ) (l : List α), Decidable (Along step P s l)
  | _, [] => isTrue trivial
  | s, a :: l =>
    have := decidable (step s a) l
    inferInstanceAs (Decidable (P s a ∧ Along step P (step s a) l))

theorem append_iff (s : σ) (l₁ l₂ : List α) :
    Along step P s (l₁ ++ l₂) ↔ Along step P s l₁ ∧ Along step P (l₁.foldl step s) l₂ := by
  induction l₁ generalizing s with
  | nil => simp
  | cons a l ih => simp [ih, and_assoc]

/-- **Fold invariant.** What one step keeps, the fold keeps; the consumed elements are the invariant's to mention. -/
theorem invariant (Inv : σ → List α → Prop)
    (hstep : ∀ s pre a, Inv s pre → P s a → Inv (step s a) (pre ++ [a])) :
    ∀ (l : List α) (s : σ) (pre : List α), Along step P s l → Inv s pre → Inv (l.foldl step s) (pre ++ l) := by
  intro l
  induction l with
  | nil =>
    intro s pre _ hinv
    simpa using hinv
  | cons a l ih =>
    intro s pre h hinv
    have := ih (step s a) (pre ++ [a]) h.2 (hstep s pre a hinv h.1)
    simpa using this

/-- strengthen the condition with an invariant that the steps keep -/
theorem strengthen (Inv : σ → Prop) (hstep : ∀ s a, Inv s → P s a → Inv (step s a))
    (himp : ∀ s a, Inv s → P s a → Q s a) :
    ∀ (l : List α) (s : σ), Inv s → Along step P s l → Along step Q s l := by
  intro l
  induction l with
  | nil => intro s _ _; trivial
  | cons a l ih =>
    intro s hs h
    exact ⟨himp s a hs h.1, ih _ (hstep s a hs h.1) h.2⟩

/-- every element was met in some state of the fold -/
theorem of_mem {l : List α} {s : σ} {a : α} (h : Along step P s l) (ha : a ∈ l) :
    ∃ l₁ l₂, l = l₁ ++ a :: l₂ ∧ P (l₁.foldl step s) a := by
  obtain ⟨l₁, l₂, rfl⟩ := List.append_of_mem ha
  rw [append_iff] at h
  exact ⟨l₁, l₂, rfl, h.2.1⟩

end Along

end Hocmesh.Base
