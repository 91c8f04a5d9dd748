/-
Scans that keep the best element they have seen.

A scan keeps its element until one arrives that it does not beat, so of several that nothing beats the last stays. Where
beating is having the greater key, what a scan ends with is at the top of the list (`AtTop`). A key that tells elements
apart puts one element at the top, whatever the order of the list; taking another element away leaves it there, and a new
element is either at the top itself or changes nothing.
-/
import Mathlib.Tactic

namespace Hocmesh.Base

variable {α κ : Type}

/-- the element a scan goes on with -/
def keepBest (beats : α → α → Bool) (best x : α) : α := if beats best x then best else x

section

variable [LinearOrder κ] (key : α → κ)

/-- an element of the list that no other has a greater key than -/
structure AtTop (l : List α) (a : α) : Prop where
  mem : a ∈ l
  top : ∀ x ∈ l, key x ≤ key a

variable {key}

theorem AtTop.perm {l l' : List α} {a : α} (h : AtTop key l a) (hl : l.Perm l') : AtTop key l' a :=
  ⟨hl.mem_iff.1 h.mem, fun x hx => h.top x (hl.mem_iff.2 hx)⟩

/-- only the elements count, not how often or in what order they come -/
theorem AtTop.congr {l l' : List α} {a : α} (h : AtTop key l a) (hl : ∀ x, x ∈ l ↔ x ∈ l') : AtTop key l' a :=
  ⟨(hl a).1 h.mem, fun x hx => h.top x ((hl x).2 hx)⟩

/-- what is at the top stays there when elements go and it does not -/
theorem AtTop.subset {l l' : List α} {a : α} (h : AtTop key l a) (hsub : l' ⊆ l) (ha : a ∈ l') : AtTop key l' a :=
  ⟨ha, fun x hx => h.top x (hsub hx)⟩

/-- with one more element, the top is that element or what it was -/
theorem AtTop.of_cons {l : List α} {a b : α} (h : AtTop key (b :: l) a) : a = b ∨ AtTop key l a := by
  cases List.mem_cons.1 h.mem with
  | inl heq => exact Or.inl heq
  | inr hmem => exact Or.inr ⟨hmem, fun x hx => h.top x (List.mem_cons_of_mem b hx)⟩

/-- elements at the top have one key -/
theorem AtTop.key_eq {l : List α} {a b : α} (ha : AtTop key l a) (hb : AtTop key l b) : key a = key b :=
  le_antisymm (hb.top a ha.mem) (ha.top b hb.mem)

theorem AtTop.unique (hinj : Function.Injective key) {l : List α} {a b : α} (ha : AtTop key l a) (hb : AtTop key l b) :
    a = b :=
  hinj (ha.key_eq hb)

/-- **Scan rule.** A scan that prefers the greater key ends at the top. -/
theorem atTop_scan {beats : α → α → Bool} (hbeats : ∀ a b, beats a b = true ↔ key b < key a) (l : List α) (a : α) :
    AtTop key (a :: l) (l.foldl (keepBest beats) a) := by
  induction l generalizing a with
  | nil => exact ⟨List.mem_cons_self, fun x hx => (List.mem_singleton.1 hx) ▸ le_rfl⟩
  | cons x l ih =>
    rw [List.foldl_cons]
    obtain ⟨hmem, htop⟩ := ih (keepBest beats a x)
    have hkept : keepBest beats a x ∈ [a, x] ∧ key a ≤ key (keepBest beats a x) ∧ key x ≤ key (keepBest beats a x) := by
      unfold keepBest
      split_ifs with h
      · exact ⟨List.mem_cons_self, le_rfl, ((hbeats a x).1 h).le⟩
      · exact ⟨by simp, not_lt.1 fun hlt => h ((hbeats a x).2 hlt), le_rfl⟩
    have hbest := htop _ List.mem_cons_self
    refine ⟨?_, fun y hy => ?_⟩
    · cases List.mem_cons.1 hmem with
      | inl heq =>
        rw [heq]
        exact List.mem_append_left l hkept.1
      | inr hin => exact List.mem_cons_of_mem a (List.mem_cons_of_mem x hin)
    · cases List.mem_cons.1 hy with
      | inl heq => exact heq ▸ hkept.2.1.trans hbest
      | inr hin =>
        cases List.mem_cons.1 hin with
        | inl heq => exact heq ▸ hkept.2.2.trans hbest
        | inr hin => exact htop y (List.mem_cons_of_mem _ hin)

end

end Hocmesh.Base
