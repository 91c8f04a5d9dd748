/-
Tables whose rows are rewritten in place.

An `UPDATE` replaces each row by a function of it, so no row comes or goes. `Rewrites R` is any number of them that leave
`R` between a row and what it became; what holds of the table afterwards is read off `R`.
-/
import Mathlib.Data.List.Nodup

namespace Hocmesh.Base

/-- the rows of a table after updates that leave `R` between each row and its new version -/
def Rewrites {α : Type} (R : α → α → Prop) (rows rows' : List α) : Prop :=
  ∃ g : α → α, rows' = rows.map g ∧ ∀ a, R a (g a)

namespace Rewrites

variable {α β : Type} {R S : α → α → Prop} {rows rows' rows'' : List α}

theorem of_map {g : α → α} (h : ∀ a, R a (g a)) : Rewrites R rows (rows.map g) := ⟨g, rfl, h⟩

theorem refl (h : ∀ a, R a a) : Rewrites R rows rows := ⟨id, by simp, h⟩

theorem trans (htrans : ∀ a b c, R a b → R b c → R a c) (h : Rewrites R rows rows') (h' : Rewrites R rows' rows'') :
    Rewrites R rows rows'' := by
  obtain ⟨g, rfl, hg⟩ := h
  obtain ⟨g', rfl, hg'⟩ := h'
  exact ⟨g' ∘ g, by simp, fun a => htrans _ _ _ (hg a) (hg' (g a))⟩

theorem mono (hRS : ∀ a b, R a b → S a b) (h : Rewrites R rows rows') : Rewrites S rows rows' := by
  obtain ⟨g, heq, hg⟩ := h
  exact ⟨g, heq, fun a => hRS _ _ (hg a)⟩

/-- every row there is now was a row before -/
theorem before (h : Rewrites R rows rows') {b : α} (hb : b ∈ rows') : ∃ a ∈ rows, R a b := by
  obtain ⟨g, rfl, hg⟩ := h
  obtain ⟨a, ha, rfl⟩ := List.mem_map.1 hb
  exact ⟨a, ha, hg a⟩

/-- every row there was is a row now -/
theorem after (h : Rewrites R rows rows') {a : α} (ha : a ∈ rows) : ∃ b ∈ rows', R a b := by
  obtain ⟨g, rfl, hg⟩ := h
  exact ⟨g a, List.mem_map_of_mem ha, hg a⟩

/-- a column nothing writes to -/
theorem column (h : Rewrites R rows rows') {f : α → β} (hf : ∀ a b, R a b → f b = f a) : rows'.map f = rows.map f := by
  obtain ⟨g, rfl, hg⟩ := h
  rw [List.map_map]
  exact List.map_congr_left fun a _ => hf a (g a) (hg a)

end Rewrites

end Hocmesh.Base
