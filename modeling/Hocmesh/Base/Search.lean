/-
Looking for one list in another.

`find` gives the first place a list occurs, as what is before it and what is from it on; `rsplitOnce` cuts at the last
place a separator occurs. Nothing in this file is about file names.
-/
import Mathlib.Tactic

namespace Hocmesh.Base

variable {α : Type} [DecidableEq α]

/-- what is before the first occurrence, and what is from it on -/
def find (want : List α) : List α → Option (List α × List α)
  | [] => if want = [] then some ([], []) else none
  | a :: rest =>
    if want <+: a :: rest then some ([], a :: rest)
    else (find want rest).map fun found => (a :: found.1, found.2)

/-- what is before the last occurrence of the separator, and what is behind it -/
def rsplitOnce (separator : List α) : List α → Option (List α × List α)
  | [] => if separator = [] then some ([], []) else none
  | a :: rest =>
    match rsplitOnce separator rest with
    | some (head, tail) => some (a :: head, tail)
    | none => if separator <+: a :: rest then some ([], (a :: rest).drop separator.length) else none

variable {want separator text before after head tail : List α}

theorem find_eq_some (h : find want text = some (before, after)) : text = before ++ after ∧ want <+: after := by
  induction text generalizing before with
  | nil =>
    simp only [find, Option.ite_none_right_eq_some, Option.some.injEq, Prod.mk.injEq] at h
    obtain ⟨rfl, rfl, rfl⟩ := h
    exact ⟨rfl, List.prefix_rfl⟩
  | cons a rest ih =>
    rw [find] at h
    split_ifs at h with hhere
    · cases h
      exact ⟨rfl, hhere⟩
    · obtain ⟨⟨before', after'⟩, hfound, heq⟩ := Option.map_eq_some_iff.1 h
      obtain ⟨rfl, rfl⟩ := Prod.mk.inj heq
      obtain ⟨rfl, hleads⟩ := ih hfound
      exact ⟨rfl, hleads⟩

/-- an occurrence is found, and none before the one found -/
theorem exists_find {before' after' : List α} (htext : text = before' ++ after') (hleads : want <+: after') :
    ∃ before after, find want text = some (before, after) ∧ before.length ≤ before'.length := by
  induction text generalizing before' with
  | nil =>
    obtain ⟨rfl, rfl⟩ := List.nil_eq_append_iff.1 htext
    rw [List.prefix_nil] at hleads
    exact ⟨[], [], by rw [find, if_pos hleads], le_rfl⟩
  | cons a rest ih =>
    by_cases hhere : want <+: a :: rest
    · exact ⟨[], a :: rest, by rw [find, if_pos hhere], Nat.zero_le _⟩
    · cases before' with
      | nil =>
        rw [List.nil_append] at htext
        exact absurd (htext ▸ hleads) hhere
      | cons b before' =>
        rw [List.cons_append, List.cons.injEq] at htext
        obtain ⟨before, after, hfound, hle⟩ := ih htext.2
        refine ⟨a :: before, after, ?_, Nat.succ_le_succ hle⟩
        rw [find, if_neg hhere, hfound, Option.map_some]

theorem rsplitOnce_eq_some (h : rsplitOnce separator text = some (head, tail)) : text = head ++ separator ++ tail := by
  induction text generalizing head with
  | nil =>
    simp only [rsplitOnce, Option.ite_none_right_eq_some, Option.some.injEq, Prod.mk.injEq] at h
    obtain ⟨rfl, rfl, rfl⟩ := h
    rfl
  | cons a rest ih =>
    rw [rsplitOnce] at h
    split at h
    · next head' tail' hrest =>
      cases h
      rw [ih hrest, List.cons_append, List.cons_append]
    · split_ifs at h with hhere
      cases h
      obtain ⟨tail, htail⟩ := hhere
      rw [← htail, List.drop_left, List.nil_append]

end Hocmesh.Base
