/-
A list grouped by a key, and majorities among the groups.

`groups` lists each key once with the elements that have it, which is what a hash map of vectors holds; the order of its
keys is the map's own. Groups of different keys have no element in common, so at most one of them holds more than half of
the list (`one_majority`), and what is decided by it alone is decided whatever order the groups come in.
-/
import Hocmesh.Base.Choice

namespace Hocmesh.Base

variable {α κ : Type} [DecidableEq κ] (key : α → κ)

/-- the elements with one key, in their order -/
def group (l : List α) (k : κ) : List α := l.filter fun a => key a = k

/-- every key with its group -/
def groups (l : List α) : List (κ × List α) := (l.map key).dedup.map fun k => (k, group key l k)

variable {key}

theorem mem_group {l : List α} {k : κ} {a : α} : a ∈ group key l k ↔ a ∈ l ∧ key a = k := by
  simp [group]

theorem mem_groups {l : List α} {g : κ × List α} : g ∈ groups key l ↔ (∃ a ∈ l, key a = g.1) ∧ g.2 = group key l g.1 := by
  simp only [groups, List.mem_map, List.mem_dedup]
  constructor
  · intro h
    obtain ⟨k, hk, rfl⟩ := h
    exact ⟨hk, rfl⟩
  · intro h
    exact ⟨g.1, h.1, Prod.ext rfl h.2.symm⟩

theorem count_map_eq_length_group [BEq κ] [LawfulBEq κ] (l : List α) (k : κ) :
    (l.map key).count k = (group key l k).length := by
  rw [List.count, List.countP_map, List.countP_eq_length_filter, group]
  refine congrArg List.length (List.filter_congr fun a _ => ?_)
  rw [Function.comp_apply, Bool.eq_iff_iff, beq_iff_eq, decide_eq_true_eq]

theorem group_perm {l l' : List α} (h : l.Perm l') (k : κ) : (group key l k).Perm (group key l' k) := h.filter _

/-- groups of different keys share nothing -/
theorem length_group_add_le (l : List α) {k k' : κ} (hne : k ≠ k') :
    (group key l k).length + (group key l k').length ≤ l.length := by
  induction l with
  | nil => simp [group]
  | cons a l ih =>
    simp only [group, List.filter_cons] at ih ⊢
    by_cases hk : key a = k
    · have hk' : key a ≠ k' := fun heq => hne (hk.symm.trans heq)
      simp only [hk, hne, decide_true, decide_false, if_true, Bool.false_eq_true, if_false, List.length_cons]
      omega
    · simp only [hk, decide_false, Bool.false_eq_true, if_false, List.length_cons]
      split_ifs
      · rw [List.length_cons]
        omega
      · omega

/-- **One majority.** At a bar above half of the list, at most one key reaches it. -/
theorem one_majority {l : List α} {bar : ℕ} (hbar : l.length < 2 * bar) {k k' : κ} (hk : bar ≤ (group key l k).length)
    (hk' : bar ≤ (group key l k').length) : k = k' := by
  by_contra hne
  have hboth : (group key l k).length + (group key l k').length ≤ l.length := length_group_add_le l hne
  omega

/-- entries that say of every key of a list, and of no other, how many elements have it -/
structure Sizes {β : Type} (key : α → κ) (l : List α) (keyOf : β → κ) (size : β → ℕ) (entries : List β) : Prop where
  sound : ∀ b ∈ entries, (∃ a ∈ l, key a = keyOf b) ∧ size b = (group key l (keyOf b)).length
  complete : ∀ a ∈ l, ∃ b ∈ entries, keyOf b = key a

section

variable {β : Type} {keyOf : β → κ} {size : β → ℕ} {l l' : List α} {entries entries' : List β} {best best' : β}

theorem sizes_groups (l : List α) : Sizes key l Prod.fst (fun g => g.2.length) (groups key l) where
  sound g hg := by
    obtain ⟨hkey, hgroup⟩ := mem_groups.1 hg
    exact ⟨hkey, congrArg List.length hgroup⟩
  complete a ha := ⟨(key a, group key l (key a)), mem_groups.2 ⟨⟨a, ha, rfl⟩, rfl⟩, rfl⟩

theorem Sizes.perm (h : Sizes key l keyOf size entries) (hperm : entries'.Perm entries) :
    Sizes key l keyOf size entries' where
  sound b hb := h.sound b (hperm.mem_iff.1 hb)
  complete a ha := by
    obtain ⟨b, hb, heq⟩ := h.complete a ha
    exact ⟨b, hperm.mem_iff.2 hb, heq⟩

/-- the largest entry of a reordered list is no larger -/
theorem Sizes.largest_le (h : Sizes key l keyOf size entries) (h' : Sizes key l' keyOf size entries') (hl : l.Perm l')
    (hbest : best ∈ entries) (htop : AtTop size entries' best') : size best ≤ size best' := by
  obtain ⟨⟨a, ha, hkey⟩, hsize⟩ := h.sound best hbest
  obtain ⟨b, hb, hb'⟩ := h'.complete a (hl.mem_iff.1 ha)
  have hb_size := (h'.sound b hb).2
  rw [hb', hkey, ← (group_perm hl (keyOf best)).length_eq, ← hsize] at hb_size
  exact hb_size ▸ htop.top b hb

/-- **The majority is found whatever the order.** Where at most half of twice the bar is there, the largest entries of a
list and of any reordering of it are of one size, and if it reaches the bar they have one key. -/
theorem Sizes.largest_agree (h : Sizes key l keyOf size entries) (h' : Sizes key l' keyOf size entries')
    (hl : l.Perm l') (hbest : AtTop size entries best) (hbest' : AtTop size entries' best') {bar : ℕ}
    (hbar : l.length < 2 * bar) : size best = size best' ∧ (bar ≤ size best → keyOf best = keyOf best') := by
  have hsize : size best = size best' :=
    le_antisymm (h.largest_le h' hl hbest.mem hbest') (h'.largest_le h hl.symm hbest'.mem hbest)
  refine ⟨hsize, fun hle => ?_⟩
  have hgroup := (h.sound best hbest.mem).2
  have hgroup' := (h'.sound best' hbest'.mem).2
  rw [← (group_perm hl (keyOf best')).length_eq] at hgroup'
  exact one_majority hbar (hgroup ▸ hle) (hgroup' ▸ hsize ▸ hle)

end

end Hocmesh.Base
