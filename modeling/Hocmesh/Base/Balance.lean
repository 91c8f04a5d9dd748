/-
Items given out one at a time, each to the least loaded of the takers that may have it.

Takers come in ranks: one of a worse rank is passed over while one of a better rank may have the item. Within a rank the
taker with the fewest items so far gets it. `LeastLoaded` is a list of items given out like this. No taker of it ends up more
than one item ahead of another of its rank that might have had everything it got (`LeastLoaded.balanced`).
-/
import Mathlib.Tactic

namespace Hocmesh.Base

variable {ι β κ : Type} [DecidableEq β] [LinearOrder κ]

/-- how many items a taker has -/
def loadOf (given : List (ι × β)) (b : β) : ℕ := given.countP fun g => g.2 = b

theorem loadOf_concat (given : List (ι × β)) (i : ι) (b c : β) :
    loadOf (given ++ [(i, b)]) c = loadOf given c + if b = c then 1 else 0 := by
  simp [loadOf, List.countP_append, List.countP_singleton]

/-- items given out in order, each as the ones before it demand -/
inductive LeastLoaded (may : ι → β → Prop) (rank : β → κ) : List (ι × β) → Prop where
  | nil : LeastLoaded may rank []
  | give {given : List (ι × β)} {i : ι} {b : β} : LeastLoaded may rank given → may i b →
      (∀ c, may i c → rank b < rank c ∨ rank b = rank c ∧ loadOf given b ≤ loadOf given c) →
      LeastLoaded may rank (given ++ [(i, b)])

section

variable {may : ι → β → Prop} {rank : β → κ} {given : List (ι × β)}

/-- **Balance.** A taker is at most one item ahead of one of its rank that might have had all of its items. The item that
put it ahead went to it when it was not ahead, and the other has lost none since. -/
theorem LeastLoaded.balanced (h : LeastLoaded may rank given) {b c : β} (hrank : rank b = rank c)
    (hmay : ∀ g ∈ given, g.2 = b → may g.1 c) : loadOf given b ≤ loadOf given c + 1 := by
  induction h with
  | nil => exact Nat.zero_le _
  | @give given i taker _ _ hleast ih =>
    have hbefore : loadOf given b ≤ loadOf given c + 1 :=
      ih fun g hg heq => hmay g (List.mem_append_left _ hg) heq
    rw [loadOf_concat, loadOf_concat]
    by_cases htaker : taker = b
    · have hlast : loadOf given taker ≤ loadOf given c := by
        have hc : may i c := hmay (i, taker) (List.mem_append_right _ (List.mem_singleton_self _)) htaker
        rcases hleast c hc with hlt | ⟨-, hle⟩
        · rw [htaker, hrank] at hlt
          exact absurd hlt (lt_irrefl _)
        · exact hle
      rw [htaker] at hlast
      rw [if_pos htaker]
      omega
    · rw [if_neg htaker, Nat.add_zero]
      exact hbefore.trans (Nat.add_le_add_right (Nat.le_add_right _ _) 1)

end

end Hocmesh.Base
