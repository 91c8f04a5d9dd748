/-
Quorums of a finite set of voters, by counting.

A quorum of `M` at threshold `k` is a subset of `M` with at least `k` elements. Two subsets of a common universe overlap
in at least the excess of their sizes over the universe; every intersection property of a voting rule is that bound
with its own numbers put in.
-/
import Mathlib.Tactic

namespace Hocmesh.Base

variable {α : Type} [DecidableEq α]

/-- at least `k` of the voters in `M` -/
structure IsQuorum (M : Finset α) (k : ℕ) (Q : Finset α) : Prop where
  subset : Q ⊆ M
  large : k ≤ Q.card

/-- two sets inside `U` overlap in at least `|A| + |B| - |U|` elements -/
theorem card_add_card_le {U A B : Finset α} (hA : A ⊆ U) (hB : B ⊆ U) :
    A.card + B.card ≤ (A ∩ B).card + U.card := by
  have h1 := Finset.card_union_add_card_inter A B
  have h2 := Finset.card_le_card (Finset.union_subset hA hB)
  omega

namespace IsQuorum

variable {M M' Q Q' : Finset α} {k k' : ℕ}

/-- **Overlap above two thirds.** Two quorums of a threshold above two thirds share more than a third of the voters. -/
theorem third_lt_inter (hk : M.card * 2 < k * 3) (hQ : IsQuorum M k Q) (hQ' : IsQuorum M k Q') :
    M.card < 3 * (Q ∩ Q').card := by
  have h := card_add_card_le hQ.subset hQ'.subset
  have h1 := hQ.large
  have h2 := hQ'.large
  omega

/-- quorums of two different voter sets meet when together they outnumber both sets -/
theorem inter_nonempty (hQ : IsQuorum M k Q) (hQ' : IsQuorum M' k' Q') (hk : (M ∪ M').card < k + k') :
    (Q ∩ Q').Nonempty := by
  have h := card_add_card_le (hQ.subset.trans Finset.subset_union_left) (hQ'.subset.trans Finset.subset_union_right)
  have h1 := hQ.large
  have h2 := hQ'.large
  rw [← Finset.card_pos]
  omega

end IsQuorum

end Hocmesh.Base
