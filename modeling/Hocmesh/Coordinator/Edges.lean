/-
Distances between machines (`ResourceGraph::edge_micros`).

Two machines with plausible coordinates are as far apart as these predict. Otherwise the edge is the path through the
coordinator, and `unknownEdgeMicros` when neither end has measured even that. `dark_edge_iff` says when a machine that
reports nothing looks no nearer than the same machine measured.
-/
import Hocmesh.Core.Proximity

namespace Hocmesh.Coordinator

open Hocmesh.Base Hocmesh.Core

/-- assumed between two nodes that have measured nothing; meant to be worse than any plausible measurement -/
def unknownEdgeMicros : ℕ := 400000

/-- of `NodeCapabilities`, what an edge reads -/
structure Capabilities where
  networkCoordinate : Option NetworkCoordinate
  coordinatorLatencyMicros : UInt64

structure Vertex where
  nodeId : String
  caps : Capabilities

structure ResourceGraph where
  vertices : List Vertex

noncomputable section

/-- the edge between two different vertices -/
def edgeBetween (a b : Capabilities) : ℕ :=
  let viaCoordinator :=
    let via := satAdd a.coordinatorLatencyMicros.toNat b.coordinatorLatencyMicros.toNat
    if via = 0 then unknownEdgeMicros else via
  match a.networkCoordinate, b.networkCoordinate with
  | some x, some y => if isPlausible x && isPlausible y then predictedRttMicros x y else viaCoordinator
  | _, _ => viaCoordinator

namespace ResourceGraph

/-- `edge_micros`; an index past the vertices is a panic -/
def edgeMicros (g : ResourceGraph) (a b : ℕ) : Option ℕ :=
  if a = b then some 0
  else do
    let va ← g.vertices[a]?
    let vb ← g.vertices[b]?
    some (edgeBetween va.caps vb.caps)

/-- the graph in which one node has measured nothing -/
def goDark (g : ResourceGraph) (v : ℕ) : ResourceGraph :=
  ⟨g.vertices.modify v fun vertex => { vertex with caps := ⟨none, 0⟩ }⟩

end ResourceGraph

/-! ## Going dark -/

/-- a coordinate that counts -/
def plausibleCoordinate (caps : Capabilities) : Option NetworkCoordinate :=
  caps.networkCoordinate.filter fun coord => isPlausible coord

/-- the distance to a node that has measured nothing -/
def darkEdge (u : Capabilities) : ℕ :=
  if u.coordinatorLatencyMicros = 0 then unknownEdgeMicros else u.coordinatorLatencyMicros.toNat

theorem edgeBetween_dark (u : Capabilities) : edgeBetween ⟨none, 0⟩ u = darkEdge u := by
  have hle : u.coordinatorLatencyMicros.toNat ≤ u64Max := by
    have := u.coordinatorLatencyMicros.toNat_lt
    unfold u64Max
    omega
  have hzero : u.coordinatorLatencyMicros.toNat = 0 ↔ u.coordinatorLatencyMicros = 0 := by
    rw [← UInt64.toNat_inj]
    rfl
  unfold edgeBetween darkEdge
  simp only [satAdd, UInt64.toNat_zero, Nat.zero_add, min_eq_left hle, hzero]

/-- where a node with a plausible coordinate looks no nearer dark: to a node with one too, its distance is under one
microsecond above the dark edge; to any other node, its own latency is nothing, or is not more than what nothing at both
ends is taken for, or is lost to saturation -/
def NoNearerDark (v u : Capabilities) (x : NetworkCoordinate) : Prop :=
  match plausibleCoordinate u with
  | some y => distanceMicros x y < darkEdge u + 1
  | none => v.coordinatorLatencyMicros = 0 ∨
      (u.coordinatorLatencyMicros = 0 ∧ v.coordinatorLatencyMicros.toNat ≤ unknownEdgeMicros) ∨
      u.coordinatorLatencyMicros.toNat = u64Max

/-- no distance between plausible coordinates reaches the end of `u64` -/
theorem distanceMicros_lt {x y : NetworkCoordinate} (hx : isPlausible x = true) (hy : isPlausible y = true) :
    distanceMicros x y < u64Max + 1 := by
  have hheight : ∀ {c : NetworkCoordinate}, isPlausible c = true → ((max c.heightMicros.toInt 0 : ℤ) : ℝ) ≤ 60000000 := by
    intro c hc
    have := ((isPlausible_iff c).1 hc).height
    exact_mod_cast (show max c.heightMicros.toInt 0 ≤ 60000000 by omega)
  have hdelta : ∀ axis, (axisDelta x y axis : ℝ) * axisDelta x y axis ≤ 2 ^ 126 := by
    intro axis
    have hlow : -2 ^ 63 ≤ axisDelta x y axis := Int64.le_toInt _
    have hhigh : axisDelta x y axis < 2 ^ 63 := Int64.toInt_lt _
    have hsq : axisDelta x y axis * axisDelta x y axis ≤ 2 ^ 126 := by nlinarith
    exact_mod_cast hsq
  have hsum : (∑ axis, (axisDelta x y axis : ℝ) * axisDelta x y axis) ≤ 3 * 2 ^ 126 := by
    rw [Fin.sum_univ_three]
    linarith [hdelta 0, hdelta 1, hdelta 2]
  have hroot : √(∑ axis, (axisDelta x y axis : ℝ) * axisDelta x y axis) < 2 ^ 64 - 120000000 := by
    rw [Real.sqrt_lt' (by norm_num)]
    refine hsum.trans_lt ?_
    norm_num
  have hx' := hheight hx
  have hy' := hheight hy
  have hmax : (u64Max : ℝ) + 1 = 2 ^ 64 := by
    unfold u64Max
    norm_num
  unfold distanceMicros
  rw [hmax]
  linarith

theorem darkEdge_le (u : Capabilities) : darkEdge u ≤ u64Max := by
  have := u.coordinatorLatencyMicros.toNat_lt
  unfold darkEdge unknownEdgeMicros u64Max
  split_ifs <;> omega

theorem predictedRttMicros_le_iff {x y : NetworkCoordinate} (hx : isPlausible x = true) (hy : isPlausible y = true)
    (u : Capabilities) : predictedRttMicros x y ≤ darkEdge u ↔ distanceMicros x y < darkEdge u + 1 := by
  have hfloor : ⌊max (distanceMicros x y) 0⌋₊ ≤ u64Max := by
    rw [← Nat.lt_add_one_iff, Nat.floor_lt (le_max_right _ _)]
    push_cast
    exact max_lt (distanceMicros_lt hx hy) (by positivity)
  rw [predictedRttMicros, min_eq_left hfloor, ← Nat.lt_add_one_iff, Nat.floor_lt (le_max_right _ _), max_lt_iff]
  push_cast
  exact and_iff_left (by positivity)

theorem edgeBetween_le_dark_iff {v u : Capabilities} {x : NetworkCoordinate} (hv : v.networkCoordinate = some x)
    (hx : isPlausible x = true) : edgeBetween v u ≤ darkEdge u ↔ NoNearerDark v u x := by
  have hvia : (let via := satAdd v.coordinatorLatencyMicros.toNat u.coordinatorLatencyMicros.toNat
      if via = 0 then unknownEdgeMicros else via) ≤ darkEdge u ↔ v.coordinatorLatencyMicros = 0 ∨
        (u.coordinatorLatencyMicros = 0 ∧ v.coordinatorLatencyMicros.toNat ≤ unknownEdgeMicros) ∨
        u.coordinatorLatencyMicros.toNat = u64Max := by
    have hv' := v.coordinatorLatencyMicros.toNat_lt
    have hu' := u.coordinatorLatencyMicros.toNat_lt
    unfold darkEdge satAdd unknownEdgeMicros u64Max
    simp only [← UInt64.toNat_inj, UInt64.toNat_zero]
    split_ifs <;> omega
  unfold NoNearerDark plausibleCoordinate
  cases hu : u.networkCoordinate with
  | none =>
    rw [edgeBetween, hv, hu]
    exact hvia
  | some y =>
    by_cases hy : isPlausible y = true
    · rw [Option.filter_some, if_pos hy, edgeBetween, hv, hu]
      dsimp only
      rw [hx, hy, Bool.and_self, if_pos rfl]
      exact predictedRttMicros_le_iff hx hy u
    · rw [Option.filter_some, if_neg hy, edgeBetween, hv, hu]
      dsimp only
      rw [if_neg (by simp [hy])]
      exact hvia

/-- **When going dark makes no node look nearer.** For a node with a plausible coordinate and any other node. -/
theorem dark_edge_iff (g : ResourceGraph) (v u : ℕ) (vv vu : Vertex) (x : NetworkCoordinate) (hne : v ≠ u)
    (hv : g.vertices[v]? = some vv) (hu : g.vertices[u]? = some vu) (hcoord : vv.caps.networkCoordinate = some x)
    (hx : isPlausible x = true) :
    (∀ before after, g.edgeMicros v u = some before → (g.goDark v).edgeMicros v u = some after → before ≤ after) ↔
      NoNearerDark vv.caps vu.caps x := by
  have hbefore : g.edgeMicros v u = some (edgeBetween vv.caps vu.caps) := by
    rw [ResourceGraph.edgeMicros, if_neg hne, hv, hu]
    rfl
  have hafter : (g.goDark v).edgeMicros v u = some (darkEdge vu.caps) := by
    rw [ResourceGraph.edgeMicros, if_neg hne, ResourceGraph.goDark, List.getElem?_modify_eq, hv,
      List.getElem?_modify_ne _ _ hne, hu, ← edgeBetween_dark]
    rfl
  rw [← edgeBetween_le_dark_iff hcoord hx, hbefore, hafter]
  constructor
  · intro hall
    exact hall _ _ rfl rfl
  · rintro hle before after ⟨⟩ ⟨⟩
    exact hle

/-- a machine a second away from the origin, and one at the origin with a short way to the coordinator -/
def farAndNear : ResourceGraph :=
  ⟨[⟨"far", ⟨some ⟨fun axis => if axis.val = 0 then 1000000 else 0, 0, 500⟩, 5000⟩⟩,
    ⟨"near", ⟨some ⟨fun _ => 0, 0, 500⟩, 7000⟩⟩, ⟨"unplaced", ⟨none, 7000⟩⟩, ⟨"blind", ⟨none, 0⟩⟩]⟩

/-- to a node that has measured nothing, the far machine looks no nearer dark: its own way to the coordinator is short -/
theorem far_no_nearer_to_blind : ∃ before after, farAndNear.edgeMicros 0 3 = some before ∧
    (farAndNear.goDark 0).edgeMicros 0 3 = some after ∧ before ≤ after :=
  ⟨5000, 400000, rfl, rfl,
    (dark_edge_iff farAndNear 0 3 _ _ _ (by decide) rfl rfl rfl (by decide)).2 (.inr (.inl ⟨rfl, by decide⟩)) _ _ rfl rfl⟩

/-- Dark, the far machine looks seven milliseconds away from the one at the origin and not a second. And to a machine
without a coordinate, the way through the coordinator loses the part of the node that went dark. -/
theorem far_nearer_dark : farAndNear.edgeMicros 0 1 = some 1000000 ∧ (farAndNear.goDark 0).edgeMicros 0 1 = some 7000 ∧
    farAndNear.edgeMicros 0 2 = some 12000 ∧ (farAndNear.goDark 0).edgeMicros 0 2 = some 7000 := by
  have hrtt : predictedRttMicros ⟨fun axis => if axis.val = 0 then 1000000 else 0, 0, 500⟩ ⟨fun _ => 0, 0, 500⟩ = 1000000 := by
    rw [predictedRttMicros_eq]
    decide +kernel
  refine ⟨?_, rfl, rfl, rfl⟩
  exact congrArg some hrtt

end

end Hocmesh.Coordinator
