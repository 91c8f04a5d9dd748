/-
Planning an inference job (`plan_parallelism` of `hocmesh-ai`).

A plan names the machines of a pipeline, of a tensor group and of the batches, from a ranked list of candidates. The
layers of a pipeline are shared out in proportion to memory bandwidth, by largest remainder (`layerSpans_spec`);
bandwidths are exact rationals here. A plan is well formed, and no product in it overflows, just when there are at least
as many layers as stages and the batch size times the number of batches fits 32 bits (`plan_wellFormed_iff`).

The predicted round trip between two positions is a parameter, `rtt`: whatever it predicts, the plan is well formed or
not.
-/
import Hocmesh.Base.Apportion
import Hocmesh.Base.Check
import Hocmesh.Base.Tiling
import Hocmesh.Coordinator.Edges
import Mathlib.Data.Prod.Lex

namespace Hocmesh.Ai

open Hocmesh.Base Hocmesh.Core Hocmesh.Coordinator

/-! ## Candidates and plans -/

/-- a device that may take part, as far as a plan reads it -/
structure CandidateScore where
  nodeId : String
  deviceId : String
  memoryBandwidthBytesPerSecond : Option ℕ := none
  coordinate : Option NetworkCoordinate := none
  prefillEligible : Bool := false

structure InferenceRequirements where
  batchSize : ℕ
  pipelineStages : ℕ
  tensorParallelism : ℕ
deriving DecidableEq

inductive ParallelismKind where
  | batch
  | pipeline
  | modelTensor
deriving DecidableEq

structure PipelineStage where
  stageIndex : ℕ
  nodeId : String
  deviceId : String
  layerStart : ℕ
  layerEnd : ℕ
deriving DecidableEq

structure TensorGroup where
  rank : ℕ
  nodeId : String
  deviceId : String
deriving DecidableEq

structure BatchShard where
  batchStart : ℕ
  batchEnd : ℕ
  nodeId : String
  deviceId : String
deriving DecidableEq

structure ParallelismPlan where
  kinds : List ParallelismKind
  pipeline : List PipelineStage
  tensorGroup : List TensorGroup
  batches : List BatchShard
deriving DecidableEq

/-! ## Layers -/

/-- one contiguous span per stage, in order -/
def uniformSpans (stages layerCount : ℕ) : List (ℕ × ℕ) :=
  (List.range stages).map fun i =>
    (wrapU32 (wrapU64 (layerCount * i) / stages), wrapU32 (wrapU64 (layerCount * (i + 1)) / stages))

/-- spans of these widths, one after another -/
def spansFrom : ℕ → List ℕ → List (ℕ × ℕ)
  | _, [] => []
  | cursor, count :: counts => (cursor, cursor + count) :: spansFrom (cursor + count) counts

/-- layers in proportion to bandwidth, at least one for each stage; evenly when any bandwidth is unmeasured, or when
there are no more layers than stages -/
def layerSpans (stages : List CandidateScore) (layerCount : ℕ) : List (ℕ × ℕ) :=
  if stages.length = 0 ∨ layerCount ≤ stages.length then uniformSpans stages.length layerCount
  else
    match stages.mapM fun s => s.memoryBandwidthBytesPerSecond.filter fun b => 0 < b with
    | none => uniformSpans stages.length layerCount
    | some weights =>
      let ideal : List ℚ := weights.map fun w : ℕ => (layerCount : ℚ) * w / (weights.sum : ℕ)
      spansFrom 0 (liftZeros (List.range stages.length) (largestRemainder layerCount ideal))

/-! ## The order of a pipeline -/

section

variable (rtt : NetworkCoordinate → NetworkCoordinate → ℕ)

/-- round trip between two candidates, or the unmeasured cost -/
def edgeMicros (a b : CandidateScore) : ℕ :=
  if a.nodeId = b.nodeId then 0
  else
    match a.coordinate, b.coordinate with
    | some x, some y => if isPlausible x && isPlausible y then rtt x y else unknownEdgeMicros
    | _, _ => unknownEdgeMicros

/-- the hops of a chain -/
def hops : List CandidateScore → List ℕ
  | a :: b :: chain => edgeMicros rtt a b :: hops (b :: chain)
  | _ => []

/-- the sum of the hops, then the worst of them, then the rank of the head -/
def chainCost (chain : List CandidateScore) (headRank : ℕ) : ℕ ×ₗ ℕ ×ₗ ℕ :=
  toLex (wrapU64 (hops rtt chain).sum, toLex ((hops rtt chain).foldl max 0, headRank))

/-- the first device of each machine, by index -/
def firstPerNode : List (CandidateScore × ℕ) → (seen : List String) → List ℕ
  | [], _ => []
  | (candidate, index) :: rest, seen =>
    if candidate.nodeId ∈ seen then firstPerNode rest seen
    else index :: firstPerNode rest (candidate.nodeId :: seen)

variable (candidates : List CandidateScore)

/-- the edge between the candidates of two indices -/
def edgeAt (i j : ℕ) : ℕ :=
  match candidates[i]?, candidates[j]? with
  | some a, some b => edgeMicros rtt a b
  | _, _ => 0

/-- grow a chain by its nearest neighbour -/
def grow : (todo tail : ℕ) → (rest : List ℕ) → List ℕ
  | 0, _, _ => []
  | todo + 1, tail, rest =>
    match rest.argmin fun next => (toLex (edgeAt rtt candidates tail next, next) : ℕ ×ₗ ℕ) with
    | none => []
    | some next => next :: grow todo next (rest.erase next)

/-- the chain that one head leads -/
def chainFrom (count : ℕ) (first : List ℕ) (head : ℕ) : List ℕ :=
  head :: grow rtt candidates (count - 1) head (first.filter (· != head))

/-- the candidates of a chain of indices -/
def pick (chain : List ℕ) : List CandidateScore := chain.filterMap (candidates[·]?)

/-- the cheapest whole chain so far -/
def keepCheaper (count : ℕ) (first : List ℕ) (best : Option ((ℕ ×ₗ ℕ ×ₗ ℕ) × List ℕ)) (head : ℕ) :
    Option ((ℕ ×ₗ ℕ ×ₗ ℕ) × List ℕ) :=
  let chain := chainFrom rtt candidates count first head
  if chain.length < count then best
  else
    let cost := chainCost rtt (pick candidates chain) head
    match best with
    | none => some (cost, chain)
    | some (seen, kept) => if cost < seen then some (cost, chain) else some (seen, kept)

/-- whether the candidate of an index may hold the first stage -/
def eligible (i : ℕ) : Bool := (candidates[i]?).any fun c => c.prefillEligible

def prefillUplinkKbps : ℕ := 1000000

/-- choose and order the machines that will hold the stages -/
def orderPipeline (count : ℕ) : Check (List CandidateScore) := do
  bailIf (candidates.length < count) s!"insufficient eligible devices for {count} pipeline stages"
  let first := firstPerNode candidates.zipIdx []
  bailIf (first.length < count)
    (s!"a pipeline of {count} stages needs {count} distinct machines, and only          {first.length} offered a device")
  let heads := first.filter fun i => eligible candidates i
  bailIf (heads = [])
    (s!"no eligible machine has shown an uplink of at least {prefillUplinkKbps} kbit/s, which is          " ++
      "what holding the first stage of a pipeline asks for; the later stages          " ++
      "have no such requirement, so a plan without pipeline parallelism can          still be served")
  let best ← orBail (heads.foldl (keepCheaper rtt candidates count first) none)
    "at least one eligible head produced a full chain"
  pure (pick candidates best.2)

/-! ## The plan -/

/-- a stage for each machine of the chain, with its span of layers -/
def pipelineStages (stages : List CandidateScore) (layerCount : ℕ) : List PipelineStage :=
  (stages.zip (layerSpans stages layerCount)).zipIdx.map fun p =>
    { stageIndex := p.2, nodeId := p.1.1.nodeId, deviceId := p.1.1.deviceId, layerStart := p.1.2.1, layerEnd := p.1.2.2 }

def tensorGroup (tensorCount : ℕ) : List TensorGroup :=
  (candidates.take tensorCount).zipIdx.map fun p => { rank := p.2, nodeId := p.1.nodeId, deviceId := p.1.deviceId }

/-- a batch for each worker; the products are of `u32` -/
def batchShards (batchSize : ℕ) : List BatchShard :=
  let workers := min candidates.length batchSize
  (candidates.take workers).zipIdx.map fun p =>
    { batchStart := wrapU32 (batchSize * p.2) / workers
      batchEnd := wrapU32 (batchSize * (p.2 + 1)) / workers
      nodeId := p.1.nodeId
      deviceId := p.1.deviceId }

/-- the machines of the stages: none for a job that is not a pipeline -/
def pipelineMachines (pipelineCount : ℕ) : Check (List CandidateScore) :=
  if 1 < pipelineCount then orderPipeline rtt candidates pipelineCount else pure []

def planParallelism (layerCount : ℕ) (requirements : InferenceRequirements) : Check ParallelismPlan := do
  bailIf (layerCount = 0) "model must contain layers"
  bailIf (requirements.batchSize = 0) "batch size must be positive"
  let pipelineCount := max requirements.pipelineStages 1
  let tensorCount := max requirements.tensorParallelism 1
  bailIf (candidates.length < max pipelineCount tensorCount) "insufficient eligible devices"
  let ordered ← pipelineMachines rtt candidates pipelineCount
  pure
    { kinds := .batch :: (if 1 < pipelineCount then [.pipeline] else []) ++ (if 1 < tensorCount then [.modelTensor] else [])
      pipeline := pipelineStages ordered layerCount
      tensorGroup := if 1 < tensorCount then tensorGroup candidates tensorCount else []
      batches := batchShards candidates requirements.batchSize }

end

/-! ## Spans of layers -/

section

variable {n layerCount : ℕ}

/-- a count of layers times a number of stages fits 64 bits -/
theorem mul_le_u64 {a b : ℕ} (ha : a ≤ u32Max) (hb : b ≤ u32Max) : a * b ≤ u64Max :=
  (Nat.mul_le_mul ha hb).trans (by decide)

/-- a whole cut at every `n`-th part of it, rounded down -/
def scaledSpans (total n : ℕ) : List (ℕ × ℕ) := (List.range' 0 n).map fun i => (total * i / n, total * (i + 1) / n)

theorem tiles_scaledSpans (total : ℕ) (hpos : 0 < n) : Tiles 0 total (scaledSpans total n) := by
  have h := Tiles.of_cuts (fun i => total * i / n) (fun i => Nat.div_le_div_right (Nat.mul_le_mul_left _ (by omega))) 0 n
  rwa [Nat.mul_zero, Nat.zero_div, Nat.zero_add, Nat.mul_div_cancel _ hpos] at h

theorem scaledSpans_nonempty {total : ℕ} (hpos : 0 < n) (hmany : n ≤ total) : ∀ p ∈ scaledSpans total n, p.1 < p.2 := by
  intro p hp
  obtain ⟨i, -, rfl⟩ := List.mem_map.1 hp
  calc total * i / n < total * i / n + 1 := Nat.lt_succ_self _
    _ = (total * i + n) / n := (Nat.add_div_right _ hpos).symm
    _ ≤ total * (i + 1) / n := Nat.div_le_div_right (by rw [Nat.mul_succ]; omega)

/-- even spans, without the wraps that nothing reaches -/
theorem uniformSpans_eq (hn : n ≤ u32Max) (hlayers : layerCount ≤ u32Max) :
    uniformSpans n layerCount = scaledSpans layerCount n := by
  unfold uniformSpans scaledSpans
  rw [List.range_eq_range']
  refine List.map_congr_left fun i hi => ?_
  have hlt : i < n := by
    have := List.mem_range'_1.1 hi
    omega
  have hcut : ∀ k ≤ n, wrapU32 (wrapU64 (layerCount * k) / n) = layerCount * k / n := by
    intro k hk
    have hprod : layerCount * k ≤ layerCount * n := Nat.mul_le_mul_left _ hk
    have hquot : layerCount * k / n ≤ layerCount := Nat.div_le_of_le_mul (by rwa [mul_comm n])
    rw [wrapU64_of_le (mul_le_u64 hlayers (hk.trans hn)), wrapU32_of_le (hquot.trans hlayers)]
  rw [hcut i hlt.le, hcut (i + 1) hlt]

@[simp] theorem length_uniformSpans : (uniformSpans n layerCount).length = n := by
  rw [uniformSpans, List.length_map, List.length_range]

@[simp] theorem length_spansFrom (counts : List ℕ) (cursor : ℕ) : (spansFrom cursor counts).length = counts.length := by
  induction counts generalizing cursor with
  | nil => rfl
  | cons count counts ih => rw [spansFrom, List.length_cons, ih, List.length_cons]

theorem tiles_spansFrom (counts : List ℕ) (cursor : ℕ) : Tiles cursor (cursor + counts.sum) (spansFrom cursor counts) := by
  induction counts generalizing cursor with
  | nil => rfl
  | cons count counts ih =>
    refine ⟨rfl, Nat.le_add_right _ _, ?_⟩
    rw [List.sum_cons, ← Nat.add_assoc]
    exact ih _

theorem spansFrom_nonempty {counts : List ℕ} (h : ∀ c ∈ counts, 0 < c) (cursor : ℕ) :
    ∀ p ∈ spansFrom cursor counts, p.1 < p.2 := by
  induction counts generalizing cursor with
  | nil => simp [spansFrom]
  | cons count counts ih =>
    intro p hp
    rcases List.mem_cons.1 hp with rfl | hp
    · exact Nat.lt_add_of_pos_right (h count List.mem_cons_self)
    · exact ih (fun c hc => h c (List.mem_cons_of_mem _ hc)) _ p hp

/-- exact shares add up to what is shared -/
theorem sum_ideal (weights : List ℕ) (a c : ℚ) : (weights.map fun w : ℕ => a * w / c).sum = a * (weights.sum : ℕ) / c := by
  induction weights with
  | nil => simp
  | cons w weights ih =>
    rw [List.map_cons, List.sum_cons, ih, List.sum_cons, Nat.cast_add]
    ring

/-- measured bandwidths, one for each stage, and none of them nothing -/
theorem mapM_weights {stages : List CandidateScore} {weights : List ℕ}
    (h : (stages.mapM fun s => s.memoryBandwidthBytesPerSecond.filter fun b => 0 < b) = some weights) :
    weights.length = stages.length ∧ ∀ w ∈ weights, 0 < w := by
  induction stages generalizing weights with
  | nil =>
    rw [List.mapM_nil, Option.pure_def, Option.some.injEq] at h
    subst h
    exact ⟨rfl, fun w hw => absurd hw List.not_mem_nil⟩
  | cons s stages ih =>
    rw [List.mapM_cons] at h
    simp only [Option.bind_eq_bind, Option.bind_eq_some_iff, Option.pure_def, Option.some.injEq] at h
    obtain ⟨w, hw, rest, hrest, rfl⟩ := h
    obtain ⟨hlen, hpos⟩ := ih hrest
    refine ⟨by rw [List.length_cons, hlen, List.length_cons], fun v hv => ?_⟩
    rcases List.mem_cons.1 hv with rfl | hv
    · exact of_decide_eq_true (Option.filter_eq_some_iff.1 hw).2
    · exact hpos v hv

/-- **The spans partition the layers**, one for each stage, and none is empty when there are as many layers as stages. -/
theorem layerSpans_spec {stages : List CandidateScore} (hne : stages ≠ []) (hn : stages.length ≤ u32Max)
    (hlayers : layerCount ≤ u32Max) :
    (layerSpans stages layerCount).length = stages.length ∧ Tiles 0 layerCount (layerSpans stages layerCount) ∧
      (stages.length ≤ layerCount → ∀ p ∈ layerSpans stages layerCount, p.1 < p.2) := by
  have hpos : 0 < stages.length := List.length_pos_of_ne_nil hne
  have huniform : (uniformSpans stages.length layerCount).length = stages.length ∧
      Tiles 0 layerCount (uniformSpans stages.length layerCount) ∧
      (stages.length ≤ layerCount → ∀ p ∈ uniformSpans stages.length layerCount, p.1 < p.2) :=
    ⟨length_uniformSpans, by rw [uniformSpans_eq hn hlayers]; exact tiles_scaledSpans layerCount hpos,
      fun hmany => by rw [uniformSpans_eq hn hlayers]; exact scaledSpans_nonempty hpos hmany⟩
  unfold layerSpans
  split_ifs with hfew
  · exact huniform
  · cases hweights : stages.mapM fun s => s.memoryBandwidthBytesPerSecond.filter fun b => 0 < b with
    | none => exact huniform
    | some weights =>
      obtain ⟨hlen, hall⟩ := mapM_weights hweights
      have htotal : (0 : ℚ) < (weights.sum : ℕ) := by
        have hone := List.length_le_sum_of_one_le weights hall
        exact_mod_cast (show 0 < weights.sum by omega)
      have hnonneg : ∀ x ∈ weights.map fun w : ℕ => (layerCount : ℚ) * w / (weights.sum : ℕ), 0 ≤ x := by
        intro x hx
        obtain ⟨w, -, rfl⟩ := List.mem_map.1 hx
        positivity
      have hsum : (weights.map fun w : ℕ => (layerCount : ℚ) * w / (weights.sum : ℕ)).sum = layerCount := by
        rw [sum_ideal, mul_div_assoc, div_self htotal.ne', mul_one]
      obtain ⟨hcounts, htotals, hlifted⟩ := apportion_spec hnonneg hsum (by rw [List.length_map]; omega)
      rw [List.length_map, hlen] at hcounts htotals hlifted
      have htiles := tiles_spansFrom (liftZeros (List.range stages.length)
        (largestRemainder layerCount (weights.map fun w : ℕ => (layerCount : ℚ) * w / (weights.sum : ℕ)))) 0
      rw [htotals, Nat.zero_add] at htiles
      exact ⟨(length_spansFrom _ _).trans hcounts, htiles, fun _ => spansFrom_nonempty hlifted 0⟩

end

/-! ## The chain of a pipeline -/

section

variable (rtt : NetworkCoordinate → NetworkCoordinate → ℕ) {candidates : List CandidateScore}

/-- the machine of an index -/
def machineAt (candidates : List CandidateScore) (i : ℕ) : Option String := (candidates[i]?).map fun c => c.nodeId

/-- the first devices are of different machines, none of them of a machine seen before -/
theorem firstPerNode_spec (l : List (CandidateScore × ℕ)) : ∀ seen : List String,
    (∀ p ∈ l, candidates[p.2]? = some p.1) → ((firstPerNode l seen).map (machineAt candidates)).Nodup ∧
      ∀ i ∈ firstPerNode l seen, ∃ c, candidates[i]? = some c ∧ c.nodeId ∉ seen := by
  induction l with
  | nil => exact fun _ _ => ⟨List.nodup_nil, fun i hi => absurd hi List.not_mem_nil⟩
  | cons p l ih =>
    obtain ⟨candidate, index⟩ := p
    intro seen h
    have hhead : candidates[index]? = some candidate := h _ List.mem_cons_self
    have hrest : ∀ p ∈ l, candidates[p.2]? = some p.1 := fun p hp => h p (List.mem_cons_of_mem _ hp)
    rw [firstPerNode]
    split_ifs with hseen
    · exact ih seen hrest
    · obtain ⟨hnodup, hfresh⟩ := ih (candidate.nodeId :: seen) hrest
      refine ⟨?_, fun i hi => ?_⟩
      · rw [List.map_cons, List.nodup_cons]
        refine ⟨fun hmem => ?_, hnodup⟩
        obtain ⟨i, hi, hsame⟩ := List.mem_map.1 hmem
        obtain ⟨c, hc, hnew⟩ := hfresh i hi
        rw [machineAt, machineAt, hc, hhead, Option.map_some, Option.map_some, Option.some.injEq] at hsame
        exact hnew (hsame ▸ List.mem_cons_self)
      · rcases List.mem_cons.1 hi with rfl | hi
        · exact ⟨candidate, hhead, hseen⟩
        · obtain ⟨c, hc, hnew⟩ := hfresh i hi
          exact ⟨c, hc, fun hmem => hnew (List.mem_cons_of_mem _ hmem)⟩

/-- a chain grows by different places of what is left -/
theorem grow_spec (todo : ℕ) : ∀ (tail : ℕ) (rest : List ℕ), rest.Nodup →
    (grow rtt candidates todo tail rest).Nodup ∧ (∀ i ∈ grow rtt candidates todo tail rest, i ∈ rest) ∧
      (grow rtt candidates todo tail rest).length = min todo rest.length := by
  induction todo with
  | zero => exact fun _ rest _ => ⟨List.nodup_nil, fun i hi => absurd hi List.not_mem_nil, (Nat.zero_min _).symm⟩
  | succ todo ih =>
    intro tail rest hrest
    rw [grow]
    cases hnext : rest.argmin fun next => (toLex (edgeAt rtt candidates tail next, next) : ℕ ×ₗ ℕ) with
    | none =>
      rw [List.argmin_eq_none] at hnext
      subst hnext
      exact ⟨List.nodup_nil, fun i hi => hi, (Nat.min_zero _).symm⟩
    | some next =>
      have hmem := List.argmin_mem hnext
      obtain ⟨hnodup, hsub, hlen⟩ := ih next (rest.erase next) (hrest.erase next)
      refine ⟨List.nodup_cons.2 ⟨fun hin => hrest.not_mem_erase (hsub next hin), hnodup⟩, fun i hi => ?_, ?_⟩
      · rcases List.mem_cons.1 hi with rfl | hi
        · exact hmem
        · exact List.mem_of_mem_erase (hsub i hi)
      · have hpos := List.length_pos_of_mem hmem
        rw [List.length_cons, hlen, List.length_erase_of_mem hmem]
        omega

theorem chainFrom_spec {count : ℕ} (hcount : 0 < count) {first : List ℕ} (hfirst : first.Nodup) {head : ℕ}
    (hhead : head ∈ first) :
    (chainFrom rtt candidates count first head).Nodup ∧ (∀ i ∈ chainFrom rtt candidates count first head, i ∈ first) ∧
      (chainFrom rtt candidates count first head).length = min count first.length := by
  have hrest : (first.filter (· != head)).length + 1 = first.length := by
    have herase := hfirst.erase_eq_filter head
    have hlen := List.length_erase_of_mem hhead
    have hpos := List.length_pos_of_mem hhead
    rw [← herase]
    omega
  obtain ⟨hnodup, hsub, hlen⟩ : (grow rtt candidates (count - 1) head (first.filter (· != head))).Nodup ∧ _ ∧ _ :=
    grow_spec rtt (count - 1) head _ (hfirst.filter _)
  refine ⟨List.nodup_cons.2 ⟨fun hin => ?_, hnodup⟩, fun i hi => ?_, ?_⟩
  · have hne := (List.mem_filter.1 (hsub head hin)).2
    simp at hne
  · rcases List.mem_cons.1 hi with rfl | hi
    · exact hhead
    · exact (List.mem_filter.1 (hsub i hi)).1
  · rw [chainFrom, List.length_cons, hlen]
    omega

/-- the chain that is kept is the whole chain of one of the heads -/
theorem keepCheaper_spec (count : ℕ) (first heads : List ℕ) : ∀ best : Option ((ℕ ×ₗ ℕ ×ₗ ℕ) × List ℕ),
    ∀ kept, heads.foldl (keepCheaper rtt candidates count first) best = some kept →
      best = some kept ∨ ∃ head ∈ heads, kept.2 = chainFrom rtt candidates count first head ∧ count ≤ kept.2.length := by
  induction heads with
  | nil => exact fun best kept h => .inl h
  | cons head heads ih =>
    intro best kept h
    rcases ih _ _ h with hstep | ⟨head', hmem, hchain⟩
    · unfold keepCheaper at hstep
      dsimp only at hstep
      split_ifs at hstep with hshort
      · exact .inl hstep
      · have hnew : ∀ cost, some (cost, chainFrom rtt candidates count first head) = some kept →
            ∃ head' ∈ head :: heads, kept.2 = chainFrom rtt candidates count first head' ∧ count ≤ kept.2.length := by
          intro cost heq
          obtain rfl := Option.some.inj heq
          exact ⟨head, List.mem_cons_self, rfl, not_lt.1 hshort⟩
        cases best with
        | none => exact .inr (hnew _ hstep)
        | some seen =>
          obtain ⟨seen, kept'⟩ := seen
          dsimp only at hstep
          split_ifs at hstep
          · exact .inr (hnew _ hstep)
          · exact .inl hstep
    · exact .inr ⟨head', List.mem_cons_of_mem _ hmem, hchain⟩

/-- when every head leads a whole chain, one is kept -/
theorem exists_kept {count : ℕ} {first heads : List ℕ} (hne : heads ≠ [])
    (hwhole : ∀ head ∈ heads, count ≤ (chainFrom rtt candidates count first head).length) :
    ∃ kept, heads.foldl (keepCheaper rtt candidates count first) none = some kept := by
  have hkeep : ∀ heads best, (∀ head ∈ heads, count ≤ (chainFrom rtt candidates count first head).length) →
      heads ≠ [] ∨ best.isSome → (heads.foldl (keepCheaper rtt candidates count first) best).isSome := by
    intro heads
    induction heads with
    | nil => exact fun best _ h => h.resolve_left fun h => h rfl
    | cons head heads ih =>
      intro best hall _
      refine ih _ (fun i hi => hall i (List.mem_cons_of_mem _ hi)) (.inr ?_)
      rw [keepCheaper, if_neg (not_lt.2 (hall head List.mem_cons_self))]
      cases best with
      | none => rfl
      | some seen =>
        dsimp only
        split_ifs <;> rfl
  exact Option.isSome_iff_exists.1 (hkeep heads none hwhole (.inl hne))

/-- the candidates of a chain, when its indices are candidates -/
theorem pick_spec {chain : List ℕ} (h : ∀ i ∈ chain, ∃ c, candidates[i]? = some c) :
    (pick candidates chain).map (fun c => some c.nodeId) = chain.map (machineAt candidates) ∧
      (pick candidates chain).length = chain.length ∧ (pick candidates chain).head? = chain.head?.bind (candidates[·]?) ∧
      ∀ c ∈ pick candidates chain, c ∈ candidates := by
  induction chain with
  | nil => exact ⟨rfl, rfl, rfl, fun c hc => absurd hc List.not_mem_nil⟩
  | cons i chain ih =>
    obtain ⟨c, hc⟩ := h i List.mem_cons_self
    obtain ⟨hmap, hlen, -, hmem⟩ := ih fun j hj => h j (List.mem_cons_of_mem _ hj)
    have hpick : pick candidates (i :: chain) = c :: pick candidates chain := by
      unfold pick
      rw [List.filterMap_cons, hc]
    rw [hpick]
    refine ⟨?_, by rw [List.length_cons, hlen, List.length_cons], hc.symm, fun d hd => ?_⟩
    · rw [List.map_cons, hmap, List.map_cons, machineAt, hc]
      rfl
    · rcases List.mem_cons.1 hd with rfl | hd
      · exact List.mem_of_getElem? hc
      · exact hmem d hd

/-- **The chain.** As many machines as asked for, all different, led by one that may hold the first stage. -/
theorem orderPipeline_spec {count : ℕ} (hcount : 0 < count) {stages : List CandidateScore}
    (h : orderPipeline rtt candidates count = .ok stages) :
    stages.length = count ∧ (stages.map fun c => c.nodeId).Nodup ∧ (∀ c ∈ stages, c ∈ candidates) ∧
      ∀ c ∈ stages.head?, c.prefillEligible = true := by
  simp only [orderPipeline, bind_ok, bailIf_ok, orBail_ok, pure_ok, exists_const] at h
  obtain ⟨-, hmany, -, kept, hkept, rfl⟩ := h
  have hindex : ∀ p ∈ candidates.zipIdx, candidates[p.2]? = some p.1 := fun p hp => List.mem_zipIdx_iff_getElem?.1 hp
  obtain ⟨hmachines, hfresh⟩ := firstPerNode_spec candidates.zipIdx [] hindex
  have hfirst : (firstPerNode candidates.zipIdx []).Nodup := hmachines.of_map
  obtain hnone | ⟨head, hhead, hchain, hlong⟩ := keepCheaper_spec rtt _ _ _ _ _ hkept
  · cases hnone
  · obtain ⟨hheadmem, heligible⟩ := List.mem_filter.1 hhead
    obtain ⟨hnodup, hsub, hlen⟩ : (chainFrom rtt candidates count _ head).Nodup ∧ _ ∧ _ :=
      chainFrom_spec rtt hcount hfirst hheadmem
    rw [← hchain] at hnodup hsub hlen
    obtain ⟨hmap, hpicked, hfront, hmem⟩ := pick_spec fun i hi => by
      obtain ⟨c, hc, -⟩ := hfresh i (hsub i hi)
      exact ⟨c, hc⟩
    refine ⟨by omega, ?_, hmem, fun c hc => ?_⟩
    · have hchainMachines : (kept.2.map (machineAt candidates)).Nodup :=
        hnodup.map_on fun i hi j hj => List.inj_on_of_nodup_map hmachines (hsub i hi) (hsub j hj)
      rw [← hmap] at hchainMachines
      have hcomp : (pick candidates kept.2).map (fun c => some c.nodeId) =
          ((pick candidates kept.2).map fun c => c.nodeId).map some := by
        rw [List.map_map]
        rfl
      rw [hcomp] at hchainMachines
      exact hchainMachines.of_map
    · rw [hfront, hchain] at hc
      unfold eligible at heligible
      rw [show candidates[head]? = some c from hc] at heligible
      exact heligible

/-- once there are machines enough and one that may lead them, a chain is found: the last step of the search cannot fail
-/
theorem orderPipeline_ok {count : ℕ} (hcount : 0 < count) (hdevices : count ≤ candidates.length)
    (hmachines : count ≤ (firstPerNode candidates.zipIdx []).length)
    (heligible : (firstPerNode candidates.zipIdx []).filter (fun i => eligible candidates i) ≠ []) :
    ∃ stages, orderPipeline rtt candidates count = .ok stages := by
  have hindex : ∀ p ∈ candidates.zipIdx, candidates[p.2]? = some p.1 := fun p hp => List.mem_zipIdx_iff_getElem?.1 hp
  have hfirst := (firstPerNode_spec candidates.zipIdx [] hindex).1.of_map
  have hwhole : ∀ head ∈ (firstPerNode candidates.zipIdx []).filter (fun i => eligible candidates i),
      count ≤ (chainFrom rtt candidates count (firstPerNode candidates.zipIdx []) head).length := by
    intro head hhead
    rw [(chainFrom_spec rtt hcount hfirst (List.mem_filter.1 hhead).1).2.2]
    exact le_min le_rfl hmachines
  obtain ⟨kept, hkept⟩ := exists_kept rtt heligible hwhole
  refine ⟨pick candidates kept.2, ?_⟩
  simp only [orderPipeline, bind_ok, bailIf_ok, orBail_ok, pure_ok, exists_const]
  exact ⟨not_lt.2 hdevices, not_lt.2 hmachines, heligible, kept, hkept, rfl⟩

end

/-! ## Plans that are complete and well formed -/

/-- what a plan has to be: the batches tile the prompts and none is empty, the ranks count up, the stages are on different
machines, led by one that may, and their layers tile the model with one at least for each -/
structure ParallelismPlan.WellFormed (candidates : List CandidateScore) (layerCount : ℕ)
    (requirements : InferenceRequirements) (plan : ParallelismPlan) : Prop where
  batches : Tiles 0 requirements.batchSize (plan.batches.map fun b => (b.batchStart, b.batchEnd))
  batches_nonempty : ∀ b ∈ plan.batches, b.batchStart < b.batchEnd
  ranks : plan.tensorGroup.map (fun g => g.rank) = List.range plan.tensorGroup.length
  stages : plan.pipeline.length = if 1 < requirements.pipelineStages then requirements.pipelineStages else 0
  indices : plan.pipeline.map (fun s => s.stageIndex) = List.range plan.pipeline.length
  machines : (plan.pipeline.map fun s => s.nodeId).Nodup
  head : ∀ s ∈ plan.pipeline.head?,
    ∃ c ∈ candidates, c.prefillEligible = true ∧ c.nodeId = s.nodeId ∧ c.deviceId = s.deviceId
  layers : plan.pipeline ≠ [] → Tiles 0 layerCount (plan.pipeline.map fun s => (s.layerStart, s.layerEnd))
  layers_nonempty : ∀ s ∈ plan.pipeline, s.layerStart < s.layerEnd

/-- the products of a plan are values of their types: layers times stages of `u64`, prompts times batches of `u32` -/
def ProductsFit (candidates : List CandidateScore) (layerCount : ℕ) (requirements : InferenceRequirements) : Prop :=
  (∀ i < requirements.pipelineStages, layerCount * (i + 1) ≤ u64Max) ∧
    ∀ index < min candidates.length requirements.batchSize, requirements.batchSize * (index + 1) ≤ u32Max

section

variable {candidates : List CandidateScore}

/-- what does not depend on the index is the same without it -/
theorem map_zipIdx {α β γ : Type} (l : List α) (make : α × ℕ → β) (f : β → γ) (g : α → γ) (h : ∀ p, f (make p) = g p.1) :
    (l.zipIdx.map make).map f = l.map g := by
  rw [List.map_map, show f ∘ make = g ∘ Prod.fst from funext h, ← List.map_map, List.zipIdx_map_fst]

/-- what is only the index counts up -/
theorem map_zipIdx_index {α β : Type} (l : List α) (make : α × ℕ → β) (f : β → ℕ) (h : ∀ p, f (make p) = p.2) :
    (l.zipIdx.map make).map f = List.range l.length := by
  rw [List.map_map, show f ∘ make = Prod.snd from funext h, List.zipIdx_map_snd, List.range_eq_range']

theorem pipelineStages_spec {stages : List CandidateScore} {layerCount : ℕ}
    (hlen : (layerSpans stages layerCount).length = stages.length) :
    (pipelineStages stages layerCount).length = stages.length ∧
      (pipelineStages stages layerCount).map (fun s => s.stageIndex) = List.range stages.length ∧
      (pipelineStages stages layerCount).map (fun s => (s.nodeId, s.deviceId)) =
        stages.map (fun c => (c.nodeId, c.deviceId)) ∧
      (pipelineStages stages layerCount).map (fun s => (s.layerStart, s.layerEnd)) = layerSpans stages layerCount := by
  have hzip : (stages.zip (layerSpans stages layerCount)).length = stages.length := by
    rw [List.length_zip, hlen, min_self]
  unfold pipelineStages
  refine ⟨by rw [List.length_map, List.length_zipIdx, hzip], ?_, ?_, ?_⟩
  · rw [map_zipIdx_index _ _ (fun s : PipelineStage => s.stageIndex) fun _ => rfl, hzip]
  · rw [map_zipIdx _ _ (fun s : PipelineStage => (s.nodeId, s.deviceId)) (fun p => (p.1.nodeId, p.1.deviceId)) fun _ => rfl,
      show (fun p : CandidateScore × ℕ × ℕ => (p.1.nodeId, p.1.deviceId)) =
        (fun c : CandidateScore => (c.nodeId, c.deviceId)) ∘ Prod.fst from rfl, ← List.map_map,
      List.map_fst_zip hlen.ge]
  · rw [map_zipIdx _ _ (fun s : PipelineStage => (s.layerStart, s.layerEnd)) Prod.snd fun _ => rfl,
      List.map_snd_zip hlen.le]

theorem tensorGroup_ranks (tensorCount : ℕ) :
    (tensorGroup candidates tensorCount).map (fun g => g.rank) =
      List.range (tensorGroup candidates tensorCount).length := by
  unfold tensorGroup
  rw [map_zipIdx_index _ _ (fun g : TensorGroup => g.rank) fun _ => rfl, List.length_map, List.length_zipIdx]

/-- batches, without the wraps, when no product reaches one -/
theorem batchShards_spec {batchSize : ℕ} (hfits : batchSize * min candidates.length batchSize ≤ u32Max) :
    (batchShards candidates batchSize).map (fun b => (b.batchStart, b.batchEnd)) =
      scaledSpans batchSize (min candidates.length batchSize) := by
  unfold batchShards scaledSpans
  dsimp only
  rw [List.map_map]
  have hindex : (candidates.take (min candidates.length batchSize)).zipIdx.map Prod.snd =
      List.range' 0 (min candidates.length batchSize) := by
    rw [List.zipIdx_map_snd, List.length_take, min_eq_left (min_le_left _ _)]
  rw [← hindex, List.map_map]
  refine List.map_congr_left fun p hp => ?_
  have hlt : p.2 < min candidates.length batchSize := by
    have hmem := List.mem_map_of_mem (f := Prod.snd) hp
    rw [hindex] at hmem
    have := List.mem_range'_1.1 hmem
    omega
  have hwrap : ∀ k ≤ min candidates.length batchSize, wrapU32 (batchSize * k) = batchSize * k := fun k hk =>
    wrapU32_of_le ((Nat.mul_le_mul_left _ hk).trans hfits)
  simp only [Function.comp_apply, hwrap p.2 hlt.le, hwrap (p.2 + 1) hlt]

variable (rtt : NetworkCoordinate → NetworkCoordinate → ℕ)

theorem pipelineMachines_spec {stages : ℕ} {ordered : List CandidateScore}
    (h : pipelineMachines rtt candidates (max stages 1) = .ok ordered) :
    ordered.length = (if 1 < stages then stages else 0) ∧ (ordered.map fun c => c.nodeId).Nodup ∧
      (∀ c ∈ ordered, c ∈ candidates) ∧ ∀ c ∈ ordered.head?, c.prefillEligible = true := by
  unfold pipelineMachines at h
  by_cases hlong : 1 < stages
  · rw [max_eq_left hlong.le, if_pos hlong] at h
    rw [if_pos hlong]
    exact orderPipeline_spec rtt (Nat.zero_lt_of_lt hlong) h
  · rw [if_neg (by omega), pure_ok] at h
    subst h
    rw [if_neg hlong]
    exact ⟨rfl, List.nodup_nil, fun c hc => absurd hc List.not_mem_nil, fun c hc => by cases hc⟩

/-- the stages of a chain are what the chain and the spans make them -/
theorem stages_wellFormed {ordered : List CandidateScore} {layerCount : ℕ} (hn : ordered.length ≤ u32Max)
    (hlayers : layerCount ≤ u32Max) (hfew : ordered.length ≤ layerCount)
    (hnodup : (ordered.map fun c => c.nodeId).Nodup) (hmem : ∀ c ∈ ordered, c ∈ candidates)
    (hhead : ∀ c ∈ ordered.head?, c.prefillEligible = true) :
    (pipelineStages ordered layerCount).length = ordered.length ∧
      (pipelineStages ordered layerCount).map (fun s => s.stageIndex) =
        List.range (pipelineStages ordered layerCount).length ∧
      ((pipelineStages ordered layerCount).map fun s => s.nodeId).Nodup ∧
      (∀ s ∈ (pipelineStages ordered layerCount).head?, ∃ c ∈ candidates,
        c.prefillEligible = true ∧ c.nodeId = s.nodeId ∧ c.deviceId = s.deviceId) ∧
      (pipelineStages ordered layerCount ≠ [] →
        Tiles 0 layerCount ((pipelineStages ordered layerCount).map fun s => (s.layerStart, s.layerEnd))) ∧
      ∀ s ∈ pipelineStages ordered layerCount, s.layerStart < s.layerEnd := by
  rcases eq_or_ne ordered [] with rfl | hne
  · exact ⟨rfl, rfl, List.nodup_nil, fun s hs => (by cases hs), fun h => absurd rfl h,
      fun s hs => absurd hs List.not_mem_nil⟩
  · obtain ⟨hlen, htiles, hnonempty⟩ := layerSpans_spec hne hn hlayers
    obtain ⟨hcount, hindex, hids, hspans⟩ := pipelineStages_spec hlen
    have hnodes : (pipelineStages ordered layerCount).map (fun s => s.nodeId) = ordered.map fun c => c.nodeId := by
      have h := congrArg (List.map Prod.fst) hids
      rwa [List.map_map, List.map_map] at h
    refine ⟨hcount, by rw [hcount, hindex], by rw [hnodes]; exact hnodup, fun s hs => ?_, fun _ => hspans ▸ htiles,
      fun s hs => ?_⟩
    · have hsame := congrArg List.head? hids
      rw [List.head?_map, List.head?_map, show (pipelineStages ordered layerCount).head? = some s from hs, Option.map_some,
        eq_comm, Option.map_eq_some_iff] at hsame
      obtain ⟨c, hc, heq⟩ := hsame
      obtain ⟨hnode, hdevice⟩ := Prod.ext_iff.1 heq
      exact ⟨c, hmem c (List.mem_of_head? hc), hhead c hc, hnode, hdevice⟩
    · have hspan := hnonempty hfew (s.layerStart, s.layerEnd) (by
        rw [← hspans]
        exact List.mem_map_of_mem (f := fun s : PipelineStage => (s.layerStart, s.layerEnd)) hs)
      exact hspan

/-- **When a plan is complete and well formed.** Whatever the candidates: as many layers as stages, and a batch size
that times the number of batches fits 32 bits. -/
theorem plan_wellFormed_iff {layerCount : ℕ} {requirements : InferenceRequirements} {plan : ParallelismPlan}
    (hlayers : layerCount ≤ u32Max) (hstages : requirements.pipelineStages ≤ u32Max)
    (h : planParallelism rtt candidates layerCount requirements = .ok plan) :
    (plan.WellFormed candidates layerCount requirements ∧ ProductsFit candidates layerCount requirements) ↔
      requirements.pipelineStages ≤ layerCount ∧
        requirements.batchSize * min candidates.length requirements.batchSize ≤ u32Max := by
  simp only [planParallelism, bind_ok, bailIf_ok, pure_ok, exists_const] at h
  obtain ⟨hsome, hbatch, henough, ordered, hordered, rfl⟩ := h
  have hworkers : 0 < min candidates.length requirements.batchSize := by omega
  constructor
  · rintro ⟨hwell, -, hproducts⟩
    have hlast := hproducts (min candidates.length requirements.batchSize - 1) (by omega)
    rw [Nat.sub_add_cancel hworkers] at hlast
    refine ⟨?_, hlast⟩
    by_contra hmany
    have hlong : 1 < requirements.pipelineStages := by omega
    have hcount := hwell.stages
    rw [if_pos hlong] at hcount
    have hne : _ ≠ [] := List.ne_nil_of_length_pos (hcount.trans_gt (by omega))
    have hle := (hwell.layers hne).length_le fun p hp => by
      obtain ⟨s, hs, rfl⟩ := List.mem_map.1 hp
      exact hwell.layers_nonempty s hs
    rw [List.length_map, hcount] at hle
    omega
  · rintro ⟨hfew, hfits⟩
    obtain ⟨hcount, hnodup, hmem, hhead⟩ := pipelineMachines_spec rtt hordered
    have hle : ordered.length ≤ requirements.pipelineStages := by
      rw [hcount]
      split_ifs <;> omega
    obtain ⟨hlen, hindices, hmachines, hled, hlayered, hnonempty⟩ := stages_wellFormed (hle.trans hstages) hlayers
      (hle.trans hfew) hnodup hmem hhead
    have hbatches := batchShards_spec hfits
    refine ⟨⟨?_, fun b hb => ?_, ?_, hlen.trans hcount, hindices, hmachines, hled, hlayered, hnonempty⟩,
      fun i hi => mul_le_u64 hlayers ?_, fun index hindex => (Nat.mul_le_mul_left _ hindex).trans hfits⟩
    · exact hbatches ▸ tiles_scaledSpans requirements.batchSize hworkers
    · have hspan : (b.batchStart, b.batchEnd) ∈ scaledSpans requirements.batchSize
          (min candidates.length requirements.batchSize) := by
        rw [← hbatches]
        exact List.mem_map_of_mem (f := fun b : BatchShard => (b.batchStart, b.batchEnd)) hb
      exact scaledSpans_nonempty hworkers (min_le_right _ _) _ hspan
    · dsimp only
      split_ifs
      · exact tensorGroup_ranks _
      · rfl
    · omega

end

/-- two machines for one layer: the first stage holds nothing -/
theorem plan_not_wellFormed : ¬ ∀ rtt candidates layerCount requirements plan, layerCount ≤ u32Max →
    requirements.pipelineStages ≤ u32Max → planParallelism rtt candidates layerCount requirements = .ok plan →
    plan.WellFormed candidates layerCount requirements ∧ ProductsFit candidates layerCount requirements := by
  intro h
  have hplan := h (fun _ _ => 0)
    [{ nodeId := "a", deviceId := "1", prefillEligible := true }, { nodeId := "b", deviceId := "1" }] 1 ⟨1, 2, 1⟩
    ⟨[.batch, .pipeline], [⟨0, "a", "1", 0, 0⟩, ⟨1, "b", "1", 0, 1⟩], [], [⟨0, 1, "a", "1"⟩]⟩
    (by decide) (by decide) (by decide +kernel)
  exact absurd (hplan.1.layers_nonempty _ List.mem_cons_self) (lt_irrefl 0)

theorem plan_wellFormed_iff_two :
    (ParallelismPlan.WellFormed [⟨"a", "1", none, none, true⟩, ⟨"b", "1", none, none, false⟩] 5 ⟨3, 2, 1⟩
        ⟨[.batch, .pipeline], [⟨0, "a", "1", 0, 2⟩, ⟨1, "b", "1", 2, 5⟩], [], [⟨0, 1, "a", "1"⟩, ⟨1, 3, "b", "1"⟩]⟩ ∧
      ProductsFit [⟨"a", "1", none, none, true⟩, ⟨"b", "1", none, none, false⟩] 5 ⟨3, 2, 1⟩) ↔
      2 ≤ 5 ∧ 3 * min 2 3 ≤ u32Max :=
  plan_wellFormed_iff (fun _ _ => 0) (by decide) (by decide) (by decide +kernel)

end Hocmesh.Ai
