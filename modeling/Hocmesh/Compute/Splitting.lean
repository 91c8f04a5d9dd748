/-
Splitting a job into shards and putting the answer together again (`split_work` of `compute.rs`, `job_status` of
`api.rs`).

The shards of a job are the pieces of an even cut of its window (`splitBounds_eq`), so they tile it
(`tiles_splitBounds`). With every operation checked, the split and the prices come out the same for any job that passes
its own checks (`split_clean`). Executed one by one and rolled up, the shards answer what the whole job would have
(`split_answers`).
-/
import Hocmesh.Compute.Buckets

namespace Hocmesh.Compute

open Hocmesh.Base Hocmesh.Protocol

/-! ## The window of a job -/

/-- every field is a value of its type -/
def Typed : WorkSpec → Prop
  | .primeCount start end_ => start ≤ u64Max ∧ end_ ≤ u64Max
  | .matrixMultiply seedA seedB dim rowStart rowEnd =>
    seedA ≤ u64Max ∧ seedB ≤ u64Max ∧ dim ≤ u32Max ∧ rowStart ≤ u32Max ∧ rowEnd ≤ u32Max
  | .collatzPeak start end_ => start ≤ u64Max ∧ end_ ≤ u64Max

instance (work : WorkSpec) : Decidable (Typed work) := by
  cases work <;> unfold Typed <;> infer_instance

/-- the range of candidates or rows that is cut up -/
def window : WorkSpec → ℕ × ℕ
  | .primeCount start end_ => (start, end_)
  | .matrixMultiply _ _ _ rowStart rowEnd => (rowStart, rowEnd)
  | .collatzPeak start end_ => (start, end_)

/-- the same work over another range -/
def onWindow : WorkSpec → ℕ × ℕ → WorkSpec
  | .primeCount _ _, p => .primeCount p.1 p.2
  | .matrixMultiply seedA seedB dim _ _, p => .matrixMultiply seedA seedB dim p.1 p.2
  | .collatzPeak _ _, p => .collatzPeak p.1 p.2

theorem onWindow_window (work : WorkSpec) : onWindow work (window work) = work := by cases work <;> rfl

theorem splitWork_eq (work : WorkSpec) (shards : ℕ) :
    splitWork work shards = (splitBounds (window work).1 (window work).2 (max shards 1)).map (onWindow work) := by
  cases work <;> rfl

/-! ## The shards tile the window -/

section

variable {s e n : ℕ}

theorem splitRange_eq (s width n : ℕ) (i k : ℕ) : splitRange (width / n) (width % n) i k (evenCut s width n i) =
    (List.range' i k).map fun i => (evenCut s width n i, evenCut s width n (i + 1)) := by
  induction k generalizing i with
  | zero => rfl
  | succ k ih =>
    have hnext := evenCut_succ s width n i
    rw [← Nat.add_assoc] at hnext
    rw [List.range'_succ, List.map_cons, splitRange, ← hnext, ih]

theorem splitBounds_eq (s e n : ℕ) : splitBounds s e n = (List.range' 0 (actualShards n (e - s))).map fun i =>
    (evenCut s (e - s) (actualShards n (e - s)) i, evenCut s (e - s) (actualShards n (e - s)) (i + 1)) := by
  have h := splitRange_eq s (e - s) (actualShards n (e - s)) 0 (actualShards n (e - s))
  rwa [evenCut_zero] at h

theorem tiles_splitBounds (hle : s ≤ e) (hn : 0 < n) : Tiles s e (splitBounds s e n) := by
  have h := tiles_evenCut s (e - s) (show 0 < actualShards n (e - s) by unfold actualShards; omega)
  rwa [← splitBounds_eq, show s + (e - s) = e by omega] at h

theorem splitBounds_nonempty (hlt : s < e) (hn : 0 < n) : ∀ p ∈ splitBounds s e n, p.1 < p.2 := by
  intro p hp
  rw [splitBounds_eq] at hp
  obtain ⟨i, -, rfl⟩ := List.mem_map.1 hp
  exact evenCut_lt_succ s (e - s) i (by unfold actualShards; omega) (by unfold actualShards; omega)

theorem length_splitBounds (hlt : s < e) : (splitBounds s e n).length = min n (e - s) := by
  rw [splitBounds_eq, List.length_map, List.length_range', actualShards, max_eq_left (by omega)]

end

/-! ## The same arithmetic with every operation checked -/

/-- a value that a type with this maximum holds -/
def checkedUpTo (cap x : ℕ) : Option ℕ := if x ≤ cap then some x else none

/-- the cursors of a split; no answer when an addition overflows -/
def splitRangeChecked (cap base remainder : ℕ) : (i actual cursor : ℕ) → Option (List (ℕ × ℕ))
  | _, 0, _ => some []
  | i, actual + 1, cursor => do
    let narrow ← checkedUpTo cap (cursor + base)
    let next ← checkedUpTo cap (narrow + (if i < remainder then 1 else 0))
    let rest ← splitRangeChecked cap base remainder (i + 1) actual next
    some ((cursor, next) :: rest)

def splitBoundsChecked (cap start end_ shards : ℕ) : Option (List (ℕ × ℕ)) :=
  let width := end_ - start
  let actual := actualShards shards width
  splitRangeChecked cap (width / actual) (width % actual) 0 actual start

/-- ranges are `u64`, rows are `u32` -/
def splitWorkChecked (work : WorkSpec) (shards : ℕ) : Option (List WorkSpec) :=
  let shards := max shards 1
  match work with
  | .primeCount start end_ =>
    (splitBoundsChecked u64Max start end_ shards).map fun l => l.map fun p => .primeCount p.1 p.2
  | .matrixMultiply seedA seedB dim rowStart rowEnd =>
    (splitBoundsChecked u32Max rowStart rowEnd shards).map fun l => l.map fun p => .matrixMultiply seedA seedB dim p.1 p.2
  | .collatzPeak start end_ =>
    (splitBoundsChecked u64Max start end_ shards).map fun l => l.map fun p => .collatzPeak p.1 p.2

def trialDivisionOpsChecked (n : ℕ) : Option ℕ := do
  let n := max n 2
  let scaled ← checkedUpTo u64Max (n.log2 * 693)
  let divisor ← checkedUpTo u64Max (3 * max (scaled / 1000) 1)
  checkedUpTo u64Max (2 + n.sqrt / divisor)

def collatzOpsChecked (n : ℕ) : Option ℕ := do
  let scaled ← checkedUpTo u64Max ((max n 2).log2 * 693)
  let steps ← checkedUpTo u64Max (7 * max (scaled / 1000) 1)
  some (max (steps / 2) 1)

def computeOpsChecked : WorkSpec → Option ℕ
  | .primeCount start end_ => do
    let rate ← trialDivisionOpsChecked end_
    checkedUpTo u64Max ((end_ - start) * rate)
  | .matrixMultiply _ _ dim rowStart rowEnd => do
    let area ← checkedUpTo u64Max ((rowEnd - rowStart) * dim)
    checkedUpTo u64Max (area * dim)
  | .collatzPeak start end_ => do
    let rate ← collatzOpsChecked end_
    checkedUpTo u64Max ((end_ - start) * rate)

/-- the price, or nothing when an operation overflows or the ceiling of `i64` cuts it -/
def workCostChecked (work : WorkSpec) : Option ℤ := do
  let ops ← computeOpsChecked work
  let mcu := max (divCeil ops referenceOpsPerMcu) 1
  if (mcu : ℤ) ≤ i64Max then some mcu else none

theorem checkedUpTo_of_le {cap x : ℕ} (h : x ≤ cap) : checkedUpTo cap x = some x := if_pos h

theorem splitRangeChecked_eq {cap base remainder : ℕ} (actual : ℕ) : ∀ i cursor,
    (∀ p ∈ splitRange base remainder i actual cursor, p.2 ≤ cap) →
    splitRangeChecked cap base remainder i actual cursor = some (splitRange base remainder i actual cursor) := by
  induction actual with
  | zero => exact fun _ _ _ => rfl
  | succ actual ih =>
    intro i cursor h
    have hnext : cursor + base + (if i < remainder then 1 else 0) ≤ cap := h _ List.mem_cons_self
    have hrest := ih (i + 1) (cursor + base + if i < remainder then 1 else 0) fun p hp => h p (List.mem_cons_of_mem _ hp)
    simp only [splitRangeChecked, checkedUpTo_of_le (le_of_add_le_left hnext), checkedUpTo_of_le hnext, hrest,
      Option.bind_eq_bind, Option.bind_some, splitRange]

theorem splitBoundsChecked_eq {cap s e n : ℕ} (hle : s ≤ e) (hn : 0 < n) (hcap : e ≤ cap) :
    splitBoundsChecked cap s e n = some (splitBounds s e n) :=
  splitRangeChecked_eq _ _ _ fun p hp => ((tiles_splitBounds hle hn).within p hp).2.2.trans hcap

theorem log2_le {n : ℕ} (h : n ≤ u64Max) : (max n 2).log2 ≤ 64 := by
  have hlt : max n 2 < 2 ^ 64 := by
    unfold u64Max at h
    omega
  exact ((Nat.log2_lt (by omega)).2 hlt).le

theorem trialDivisionOpsChecked_eq {n : ℕ} (h : n ≤ u64Max) : trialDivisionOpsChecked n = some (trialDivisionOps n) ∧
    trialDivisionOps n ≤ 2000000000 := by
  have hlog := log2_le h
  have hsqrt : (max n 2).sqrt < 4294967296 := Nat.sqrt_lt'.2 (by unfold u64Max at h; omega)
  have hops : trialDivisionOps n ≤ 2000000000 := by
    have hdiv : (max n 2).sqrt / (3 * max ((max n 2).log2 * 693 / 1000) 1) ≤ (max n 2).sqrt / 3 :=
      Nat.div_le_div_left (by omega) (by decide)
    unfold trialDivisionOps
    dsimp only
    omega
  refine ⟨?_, hops⟩
  unfold trialDivisionOpsChecked
  dsimp only
  rw [checkedUpTo_of_le (by unfold u64Max; omega), Option.bind_eq_bind, Option.bind_some,
    checkedUpTo_of_le (by unfold u64Max; omega), Option.bind_some]
  exact checkedUpTo_of_le (hops.trans (by decide))

theorem collatzOpsChecked_eq {n : ℕ} (h : n ≤ u64Max) : collatzOpsChecked n = some (collatzOps n) ∧
    collatzOps n ≤ 2000000000 := by
  have hlog := log2_le h
  refine ⟨?_, by unfold collatzOps; dsimp only; omega⟩
  unfold collatzOpsChecked
  rw [checkedUpTo_of_le (by unfold u64Max; omega), Option.bind_eq_bind, Option.bind_some,
    checkedUpTo_of_le (by unfold u64Max; omega), Option.bind_some]
  rfl

/-- a range of at most 2·10^9 candidates at a rate of at most that fits `u64` twice over -/
theorem satMul_candidates {width rate : ℕ} (hwidth : width ≤ 2000000000) (hrate : rate ≤ 2000000000) :
    satMul width rate = width * rate ∧ width * rate ≤ u64Max := by
  have hprod : width * rate ≤ 2000000000 * 2000000000 := Nat.mul_le_mul hwidth hrate
  have hmax : width * rate ≤ u64Max := hprod.trans (by decide)
  exact ⟨min_eq_left hmax, hmax⟩

theorem computeOpsChecked_eq {work : WorkSpec} (htyped : Typed work) (hvalid : work.validate = .ok ()) :
    computeOpsChecked work = some (computeOps work) := by
  cases work with
  | primeCount start end_ =>
    simp only [WorkSpec.validate, bind_ok, bailIf_ok, exists_const] at hvalid
    obtain ⟨hchecked, hrate⟩ := trialDivisionOpsChecked_eq htyped.2
    obtain ⟨hsat, hmax⟩ := satMul_candidates (not_lt.1 hvalid.2) hrate
    rw [computeOpsChecked, hchecked, computeOps, hsat]
    exact checkedUpTo_of_le hmax
  | matrixMultiply seedA seedB dim rowStart rowEnd =>
    simp only [WorkSpec.validate, bind_ok, bailIf_ok, exists_const] at hvalid
    have harea : (rowEnd - rowStart) * dim ≤ 512 * 512 := Nat.mul_le_mul (by omega) (by omega)
    have hvolume : (rowEnd - rowStart) * dim * dim ≤ 512 * 512 * 512 := Nat.mul_le_mul harea (by omega)
    have hwrap : ∀ {x : ℕ}, x ≤ 512 * 512 * 512 → wrapU64 x = x := fun hx => Nat.mod_eq_of_lt (by omega)
    rw [computeOpsChecked, checkedUpTo_of_le (harea.trans (by decide)), Option.bind_eq_bind, Option.bind_some,
      checkedUpTo_of_le (hvolume.trans (by decide)), computeOps, hwrap (harea.trans (by decide)), hwrap hvolume]
  | collatzPeak start end_ =>
    simp only [WorkSpec.validate, bind_ok, bailIf_ok, exists_const] at hvalid
    obtain ⟨hchecked, hrate⟩ := collatzOpsChecked_eq htyped.2
    obtain ⟨hsat, hmax⟩ := satMul_candidates (not_lt.1 hvalid.2.2) hrate
    rw [computeOpsChecked, hchecked, computeOps, hsat]
    exact checkedUpTo_of_le hmax

theorem workCostChecked_eq {work : WorkSpec} (htyped : Typed work) (hvalid : work.validate = .ok ()) :
    workCostChecked work = some (workCostMcu work) := by
  have hops := computeOps_le work
  have hmcu : ((max (divCeil (computeOps work) referenceOpsPerMcu) 1 : ℕ) : ℤ) ≤ i64Max := by
    have h := (divCeil_le_iff (a := computeOps work) (k := u64Max / 4) (show 0 < referenceOpsPerMcu by decide)).2
      (hops.trans (by decide))
    unfold u64Max at h
    unfold i64Max
    omega
  rw [workCostChecked, computeOpsChecked_eq htyped hvalid, Option.bind_eq_bind, Option.bind_some, if_pos hmcu]
  unfold workCostMcu mcuOfOps
  rw [min_eq_left (by exact_mod_cast hmcu)]
  push_cast
  rfl

/-! ## A clean split -/

/-- a shard of valid work is valid work -/
theorem onWindow_valid {work : WorkSpec} (htyped : Typed work) (hvalid : work.validate = .ok ()) {p : ℕ × ℕ}
    (hlo : (window work).1 ≤ p.1) (hlt : p.1 < p.2) (hhi : p.2 ≤ (window work).2) :
    Typed (onWindow work p) ∧ (onWindow work p).validate = .ok () := by
  cases work <;> simp only [WorkSpec.validate, bind_ok, bailIf_ok, exists_const] at hvalid <;>
    simp only [window] at hlo hhi <;> simp only [Typed, onWindow] at htyped ⊢ <;>
    simp only [WorkSpec.validate, bind_ok, bailIf_ok, exists_const] <;> omega

theorem window_lt {work : WorkSpec} (hvalid : work.validate = .ok ()) : (window work).1 < (window work).2 := by
  cases work <;> simp only [WorkSpec.validate, bind_ok, bailIf_ok, exists_const] at hvalid <;>
    simp only [window] <;> omega

theorem splitWorkChecked_eq {work : WorkSpec} (htyped : Typed work) (hvalid : work.validate = .ok ()) (shards : ℕ) :
    splitWorkChecked work shards = some (splitWork work shards) := by
  have hle := (window_lt hvalid).le
  have hpos : 0 < max shards 1 := by omega
  cases work with
  | primeCount start end_ =>
    rw [splitWorkChecked, splitBoundsChecked_eq (s := start) (e := end_) hle hpos htyped.2]
    rfl
  | matrixMultiply seedA seedB dim rowStart rowEnd =>
    rw [splitWorkChecked, splitBoundsChecked_eq (s := rowStart) (e := rowEnd) hle hpos htyped.2.2.2.2]
    rfl
  | collatzPeak start end_ =>
    rw [splitWorkChecked, splitBoundsChecked_eq (s := start) (e := end_) hle hpos htyped.2]
    rfl

/-- **A split is a clean partition.** Nothing overflows, the shards tile the window, and each is priced, valid work. -/
theorem split_clean {work : WorkSpec} (htyped : Typed work) (hvalid : work.validate = .ok ()) {shards : ℕ}
    (hpos : 1 ≤ shards) (hmax : shards ≤ 256) :
    splitWorkChecked work shards = some (splitWork work shards) ∧
      (∃ bounds, splitWork work shards = bounds.map (onWindow work) ∧
        Tiles (window work).1 (window work).2 bounds ∧ (∀ p ∈ bounds, p.1 < p.2)) ∧
      (splitWork work shards).length = min shards ((window work).2 - (window work).1) ∧
      (∀ part ∈ work :: splitWork work shards, part.validate = .ok () ∧
        workCostChecked part = some (workCostMcu part) ∧ 1 ≤ workCostMcu part) ∧
      ∀ parts, parts <+: splitWork work shards → FitsI64 (parts.map workCostMcu).sum := by
  have hlt := window_lt hvalid
  have heq := splitWork_eq work shards
  rw [max_eq_left hpos] at heq
  have htiles := tiles_splitBounds hlt.le hpos
  have hnonempty := splitBounds_nonempty hlt hpos
  refine ⟨splitWorkChecked_eq htyped hvalid shards, ⟨_, heq, htiles, hnonempty⟩, ?_, fun part hpart => ?_,
    fun parts hparts => ?_⟩
  · rw [heq, List.length_map, length_splitBounds hlt]
  · have hshard : Typed part ∧ part.validate = .ok () := by
      rcases List.mem_cons.1 hpart with rfl | hpart
      · exact ⟨htyped, hvalid⟩
      · rw [heq] at hpart
        obtain ⟨p, hp, rfl⟩ := List.mem_map.1 hpart
        obtain ⟨hlo, -, hhi⟩ := htiles.within p hp
        exact onWindow_valid htyped hvalid hlo (hnonempty p hp) hhi
    exact ⟨hshard.2, workCostChecked_eq hshard.1 hshard.2, workCostMcu_pos part⟩
  · have hlen := hparts.length_le.trans (splitWork_length_le work shards)
    have hsum := sum_costs_bounds parts
    unfold FitsI64 i64Min i64Max
    omega

theorem split_clean_rows : (splitWork (.matrixMultiply 1 2 300 10 20) 3).length = min 3 10 :=
  (split_clean (by decide) (by rfl) (by decide) (by decide)).2.2.1

/-! ## Rolling the shards up -/

structure CollatzPeakTotal where
  steps : ℕ
  seed : ℕ
deriving DecidableEq

/-- what the loop over the completed shards has gathered -/
structure Rollup where
  primeTotal : ℕ := 0
  collatz : Option CollatzPeakTotal := none
  has : Bool := false

def Rollup.add (r : Rollup) : WorkResult → Rollup
  | .primeCount count _ _ => { r with has := true, primeTotal := satAdd r.primeTotal count }
  | .matrixMultiply _ _ => r
  | .collatzPeak peakSteps peakSeed _ _ _ =>
    let better : Bool := match r.collatz with
      | none => true
      | some t => decide (peakSteps > t.steps ∨ (peakSteps = t.steps ∧ peakSeed < t.seed))
    if better then { r with collatz := some ⟨peakSteps, peakSeed⟩ } else r

/-- the answer of a job: the totals the coordinator reports, and the rows the caller fetches per shard -/
structure JobAnswer where
  primeCountTotal : Option ℕ
  collatzPeak : Option CollatzPeakTotal
  rows : List ℕ
deriving DecidableEq

def rowsOf : WorkResult → List ℕ
  | .matrixMultiply rows _ => rows
  | _ => []

/-- the results of the completed shards, in shard order -/
def jobRollup (results : List WorkResult) : JobAnswer :=
  let r := results.foldl Rollup.add {}
  { primeCountTotal := if r.has then some r.primeTotal else none
    collatzPeak := r.collatz
    rows := results.flatMap rowsOf }

/-- the answer that one result holds -/
def answerOf : WorkResult → JobAnswer
  | .primeCount count _ _ => ⟨some count, none, []⟩
  | .matrixMultiply rows _ => ⟨none, none, rows⟩
  | .collatzPeak peakSteps peakSeed _ _ _ => ⟨none, some ⟨peakSteps, peakSeed⟩, []⟩

/-! ## The shards answer for the whole -/

section

variable {s e : ℕ} {l : List (ℕ × ℕ)}

theorem countPrimes_cons {p : ℕ × ℕ} (h : Tiles s e (p :: l)) :
    countPrimes s e = countPrimes p.1 p.2 + countPrimes p.2 e := by
  have hwhole := sum_countPrimes h
  rw [List.map_cons, List.sum_cons, sum_countPrimes h.2.2] at hwhole
  exact hwhole.symm

/-- counts of consecutive shards add up to the count of the range they tile, without saturating -/
theorem rollup_counts (h : Tiles s e l) (hmax : e ≤ u64Max) (ms : ℕ × ℕ → ℕ) : ∀ total has, total + (e - s) ≤ u64Max →
    (l.map fun p => executeWork (.primeCount p.1 p.2) (ms p)).foldl Rollup.add { primeTotal := total, has := has } =
      { primeTotal := total + countPrimes s e, has := has || !l.isEmpty } := by
  induction l generalizing s with
  | nil =>
    intro total has _
    obtain rfl : s = e := h
    simp [countPrimes]
  | cons p l ih =>
    intro total has htotal
    have hsplit := countPrimes_cons h
    obtain ⟨rfl, hle, hrest⟩ := h
    have hbound := countPrimes_le p.1 p.2
    have hsat : satAdd total (countPrimes p.1 p.2) = total + countPrimes p.1 p.2 :=
      min_eq_left (by have := hrest.le; omega)
    obtain ⟨counts, hresult⟩ := executeWork_count hle (hrest.le.trans hmax) (ms p)
    rw [List.map_cons, List.foldl_cons, hresult]
    dsimp only [Rollup.add]
    rw [hsat, ih hrest _ _ (by have := hrest.le; omega), hsplit, Nat.add_assoc]
    simp

/-- peaks of consecutive shards join; ties go to the smaller seed, here as inside a shard -/
theorem rollup_peaks (ms : ℕ × ℕ → ℕ) (hall : ∀ q ∈ l, q.1 ≤ q.2 ∧ q.2 ≤ u64Max) :
    ∀ (S : Set ℕ) (p : ℕ × ℕ), IsPeak collatzSteps S p →
      (l.map fun q => executeWork (.collatzPeak q.1 q.2) (ms q)).foldl Rollup.add { collatz := some ⟨p.1, p.2⟩ } =
        { collatz := some ⟨(l.foldl (fun best q => joinPeaks best (peakTrajectory q.1 q.2)) p).1,
            (l.foldl (fun best q => joinPeaks best (peakTrajectory q.1 q.2)) p).2⟩ } := by
  induction l with
  | nil => intro S p _; rfl
  | cons q l ih =>
    intro S p hp
    obtain ⟨hle, hmax⟩ := hall q List.mem_cons_self
    have hq := isPeak_peakTrajectory q.1 q.2
    obtain ⟨peaks, seeds, hresult⟩ := executeWork_peak hle hmax (ms q)
    -- two peaks of height zero have the same seed, so the rollup need not ask for a positive height
    have hbetter : ((peakTrajectory q.1 q.2).1 > p.1 ∨
        ((peakTrajectory q.1 q.2).1 = p.1 ∧ (peakTrajectory q.1 q.2).2 < p.2)) ↔
        (p.1 < (peakTrajectory q.1 q.2).1 ∨ ((peakTrajectory q.1 q.2).1 = p.1 ∧ 0 < (peakTrajectory q.1 q.2).1 ∧
          (peakTrajectory q.1 q.2).2 < p.2)) := by
      have hzero := hp.none
      omega
    rw [List.map_cons, List.foldl_cons, List.foldl_cons, hresult,
      ← ih (fun r hr => hall r (List.mem_cons_of_mem _ hr)) _ _ (hp.union hq)]
    congr 1
    simp only [Rollup.add, joinPeaks, hbetter, decide_eq_true_eq]
    split_ifs <;> rfl

/-- rows have no total -/
theorem rollup_rows (seedA seedB dim : ℕ) (ms : ℕ × ℕ → ℕ) (r : Rollup) :
    (l.map fun p => executeWork (.matrixMultiply seedA seedB dim p.1 p.2) (ms p)).foldl Rollup.add r = r := by
  induction l with
  | nil => rfl
  | cons p l ih => exact ih

theorem jobRollup_eq {results : List WorkResult} {r : Rollup} {rows : List ℕ} (hr : results.foldl Rollup.add {} = r)
    (hrows : results.flatMap rowsOf = rows) :
    jobRollup results = ⟨if r.has then some r.primeTotal else none, r.collatz, rows⟩ := by
  unfold jobRollup
  rw [hr, hrows]

theorem no_rows {results : List WorkResult} (h : ∀ result ∈ results, rowsOf result = []) : results.flatMap rowsOf = [] :=
  List.flatMap_eq_nil_iff.2 h

theorem jobRollup_counts (h : Tiles s e l) (hne : l ≠ []) (hmax : e ≤ u64Max) (ms : ℕ × ℕ → ℕ) :
    jobRollup (l.map fun p => executeWork (.primeCount p.1 p.2) (ms p)) = ⟨some (countPrimes s e), none, []⟩ := by
  have hcounts := rollup_counts h hmax ms 0 false (by omega)
  have hsome : l.isEmpty = false := List.isEmpty_eq_false_iff.2 hne
  have hrows : ∀ result ∈ l.map fun p => executeWork (.primeCount p.1 p.2) (ms p), rowsOf result = [] := by
    intro result hmem
    obtain ⟨p, -, rfl⟩ := List.mem_map.1 hmem
    rfl
  rw [jobRollup_eq hcounts (no_rows hrows), hsome, Nat.zero_add]
  rfl

theorem jobRollup_rows (h : Tiles s e l) (seedA seedB dim : ℕ) (ms : ℕ × ℕ → ℕ) :
    jobRollup (l.map fun p => executeWork (.matrixMultiply seedA seedB dim p.1 p.2) (ms p)) =
      ⟨none, none, multiplyRows seedA seedB dim s e⟩ := by
  have hrows : (l.map fun p => executeWork (.matrixMultiply seedA seedB dim p.1 p.2) (ms p)).flatMap rowsOf =
      multiplyRows seedA seedB dim s e := by
    rw [List.flatMap_map]
    exact h.flatMap_flatMap fun i => multiplyRow seedA seedB dim i
  exact jobRollup_eq (rollup_rows seedA seedB dim ms {}) hrows

theorem jobRollup_peaks (h : Tiles s e l) (hne : l ≠ []) (hmax : e ≤ u64Max) (ms : ℕ × ℕ → ℕ) :
    jobRollup (l.map fun p => executeWork (.collatzPeak p.1 p.2) (ms p)) =
      ⟨none, some ⟨(peakTrajectory s e).1, (peakTrajectory s e).2⟩, []⟩ := by
  have hrows : ∀ result ∈ l.map fun p => executeWork (.collatzPeak p.1 p.2) (ms p), rowsOf result = [] := by
    intro result hmem
    obtain ⟨p, -, rfl⟩ := List.mem_map.1 hmem
    rfl
  obtain ⟨q, l, rfl⟩ := List.exists_cons_of_ne_nil hne
  have hall : ∀ p ∈ q :: l, p.1 ≤ p.2 ∧ p.2 ≤ u64Max := fun p hp =>
    ⟨(h.within p hp).2.1, (h.within p hp).2.2.trans hmax⟩
  obtain ⟨peaks, seeds, hfirst⟩ := executeWork_peak (hall q List.mem_cons_self).1 (hall q List.mem_cons_self).2 (ms q)
  have hjoined : l.foldl (fun best q => joinPeaks best (peakTrajectory q.1 q.2)) (peakTrajectory q.1 q.2) =
      peakTrajectory s e := by
    have hfold := IsPeak.foldl (fun p : ℕ × ℕ => Set.Ico p.1 p.2) (fun p => peakTrajectory p.1 p.2) l
      (fun p _ => isPeak_peakTrajectory p.1 p.2) _ _ (isPeak_peakTrajectory q.1 q.2)
    have hset : Set.Ico q.1 q.2 ∪ {n | ∃ p ∈ l, n ∈ Set.Ico p.1 p.2} = Set.Ico s e := by
      ext n
      rw [← h.mem_iff, Set.mem_union, Set.mem_ofPred_eq, List.exists_mem_cons_iff]
    rw [hset] at hfold
    exact hfold.unique (isPeak_peakTrajectory s e)
  have hpeaks := rollup_peaks ms (fun p hp => hall p (List.mem_cons_of_mem _ hp)) _ _ (isPeak_peakTrajectory q.1 q.2)
  rw [hjoined] at hpeaks
  have hrollup : ((q :: l).map fun p => executeWork (.collatzPeak p.1 p.2) (ms p)).foldl Rollup.add {} =
      { collatz := some ⟨(peakTrajectory s e).1, (peakTrajectory s e).2⟩ } := by
    rw [List.map_cons, List.foldl_cons, hfirst]
    exact hpeaks
  exact jobRollup_eq hrollup (no_rows hrows)

end

/-- **Splitting does not change the answer.** -/
theorem split_answers {work : WorkSpec} (htyped : Typed work) (hvalid : work.validate = .ok ()) {shards : ℕ}
    (hpos : 1 ≤ shards) (hmax : shards ≤ 256) (ms : WorkSpec → ℕ) (whole : ℕ) :
    jobRollup ((splitWork work shards).map fun part => executeWork part (ms part)) =
      answerOf (executeWork work whole) := by
  have hlt := window_lt hvalid
  have htiles := tiles_splitBounds hlt.le hpos
  have hne : splitBounds (window work).1 (window work).2 shards ≠ [] := by
    intro hnil
    have hlen := length_splitBounds (n := shards) hlt
    rw [hnil, List.length_nil] at hlen
    omega
  rw [splitWork_eq, List.map_map, max_eq_left hpos]
  cases work with
  | primeCount start end_ =>
    obtain ⟨counts, hresult⟩ := executeWork_count hlt.le htyped.2 whole
    exact (jobRollup_counts htiles hne htyped.2 fun p => ms (.primeCount p.1 p.2)).trans (congrArg answerOf hresult.symm)
  | matrixMultiply seedA seedB dim rowStart rowEnd =>
    exact jobRollup_rows htiles seedA seedB dim fun p => ms (.matrixMultiply seedA seedB dim p.1 p.2)
  | collatzPeak start end_ =>
    obtain ⟨peaks, seeds, hresult⟩ := executeWork_peak hlt.le htyped.2 whole
    exact (jobRollup_peaks htiles hne htyped.2 fun p => ms (.collatzPeak p.1 p.2)).trans (congrArg answerOf hresult.symm)

theorem split_answers_collatz : jobRollup ((splitWork (.collatzPeak 1 30) 4).map fun part => executeWork part 7) =
    answerOf (executeWork (.collatzPeak 1 30) 9) :=
  split_answers (by decide) (by rfl) (by decide) (by decide) (fun _ => 7) 9

end Hocmesh.Compute
