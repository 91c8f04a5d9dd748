/-
Pricing and splitting (`hocmesh-core`: `compute.rs` and the op model of `verify.rs`).

A price is a closed form of the declaration: operations on the reference machine, divided by `referenceOpsPerMcu`,
rounded up. `u64` arithmetic saturates or wraps where the code's does. A job is split into contiguous shards whose
widths differ by at most one.

What the ledger needs of it: every price is at least 1 and small (`workCostMcu_pos`, `workCostMcu_le`), a split of at
most 256 shards never wraps the `i64` sum of its prices (`jobCost_eq_sum`).
-/
import Hocmesh.Protocol.Types

namespace Hocmesh.Compute

open Hocmesh.Base Hocmesh.Protocol

/-- multiply-adds that one milli-compute-unit buys -/
def referenceOpsPerMcu : ℕ := 8192

/-! ## The op model -/

/-- divisions one trial-division candidate costs near `n` -/
def trialDivisionOps (n : ℕ) : ℕ :=
  let n := max n 2
  let lnN := max (n.log2 * 693 / 1000) 1
  2 + n.sqrt / (3 * lnN)

/-- steps one Collatz candidate costs near `n` -/
def collatzOps (n : ℕ) : ℕ :=
  let lnN := max ((max n 2).log2 * 693 / 1000) 1
  max (7 * lnN / 2) 1

/-- multiplications needed to produce a shard -/
def computeOps : WorkSpec → ℕ
  | .primeCount start end_ => satMul (end_ - start) (trialDivisionOps end_)
  | .matrixMultiply _ _ dim rowStart rowEnd => wrapU64 (wrapU64 ((rowEnd - rowStart) * dim) * dim)
  | .collatzPeak start end_ => satMul (end_ - start) (collatzOps end_)

/-- the mCU a number of operations comes to: rounded up, at least one -/
def mcuOfOps (ops : ℕ) : ℤ := min (max (divCeil ops referenceOpsPerMcu : ℤ) 1) i64Max

def workCostMcu (work : WorkSpec) : ℤ := mcuOfOps (computeOps work)

/-! ## Splitting -/

/-- `actual` contiguous ranges from `cursor`, the first `remainder` of them one wider than `base` -/
def splitRange (base remainder : ℕ) : (i actual cursor : ℕ) → List (ℕ × ℕ)
  | _, 0, _ => []
  | i, actual + 1, cursor =>
    let next := cursor + base + (if i < remainder then 1 else 0)
    (cursor, next) :: splitRange base remainder (i + 1) actual next

/-- how many shards a range of this width really gets -/
def actualShards (shards width : ℕ) : ℕ := min shards (max width 1)

def splitBounds (start end_ shards : ℕ) : List (ℕ × ℕ) :=
  let width := end_ - start
  let actual := actualShards shards width
  splitRange (width / actual) (width % actual) 0 actual start

def splitPrimes (start end_ shards : ℕ) : List WorkSpec :=
  (splitBounds start end_ shards).map fun p => .primeCount p.1 p.2

def splitCollatz (start end_ shards : ℕ) : List WorkSpec :=
  (splitBounds start end_ shards).map fun p => .collatzPeak p.1 p.2

def splitRows (seedA seedB dim rowStart rowEnd shards : ℕ) : List WorkSpec :=
  (splitBounds rowStart rowEnd shards).map fun p => .matrixMultiply seedA seedB dim p.1 p.2

def splitWork (work : WorkSpec) (shards : ℕ) : List WorkSpec :=
  let shards := max shards 1
  match work with
  | .primeCount start end_ => splitPrimes start end_ shards
  | .matrixMultiply seedA seedB dim rowStart rowEnd => splitRows seedA seedB dim rowStart rowEnd shards
  | .collatzPeak start end_ => splitCollatz start end_ shards

/-- `split_work(work, shards).iter().map(work_cost_mcu).sum()` in `i64` -/
def jobCostMcu (work : WorkSpec) (shards : ℕ) : ℤ := wrap64 ((splitWork work shards).map workCostMcu).sum

/-! ## Inference -/

/-- bytes of prompt text that count as one token -/
def bytesPerToken : ℕ := 4

def inferenceTokens (promptBytes : List ℕ) (maxTokens : ℕ) : ℕ :=
  promptBytes.foldl (fun sum bytes => satAdd (satAdd sum (divCeil bytes bytesPerToken)) maxTokens) 0

def inferenceCostMcu (promptBytes : List ℕ) (maxTokens parameterCount : ℕ) : ℤ :=
  mcuOfOps (satMul (satMul (inferenceTokens promptBytes maxTokens) parameterCount) 2)

/-- the price of the slice of a job's prompts one batch is responsible for -/
def inferenceBatchCostMcu (promptBytes : List ℕ) (batchStart batchEnd maxTokens parameterCount : ℕ) : ℤ :=
  let lo := min batchStart promptBytes.length
  let hi := min (max batchEnd lo) promptBytes.length
  inferenceCostMcu ((promptBytes.take hi).drop lo) maxTokens parameterCount

/-! ## Prices are positive and small -/

theorem mcuOfOps_pos (ops : ℕ) : 1 ≤ mcuOfOps ops := by
  unfold mcuOfOps i64Max
  omega

/-- no `u64` count of operations comes to more than 2^51 mCU -/
theorem mcuOfOps_le {ops : ℕ} (h : ops ≤ u64Max) : mcuOfOps ops ≤ 2251799813685248 := by
  have h1 : divCeil ops referenceOpsPerMcu ≤ 2251799813685248 := by
    rw [divCeil_le_iff (by decide)]
    unfold u64Max at h
    unfold referenceOpsPerMcu
    omega
  unfold mcuOfOps
  omega

theorem satMul_le (a b : ℕ) : satMul a b ≤ u64Max := Nat.min_le_right _ _

theorem wrapU64_le (n : ℕ) : wrapU64 n ≤ u64Max := by
  have := Nat.mod_lt n (show 0 < 18446744073709551616 by decide)
  unfold wrapU64 u64Max
  omega

theorem computeOps_le (work : WorkSpec) : computeOps work ≤ u64Max := by
  cases work with
  | primeCount start end_ => exact satMul_le _ _
  | matrixMultiply seedA seedB dim rowStart rowEnd => exact wrapU64_le _
  | collatzPeak start end_ => exact satMul_le _ _

theorem workCostMcu_pos (work : WorkSpec) : 1 ≤ workCostMcu work := mcuOfOps_pos _

theorem workCostMcu_le (work : WorkSpec) : workCostMcu work ≤ 2251799813685248 := mcuOfOps_le (computeOps_le work)

theorem inferenceCostMcu_pos (promptBytes : List ℕ) (maxTokens parameterCount : ℕ) :
    1 ≤ inferenceCostMcu promptBytes maxTokens parameterCount := mcuOfOps_pos _

theorem inferenceBatchCostMcu_pos (promptBytes : List ℕ) (s e maxTokens parameterCount : ℕ) :
    1 ≤ inferenceBatchCostMcu promptBytes s e maxTokens parameterCount := inferenceCostMcu_pos _ _ _

/-! ## A split of at most 256 shards prices without wrapping -/

theorem splitRange_length (base remainder i actual cursor : ℕ) :
    (splitRange base remainder i actual cursor).length = actual := by
  induction actual generalizing i cursor with
  | zero => rfl
  | succ n ih => simp [splitRange, ih]

theorem splitBounds_length_le (start end_ shards : ℕ) : (splitBounds start end_ shards).length ≤ shards := by
  unfold splitBounds
  rw [splitRange_length]
  exact Nat.min_le_left _ _

theorem splitWork_length_le (work : WorkSpec) (shards : ℕ) : (splitWork work shards).length ≤ max shards 1 := by
  cases work with
  | primeCount start end_ => simpa [splitWork, splitPrimes] using splitBounds_length_le start end_ (max shards 1)
  | matrixMultiply seedA seedB dim rowStart rowEnd =>
    simpa [splitWork, splitRows] using splitBounds_length_le rowStart rowEnd (max shards 1)
  | collatzPeak start end_ => simpa [splitWork, splitCollatz] using splitBounds_length_le start end_ (max shards 1)

theorem splitWork_ne_nil (work : WorkSpec) (shards : ℕ) : splitWork work shards ≠ [] := by
  have key : ∀ s e, (splitBounds s e (max shards 1)).length ≠ 0 := by
    intro s e
    unfold splitBounds actualShards
    rw [splitRange_length]
    omega
  intro h
  cases work with
  | primeCount start end_ => exact key start end_ (by simpa [splitWork, splitPrimes] using h)
  | matrixMultiply seedA seedB dim rowStart rowEnd => exact key rowStart rowEnd (by simpa [splitWork, splitRows] using h)
  | collatzPeak start end_ => exact key start end_ (by simpa [splitWork, splitCollatz] using h)

theorem sum_costs_bounds (parts : List WorkSpec) :
    (parts.length : ℤ) ≤ (parts.map workCostMcu).sum ∧
      (parts.map workCostMcu).sum ≤ parts.length * 2251799813685248 := by
  induction parts with
  | nil => simp
  | cons w parts ih =>
    have h1 := workCostMcu_pos w
    have h2 := workCostMcu_le w
    simp only [List.map_cons, List.sum_cons, List.length_cons, Nat.cast_add, Nat.cast_one]
    omega

/-- the `i64` sum of a job's shard prices is the sum -/
theorem jobCost_eq_sum {work : WorkSpec} {shards : ℕ} (h : shards ≤ 256) :
    jobCostMcu work shards = ((splitWork work shards).map workCostMcu).sum := by
  have hl := splitWork_length_le work shards
  have hb := sum_costs_bounds (splitWork work shards)
  apply wrap64_of_fits
  unfold FitsI64 i64Min i64Max
  have : ((splitWork work shards).length : ℤ) ≤ 256 := by omega
  omega

theorem jobCost_pos {work : WorkSpec} {shards : ℕ} (h : shards ≤ 256) : 1 ≤ jobCostMcu work shards := by
  rw [jobCost_eq_sum h]
  have hb := sum_costs_bounds (splitWork work shards)
  have hn := List.length_pos_of_ne_nil (splitWork_ne_nil work shards)
  omega

end Hocmesh.Compute
