/-
The wire types of `hocmesh-protocol` that reach the ledger: signed request proofs, the declarative workloads and their
results, and the bill of an inference job.

`u32` and `u64` fields are ℕ and `i64` fields are ℤ; every place where the width can be felt says so at the operation,
not at the field. Transport records (registration, heartbeats, polling, status pages) are left out: no ledger rule
reads them.
-/
import Hocmesh.Base.MachineInt
import Hocmesh.Base.Check

namespace Hocmesh.Protocol

open Hocmesh.Base

/-- replay-resistant request authentication -/
structure AuthProof where
  nodeId : String
  timestamp : ℤ
  nonceB64 : String
  signatureB64 : String
deriving DecidableEq

inductive WorkSpec where
  | primeCount (start end_ : ℕ)
  | matrixMultiply (seedA seedB dim rowStart rowEnd : ℕ)
  | collatzPeak (start end_ : ℕ)
deriving DecidableEq

/-- how much of a result a validator can check from the ledger entry alone -/
inductive AuditClass where
  | selfContained
  | revealRequired
deriving DecidableEq

def WorkSpec.auditClass : WorkSpec → AuditClass
  | .primeCount .. => .selfContained
  | .matrixMultiply .. => .selfContained
  | .collatzPeak .. => .selfContained

def WorkSpec.validate : WorkSpec → Check Unit
  | .primeCount start end_ => do
    bailIf (start ≥ end_) "prime_count requires start < end"
    bailIf (end_ - start > 2000000000) "prime_count range is too large for one submitted job"
  | .matrixMultiply _ _ dim rowStart rowEnd => do
    bailIf (dim = 0 ∨ dim > 512) "matrix_multiply dim must be between 1 and 512"
    bailIf (rowStart ≥ rowEnd) "matrix_multiply requires row_start < row_end"
    bailIf (rowEnd > dim) "matrix_multiply row_end must not exceed dim"
  | .collatzPeak start end_ => do
    bailIf (start ≥ end_) "collatz_peak requires start < end"
    bailIf (start = 0) "collatz_peak has no trajectory from zero"
    bailIf (end_ - start > 2000000000) "collatz_peak range is too large for one submitted job"

inductive WorkResult where
  | primeCount (count : ℕ) (bucketCounts : List ℕ) (durationMs : ℕ)
  | matrixMultiply (rows : List ℕ) (durationMs : ℕ)
  | collatzPeak (peakSteps peakSeed : ℕ) (bucketPeaks bucketSeeds : List ℕ) (durationMs : ℕ)
deriving DecidableEq

/-- what an inference job costs, as the requester declares it -/
structure InferenceBilling where
  manifestDigest : String
  parameterCount : ℕ
  totalSizeBytes : ℕ
  promptsDigest : String
  promptBytes : List ℕ
  maxTokens : ℕ
  maxCostMcu : ℤ
deriving DecidableEq

/-- one contiguous run of prompts, and the node that agreed to run it -/
structure PricedBatch where
  batchStart : ℕ
  batchEnd : ℕ
  nodeId : String
deriving DecidableEq

/-- a model cannot hold more parameters than its bytes can store -/
def parameterCountIsPlausible (parameterCount totalSizeBytes : ℕ) : Prop :=
  parameterCount > 0 ∧ parameterCount ≤ satMul totalSizeBytes 2

instance (p t : ℕ) : Decidable (parameterCountIsPlausible p t) := by
  unfold parameterCountIsPlausible; infer_instance

def defaultLeaseSeconds : ℤ := 900

/-- how long a reserved shard has to settle before its CU may be refunded -/
def settlementWindowSecs : ℤ := defaultLeaseSeconds * 4

end Hocmesh.Protocol
