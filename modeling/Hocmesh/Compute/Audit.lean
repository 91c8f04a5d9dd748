/-
Executing a workload and checking a claimed result (`compute.rs`, `matrix.rs`, `verify.rs`).

A result is checked by a witness: a random bucket audit for prime counts and Collatz peaks, Freivalds' test for matrix
products. The challenge is an `AuditNonce` a validator derives itself, once from the chain position of the entry
(`forEntry`) and once from the signatures that certified it (`forCertifiedEntry`). Loops whose bound is not a list are
given fuel that is never exhausted: `is_prime` by the candidate itself, a Collatz trajectory by its own ceiling.
-/
import Hocmesh.Compute.Work
import Hocmesh.Protocol.Crypto

namespace Hocmesh.Compute

open Hocmesh.Base Hocmesh.Protocol

/-! ## Primes -/

/-- the trial loop `while i <= n / i`, `i += 6` -/
def trialLoop (n : ℕ) : (fuel i : ℕ) → Bool
  | 0, _ => true
  | fuel + 1, i =>
    if i ≤ n / i then
      if n % i = 0 ∨ n % (i + 2) = 0 then false else trialLoop n fuel (i + 6)
    else true

def isPrime (n : ℕ) : Bool :=
  if n < 2 then false
  else if n = 2 ∨ n = 3 then true
  else if n % 2 = 0 ∨ n % 3 = 0 then false
  else trialLoop n n 5

def countPrimes (start end_ : ℕ) : ℕ := ((List.range' start (end_ - start)).filter isPrime).length

/-! ## Collatz trajectories -/

def collatzStepCeiling : ℕ := 100000

def collatzLoop : (fuel value steps : ℕ) → ℕ
  | 0, _, steps => steps
  | fuel + 1, value, steps =>
    if value = 1 then steps
    else collatzLoop fuel (if value % 2 = 0 then value / 2 else (value * 3 + 1) % 2 ^ 128) (steps + 1)

/-- steps to reach 1, counting each halving and each `3n + 1` as one -/
def collatzSteps (n : ℕ) : ℕ := if n = 0 then 0 else collatzLoop collatzStepCeiling n 0

/-- the longest trajectory in `[lo, hi)`, and the smallest seed that reaches it -/
def peakTrajectory (lo hi : ℕ) : ℕ × ℕ :=
  (List.range' lo (hi - lo)).foldl (fun best n =>
    let steps := collatzSteps n
    if steps > best.1 then (steps, n) else best) (0, 0)

/-- the highest bucket peak, and the smallest seed among the buckets that tie -/
def combinePeaks (bucketPeaks bucketSeeds : List ℕ) : ℕ × ℕ :=
  bucketPeaks.zipIdx.foldl (fun best p =>
    let seed := bucketSeeds.getD p.2 0
    if p.1 > best.1 ∨ (p.1 = best.1 ∧ p.1 > 0 ∧ seed < best.2) then (p.1, seed) else best) (0, 0)

/-! ## Matrices over the field of 2^31 - 1 -/

def modulus : ℕ := 2147483647

/-- one round of SplitMix64; `verify.rs` keeps its own copy under the name `mix` -/
def splitmix64 (z : ℕ) : ℕ :=
  let z := wrapU64 (z + 0x9E3779B97F4A7C15)
  let z := wrapU64 ((z ^^^ (z >>> 30)) * 0xBF58476D1CE4E5B9)
  let z := wrapU64 ((z ^^^ (z >>> 27)) * 0x94D049BB133111EB)
  z ^^^ (z >>> 31)

/-- the cell at (`row`, `col`) of the virtual matrix identified by `seed` -/
def element (seed row col : ℕ) : ℕ :=
  splitmix64 (seed ^^^ wrapU64 (row * 0x9E3779B97F4A7C15) ^^^ wrapU64 (col * 0xC2B2AE3D27D4EB4F)) % modulus

def row (seed rowIndex dim : ℕ) : List ℕ := (List.range dim).map fun col => element seed rowIndex col

def mulMod (a b : ℕ) : ℕ := a * b % modulus

/-- dot product of two dense vectors modulo `modulus` -/
def dot (left right : List ℕ) : ℕ :=
  (left.zip right).foldl (fun acc p => (acc + mulMod p.1 p.2) % modulus) 0

def matrixVector (seed dim : ℕ) (vector : List ℕ) : List ℕ :=
  (List.range dim).map fun r =>
    vector.zipIdx.foldl (fun acc p => if p.1 ≠ 0 then (acc + mulMod (element seed r p.2) p.1) % modulus else acc) 0

/-- one row of `A * B`: the accumulator vector of the loop over `k` -/
def multiplyRow (seedA seedB dim i : ℕ) : List ℕ :=
  (row seedA i dim).zipIdx.foldl (fun acc p =>
    if p.1 = 0 then acc
    else (acc.zip (row seedB p.2 dim)).map fun q => (q.1 + mulMod p.1 q.2) % modulus) (List.replicate dim 0)

/-- rows `[rowStart, rowEnd)` of `A * B` -/
def multiplyRows (seedA seedB dim rowStart rowEnd : ℕ) : List ℕ :=
  (List.range' rowStart (rowEnd - rowStart)).flatMap fun i => multiplyRow seedA seedB dim i

def challengeVector (seed dim : ℕ) : List ℕ :=
  (List.range dim).map fun i => splitmix64 (seed ^^^ wrapU64 (i * 0xD6E8FEB86659FD93)) % modulus

/-! ## Challenges -/

def buckets : ℕ := 64

def auditBuckets : ℕ := 3

/-- the first eight bytes of a digest, big-endian -/
def nonceOfDigest (digest : List UInt8) : ℕ := (digest.take 8).foldl (fun acc b => acc * 256 + b.toNat) 0

/-- the challenge fixed by the chain position an entry occupies -/
def forEntry (c : Crypto) (previousHash transactionId : String) : ℕ :=
  nonceOfDigest (c.sha256 (bytesOf "hocmesh-audit-v1" ++ bytesOf previousHash ++ bytesOf "|" ++
    bytesOf transactionId))

/-- the challenge drawn from the quorum's own signatures, in the order of their texts -/
def forCertifiedEntry (c : Crypto) (previousHash transactionId : String) (signatures : List String) : ℕ :=
  nonceOfDigest (c.sha256 (bytesOf "hocmesh-audit-beacon-v1" ++ bytesOf previousHash ++ bytesOf "|" ++
    bytesOf transactionId ++ (signatures.insertionSort (· ≤ ·)).flatMap fun s => bytesOf "|" ++ bytesOf s))

/-- exchange two slots of the pool -/
def swapSlots (pool : List ℕ) (i j : ℕ) : List ℕ := (pool.set i (pool.getD j 0)).set j (pool.getD i 0)

/-- the partial Fisher-Yates loop of `audit_indices` -/
def drawLoop : (todo slot state : ℕ) → List ℕ → List ℕ
  | 0, _, _, pool => pool
  | todo + 1, slot, state, pool =>
    let state := splitmix64 state
    drawLoop todo (slot + 1) state (swapSlots pool slot (slot + state % (pool.length - slot)))

/-- `count` distinct bucket indices below `total`, driven by the nonce -/
def auditIndices (nonce total count : ℕ) : List ℕ :=
  let count := min count total
  ((drawLoop count 0 nonce (List.range total)).take count).insertionSort (· ≤ ·)

/-- the half-open range of integers a bucket covers -/
def bucketBounds (start end_ index n : ℕ) : ℕ × ℕ :=
  let width := end_ - start
  let n := max n 1
  let base := width / n
  let remainder := width % n
  let lead := min index remainder
  let offset := base * index + lead
  let this := base + (if index < remainder then 1 else 0)
  let from_ := satAdd start offset
  (from_, min (satAdd from_ this) end_)

/-! ## Execution -/

def primeCount (start end_ durationMs : ℕ) : WorkResult :=
  let bucketCounts := (List.range buckets).map fun index =>
    let b := bucketBounds start end_ index buckets
    countPrimes b.1 b.2
  .primeCount bucketCounts.sum bucketCounts durationMs

def collatzPeak (start end_ durationMs : ℕ) : WorkResult :=
  let peaks := (List.range buckets).map fun index =>
    let b := bucketBounds start end_ index buckets
    peakTrajectory b.1 b.2
  let best := combinePeaks (peaks.map Prod.fst) (peaks.map Prod.snd)
  .collatzPeak best.1 best.2 (peaks.map Prod.fst) (peaks.map Prod.snd) durationMs

/-- run one declarative workload; the time it took is the machine's to report -/
def executeWork (work : WorkSpec) (durationMs : ℕ) : WorkResult :=
  match work with
  | .primeCount start end_ => primeCount start end_ durationMs
  | .matrixMultiply seedA seedB dim rowStart rowEnd =>
    .matrixMultiply (multiplyRows seedA seedB dim rowStart rowEnd) durationMs
  | .collatzPeak start end_ => collatzPeak start end_ durationMs

/-- whether two results carry the same answer, whatever time they took -/
def resultsAgree : WorkResult → WorkResult → Bool
  | .primeCount a ab _, .primeCount b bb _ => a = b ∧ ab = bb
  | .matrixMultiply a _, .matrixMultiply b _ => a = b
  | .collatzPeak a as ap aseeds _, .collatzPeak b bs bp bseeds _ => a = b ∧ as = bs ∧ ap = bp ∧ aseeds = bseeds
  | _, _ => false

/-! ## Witnesses -/

inductive Tier where
  | witness
  | replication
  | recompute
  | unaudited
deriving DecidableEq

inductive Verdict where
  | accepted (tier : Tier)
  | rejected (reason : String)
  | inconclusive
deriving DecidableEq

def Verdict.isAccepted : Verdict → Bool
  | .accepted _ => true
  | _ => false

/-- a loop of sampled checks: the first index that fails rejects -/
def sampled (indices : List ℕ) (bad : ℕ → Option String) : Verdict :=
  match indices.findSome? bad with
  | some reason => .rejected reason
  | none => .accepted .witness

theorem sampled_accepted (indices : List ℕ) (bad : ℕ → Option String) :
    sampled indices bad = .accepted .witness ↔ ∀ index ∈ indices, bad index = none := by
  unfold sampled
  cases h : indices.findSome? bad with
  | none => exact iff_of_true rfl (List.findSome?_eq_none_iff.1 h)
  | some reason =>
    refine iff_of_false (by simp) fun hall => ?_
    rw [List.findSome?_eq_none_iff.2 hall] at h
    cases h

def primeWitness (start end_ count : ℕ) (bucketCounts : List ℕ) (nonce : ℕ) : Verdict :=
  if bucketCounts.length ≠ buckets then
    .rejected s!"expected {buckets} bucket counts, got {bucketCounts.length}"
  else
    let claimed := bucketCounts.foldl satAdd 0
    if claimed ≠ count then
      .rejected s!"bucket counts sum to {claimed} but the reported total is {count}"
    else
      sampled (auditIndices nonce buckets auditBuckets) fun index =>
        let b := bucketBounds start end_ index buckets
        let actual := countPrimes b.1 b.2
        if actual ≠ bucketCounts.getD index 0 then
          some s!"bucket {index} covering [{b.1}, {b.2}) holds {actual} primes, not {bucketCounts.getD index 0}"
        else none

def collatzWitness (start end_ peakSteps peakSeed : ℕ) (bucketPeaks bucketSeeds : List ℕ) (nonce : ℕ) : Verdict :=
  if bucketPeaks.length ≠ buckets ∨ bucketSeeds.length ≠ buckets then
    .rejected s!"expected {buckets} bucket peaks and seeds, got {bucketPeaks.length} and {bucketSeeds.length}"
  else
    let claimed := combinePeaks bucketPeaks bucketSeeds
    if claimed.1 ≠ peakSteps ∨ claimed.2 ≠ peakSeed then
      .rejected (s!"buckets peak at {claimed.1} steps from {claimed.2}, " ++
        s!"but the shard reports {peakSteps} from {peakSeed}")
    else
      sampled (auditIndices nonce buckets auditBuckets) fun index =>
        let b := bucketBounds start end_ index buckets
        let p := peakTrajectory b.1 b.2
        if p.1 ≠ bucketPeaks.getD index 0 ∨ p.2 ≠ bucketSeeds.getD index 0 then
          some (s!"bucket {index} covering [{b.1}, {b.2}) peaks at {p.1} steps from {p.2}, " ++
            s!"not {bucketPeaks.getD index 0} from {bucketSeeds.getD index 0}")
        else none

/-- Freivalds' check for `C = A x B` restricted to the shard's rows -/
def freivalds (seedA seedB dim rowStart rowEnd : ℕ) (rows : List ℕ) (nonce : ℕ) : Verdict :=
  let span := rowEnd - rowStart
  if rows.length ≠ span * dim then
    .rejected s!"expected {span * dim} result entries, got {rows.length}"
  else if rows.any (fun v => v ≥ modulus) then
    .rejected "result contains a value outside the field"
  else
    let challenge := challengeVector nonce dim
    let projected := matrixVector seedB dim challenge
    sampled (List.range span) fun offset =>
      let expected := dot (row seedA (rowStart + offset) dim) projected
      let claimed := dot ((rows.drop (offset * dim)).take dim) challenge
      if expected ≠ claimed then
        some s!"row {rowStart + offset} fails the product check ({claimed} != {expected})"
      else none

def witnessCheck (work : WorkSpec) (result : WorkResult) (nonce : ℕ) : Verdict :=
  match work, result with
  | .primeCount start end_, .primeCount count bucketCounts _ => primeWitness start end_ count bucketCounts nonce
  | .matrixMultiply seedA seedB dim rowStart rowEnd, .matrixMultiply rows _ =>
    freivalds seedA seedB dim rowStart rowEnd rows nonce
  | .collatzPeak start end_, .collatzPeak peakSteps peakSeed bucketPeaks bucketSeeds _ =>
    collatzWitness start end_ peakSteps peakSeed bucketPeaks bucketSeeds nonce
  | _, _ => .rejected "result does not match the assigned workload"

/-- settle a dispute by recomputing the shard in full -/
def adjudicate (work : WorkSpec) (result : WorkResult) : Verdict :=
  if resultsAgree (executeWork work 0) result then .accepted .recompute
  else .rejected "recomputation disagrees with the submitted result"

/-- the witness check under one nonce, falling back to recomputation where a workload has no witness -/
def checkedUnder (nonce : ℕ) (work : WorkSpec) (result : WorkResult) : Bool :=
  let verdict := witnessCheck work result nonce
  if verdict = .inconclusive then (adjudicate work result).isAccepted else verdict.isAccepted

/-- the propose-time check of a reward: the challenge comes from the chain position -/
def witnessed (c : Crypto) (work : WorkSpec) (result : WorkResult) (previousHash transactionId : String) : Bool :=
  checkedUnder (forEntry c previousHash transactionId) work result

/-- the apply-time check of a reward: the challenge comes from the certificate's signatures -/
def certifiedWitness (c : Crypto) (work : WorkSpec) (result : WorkResult) (previousHash transactionId : String)
    (signatures : List Ledger.ValidatorSignature) : Bool :=
  checkedUnder (forCertifiedEntry c previousHash transactionId (signatures.map (·.signatureB64))) work result

end Hocmesh.Compute
