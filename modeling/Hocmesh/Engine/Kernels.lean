/-
The arithmetic of a forward pass, over `f32` operations that are given.

An `f32` is its bit pattern, because that is what the stages send each other; what the machine does with two of them is
`Arith`, a fixed function of the bits about which nothing is assumed. Everything built on it is the engine's own code:
dot products in a fixed order, the root-mean-square norm, softmax, the rotary embedding. A slice or an index outside its
vector stops the program in the source, and is a failure here.
-/
import Hocmesh.Base.Check

namespace Hocmesh.Engine

open Hocmesh.Base

/-- a single-precision float, as its bit pattern -/
abbrev F32 := UInt32

/-- the `f32` operations of the machine -/
structure Arith where
  zero : F32
  one : F32
  negInfinity : F32
  /-- what `Iterator::sum` starts from, which is negative zero -/
  sumStart : F32
  /-- `n as f32` -/
  ofNat : ℕ → F32
  neg : F32 → F32
  add : F32 → F32 → F32
  sub : F32 → F32 → F32
  mul : F32 → F32 → F32
  div : F32 → F32 → F32
  max : F32 → F32 → F32
  powf : F32 → F32 → F32
  sqrt : F32 → F32
  exp : F32 → F32
  sinCos : F32 → F32 × F32
  gt : F32 → F32 → Bool

/-! ## Slices -/

/-- `&l[start..stop]` -/
def slice {α : Type} (l : List α) (start stop : ℕ) : Check (List α) :=
  if start ≤ stop ∧ stop ≤ l.length then .ok ((l.drop start).take (stop - start))
  else .error "range index out of bounds"

/-- `l[i]` -/
def index {α : Type} (l : List α) (i : ℕ) : Check α := orBail l[i]? "index out of bounds"

/-- write `block` over the elements from `start` on -/
def splice {α : Type} (l : List α) (start : ℕ) (block : List α) : List α :=
  l.take start ++ block ++ l.drop (start + block.length)

/-- `for (slot, value) in out.iter_mut().zip(fresh) { *slot = value }` -/
def overwrite {α : Type} (out fresh : List α) : List α := fresh.take out.length ++ out.drop fresh.length

/-- `for chunk in l.chunks_exact_mut(n)`: what is left over is not touched -/
def mapChunks {α : Type} (n : ℕ) (f : List α → Check (List α)) (l : List α) : Check (List α) := do
  bailIf (n = 0) "chunk size must be non-zero"
  let chunks ← (List.range (l.length / n)).mapM' fun i => f ((l.drop (i * n)).take n)
  pure (chunks.flatten ++ l.drop (l.length / n * n))

/-! ## Vectors -/

section

variable (ar : Arith)

def zeros (n : ℕ) : List F32 := List.replicate n ar.zero

def sum (l : List F32) : F32 := l.foldl ar.add ar.sumStart

def dot (a b : List F32) : F32 := sum ar (List.zipWith ar.mul a b)

/-- `for (slot, delta) in values.iter_mut().zip(deltas) { *slot += delta }` -/
def addInto : List F32 → List F32 → List F32
  | [], _ => []
  | values, [] => values
  | v :: values, d :: deltas => ar.add v d :: addInto values deltas

def rmsNorm (input weight : List F32) (eps : F32) (out : List F32) : List F32 :=
  let meanSquare := ar.div (sum ar (input.map fun v => ar.mul v v)) (ar.ofNat input.length)
  let scale := ar.div ar.one (ar.sqrt (ar.add meanSquare eps))
  overwrite out (List.zipWith (fun v w => ar.mul (ar.mul v scale) w) input weight)

def silu (x : F32) : F32 := ar.div x (ar.add ar.one (ar.exp (ar.neg x)))

def softmax (scores : List F32) : List F32 :=
  let peak := scores.foldl ar.max ar.negInfinity
  let shifted := scores.map fun s => ar.exp (ar.sub s peak)
  let total := shifted.foldl ar.add ar.zero
  shifted.map fun s => ar.div s total

/-! ## Rotary embedding -/

/-- which pairs of elements are rotated together -/
inductive RopeStyle where
  | interleaved
  | halved
deriving DecidableEq

def RopeStyle.pair (style : RopeStyle) (half i : ℕ) : ℕ × ℕ :=
  match style with
  | .interleaved => (2 * i, 2 * i + 1)
  | .halved => (i, i + half)

/-- one pair of one head, turned by the angle of its position -/
def rotate (theta : F32) (rotated : ℕ) (style : RopeStyle) (position : ℕ) (head : List F32) (i : ℕ) :
    Check (List F32) := do
  let frequency := ar.powf theta (ar.div (ar.neg (ar.ofNat (2 * i))) (ar.ofNat rotated))
  let turn := ar.sinCos (ar.mul (ar.ofNat position) frequency)
  let at' := style.pair (rotated / 2) i
  let x ← index head at'.1
  let y ← index head at'.2
  pure ((head.set at'.1 (ar.sub (ar.mul x turn.2) (ar.mul y turn.1))).set at'.2
    (ar.add (ar.mul x turn.1) (ar.mul y turn.2)))

def rope (vector : List F32) (headDim : ℕ) (theta : F32) (rotated : ℕ) (style : RopeStyle) (position : ℕ) :
    Check (List F32) :=
  mapChunks headDim (fun head => (List.range (rotated / 2)).foldlM (rotate ar theta rotated style position) head) vector

end

/-! ## Lengths -/

section

variable {α : Type}

theorem slice_ok_iff (l : List α) (start stop : ℕ) (r : List α) :
    slice l start stop = .ok r ↔ (start ≤ stop ∧ stop ≤ l.length) ∧ (l.drop start).take (stop - start) = r := by
  unfold slice
  split_ifs with h <;> simp [h]

theorem length_of_slice {l r : List α} {start stop : ℕ} (h : slice l start stop = .ok r) :
    r.length = stop - start := by
  obtain ⟨⟨h1, h2⟩, rfl⟩ := (slice_ok_iff l start stop r).1 h
  rw [List.length_take, List.length_drop]
  omega

theorem length_splice (l block : List α) (start : ℕ) (h : start + block.length ≤ l.length) :
    (splice l start block).length = l.length := by
  simp only [splice, List.length_append, List.length_take, List.length_drop]
  omega

@[simp] theorem length_overwrite (out fresh : List α) : (overwrite out fresh).length = out.length := by
  simp only [overwrite, List.length_append, List.length_take, List.length_drop]
  omega

end

end Hocmesh.Engine
