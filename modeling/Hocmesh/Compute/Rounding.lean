/-
What rounding does to a bill that is split (`inference_cost_mcu`, `inference_batch_cost_mcu`).

A price is the operations of a bill, saturated to 64 bits, divided by `referenceOpsPerMcu` and rounded up to at least one.
`padding` is what the rounding adds. Prices of the parts sum to the price of the whole exactly when nothing saturates
and the parts together are padded by less than one unit (`sum_roundedMcu_iff`); otherwise the parts cost more.
-/
import Hocmesh.Compute.Work

namespace Hocmesh.Compute

open Hocmesh.Base

/-! ## Rounding and padding -/

/-- a price without its `i64` ceiling, which no saturated operation count reaches -/
def roundedMcu (ops : ℕ) : ℕ := max (divCeil (min ops u64Max) referenceOpsPerMcu) 1

/-- operations that rounding adds to a bill: up to the next multiple, and one whole multiple for a bill of nothing -/
def padding (ops : ℕ) : ℕ :=
  if ops = 0 then referenceOpsPerMcu else (referenceOpsPerMcu - ops % referenceOpsPerMcu) % referenceOpsPerMcu

theorem mul_roundedMcu {ops : ℕ} (h : ops ≤ 2 ^ 64) : referenceOpsPerMcu * roundedMcu ops = ops + padding ops := by
  unfold roundedMcu padding divCeil referenceOpsPerMcu u64Max
  split_ifs with h0
  · subst h0
    rfl
  · omega

theorem roundedMcu_saturated {ops : ℕ} (h : 2 ^ 64 < ops) : roundedMcu ops = 2 ^ 51 := by
  unfold roundedMcu divCeil referenceOpsPerMcu u64Max
  omega

theorem one_le_roundedMcu (ops : ℕ) : 1 ≤ roundedMcu ops := Nat.le_max_right _ _

theorem roundedMcu_le (ops : ℕ) : roundedMcu ops ≤ 2 ^ 51 := by
  unfold roundedMcu divCeil referenceOpsPerMcu u64Max
  omega

/-! ## A bill in parts -/

theorem mul_sum_roundedMcu {parts : List ℕ} (h : ∀ x ∈ parts, x ≤ 2 ^ 64) :
    referenceOpsPerMcu * (parts.map roundedMcu).sum = parts.sum + (parts.map padding).sum := by
  induction parts with
  | nil => simp
  | cons x parts ih =>
    have hx := mul_roundedMcu (h x List.mem_cons_self)
    have hrest := ih fun y hy => h y (List.mem_cons_of_mem _ hy)
    simp only [List.map_cons, List.sum_cons, mul_add]
    omega

theorem length_le_sum_roundedMcu (parts : List ℕ) : parts.length ≤ (parts.map roundedMcu).sum := by
  have := List.length_le_sum_of_one_le (parts.map roundedMcu) fun x hx => by
    obtain ⟨y, _, rfl⟩ := List.mem_map.1 hx
    exact one_le_roundedMcu y
  simpa using this

/-- one part that saturates costs as much as anything can, and every other part comes on top -/
theorem sum_roundedMcu_of_saturated {parts : List ℕ} {x : ℕ} (hx : x ∈ parts) (hsat : 2 ^ 64 < x) :
    2 ^ 51 + (parts.length - 1) ≤ (parts.map roundedMcu).sum := by
  obtain ⟨l₁, l₂, rfl⟩ := List.append_of_mem hx
  have h1 := length_le_sum_roundedMcu l₁
  have h2 := length_le_sum_roundedMcu l₂
  have h3 := roundedMcu_saturated hsat
  simp only [List.map_append, List.map_cons, List.sum_append, List.sum_cons, List.length_append, List.length_cons]
  omega

theorem padding_zero_bill (parts : List ℕ) (h : parts.sum = 0) :
    (parts.map padding).sum = parts.length * referenceOpsPerMcu := by
  induction parts with
  | nil => simp
  | cons x parts ih =>
    rw [List.sum_cons] at h
    have hx : x = 0 := by omega
    subst hx
    have := ih (by omega)
    simp only [List.map_cons, List.sum_cons, List.length_cons, add_mul, this, padding]
    simp
    omega

/-- **Splitting never makes a bill cheaper.** -/
theorem roundedMcu_sum_le {parts : List ℕ} (hne : parts ≠ []) :
    roundedMcu parts.sum ≤ (parts.map roundedMcu).sum := by
  have hlen := List.length_pos_of_ne_nil hne
  by_cases hsat : ∃ x ∈ parts, 2 ^ 64 < x
  · obtain ⟨x, hx, hlt⟩ := hsat
    have h1 := sum_roundedMcu_of_saturated hx hlt
    have h2 := roundedMcu_le parts.sum
    omega
  · have hsmall : ∀ x ∈ parts, x ≤ 2 ^ 64 := fun x hx => by
      by_contra hlt
      exact hsat ⟨x, hx, by omega⟩
    have h1 := mul_sum_roundedMcu hsmall
    have h2 := length_le_sum_roundedMcu parts
    generalize (parts.map roundedMcu).sum = total at *
    unfold roundedMcu divCeil referenceOpsPerMcu u64Max at *
    omega

/-- **When the parts cost exactly the whole.** For at least two parts: the whole fits 64 bits and the rounding of the
parts adds up to less than one unit. -/
theorem sum_roundedMcu_iff {parts : List ℕ} (hlen : 2 ≤ parts.length) :
    (parts.map roundedMcu).sum = roundedMcu parts.sum ↔
      parts.sum ≤ 2 ^ 64 ∧ (parts.map padding).sum < referenceOpsPerMcu := by
  by_cases hfit : parts.sum ≤ 2 ^ 64
  · have hsmall : ∀ x ∈ parts, x ≤ 2 ^ 64 := fun x hx => (List.le_sum_of_mem hx).trans hfit
    have h1 := mul_sum_roundedMcu hsmall
    have h2 := mul_roundedMcu hfit
    rw [and_iff_right hfit]
    rcases Nat.eq_zero_or_pos parts.sum with hz | hpos
    · -- a bill of nothing: one unit for the whole, one for each part
      have h3 := padding_zero_bill parts hz
      have h4 : padding parts.sum = referenceOpsPerMcu := if_pos hz
      have h5 : 2 * referenceOpsPerMcu ≤ parts.length * referenceOpsPerMcu := Nat.mul_le_mul_right _ hlen
      unfold referenceOpsPerMcu at *
      omega
    · have h3 : padding parts.sum = (referenceOpsPerMcu - parts.sum % referenceOpsPerMcu) % referenceOpsPerMcu :=
        if_neg (by omega)
      generalize (parts.map roundedMcu).sum = total at *
      generalize (parts.map padding).sum = pad at *
      generalize roundedMcu parts.sum = whole at *
      unfold referenceOpsPerMcu at *
      omega
  · rw [roundedMcu_saturated (by omega)]
    refine ⟨fun heq => ?_, fun h => absurd h.1 hfit⟩
    exfalso
    by_cases hsat : ∃ x ∈ parts, 2 ^ 64 < x
    · obtain ⟨x, hx, hlt⟩ := hsat
      have := sum_roundedMcu_of_saturated hx hlt
      omega
    · have hsmall : ∀ x ∈ parts, x ≤ 2 ^ 64 := fun x hx => by
        by_contra hlt
        exact hsat ⟨x, hx, by omega⟩
      have h1 := mul_sum_roundedMcu hsmall
      unfold referenceOpsPerMcu at h1
      omega

/-! ## Tokens -/

/-- tokens of a list of prompts, without saturation -/
def exactTokens (promptBytes : List ℕ) (maxTokens : ℕ) : ℕ :=
  (promptBytes.map fun bytes => divCeil bytes bytesPerToken + maxTokens).sum

theorem foldl_tokens (promptBytes : List ℕ) (maxTokens acc : ℕ) :
    promptBytes.foldl (fun sum bytes => satAdd (satAdd sum (divCeil bytes bytesPerToken)) maxTokens) (min acc u64Max) =
      min (acc + exactTokens promptBytes maxTokens) u64Max := by
  induction promptBytes generalizing acc with
  | nil => simp [exactTokens]
  | cons bytes rest ih =>
    have hstep : satAdd (satAdd (min acc u64Max) (divCeil bytes bytesPerToken)) maxTokens =
        min (acc + (divCeil bytes bytesPerToken + maxTokens)) u64Max := by
      unfold satAdd
      omega
    rw [List.foldl_cons, hstep, ih]
    simp [exactTokens, add_assoc]

theorem inferenceTokens_eq (promptBytes : List ℕ) (maxTokens : ℕ) :
    inferenceTokens promptBytes maxTokens = min (exactTokens promptBytes maxTokens) u64Max := by
  have := foldl_tokens promptBytes maxTokens 0
  simpa [inferenceTokens] using this

/-- the saturated chain of multiplications is the exact product, saturated once -/
theorem satMul_tokens {tokens p : ℕ} (hp : 1 ≤ p) :
    satMul (satMul (min tokens u64Max) p) 2 = min (2 * p * tokens) u64Max := by
  unfold satMul
  rcases Nat.le_total tokens u64Max with ht | ht
  · rw [Nat.min_eq_left ht, mul_comm tokens p, mul_assoc]
    omega
  · rw [Nat.min_eq_right ht]
    have h1 : u64Max ≤ u64Max * p := Nat.le_mul_of_pos_right _ hp
    have h2 : u64Max ≤ 2 * p * tokens := by
      calc u64Max ≤ tokens := ht
        _ ≤ 2 * p * tokens := Nat.le_mul_of_pos_left _ (by omega)
    omega

/-- the price of a bill of whole prompts -/
theorem inferenceCostMcu_eq {promptBytes : List ℕ} {maxTokens p : ℕ} (hp : 1 ≤ p) :
    inferenceCostMcu promptBytes maxTokens p = roundedMcu (2 * p * exactTokens promptBytes maxTokens) := by
  unfold inferenceCostMcu
  rw [inferenceTokens_eq, satMul_tokens hp]
  generalize 2 * p * exactTokens promptBytes maxTokens = ops
  unfold mcuOfOps roundedMcu divCeil referenceOpsPerMcu u64Max i64Max
  omega

end Hocmesh.Compute
