/-
Trial division (`is_prime` of `compute.rs`).

The loop tries `i` and `i + 2` for `i = 5, 11, 17, …` while `i` is at most `n / i`. When it gets to `i`, the least prime
factor of `n` is at least `i` (`trial_spec`), so it ends with the right answer; with every addition checked it ends with
the same one, for any `n` of 64 bits (`isPrimeChecked_eq`).
-/
import Hocmesh.Compute.Audit

namespace Hocmesh.Compute

open Hocmesh.Base

/-! ## The loop with its additions checked -/

/-- `u64` addition that does not wrap -/
def checkedAddU64 (a b : ℕ) : Option ℕ := if a + b ≤ u64Max then some (a + b) else none

/-- the trial loop; no answer when an addition overflows or the fuel runs out -/
def trialLoopChecked (n : ℕ) : (fuel i : ℕ) → Option Bool
  | 0, _ => none
  | fuel + 1, i =>
    if i ≤ n / i then
      if n % i = 0 then some false
      else do
        let j ← checkedAddU64 i 2
        if n % j = 0 then some false
        else do
          let next ← checkedAddU64 i 6
          trialLoopChecked n fuel next
    else some true

def isPrimeChecked (n : ℕ) : Option Bool :=
  if n < 2 then some false
  else if n = 2 ∨ n = 3 then some true
  else if n % 2 = 0 ∨ n % 3 = 0 then some false
  else trialLoopChecked n n 5

/-! ## One turn of the loop -/

section

variable {n i : ℕ}

theorem square_le (h : i ≤ n / i) : i * i ≤ n := (Nat.mul_le_mul_right i h).trans (Nat.div_mul_le_self n i)

/-- past the square root there is no factor left to find -/
theorem prime_of_stop (hn : 2 ≤ n) (hmin : i ≤ n.minFac) (hstop : ¬ i ≤ n / i) : n.Prime := by
  have hi : 0 < i := Nat.pos_of_ne_zero fun hzero => hstop (hzero ▸ Nat.zero_le _)
  have hsquare : n < i * i := (Nat.div_lt_iff_lt_mul hi).1 (by omega)
  by_contra hcomposite
  have hle : n.minFac * n.minFac ≤ n := by
    rw [← sq]
    exact Nat.minFac_sq_le_self (by omega) hcomposite
  exact absurd hle (not_le.2 (hsquare.trans_le (Nat.mul_le_mul hmin hmin)))

/-- a divisor between one and the number -/
theorem not_prime_of_divides {d : ℕ} (hd : n % d = 0) (hone : 1 < d) (hlt : d < n) : ¬ n.Prime := fun hprime => by
  rcases (Nat.dvd_prime hprime).1 (Nat.dvd_of_mod_eq_zero hd) with h | h <;> omega

/-- of the six candidates of a turn only two are prime to six -/
theorem minFac_of_turn (h2 : n % 2 ≠ 0) (h3 : n % 3 ≠ 0) (hi : i % 6 = 5) (hmin : i ≤ n.minFac) (hfirst : n % i ≠ 0)
    (hsecond : n % (i + 2) ≠ 0) : i + 6 ≤ n.minFac := by
  have hdvd : ∀ d, n % d ≠ 0 → ¬ d ∣ n.minFac := fun d hd hdiv =>
    hd (Nat.mod_eq_zero_of_dvd (hdiv.trans (Nat.minFac_dvd n)))
  have hne1 : n.minFac ≠ i := fun heq => hdvd i hfirst (dvd_of_eq heq.symm)
  have hne2 : n.minFac ≠ i + 2 := fun heq => hdvd (i + 2) hsecond (dvd_of_eq heq.symm)
  have hodd : n.minFac % 2 ≠ 0 := fun hmod => hdvd 2 h2 (Nat.dvd_of_mod_eq_zero hmod)
  have hthree : n.minFac % 3 ≠ 0 := fun hmod => hdvd 3 h3 (Nat.dvd_of_mod_eq_zero hmod)
  omega

end

/-! ## The whole loop -/

/-- with enough fuel, and nothing below `i` that divides, both loops answer whether the number is prime -/
theorem trial_spec {n : ℕ} (hn : 2 ≤ n) (hmax : n ≤ u64Max) (h2 : n % 2 ≠ 0) (h3 : n % 3 ≠ 0) (fuel i : ℕ) (hi : i % 6 = 5)
    (hmin : i ≤ n.minFac) (hfuel : n ≤ i + 6 * fuel) :
    trialLoop n (fuel + 1) i = decide n.Prime ∧ trialLoopChecked n (fuel + 1) i = some (decide n.Prime) := by
  induction fuel generalizing i with
  | zero =>
    have hstop : ¬ i ≤ n / i := fun hle => by
      have hsquare := square_le hle
      have hbig : 5 * i ≤ i * i := Nat.mul_le_mul_right i (by omega)
      omega
    have hprime := prime_of_stop hn hmin hstop
    simp [trialLoop, trialLoopChecked, hstop, hprime]
  | succ fuel ih =>
    rw [trialLoop, trialLoopChecked]
    by_cases hgo : i ≤ n / i
    case neg =>
      have hprime := prime_of_stop hn hmin hgo
      simp [hgo, hprime]
    -- the square of `i` has 64 bits, so `i + 6` does too
    have hsquare := square_le hgo
    have hbig : 5 * i ≤ i * i := Nat.mul_le_mul_right i (by omega)
    have hadd : ∀ k, k ≤ 6 → checkedAddU64 i k = some (i + k) := fun k hk => if_pos (by unfold u64Max at *; omega)
    rw [if_pos hgo, if_pos hgo, hadd 2 (by omega), hadd 6 (by omega)]
    simp only [Option.bind_eq_bind, Option.bind_some]
    by_cases hfirst : n % i = 0
    · have hcomposite := not_prime_of_divides hfirst (by omega) (by omega)
      simp [hfirst, hcomposite]
    by_cases hsecond : n % (i + 2) = 0
    · have hcomposite := not_prime_of_divides hsecond (by omega) (by omega)
      simp [hfirst, hsecond, hcomposite]
    rw [if_neg (by simp [hfirst, hsecond]), if_neg hfirst, if_neg hsecond]
    exact ih (i + 6) (by omega) (minFac_of_turn h2 h3 hi hmin hfirst hsecond) (by omega)

/-- both answer for every number of 64 bits -/
theorem isPrime_spec {n : ℕ} (hmax : n ≤ u64Max) :
    isPrime n = decide n.Prime ∧ isPrimeChecked n = some (decide n.Prime) := by
  unfold isPrime isPrimeChecked
  by_cases hsmall : n < 2
  · have hcomposite : ¬ n.Prime := fun hprime => absurd hprime.two_le (by omega)
    simp [hsmall, hcomposite]
  by_cases hbase : n = 2 ∨ n = 3
  · have hprime : n.Prime := by rcases hbase with rfl | rfl <;> norm_num
    simp [hsmall, hbase, hprime]
  by_cases hwheel : n % 2 = 0 ∨ n % 3 = 0
  · have hcomposite : ¬ n.Prime := by
      rcases hwheel with h | h
      · exact not_prime_of_divides h (by omega) (by omega)
      · exact not_prime_of_divides h (by omega) (by omega)
    simp [hsmall, hbase, hwheel, hcomposite]
  rw [if_neg hsmall, if_neg hbase, if_neg hwheel, if_neg hsmall, if_neg hbase, if_neg hwheel]
  push Not at hwheel
  obtain ⟨m, rfl⟩ : ∃ m, n = m + 1 := ⟨n - 1, by omega⟩
  refine trial_spec (by omega) hmax hwheel.1 hwheel.2 m 5 rfl ?_ (by omega)
  -- the least prime factor is neither two, nor three, nor four
  have hdvd := Nat.minFac_dvd (m + 1)
  have hprime := Nat.minFac_prime (show m + 1 ≠ 1 by omega)
  have htwo := hprime.two_le
  by_contra hlt
  interval_cases hq : (m + 1).minFac
  · exact hwheel.1 (Nat.mod_eq_zero_of_dvd hdvd)
  · exact hwheel.2 (Nat.mod_eq_zero_of_dvd hdvd)
  · exact absurd hprime (by norm_num)

/-- the answer does not depend on the width of the words, once the number fits -/
theorem isPrime_iff {n : ℕ} (hmax : n ≤ u64Max) : isPrime n = true ↔ n.Prime := by
  rw [(isPrime_spec hmax).1, decide_eq_true_iff]

end Hocmesh.Compute
