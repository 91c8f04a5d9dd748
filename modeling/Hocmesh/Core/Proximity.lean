/-
Network coordinates (`proximity.rs`).

A node keeps a position in a latency space and moves it with every round trip it measures. The coordinate a peer reports is
a free-form number from an untrusted party, and `isPlausible` is the range it has to be in. Positions are exact reals here;
their wire form is integers.

- `isPlausible_iff`: the check is the range it means, but for axes that have no absolute value among the `i64`.
- `observe_inBounds`, `observeAll_inBounds`: whatever peers report, a position stays in bounds, and so does its wire form.
- `coordinates_bounded` puts these together.
-/
import Hocmesh.Base.MachineInt
import Mathlib.Analysis.Real.Sqrt

namespace Hocmesh.Core

open Hocmesh.Base

/-! ## The wire form -/

/-- number of axes -/
abbrev coordinateDimensions : ℕ := 3

structure NetworkCoordinate where
  vectorMicros : Fin coordinateDimensions → Int64
  heightMicros : Int64
  errorPermille : UInt16
deriving DecidableEq

/-- a minute of round trip -/
def maxCoordinateMicros : Int64 := 60000000

def isPlausible (coord : NetworkCoordinate) : Bool :=
  decide (coord.errorPermille ≤ 1000) && decide (0 ≤ coord.heightMicros) &&
    decide (coord.heightMicros ≤ maxCoordinateMicros) &&
    decide (∀ axis, (coord.vectorMicros axis).abs ≤ maxCoordinateMicros)

/-- the range the check means, over the integers the fields stand for -/
structure InRange (coord : NetworkCoordinate) : Prop where
  error : coord.errorPermille.toNat ≤ 1000
  height : 0 ≤ coord.heightMicros.toInt ∧ coord.heightMicros.toInt ≤ 60000000
  axes : ∀ axis, -60000000 ≤ (coord.vectorMicros axis).toInt ∧ (coord.vectorMicros axis).toInt ≤ 60000000

/-- the absolute value is taken in `i64`: the least value is its own -/
theorem toInt_abs (x : Int64) : x.abs.toInt = if x = Int64.minValue then i64Min else |x.toInt| := by
  have hbits : x.abs.toInt = x.toBitVec.abs.toInt := rfl
  rw [hbits, BitVec.toInt_abs_eq_natAbs]
  by_cases h : x = Int64.minValue
  · subst h
    rfl
  · have hne : x.toBitVec ≠ BitVec.intMin 64 := fun heq => h (Int64.toBitVec_inj.1 heq)
    rw [if_neg h, if_neg hne, Int.natCast_natAbs]
    rfl

theorem abs_le_iff (x : Int64) :
    x.abs ≤ maxCoordinateMicros ↔ x = Int64.minValue ∨ (-60000000 ≤ x.toInt ∧ x.toInt ≤ 60000000) := by
  have hmax : maxCoordinateMicros.toInt = 60000000 := by decide
  rw [Int64.le_iff_toInt_le, toInt_abs, hmax]
  split_ifs with h
  · simp [h, i64Min]
  · simp [h, abs_le]

/-- every field but an axis that is the least `i64` is in range -/
structure ElseInRange (coord : NetworkCoordinate) : Prop where
  error : coord.errorPermille.toNat ≤ 1000
  height : 0 ≤ coord.heightMicros.toInt ∧ coord.heightMicros.toInt ≤ 60000000
  axes : ∀ axis, coord.vectorMicros axis = Int64.minValue ∨
    (-60000000 ≤ (coord.vectorMicros axis).toInt ∧ (coord.vectorMicros axis).toInt ≤ 60000000)

theorem isPlausible_iff (coord : NetworkCoordinate) : isPlausible coord = true ↔ ElseInRange coord := by
  have hmax : maxCoordinateMicros.toInt = 60000000 := by decide
  have hzero : (0 : Int64).toInt = 0 := by decide
  unfold isPlausible
  simp only [Bool.and_eq_true, decide_eq_true_eq, abs_le_iff]
  rw [Int64.le_iff_toInt_le, Int64.le_iff_toInt_le, hmax, hzero, UInt16.le_iff_toNat_le]
  constructor
  · rintro ⟨⟨⟨h1, h2⟩, h3⟩, h4⟩
    exact ⟨h1, ⟨h2, h3⟩, h4⟩
  · rintro ⟨h1, ⟨h2, h3⟩, h4⟩
    exact ⟨⟨⟨h1, h2⟩, h3⟩, h4⟩

theorem InRange.plausible {coord : NetworkCoordinate} (h : InRange coord) : isPlausible coord = true :=
  (isPlausible_iff coord).2 ⟨h.error, h.height, fun axis => .inr (h.axes axis)⟩

/-- a plausible coordinate is in range but for the least `i64` -/
theorem inRange_of_plausible {coord : NetworkCoordinate} (h : isPlausible coord = true)
    (haxes : ∀ axis, coord.vectorMicros axis ≠ Int64.minValue) : InRange coord := by
  obtain ⟨herror, hheight, hrest⟩ := (isPlausible_iff coord).1 h
  exact ⟨herror, hheight, fun axis => (hrest axis).resolve_left (haxes axis)⟩

theorem not_inRange_minValue {coord : NetworkCoordinate} {axis : Fin coordinateDimensions}
    (h : coord.vectorMicros axis = Int64.minValue) : ¬ InRange coord := by
  intro hrange
  have hmin : Int64.minValue.toInt = i64Min := by decide
  have hlow := (hrange.axes axis).1
  rw [h, hmin, i64Min] at hlow
  omega

/-! ## The predicted round trip -/

/-- the difference of two axes, in `i64` -/
def axisDelta (a b : NetworkCoordinate) (axis : Fin coordinateDimensions) : ℤ :=
  (a.vectorMicros axis - b.vectorMicros axis).toInt

/-- the distance before it is rounded down: heights add, for each end crosses its own access link -/
noncomputable def distanceMicros (a b : NetworkCoordinate) : ℝ :=
  √(∑ axis, (axisDelta a b axis : ℝ) * axisDelta a b axis) + max a.heightMicros.toInt 0 + max b.heightMicros.toInt 0

/-- `predicted_rtt_micros`, whose cast to `u64` rounds down and saturates -/
noncomputable def predictedRttMicros (a b : NetworkCoordinate) : ℕ := min ⌊max (distanceMicros a b) 0⌋₊ u64Max

/-- the same in integers -/
theorem predictedRttMicros_eq (a b : NetworkCoordinate) :
    predictedRttMicros a b = min (Nat.sqrt (∑ axis, (axisDelta a b axis).natAbs * (axisDelta a b axis).natAbs) +
      a.heightMicros.toInt.toNat + b.heightMicros.toInt.toNat) u64Max := by
  have hsum : (∑ axis, (axisDelta a b axis : ℝ) * axisDelta a b axis) =
      ((∑ axis, (axisDelta a b axis).natAbs * (axisDelta a b axis).natAbs : ℕ) : ℝ) := by
    push_cast
    refine Finset.sum_congr rfl fun axis _ => ?_
    rw [Nat.cast_natAbs, Int.cast_abs, abs_mul_abs_self]
  have hheight : ∀ h : ℤ, ((max h 0 : ℤ) : ℝ) = (h.toNat : ℝ) := fun h => by
    rw [← Int.ofNat_toNat, Int.cast_natCast]
  have hnonneg : 0 ≤ distanceMicros a b := by
    unfold distanceMicros
    rw [hheight, hheight]
    positivity
  rw [predictedRttMicros, max_eq_left hnonneg, distanceMicros, hsum, hheight, hheight, Nat.floor_add_natCast (by positivity),
    Nat.floor_add_natCast (by positivity), Real.nat_floor_real_sqrt_eq_nat_sqrt]

/-- a difference of two axes is exact where it fits -/
theorem axisDelta_eq {a b : NetworkCoordinate} {axis : Fin coordinateDimensions}
    (h : FitsI64 ((a.vectorMicros axis).toInt - (b.vectorMicros axis).toInt)) :
    axisDelta a b axis = (a.vectorMicros axis).toInt - (b.vectorMicros axis).toInt := by
  unfold axisDelta
  rw [Int64.toInt_sub]
  exact wrap64_of_fits h

/-- where the difference of two axes leaves `i64`: one of them is the least value, and the other on the far side -/
def Overflows (a b : NetworkCoordinate) : Prop :=
  ∃ axis, (a.vectorMicros axis = Int64.minValue ∧ 0 < (b.vectorMicros axis).toInt) ∨
    (b.vectorMicros axis = Int64.minValue ∧ 0 ≤ (a.vectorMicros axis).toInt)

/-- no difference of two plausible coordinates overflows, but for those -/
theorem fits_iff_not_overflows {a b : NetworkCoordinate} (ha : isPlausible a = true) (hb : isPlausible b = true) :
    (∀ axis, FitsI64 ((a.vectorMicros axis).toInt - (b.vectorMicros axis).toInt)) ↔ ¬ Overflows a b := by
  have hmin : Int64.minValue.toInt = i64Min := by decide
  have haxes := ((isPlausible_iff a).1 ha).axes
  have hbxes := ((isPlausible_iff b).1 hb).axes
  unfold Overflows
  rw [not_exists]
  refine forall_congr' fun axis => ?_
  have hlow := (a.vectorMicros axis).minValue_le_toInt
  have hlow' := (b.vectorMicros axis).minValue_le_toInt
  rw [not_or, not_and, not_and]
  unfold FitsI64
  rw [hmin] at hlow hlow'
  unfold i64Min i64Max at *
  constructor
  · rintro ⟨h1, h2⟩
    constructor
    · intro heq hpos
      rw [heq, hmin] at h1
      omega
    · intro heq hpos
      rw [heq, hmin] at h2
      omega
  · rintro ⟨h1, h2⟩
    rcases haxes axis with hmin' | hin
    · have hb0 := h1 hmin'
      rw [hmin', hmin]
      omega
    · rcases hbxes axis with hmin' | hin'
      · have ha0 := h2 hmin'
        rw [hmin', hmin]
        omega
      · omega

/-! ## A position of one's own -/

/-- `f64::clamp` -/
noncomputable def clamp (lo hi x : ℝ) : ℝ := max lo (min x hi)

theorem clamp_mem {lo hi : ℝ} (h : lo ≤ hi) (x : ℝ) : lo ≤ clamp lo hi x ∧ clamp lo hi x ≤ hi :=
  ⟨le_max_left _ _, max_le h (min_le_right _ _)⟩

theorem clamp_of_mem {lo hi x : ℝ} (h : lo ≤ x ∧ x ≤ hi) : clamp lo hi x = x := by
  rw [clamp, min_eq_left h.2, max_eq_right h.1]

/-- `f64::round`: halves go away from zero -/
noncomputable def roundHalfAway (x : ℝ) : ℤ := if 0 ≤ x then ⌊x + 1 / 2⌋ else -⌊-x + 1 / 2⌋

theorem roundHalfAway_mem {lo hi : ℤ} (hlo : lo ≤ 0) (hhi : 0 ≤ hi) {x : ℝ} (h : lo ≤ x ∧ x ≤ hi) :
    lo ≤ roundHalfAway x ∧ roundHalfAway x ≤ hi := by
  have hbound : ∀ (n : ℤ) (y : ℝ), y ≤ n → ⌊y + 1 / 2⌋ ≤ n := fun n y hy => by
    rw [Int.floor_le_iff]
    linarith
  unfold roundHalfAway
  split_ifs with hx
  · have hnonneg : 0 ≤ ⌊x + 1 / 2⌋ := Int.floor_nonneg.2 (by linarith)
    exact ⟨by omega, hbound hi x h.2⟩
  · have hnonneg : 0 ≤ ⌊-x + 1 / 2⌋ := Int.floor_nonneg.2 (by linarith)
    have hneg := hbound (-lo) (-x) (by push_cast; linarith [h.1])
    exact ⟨by omega, by omega⟩

noncomputable section

/-- fraction of the error estimate corrected per observation -/
def errorSensitivity : ℝ := 0.25

/-- fraction of the positional error corrected per observation -/
def positionSensitivity : ℝ := 0.25

def initialError : ℝ := 1

def minError : ℝ := 0.05

/-- no observation moves a position further than this -/
def maxStepMicros : ℝ := 5000000

/-- below this the direction is meaningless -/
def zeroThreshold : ℝ := 1e-6

structure Vivaldi where
  vector : Fin coordinateDimensions → ℝ
  height : ℝ
  error : ℝ
  observations : ℕ

namespace Vivaldi

/-- `Vivaldi::default` -/
def fresh : Vivaldi := ⟨fun _ => 0, 0, initialError, 0⟩

def fnvOffset : UInt64 := 0xcbf29ce484222325

def fnvPrime : UInt64 := 0x00000100000001b3

/-- the hash after the axes up to this one -/
def seedHash (seed : List UInt8) : ℕ → UInt64
  | 0 => (seed ++ [0]).foldl (fun hash (byte : UInt8) => (hash ^^^ byte.toUInt64) * fnvPrime) fnvOffset
  | axis + 1 => (seed ++ [UInt8.ofNat (axis + 1)]).foldl (fun hash (byte : UInt8) => (hash ^^^ byte.toUInt64) * fnvPrime)
      (seedHash seed axis)

/-- a fresh position with a jitter of a millisecond either way -/
def seeded (seed : List UInt8) : Vivaldi where
  vector axis := ((seedHash seed axis).toNat % 2001 : ℕ) - 1000
  height := 0
  error := initialError
  observations := 0

open Classical in
/-- what an earlier run left, unless it is no position -/
def fromState (state : Vivaldi) : Option Vivaldi :=
  if (∀ axis, |state.vector axis| ≤ 60000000) ∧ (0 ≤ state.height ∧ state.height ≤ 60000000) ∧
    (minError ≤ state.error ∧ state.error ≤ initialError) then some state else none

/-- `clamp_axis` -/
def clampAxis (value : ℝ) : Int64 := Int64.ofInt (max (-60000000) (min (roundHalfAway value) 60000000))

variable (v : Vivaldi)

def provisionalCoordinate : NetworkCoordinate where
  vectorMicros axis := clampAxis (v.vector axis)
  heightMicros := clampAxis (max v.height 0)
  errorPermille := UInt16.ofNat (roundHalfAway (clamp 0 1 v.error * 1000)).toNat

/-- what is advertised: nothing until there was an observation -/
def coordinate : Option NetworkCoordinate := if v.observations = 0 then none else some v.provisionalCoordinate

/-- the round trip expected to a peer -/
def predictedTo (remote : NetworkCoordinate) : ℝ :=
  √(∑ axis, (v.vector axis - (remote.vectorMicros axis).toInt) * (v.vector axis - (remote.vectorMicros axis).toInt)) +
    max v.height 0 + max remote.heightMicros.toInt 0

def applyForce (remote : NetworkCoordinate) (force : ℝ) : Vivaldi :=
  let slot := fun axis => v.vector axis - ((remote.vectorMicros axis).toInt : ℝ)
  let magnitude := √(∑ axis, slot axis * slot axis)
  let unit : Fin coordinateDimensions → ℝ := fun axis =>
    if zeroThreshold < magnitude then slot axis / magnitude
    -- positions that coincide are pushed along one axis, in turn
    else if axis.val = v.observations % coordinateDimensions then 1 else 0
  { v with
    vector := fun axis => clamp (-60000000) 60000000 (v.vector axis + unit axis * force)
    height :=
      if zeroThreshold < magnitude then
        clamp 0 60000000 ((v.height + max remote.heightMicros.toInt 0) * force / magnitude + v.height)
      else v.height }

/-- whether the observation was taken, and the position after it -/
def observe (remote : NetworkCoordinate) (rttMicros : ℕ) : Bool × Vivaldi :=
  if rttMicros = 0 ∨ isPlausible remote = false then (false, v)
  else
    let measured : ℝ := rttMicros
    let remoteError := clamp minError 1 ((remote.errorPermille.toNat : ℝ) / 1000)
    let weight := v.error / (v.error + remoteError)
    let predicted := v.predictedTo remote
    let relativeError := |predicted - measured| / measured
    let alpha := errorSensitivity * weight
    let error := clamp minError initialError (relativeError * alpha + v.error * (1 - alpha))
    let force := clamp (-maxStepMicros) maxStepMicros (positionSensitivity * weight * (measured - predicted))
    let moved := ({ v with error := error } : Vivaldi).applyForce remote force
    (true, { moved with observations := satAdd moved.observations 1 })

/-- a run of observations, refused or taken -/
def observeAll : Vivaldi → List (NetworkCoordinate × ℕ) → Vivaldi
  | v, [] => v
  | v, seen :: rest => observeAll (v.observe seen.1 seen.2).2 rest

/-- a node's position when it starts -/
inductive Start : Vivaldi → Prop where
  | fresh : Start fresh
  | seeded (seed : List UInt8) : Start (seeded seed)
  | stored (state : Vivaldi) (w : Vivaldi) (h : fromState state = some w) : Start w

/-! ## Bounds -/

structure InBounds : Prop where
  vector : ∀ axis, -60000000 ≤ v.vector axis ∧ v.vector axis ≤ 60000000
  height : 0 ≤ v.height ∧ v.height ≤ 60000000
  error : minError ≤ v.error ∧ v.error ≤ initialError

variable {v}

theorem Start.inBounds (h : Start v) : v.InBounds := by
  have hinitial : minError ≤ initialError ∧ initialError ≤ initialError := by
    unfold minError initialError
    norm_num
  cases h with
  | fresh => exact ⟨fun _ => by norm_num [Vivaldi.fresh], by norm_num [Vivaldi.fresh], hinitial⟩
  | seeded seed =>
    refine ⟨fun axis => ?_, by norm_num [Vivaldi.seeded], hinitial⟩
    have hlt : (seedHash seed axis).toNat % 2001 < 2001 := Nat.mod_lt _ (by norm_num)
    have hcast : (((seedHash seed axis).toNat % 2001 : ℕ) : ℝ) ≤ 2000 := by exact_mod_cast Nat.lt_succ_iff.1 hlt
    have hnonneg : (0 : ℝ) ≤ ((seedHash seed axis).toNat % 2001 : ℕ) := Nat.cast_nonneg _
    unfold Vivaldi.seeded
    dsimp only
    constructor <;> linarith
  | stored state w h =>
    unfold fromState at h
    split_ifs at h with hok
    obtain rfl := Option.some.inj h
    exact ⟨fun axis => abs_le.1 (hok.1 axis), hok.2.1, hok.2.2⟩

theorem applyForce_inBounds (h : v.InBounds) (remote : NetworkCoordinate) (force : ℝ) :
    (v.applyForce remote force).InBounds := by
  refine ⟨fun axis => clamp_mem (by norm_num) _, ?_, h.error⟩
  unfold applyForce
  dsimp only
  split_ifs
  · exact clamp_mem (by norm_num) _
  · exact h.height

/-- **One observation keeps a position in bounds**, whatever the peer reports. -/
theorem observe_inBounds (h : v.InBounds) (remote : NetworkCoordinate) (rttMicros : ℕ) :
    (v.observe remote rttMicros).2.InBounds := by
  unfold observe
  split_ifs
  · exact h
  · have hinitial : minError ≤ initialError := by
      unfold minError initialError
      norm_num
    obtain ⟨hvector, hheight, herror⟩ := applyForce_inBounds
      (show ({ v with error := clamp minError initialError _ } : Vivaldi).InBounds from
        ⟨h.vector, h.height, clamp_mem hinitial _⟩) remote _
    exact ⟨hvector, hheight, herror⟩

theorem observeAll_inBounds (h : v.InBounds) (seen : List (NetworkCoordinate × ℕ)) : (v.observeAll seen).InBounds := by
  induction seen generalizing v with
  | nil => exact h
  | cons first rest ih => exact ih (observe_inBounds h first.1 first.2)

/-- the wire form of a position in bounds is the position rounded: the clamps change nothing -/
theorem toInt_clampAxis {x : ℝ} (h : -60000000 ≤ x ∧ x ≤ 60000000) :
    (clampAxis x).toInt = roundHalfAway x ∧ -60000000 ≤ roundHalfAway x ∧ roundHalfAway x ≤ 60000000 := by
  obtain ⟨hlo, hhi⟩ : (-60000000 : ℤ) ≤ roundHalfAway x ∧ roundHalfAway x ≤ 60000000 :=
    roundHalfAway_mem (by norm_num) (by norm_num) (by push_cast; exact h)
  refine ⟨?_, hlo, hhi⟩
  unfold clampAxis
  rw [min_eq_left hhi, max_eq_right hlo]
  exact Int64.toInt_ofInt_of_le (by omega) (by omega)

/-- the wire form of a position in bounds is in range -/
theorem provisional_inRange (h : v.InBounds) : InRange v.provisionalCoordinate := by
  have herror := clamp_mem (zero_le_one' ℝ) v.error
  refine ⟨?_, ?_, fun axis => ?_⟩
  · obtain ⟨hlo, hhi⟩ : 0 ≤ roundHalfAway (clamp 0 1 v.error * 1000) ∧ roundHalfAway (clamp 0 1 v.error * 1000) ≤ 1000 :=
      roundHalfAway_mem le_rfl (by norm_num) ⟨by push_cast; linarith, by push_cast; linarith⟩
    unfold provisionalCoordinate
    rw [UInt16.toNat_ofNat']
    omega
  · have hheight : (0 : ℝ) ≤ max v.height 0 ∧ max v.height 0 ≤ 60000000 :=
      ⟨le_max_right _ _, max_le h.height.2 (by norm_num)⟩
    obtain ⟨heq, -, hhi⟩ := toInt_clampAxis ⟨by linarith [hheight.1], hheight.2⟩
    have hnonneg : 0 ≤ roundHalfAway (max v.height 0) := by
      unfold roundHalfAway
      rw [if_pos hheight.1]
      exact Int.floor_nonneg.2 (by linarith [hheight.1])
    exact ⟨heq ▸ hnonneg, heq ▸ hhi⟩
  · obtain ⟨heq, hlo, hhi⟩ := toInt_clampAxis (h.vector axis)
    exact ⟨heq ▸ hlo, heq ▸ hhi⟩

end Vivaldi

end

/-! ## Untrusted coordinates -/

/-- **Untrusted coordinates are bounded, but for the least `i64`.** The check accepts exactly what is in range unless an
axis is the least `i64` and everything else is in range. No difference of two plausible coordinates overflows unless one
axis is that value and the other on its far side. And whatever is observed, a node's position stays in bounds and what it
advertises is plausible. -/
theorem coordinates_bounded (coord : NetworkCoordinate) :
    ((isPlausible coord = true ↔ InRange coord) ↔
      ¬ ((∃ axis, coord.vectorMicros axis = Int64.minValue) ∧ ElseInRange coord)) ∧
    (∀ other, isPlausible coord = true → isPlausible other = true →
      ((∀ axis, FitsI64 ((coord.vectorMicros axis).toInt - (other.vectorMicros axis).toInt)) ↔ ¬ Overflows coord other)) ∧
    ∀ v seen, Vivaldi.Start v → (v.observeAll seen).InBounds ∧ InRange (v.observeAll seen).provisionalCoordinate ∧
      ∀ held ∈ (v.observeAll seen).coordinate, isPlausible held = true := by
  refine ⟨?_, fun other ha hb => fits_iff_not_overflows ha hb, fun v seen hstart => ?_⟩
  · constructor
    · rintro hiff ⟨⟨axis, haxis⟩, helse⟩
      exact not_inRange_minValue haxis (hiff.1 ((isPlausible_iff coord).2 helse))
    · intro hnot
      refine ⟨fun hplausible => inRange_of_plausible hplausible fun axis haxis => hnot ?_, InRange.plausible⟩
      exact ⟨⟨axis, haxis⟩, (isPlausible_iff coord).1 hplausible⟩
  · have hbounds := Vivaldi.observeAll_inBounds hstart.inBounds seen
    have hrange := Vivaldi.provisional_inRange hbounds
    refine ⟨hbounds, hrange, fun coord hcoord => ?_⟩
    unfold Vivaldi.coordinate at hcoord
    split_ifs at hcoord
    · cases hcoord
    · obtain rfl := Option.some.inj hcoord
      exact hrange.plausible

/-- a coordinate with one axis at the least `i64` -/
def farCoordinate : NetworkCoordinate := ⟨fun axis => if axis.val = 0 then Int64.minValue else 0, 0, 1000⟩

/-- It is plausible and out of range, and its distance to the origin overflows. -/
theorem far_plausible : isPlausible farCoordinate = true ∧ ¬ InRange farCoordinate ∧
    isPlausible ⟨fun _ => 0, 0, 1000⟩ = true ∧ ¬ FitsI64 (0 - (farCoordinate.vectorMicros 0).toInt) :=
  ⟨by decide, @not_inRange_minValue farCoordinate 0 rfl, by decide, by decide⟩

end Hocmesh.Core
