/-
How deep a header makes its reader go.

No accessor looks outside the bytes it is given, and each comes to an end: a loop over the elements of an array makes no
more rounds than there are bytes, whatever its count says (`rounds_le_bytes`), and `bytes.length + 1` frames are enough
for `skip_value` (`skipValue_ample`). No constant number of frames is: an array of arrays costs twelve bytes and one frame a level
(`no_depth_bound`). How many frames an accessor uses is how deep the arrays are nested that it steps over
(`depth_within_iff`).
-/
import Hocmesh.Model.RoundTrip

namespace Hocmesh.Model

open Hocmesh.Base Walk

/-! ## Inside the bytes -/

theorem inside_string : Inside Reader.string := by
  refine (Inside.word 8).bind fun len => ?_
  split_ifs
  · exact Inside.runOut
  · exact Inside.take len

theorem inside_skip (count : ℕ) : Inside (Reader.skip count) := (Inside.take count).bind fun _ => Inside.pure ()

theorem inside_skipValue (stack : ℕ) (vt : ValueType) : Inside (skipValue stack vt) := by
  induction stack generalizing vt with
  | zero => exact Inside.overrun
  | succ stack ih =>
    unfold skipValue
    split
    · exact inside_string.bind fun _ => Inside.pure ()
    · refine (Inside.word 4).bind fun code => ?_
      split
      · exact Inside.runOut
      · refine (Inside.word 8).bind fun count => ?_
        split
        · exact inside_skip _
        · exact ((ih _).times count).bind fun _ => Inside.pure ()
    · exact inside_skip _

theorem inside_preamble : Inside preamble :=
  ((Inside.take 4).orRefuse _).bind fun _ => (Inside.refuseIf _ _).bind fun _ =>
    ((Inside.word 4).orRefuse _).bind fun _ => Inside.refuseIf _ _

theorem inside_pairCount : Inside pairCount :=
  (Inside.word 8).bind fun _ => (Inside.refuseIf _ _).bind fun _ => Inside.pure _

theorem inside_pairHead : Inside pairHead :=
  inside_string.bind fun _ => (Inside.word 4).bind fun _ => (Inside.ofCheck _).bind fun _ => Inside.pure _

theorem inside_stringValue (key : String) (vt : ValueType) : Inside (stringValue key vt) := by
  unfold stringValue
  split_ifs
  · exact inside_string.bind fun _ => Inside.pure _
  · exact Inside.refuse _

theorem inside_scalarValue (fc : FloatCast) (key : String) (wanted : Scalar → Option Scalar) (vt : ValueType) :
    Inside (scalarValue fc key wanted vt) := by
  have hread : Inside (readScalar fc vt) := by
    unfold readScalar
    split
    · exact Inside.pure _
    · exact (Inside.word _).bind fun _ => Inside.pure _
  rw [scalarValue_eq]
  refine (hread.orRefuse _).bind fun scalar => ?_
  unfold judge
  split
  · exact Inside.refuse _
  · split
    · exact Inside.pure _
    · exact Inside.refuse _

section

variable {α : Type} {skip : ValueType → Walk Unit} (hskip : ∀ vt, Inside (skip vt))
include hskip

theorem inside_findPair (key : String) {read : ValueType → Walk α} (hread : ∀ vt, Inside (read vt)) (pairs : ℕ) :
    Inside (findPair skip key read pairs) := by
  induction pairs with
  | zero => exact Inside.pure none
  | succ pairs ih =>
    refine inside_pairHead.bind fun head => ?_
    obtain ⟨found, vt⟩ := head
    dsimp only
    split_ifs
    · exact (hread vt).bind fun _ => Inside.pure _
    · exact (hskip vt).bind fun _ => ih

theorem inside_findKey (key : String) {read : ValueType → Walk α} (hread : ∀ vt, Inside (read vt)) :
    Inside (findKey skip key read) :=
  inside_preamble.bind fun _ => (Inside.word 8).bind fun _ => inside_pairCount.bind fun pairs =>
    inside_findPair hskip key hread pairs

theorem inside_walkPairs (pairs alignment : ℕ) : Inside (walkPairs skip pairs alignment) := by
  induction pairs generalizing alignment with
  | zero => exact Inside.pure alignment
  | succ pairs ih =>
    refine inside_pairHead.bind fun head => ?_
    obtain ⟨key, vt⟩ := head
    dsimp only
    split_ifs
    · exact (Inside.word 4).bind fun declared => (Inside.refuseIf _ _).bind fun _ => ih declared
    · exact (hskip vt).bind fun _ => ih alignment

theorem inside_directory : Inside (tensorDirectory skip) := by
  have htensor : Inside readTensor :=
    inside_string.bind fun _ => (Inside.word 4).bind fun n => (Inside.refuseIf _ _).bind fun _ =>
      ((Inside.word 8).times n).bind fun _ => (Inside.word 4).bind fun _ => (Inside.word 8).bind fun _ => Inside.pure _
  refine inside_preamble.bind fun _ => (Inside.word 8).bind fun _ => (Inside.refuseIf _ _).bind fun _ =>
    inside_pairCount.bind fun pairs => (inside_walkPairs hskip pairs _).bind fun _ => (htensor.times _).bind fun _ =>
      Inside.position.bind fun _ => ?_
  split
  · exact Inside.refuse _
  · exact Inside.pure _

/-- **No accessor looks outside the bytes.** -/
theorem Accessor.inside (fc : FloatCast) (a : Accessor) : Inside (a.walk fc skip) := by
  cases a with
  | string key => exact (inside_findKey hskip key (inside_stringValue key)).bind fun _ => Inside.pure _
  | u64 key =>
    exact ((inside_findKey hskip key (inside_scalarValue fc key asCount)).bind fun _ => Inside.pure _).bind fun _ =>
      Inside.pure _
  | f32 key =>
    exact ((inside_findKey hskip key (inside_scalarValue fc key (asReal fc))).bind fun _ => Inside.pure _).bind fun _ =>
      Inside.pure _
  | directory => exact (inside_directory hskip).bind fun _ => Inside.pure _

end

/-! ## Frames -/

theorem shallow_string : Shallow Reader.string := by
  refine (Shallow.word 8).bind fun len => ?_
  split_ifs
  · exact Shallow.runOut
  · exact Shallow.take len

theorem shallow_skip (count : ℕ) : Shallow (Reader.skip count) := (Shallow.take count).bind fun _ => Shallow.pure ()

/-- the element type and the count of an array -/
def arrayHead : Walk (ValueType × ℕ) := do
  let code ← Reader.u32
  match ValueType.fromCode code with
  | .error _ => runOut
  | .ok element => do
    let count ← Reader.u64
    pure (element, count)

/-- the elements of an array -/
def arrayBody (stack : ℕ) (head : ValueType × ℕ) : Walk Unit :=
  match head.1.fixedWidth with
  | some width => Reader.skip (saturatingMul head.2 width)
  | none => do
    let _ ← times head.2 (skipValue stack head.1)
    pure ()

theorem skipValue_array (stack : ℕ) : skipValue (stack + 1) .array = arrayHead >>= arrayBody stack := by
  unfold arrayHead
  rw [Walk.bind_assoc, skipValue]
  congr 1
  funext code
  cases ValueType.fromCode code with
  | error e => rfl
  | ok element =>
    dsimp only
    rw [Walk.bind_assoc]
    rfl

/-- a head is twelve bytes -/
theorem arrayHead_done {bytes : List UInt8} {i j : ℕ} {head : ValueType × ℕ} (h : arrayHead.go bytes i = .done (head, j)) :
    j = i + 12 ∧ i + 12 ≤ bytes.length := by
  unfold arrayHead at h
  obtain ⟨code, m, hcode, h⟩ := bind_done.1 h
  rw [Reader.u32, word_apply] at hcode
  split_ifs at hcode with h4
  cases hcode
  split at h
  · cases h
  · obtain ⟨count, m, hcount, h⟩ := bind_done.1 h
    rw [Reader.u64, word_apply] at hcount
    split_ifs at hcount with h8
    cases hcount
    cases h
    omega

theorem shallow_arrayHead : Shallow arrayHead := by
  refine (Shallow.word 4).bind fun code => ?_
  split
  · exact Shallow.runOut
  · exact (Shallow.word 8).bind fun _ => Shallow.pure _

/-- a value that is no array is stepped over in one frame -/
theorem skipValue_leaf {vt : ValueType} (h : vt ≠ .array) (stack : ℕ) : Shallow (skipValue (stack + 1) vt) := by
  unfold skipValue
  split
  · exact shallow_string.bind fun _ => Shallow.pure ()
  · exact absurd rfl h
  · exact shallow_skip _

/-- more frames than bytes are left are enough -/
theorem skipValue_enough {bytes : List UInt8} (stack : ℕ) {vt : ValueType} {i : ℕ} (hi : i ≤ bytes.length)
    (h : bytes.length < i + stack) : (skipValue stack vt).go bytes i ≠ .overflow := by
  induction stack generalizing vt i with
  | zero => omega
  | succ stack ih =>
    by_cases hvt : vt = .array
    · subst hvt
      rw [skipValue_array]
      intro hover
      rcases bind_overflow.1 hover with hover | ⟨⟨element, count⟩, j, hj, hover⟩
      · exact shallow_arrayHead bytes i hover
      · obtain ⟨rfl, hlen⟩ := arrayHead_done hj
        unfold arrayBody at hover
        split at hover
        · exact shallow_skip _ bytes _ hover
        · rcases bind_overflow.1 hover with hover | ⟨_, _, -, hover⟩
          · -- the elements start behind the head, which has taken twelve bytes and one frame
            obtain ⟨k, -, l, m, hm, hover⟩ := times_overflow.1 hover
            have hmi := ((inside_skipValue stack element).times k bytes (i + 12) hlen).2 l m hm
            exact ih hmi.2 (by omega) hover
          · cases hover
    · exact skipValue_leaf hvt stack bytes i

/-- **Enough frames.** -/
theorem skipValue_ample (vt : ValueType) {bytes : List UInt8} {i : ℕ} (hi : i ≤ bytes.length) :
    (skipValue (bytes.length + 1) vt).go bytes i ≠ .overflow := skipValue_enough _ hi (by omega)

/-- fewer frames do the same or overflow -/
theorem skipValue_mono {bytes : List UInt8} {s t : ℕ} (h : s ≤ t) (vt : ValueType) {i : ℕ} (hi : i ≤ bytes.length) :
    Within (skipValue s vt) (skipValue t vt) bytes i := by
  induction s generalizing t vt i with
  | zero => exact .inl rfl
  | succ s ih =>
    obtain ⟨t, rfl⟩ : ∃ u, t = u + 1 := ⟨t - 1, by omega⟩
    by_cases hvt : vt = .array
    · subst hvt
      rw [skipValue_array, skipValue_array]
      refine (Within.refl arrayHead bytes i).bind fun head j hj => ?_
      obtain ⟨rfl, hlen⟩ := arrayHead_done hj
      unfold arrayBody
      split
      · exact Within.refl _ _ _
      · refine Within.bind ?_ fun _ k _ => Within.refl _ _ _
        exact Within.times (inside_skipValue t _) (fun m hm => ih (by omega) _ hm) _ hlen
    · right
      unfold skipValue
      cases vt <;> first | rfl | exact absurd rfl hvt

/-- a value that is stepped over has bytes -/
theorem skipValue_advances {bytes : List UInt8} {stack : ℕ} {vt : ValueType} {i j : ℕ}
    (h : (skipValue stack vt).go bytes i = .done ((), j)) : i < j := by
  have hskip : ∀ n, (Reader.skip n).go bytes i = .done ((), j) → i + n = j := by
    intro n hn
    obtain ⟨b, m, hm, heq⟩ := bind_done.1 hn
    obtain ⟨-, -, hpos⟩ := take_done.1 hm
    cases heq
    exact hpos
  cases stack with
  | zero => cases h
  | succ stack =>
    by_cases hvt : vt = .array
    · subst hvt
      rw [skipValue_array] at h
      obtain ⟨head, m, hm, h⟩ := bind_done.1 h
      obtain ⟨rfl, hlen⟩ := arrayHead_done hm
      have hbody : Inside (arrayBody stack head) := by
        unfold arrayBody
        split
        · exact inside_skip _
        · exact ((inside_skipValue stack _).times _).bind fun _ => Inside.pure ()
      have := (hbody bytes (i + 12) hlen).2 _ _ h
      omega
    · cases vt with
      | array => exact absurd rfl hvt
      | string =>
        obtain ⟨s, m, hm, heq⟩ := bind_done.1 h
        obtain ⟨len, k, hk, hm⟩ := bind_done.1 hm
        rw [Reader.u64, word_apply] at hk
        split_ifs at hk with h8
        cases hk
        cases heq
        split_ifs at hm
        · cases hm
        · obtain ⟨-, -, hpos⟩ := take_done.1 hm
          omega
      | u8 => have := hskip 1 h; omega
      | i8 => have := hskip 1 h; omega
      | bool => have := hskip 1 h; omega
      | u16 => have := hskip 2 h; omega
      | i16 => have := hskip 2 h; omega
      | u32 => have := hskip 4 h; omega
      | i32 => have := hskip 4 h; omega
      | f32 => have := hskip 4 h; omega
      | u64 => have := hskip 8 h; omega
      | i64 => have := hskip 8 h; omega
      | f64 => have := hskip 8 h; omega

/-- however many elements an array claims, no more of them are stepped over than there are bytes -/
theorem rounds_le_bytes {bytes : List UInt8} {stack : ℕ} {vt : ValueType} (n : ℕ) {i j : ℕ} {l : List Unit}
    (hi : i ≤ bytes.length) (h : (times n (skipValue stack vt)).go bytes i = .done (l, j)) : i + n ≤ j := by
  induction n generalizing i l with
  | zero =>
    cases h
    exact le_rfl
  | succ n ih =>
    obtain ⟨u, m, hm, h⟩ := bind_done.1 h
    obtain ⟨l', k, hk, heq⟩ := bind_done.1 h
    have hstep := skipValue_advances hm
    cases heq
    have hrest := ih ((inside_skipValue stack vt bytes i hi).2 u m hm).2 hk
    omega

/-- any number of frames does what enough of them do, or overflows -/
theorem skipValue_within (bytes : List UInt8) (stack : ℕ) (vt : ValueType) {i : ℕ} (hi : i ≤ bytes.length) :
    Within (skipValue stack vt) (skipValue (bytes.length + 1) vt) bytes i := by
  rcases Nat.le_total stack (bytes.length + 1) with h | h
  · exact skipValue_mono h vt hi
  · rcases skipValue_mono h vt hi with hover | heq
    · exact absurd hover (skipValue_ample vt hi)
    · exact .inr heq.symm

/-! ## Nested arrays -/

section

variable (bytes : List UInt8)

/-- to step over the array at `i`, `skip_value` calls itself for the element at `j`: the elements are strings or arrays,
and those before that one can be stepped over -/
def Calls (i : ℕ) (element : ValueType) (j : ℕ) : Prop :=
  ∃ count m, arrayHead.go bytes i = .done ((element, count), m) ∧ element.fixedWidth = none ∧
    ∃ k < count, ∃ l, (times k (skipValue (bytes.length + 1) element)).go bytes m = .done (l, j)

/-- `n` values one inside the other, the outermost at `i` -/
inductive Nested : ℕ → ValueType → ℕ → Prop
  | one (vt : ValueType) (i : ℕ) : Nested 1 vt i
  | inside {n i j : ℕ} {element : ValueType} (call : Calls bytes i element j) (inner : Nested n element j) :
      Nested (n + 1) .array i

variable {bytes}

/-- **Depth.** `skip_value` overflows a stack exactly when values are nested one deeper than it has frames. -/
theorem overflow_iff_nested (stack : ℕ) {vt : ValueType} {i : ℕ} (hi : i ≤ bytes.length) :
    (skipValue stack vt).go bytes i = .overflow ↔ Nested bytes (stack + 1) vt i := by
  induction stack generalizing vt i with
  | zero => exact ⟨fun _ => .one vt i, fun _ => rfl⟩
  | succ stack ih =>
    by_cases hvt : vt = .array
    · subst hvt
      rw [skipValue_array]
      constructor
      · intro hover
        rcases bind_overflow.1 hover with hover | ⟨⟨element, count⟩, m, hm, hover⟩
        · exact absurd hover (shallow_arrayHead bytes i)
        · obtain ⟨rfl, hlen⟩ := arrayHead_done hm
          unfold arrayBody at hover
          cases hw : element.fixedWidth with
          | some w =>
            simp only [hw] at hover
            exact absurd hover (shallow_skip _ bytes _)
          | none =>
            simp only [hw] at hover
            rcases bind_overflow.1 hover with hover | ⟨_, _, -, hover⟩
            · obtain ⟨k, hk, l, j, hj, hover⟩ := times_overflow.1 hover
              have hjin := ((inside_skipValue stack element).times k bytes (i + 12) hlen).2 l j hj
              have hsame := Within.times (inside_skipValue _ element) (fun p hp => skipValue_within bytes stack element hp) k hlen
              rcases hsame with hbad | hsame
              · rw [hj] at hbad
                cases hbad
              · refine .inside ⟨count, i + 12, hm, hw, k, hk, l, ?_⟩ ((ih hjin.2).1 hover)
                rw [← hsame, hj]
            · cases hover
      · intro hnested
        cases hnested with
        | inside call inner =>
          obtain ⟨count, m, hm, hw, k, hk, l, hj⟩ := call
          obtain ⟨rfl, hlen⟩ := arrayHead_done hm
          have hjin := ((inside_skipValue _ _).times k bytes (i + 12) hlen).2 l _ hj
          have hover := (ih hjin.2).2 inner
          refine bind_overflow.2 (.inr ⟨_, _, hm, ?_⟩)
          simp only [arrayBody, hw]
          refine bind_overflow.2 (.inl ?_)
          -- an earlier element overflows, or the walk comes to this one
          rcases Within.times (inside_skipValue _ _) (fun p hp => skipValue_within bytes stack _ hp) k hlen with hbad | hsame
          · obtain ⟨k', hk', l', j', hj', hover'⟩ := times_overflow.1 hbad
            exact times_overflow.2 ⟨k', by omega, l', j', hj', hover'⟩
          · exact times_overflow.2 ⟨k, hk, l, _, hsame.trans hj, hover⟩
    · constructor
      · intro hover
        exact absurd hover (skipValue_leaf hvt stack bytes i)
      · intro hnested
        cases hnested with
        | inside call inner => exact absurd rfl hvt

/-! ## The values an accessor steps over -/

/-- `skip_value` on enough frames, with a trap at one value -/
def trap (vt : ValueType) (i : ℕ) (vt' : ValueType) : Walk Unit where
  go bytes j := if vt' = vt ∧ j = i then .overflow else (skipValue (bytes.length + 1) vt').go bytes j

variable (bytes) in
/-- a walk that overflows on so many frames does so at a value it steps over, where a trap would have caught it -/
def Follows {β : Type} (walk : (ValueType → Walk Unit) → Walk β) : Prop :=
  ∀ i, i ≤ bytes.length → ∀ stack, (walk (skipValue stack)).go bytes i = .overflow ↔
    ∃ vt j, j ≤ bytes.length ∧ (walk (trap vt j)).go bytes i = .overflow ∧ (skipValue stack vt).go bytes j = .overflow

theorem Follows.const {β : Type} {p : Walk β} (hp : Shallow p) : Follows bytes fun _ => p := by
  intro i _ stack
  constructor
  · intro h
    exact absurd h (hp bytes i)
  · rintro ⟨_, _, -, h, -⟩
    exact absurd h (hp bytes i)

theorem Follows.bind {α β : Type} {p : Walk α} (hp : Shallow p) (hin : Inside p)
    {walk : α → (ValueType → Walk Unit) → Walk β} (h : ∀ a, Follows bytes (walk a)) :
    Follows bytes fun skip => p >>= fun a => walk a skip := by
  intro i hi stack
  simp only [bind_overflow]
  constructor
  · rintro (hbad | ⟨a, m, hm, hover⟩)
    · exact absurd hbad (hp bytes i)
    · have hmin := ((hin bytes i hi).2 a m hm).2
      obtain ⟨vt, j, hj, htrap, hover⟩ := (h a m hmin stack).1 hover
      exact ⟨vt, j, hj, .inr ⟨a, m, hm, htrap⟩, hover⟩
  · rintro ⟨vt, j, hj, hbad | ⟨a, m, hm, htrap⟩, hover⟩
    · exact absurd hbad (hp bytes i)
    · have hmin := ((hin bytes i hi).2 a m hm).2
      exact .inr ⟨a, m, hm, (h a m hmin stack).2 ⟨vt, j, hj, htrap, hover⟩⟩

/-- what follows does not overflow -/
theorem Follows.then {α β : Type} {walk : (ValueType → Walk Unit) → Walk α} (h : Follows bytes walk) {f : α → Walk β}
    (hf : ∀ a, Shallow (f a)) : Follows bytes fun skip => walk skip >>= f := by
  have hlast : ∀ (p : Walk α) i, (p >>= f).go bytes i = .overflow ↔ p.go bytes i = .overflow := by
    intro p i
    rw [bind_overflow]
    constructor
    · rintro (hover | ⟨a, m, -, hover⟩)
      · exact hover
      · exact absurd hover (hf a bytes m)
    · exact .inl
  intro i hi stack
  simp only [hlast]
  exact h i hi stack

theorem Follows.skip {β : Type} (vt₀ : ValueType) {walk : (ValueType → Walk Unit) → Walk β} (h : Follows bytes walk) :
    Follows bytes fun skip => skip vt₀ >>= fun _ => walk skip := by
  intro i hi stack
  have hwithin := skipValue_within bytes stack vt₀ hi
  have hample := skipValue_ample vt₀ hi
  have hinside := (inside_skipValue (bytes.length + 1) vt₀ bytes i hi).2
  simp only [bind_overflow]
  constructor
  · rintro (hover | ⟨u, m, hm, hover⟩)
    · exact ⟨vt₀, i, hi, .inl (if_pos ⟨rfl, rfl⟩), hover⟩
    · have hsame : (skipValue (bytes.length + 1) vt₀).go bytes i = .done (u, m) := by
        rcases hwithin with hbad | hsame
        · rw [hm] at hbad
          cases hbad
        · rw [← hsame, hm]
      obtain ⟨vt, j, hj, htrap, hover'⟩ := (h m (hinside u m hsame).2 stack).1 hover
      refine ⟨vt, j, hj, .inr ⟨u, m, ?_, htrap⟩, hover'⟩
      have hne : ¬ (vt₀ = vt ∧ i = j) := by
        rintro ⟨rfl, rfl⟩
        rw [hm] at hover'
        cases hover'
      exact (if_neg hne).trans hsame
  · rintro ⟨vt, j, hj, htrap | ⟨u, m, hm, htrap⟩, hover⟩
    · by_cases hhere : vt₀ = vt ∧ i = j
      · obtain ⟨rfl, rfl⟩ := hhere
        exact .inl hover
      · exact absurd ((if_neg hhere).symm.trans htrap) hample
    · have hsame : (skipValue (bytes.length + 1) vt₀).go bytes i = .done (u, m) := by
        by_cases hhere : vt₀ = vt ∧ i = j
        · have hbad : (trap vt j vt₀).go bytes i = .overflow := if_pos hhere
          rw [hm] at hbad
          cases hbad
        · exact (if_neg hhere).symm.trans hm
      have hover' := (h m (hinside u m hsame).2 stack).2 ⟨vt, j, hj, htrap, hover⟩
      rcases hwithin with hnow | heq
      · exact .inl hnow
      · exact .inr ⟨u, m, heq.trans hsame, hover'⟩

theorem shallow_preamble : Shallow preamble :=
  ((Shallow.take 4).orRefuse _).bind fun _ => (Shallow.refuseIf _ _).bind fun _ =>
    ((Shallow.word 4).orRefuse _).bind fun _ => Shallow.refuseIf _ _

theorem shallow_pairCount : Shallow pairCount :=
  (Shallow.word 8).bind fun _ => (Shallow.refuseIf _ _).bind fun _ => Shallow.pure _

theorem shallow_pairHead : Shallow pairHead :=
  shallow_string.bind fun _ => (Shallow.word 4).bind fun _ => (Shallow.ofCheck _).bind fun _ => Shallow.pure _

theorem shallow_readTensor : Shallow readTensor :=
  shallow_string.bind fun _ => (Shallow.word 4).bind fun n => (Shallow.refuseIf _ _).bind fun _ =>
    ((Shallow.word 8).times n).bind fun _ => (Shallow.word 4).bind fun _ => (Shallow.word 8).bind fun _ => Shallow.pure _

theorem shallow_stringValue (key : String) (vt : ValueType) : Shallow (stringValue key vt) := by
  unfold stringValue
  split_ifs
  · exact shallow_string.bind fun _ => Shallow.pure _
  · exact Shallow.refuse _

theorem shallow_scalarValue (fc : FloatCast) (key : String) (wanted : Scalar → Option Scalar) (vt : ValueType) :
    Shallow (scalarValue fc key wanted vt) := by
  have hread : Shallow (readScalar fc vt) := by
    unfold readScalar
    split
    · exact Shallow.pure _
    · exact (Shallow.word _).bind fun _ => Shallow.pure _
  rw [scalarValue_eq]
  refine (hread.orRefuse _).bind fun scalar => ?_
  unfold judge
  split
  · exact Shallow.refuse _
  · split
    · exact Shallow.pure _
    · exact Shallow.refuse _

theorem follows_findKey {α : Type} (key : String) {read : ValueType → Walk α} (hread : ∀ vt, Shallow (read vt)) :
    Follows bytes fun skip => findKey skip key read := by
  have hpairs : ∀ pairs, Follows bytes fun skip => findPair skip key read pairs := by
    intro pairs
    induction pairs with
    | zero => exact Follows.const (Shallow.pure none)
    | succ pairs ih =>
      refine Follows.bind shallow_pairHead inside_pairHead fun head => ?_
      obtain ⟨found, vt⟩ := head
      by_cases hfound : found = utf8 key
      · simp only [if_pos hfound]
        exact Follows.const ((hread vt).bind fun _ => Shallow.pure _)
      · simp only [if_neg hfound]
        exact ih.skip vt
  exact Follows.bind shallow_preamble inside_preamble fun _ => Follows.bind (Shallow.word 8) (Inside.word 8) fun _ =>
    Follows.bind shallow_pairCount inside_pairCount hpairs

theorem follows_walkPairs (pairs alignment : ℕ) : Follows bytes fun skip => walkPairs skip pairs alignment := by
  induction pairs generalizing alignment with
  | zero => exact Follows.const (Shallow.pure alignment)
  | succ pairs ih =>
    refine Follows.bind shallow_pairHead inside_pairHead fun head => ?_
    obtain ⟨key, vt⟩ := head
    by_cases hdeclares : key = utf8 alignmentKey ∧ vt = .u32
    · simp only [if_pos hdeclares]
      exact Follows.bind (Shallow.word 4) (Inside.word 4) fun declared =>
        Follows.bind (Shallow.refuseIf _ _) (Inside.refuseIf _ _) fun _ => ih declared
    · simp only [if_neg hdeclares]
      exact (ih alignment).skip vt

theorem follows_directory : Follows bytes fun skip => tensorDirectory skip := by
  refine Follows.bind shallow_preamble inside_preamble fun _ => Follows.bind (Shallow.word 8) (Inside.word 8) fun _ =>
    Follows.bind (Shallow.refuseIf _ _) (Inside.refuseIf _ _) fun _ => Follows.bind shallow_pairCount inside_pairCount
      fun pairs => (follows_walkPairs pairs _).then fun _ => (shallow_readTensor.times _).bind fun _ =>
        Shallow.position.bind fun _ => ?_
  split
  · exact Shallow.refuse _
  · exact Shallow.pure _

theorem Accessor.follows (fc : FloatCast) (a : Accessor) : Follows bytes fun skip => a.walk fc skip := by
  cases a with
  | string key => exact (follows_findKey key (shallow_stringValue key)).then fun _ => Shallow.pure _
  | u64 key =>
    exact ((follows_findKey key (shallow_scalarValue fc key asCount)).then fun _ => Shallow.pure _).then fun _ =>
      Shallow.pure _
  | f32 key =>
    exact ((follows_findKey key (shallow_scalarValue fc key (asReal fc))).then fun _ => Shallow.pure _).then fun _ =>
      Shallow.pure _
  | directory => exact follows_directory.then fun _ => Shallow.pure _

end

namespace Accessor

variable (fc : FloatCast) (a : Accessor) (bytes : List UInt8)

/-- some number of frames is enough -/
def Terminates : Prop := ∃ frames, a.run fc frames bytes ≠ .overflow

def StaysInside : Prop := ∀ stack, a.run fc stack bytes ≠ .outside

/-- so many frames are enough -/
def DepthWithin (limit : ℕ) : Prop := a.run fc limit bytes ≠ .overflow

/-- the accessor steps over the value at `i`: it falls into a trap there -/
def StepsOver (vt : ValueType) (i : ℕ) : Prop := (a.walk fc (trap vt i)).run bytes = .overflow

/-- a value that the accessor steps over has values nested in it, more than so many with itself -/
def NestsBeyond (limit : ℕ) : Prop :=
  ∃ vt i, i ≤ bytes.length ∧ a.StepsOver fc bytes vt i ∧ Nested bytes (limit + 1) vt i

end Accessor

/-- **How deep.** Every accessor comes to an end on every byte string and does not look outside it, and so many frames are
enough for it exactly when nothing it steps over is nested deeper. -/
theorem depth_within_iff (fc : FloatCast) (a : Accessor) (bytes : List UInt8) (limit : ℕ) :
    (a.Terminates fc bytes ∧ a.StaysInside fc bytes ∧ a.DepthWithin fc bytes limit) ↔ ¬ a.NestsBeyond fc bytes limit := by
  have hwalk : Follows bytes fun skip => a.walk fc skip := a.follows fc
  have hfollows := hwalk 0 (Nat.zero_le _)
  have hends : a.Terminates fc bytes := by
    refine ⟨bytes.length + 1, ?_⟩
    intro hover
    obtain ⟨vt, j, hj, -, hover⟩ := (hfollows _).1 (run_overflow.1 hover)
    exact skipValue_ample vt hj hover
  have hinside : a.StaysInside fc bytes := fun stack => (a.inside (inside_skipValue stack) fc).run_ne bytes
  have hdepth : a.run fc limit bytes = .overflow ↔ a.NestsBeyond fc bytes limit := by
    rw [Accessor.run, run_overflow, hfollows limit]
    constructor
    · rintro ⟨vt, j, hj, htrap, hover⟩
      exact ⟨vt, j, hj, run_overflow.2 htrap, (overflow_iff_nested limit hj).1 hover⟩
    · rintro ⟨vt, j, hj, htrap, hnested⟩
      exact ⟨vt, j, hj, run_overflow.1 htrap, (overflow_iff_nested limit hj).2 hnested⟩
  rw [← hdepth]
  exact ⟨fun h => h.2.2, fun h => ⟨hends, hinside, h⟩⟩

/-! ## No constant is enough -/

/-- the heads of arrays one inside the other -/
def levels : ℕ → List UInt8
  | 0 => []
  | n + 1 => le 4 ValueType.array.code ++ (le 8 1 ++ levels n)

/-- a header with one entry, arrays nested so deep under the empty key -/
def deepHeader (n : ℕ) : List UInt8 :=
  magic ++ le 4 3 ++ (le 8 0 ++ le 8 1) ++ (writeString [] ++ le 4 ValueType.array.code) ++ levels n

theorem skipValue_levels (n : ℕ) (before : List UInt8) :
    (skipValue n .array).go (before ++ levels n) before.length = .overflow := by
  induction n generalizing before with
  | zero => rfl
  | succ n ih =>
    have hhead : Reads arrayHead (.array, 1) (le 4 ValueType.array.code ++ le 8 1) := by
      refine (Reads.word ValueType.array.code_lt).bind ?_
      rw [ValueType.fromCode_code]
      exact (Reads.word (by decide)).bind_pure
    have hbytes : before ++ levels (n + 1) = before ++ (le 4 ValueType.array.code ++ le 8 1) ++ levels n := by
      simp [levels]
    rw [skipValue_array, hbytes, bind_of_done (hhead before (levels n))]
    refine bind_overflow.2 (.inl (times_overflow.2 ⟨0, Nat.one_pos, [], _, rfl, ?_⟩))
    exact ih _

theorem length_levels (n : ℕ) : (levels n).length = 12 * n := by
  induction n with
  | zero => rfl
  | succ n ih =>
    rw [levels, List.length_append, List.length_append, length_le, length_le, ih]
    omega

/-- **No constant.** Whatever the number of frames, a header of twelve bytes a frame needs one more. -/
theorem no_depth_bound :
    ¬ ∃ limit, ∀ (fc : FloatCast) (a : Accessor) (bytes : List UInt8), bytes.length ≤ 12 * limit + 36 →
      a.DepthWithin fc bytes limit := by
  rintro ⟨limit, hbound⟩
  have hlen : (deepHeader limit).length ≤ 12 * limit + 36 := by
    have hmagic : magic.length = 4 := by decide
    simp only [deepHeader, writeString, List.length_append, length_le, length_levels, hmagic, List.length_nil]
    omega
  refine hbound .native (.string "general.architecture") (deepHeader limit) hlen ?_
  have hcount : Reads (do
      preamble
      let _ ← Reader.u64
      pairCount) 1 (magic ++ le 4 3 ++ (le 8 0 ++ le 8 1)) :=
    (reads_preamble (.inr rfl)).bind ((Reads.word (by decide)).bind (reads_pairCount (by decide)))
  have hhead : Reads pairHead ([], ValueType.array) (writeString [] ++ le 4 ValueType.array.code) :=
    reads_pairHead (p := ("", .array .u8 [])) (by decide)
  have hwalk : ∀ (skip : ValueType → Walk Unit) (key : String) (read : ValueType → Walk String),
      findKey skip key read = (do
        preamble
        let _ ← Reader.u64
        pairCount) >>= findPair skip key read := by
    intro skip key read
    simp only [findKey, findKeyBody, Walk.bind_assoc]
  have hgo := hcount [] (writeString [] ++ le 4 ValueType.array.code ++ levels limit)
  have hbytes : deepHeader limit = [] ++ (magic ++ le 4 3 ++ (le 8 0 ++ le 8 1)) ++
      (writeString [] ++ le 4 ValueType.array.code ++ levels limit) := by
    simp [deepHeader]
  rw [List.length_nil] at hgo
  refine run_overflow.2 (bind_overflow.2 (.inl ?_))
  rw [metadataString, hwalk, hbytes, bind_of_done hgo, List.nil_append, ← List.append_assoc, findPair,
    bind_of_done (hhead _ _)]
  dsimp only
  rw [if_neg (by decide)]
  exact bind_overflow.2 (.inl (skipValue_levels limit _))

end Hocmesh.Model
