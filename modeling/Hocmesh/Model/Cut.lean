/-
A header cut short.

Every read of an accessor is stable: bytes that follow make no difference to it. So is a walk made of them, and on the
start of a file an accessor has the answer it has on the file, or none. One place turns the end of the bytes into an
error: `find_scalar` reads the value it was asked for, and bytes that end inside it are reported as the value not being a
number (`Accessor.CutsValue`). A cut is harmless exactly when it is not there (`cut_header_answer`).
-/
import Hocmesh.Model.Gguf

namespace Hocmesh.Model

open Hocmesh.Base Walk

/-! ## Stable reads -/

namespace Reader

theorem stable_string : Stable Reader.string := by
  refine (Stable.word 8).bind fun len => ?_
  split_ifs
  · exact Stable.runOut
  · exact Stable.take len

theorem stable_skip (count : ℕ) : Stable (Reader.skip count) := (Stable.take count).bind fun _ => Stable.pure ()

end Reader

theorem stable_skipValue (stack : ℕ) (vt : ValueType) : Stable (skipValue stack vt) := by
  induction stack generalizing vt with
  | zero => exact Stable.overrun
  | succ stack ih =>
    unfold skipValue
    split
    · exact Reader.stable_string.bind fun _ => Stable.pure ()
    · refine (Stable.word 4).bind fun code => ?_
      split
      · exact Stable.runOut
      · refine (Stable.word 8).bind fun count => ?_
        split
        · exact Reader.stable_skip _
        · exact ((ih _).times count).bind fun _ => Stable.pure ()
    · exact Reader.stable_skip _

theorem stable_pairCount : Stable pairCount :=
  (Stable.word 8).bind fun _ => (Stable.refuseIf _ _).bind fun _ => Stable.pure _

theorem stable_pairHead : Stable pairHead :=
  Reader.stable_string.bind fun _ => (Stable.word 4).bind fun _ => (Stable.ofCheck _).bind fun _ => Stable.pure _

section

variable {α : Type} {skip : ValueType → Walk Unit}

theorem stable_findPair (hskip : ∀ vt, Stable (skip vt)) (key : String) {read : ValueType → Walk α}
    (hread : ∀ vt, Stable (read vt)) (pairs : ℕ) : Stable (findPair skip key read pairs) := by
  induction pairs with
  | zero => exact Stable.pure none
  | succ pairs ih =>
    refine stable_pairHead.bind fun head => ?_
    obtain ⟨found, vt⟩ := head
    dsimp only
    split_ifs
    · exact (hread vt).bind fun _ => Stable.pure _
    · exact (hskip vt).bind fun _ => ih

theorem stable_findKeyBody (hskip : ∀ vt, Stable (skip vt)) (key : String) {read : ValueType → Walk α}
    (hread : ∀ vt, Stable (read vt)) : Stable (findKeyBody skip key read) :=
  (Stable.word 8).bind fun _ => stable_pairCount.bind fun pairs => stable_findPair hskip key hread pairs

theorem stable_walkPairs (hskip : ∀ vt, Stable (skip vt)) (pairs alignment : ℕ) :
    Stable (walkPairs skip pairs alignment) := by
  induction pairs generalizing alignment with
  | zero => exact Stable.pure alignment
  | succ pairs ih =>
    refine stable_pairHead.bind fun head => ?_
    obtain ⟨key, vt⟩ := head
    dsimp only
    split_ifs
    · exact (Stable.word 4).bind fun declared => (Stable.refuseIf _ _).bind fun _ => ih declared
    · exact (hskip vt).bind fun _ => ih alignment

end

theorem stable_readTensor : Stable readTensor :=
  Reader.stable_string.bind fun _ => (Stable.word 4).bind fun n => (Stable.refuseIf _ _).bind fun _ =>
    ((Stable.word 8).times n).bind fun _ => (Stable.word 4).bind fun _ => (Stable.word 8).bind fun _ => Stable.pure _

theorem stable_directoryBody {skip : ValueType → Walk Unit} (hskip : ∀ vt, Stable (skip vt)) :
    Stable (directoryBody skip) := by
  refine (Stable.word 8).bind fun _ => (Stable.refuseIf _ _).bind fun _ => stable_pairCount.bind fun pairs =>
    (stable_walkPairs hskip pairs _).bind fun _ => (stable_readTensor.times _).bind fun _ => Stable.position.bind fun _ => ?_
  split
  · exact Stable.refuse _
  · exact Stable.pure _

/-! ## Behind the version -/

/-- the magic and the version, for eight bytes at least -/
def preambleRead : Walk Unit := do
  let found ← take 4
  refuseIf (found ≠ magic) "file does not start with the GGUF magic"
  let version ← Reader.u32
  refuseIf (¬ (2 ≤ version ∧ version ≤ 3)) s!"GGUF version {version} is not supported (this build reads versions 2-3)"

theorem stable_preambleRead : Stable preambleRead :=
  (Stable.take 4).bind fun _ => (Stable.refuseIf _ _).bind fun _ => (Stable.word 4).bind fun _ => Stable.refuseIf _ _

/-- the end of the bytes is not met in the first eight -/
theorem preamble_eq {bytes : List UInt8} (h : 8 ≤ bytes.length) : preamble.go bytes 0 = preambleRead.go bytes 0 := by
  have h4 : (take 4).go bytes 0 = .done ((bytes.drop 0).take 4, 4) := take_done.2 ⟨by omega, rfl, rfl⟩
  have h8 : Reader.u32.go bytes 4 = .done (leNat ((bytes.drop 4).take 4), 8) := by
    rw [Reader.u32, word_apply, if_pos (by omega)]
  have h4' : (orRefuse (take 4) "file is too short to be a GGUF model").go bytes 0 =
      .done ((bytes.drop 0).take 4, 4) := by
    simp only [orRefuse, h4]
  have h8' : (orRefuse Reader.u32 "truncated GGUF header: no version").go bytes 4 =
      .done (leNat ((bytes.drop 4).take 4), 8) := by
    simp only [orRefuse, h8]
  unfold preamble preambleRead
  rw [bind_of_done h4, bind_of_done h4', bind_apply, bind_apply]
  unfold refuseIf
  split_ifs
  · rfl
  · simp only [pure_apply]
    rw [bind_of_done h8, bind_of_done h8']

theorem go_preamble {α : Type} (rest : Walk α) {bytes : List UInt8} (h : 8 ≤ bytes.length) :
    (preamble >>= fun _ => rest).go bytes 0 = (preambleRead >>= fun _ => rest).go bytes 0 := by
  rw [bind_apply, bind_apply, preamble_eq h]

/-- a cut behind the version leaves the answer or takes it away -/
theorem run_cut {α : Type} {rest : Walk (Option α)} (hrest : Stable rest) {bytes : List UInt8} (more : List UInt8)
    (h : 8 ≤ bytes.length) :
    (preamble >>= fun _ => rest).run bytes = .done none ∨
      (preamble >>= fun _ => rest).run bytes = (preamble >>= fun _ => rest).run (bytes ++ more) := by
  have hlong : 8 ≤ (bytes ++ more).length := by
    rw [List.length_append]
    omega
  have hcut := (stable_preambleRead.bind fun _ => hrest).run_cut bytes more
  unfold Walk.run at hcut ⊢
  rw [go_preamble rest h, go_preamble rest hlong]
  exact hcut

/-! ## Where the value stands -/

section

variable {α β : Type} (skip : ValueType → Walk Unit) (key : String)

/-- the type of the value asked for and the position it starts at -/
def locate : Walk (Option (ValueType × ℕ)) := findKey skip key fun vt => do
  let i ← position
  pure (vt, i)

/-- what a walk does with the value it has come to -/
def readAt (read : ValueType → Walk α) : Option (ValueType × ℕ) → Walk (Option α)
  | none => pure none
  | some (vt, _) => do
    let a ← read vt
    pure (some a)

theorem findPair_eq (read : ValueType → Walk α) (pairs : ℕ) :
    findPair skip key read pairs =
      findPair skip key (fun vt => do
        let i ← position
        pure (vt, i)) pairs >>= readAt read := by
  induction pairs with
  | zero => rfl
  | succ pairs ih =>
    rw [findPair, findPair, Walk.bind_assoc]
    congr 1
    funext head
    obtain ⟨found, vt⟩ := head
    dsimp only
    split_ifs
    · rfl
    · rw [Walk.bind_assoc]
      congr 1
      funext _
      exact ih

theorem findKey_eq (read : ValueType → Walk α) : findKey skip key read = locate skip key >>= readAt read := by
  unfold locate findKey findKeyBody
  simp only [Walk.bind_assoc]
  congr 1
  funext _
  congr 1
  funext _
  congr 1
  funext pairs
  exact findPair_eq skip key read pairs

/-- the position is the one the walk stops at -/
theorem findPair_position (bytes : List UInt8) (pairs : ℕ) {i j k : ℕ} {vt : ValueType}
    (h : (findPair skip key (fun vt => do
      let i ← position
      pure (vt, i)) pairs).go bytes i = .done (some (vt, j), k)) : j = k := by
  induction pairs generalizing i with
  | zero => cases h
  | succ pairs ih =>
    rw [findPair] at h
    obtain ⟨⟨found, vt'⟩, m, -, h⟩ := bind_done.1 h
    dsimp only at h
    split_ifs at h
    · cases h
      rfl
    · obtain ⟨-, m', -, h⟩ := bind_done.1 h
      exact ih h

theorem locate_position {bytes : List UInt8} {j k : ℕ} {vt : ValueType}
    (h : (locate skip key).go bytes 0 = .done (some (vt, j), k)) : j = k := by
  unfold locate findKey findKeyBody at h
  obtain ⟨-, _, -, h⟩ := bind_done.1 h
  obtain ⟨-, _, -, h⟩ := bind_done.1 h
  obtain ⟨pairs, _, -, h⟩ := bind_done.1 h
  exact findPair_position skip key bytes pairs h

variable {skip}

theorem locate_cut (hskip : ∀ vt, Stable (skip vt)) {bytes : List UInt8} (more : List UInt8) (h : 8 ≤ bytes.length) :
    (locate skip key).go bytes 0 = .truncated ∨ (locate skip key).go (bytes ++ more) 0 = (locate skip key).go bytes 0 := by
  have hrest := stable_preambleRead.bind fun _ =>
    stable_findKeyBody hskip key fun vt => Stable.position.bind fun i => Stable.pure (vt, i)
  by_cases htr : (locate skip key).go bytes 0 = .truncated
  · exact .inl htr
  · right
    have hlong : 8 ≤ (bytes ++ more).length := by
      rw [List.length_append]
      omega
    unfold locate findKey at htr ⊢
    rw [go_preamble _ h] at htr ⊢
    rw [go_preamble _ hlong]
    exact hrest bytes more 0 htr

end

/-! ## The value -/

section

variable (fc : FloatCast) (key : String) (wanted : Scalar → Option Scalar)

/-- what `find_scalar` makes of a value it has read -/
def judge : Option Scalar → Walk Scalar
  | none => refuse s!"GGUF key {key} is not a number"
  | some scalar =>
    match wanted scalar with
    | some value => pure value
    | none => refuse s!"GGUF key {key} holds {scalar.debug fc}, which does not fit"

theorem scalarValue_eq (vt : ValueType) :
    scalarValue fc key wanted vt =
      orRefuse (readScalar fc vt) s!"GGUF key {key} is not a number" >>= judge fc key wanted := by
  unfold scalarValue
  congr 1

/-- bytes that end inside the value are an error -/
theorem scalarValue_short {vt : ValueType} {w : ℕ} (hw : vt.fixedWidth = some w) {bytes : List UInt8} {i : ℕ}
    (h : bytes.length < i + w) :
    (scalarValue fc key wanted vt).go bytes i = .refused s!"GGUF key {key} is not a number" := by
  have hread : (readScalar fc vt).go bytes i = .truncated := by
    simp only [readScalar, hw]
    rw [bind_apply, word_apply, if_neg (by omega)]
  rw [scalarValue_eq, bind_apply]
  simp only [orRefuse, hread]

/-- bytes that hold the value are all that is read -/
theorem scalarValue_long {vt : ValueType} {w : ℕ} (hw : vt.fixedWidth = some w) {bytes : List UInt8} (more : List UInt8)
    {i : ℕ} (h : i + w ≤ bytes.length) :
    (scalarValue fc key wanted vt).go (bytes ++ more) i = (scalarValue fc key wanted vt).go bytes i := by
  have hread : (readScalar fc vt).go (bytes ++ more) i = (readScalar fc vt).go bytes i := by
    simp only [readScalar, hw]
    refine ((Stable.word w).bind fun _ => Stable.pure _) bytes more i ?_
    rw [bind_apply, word_apply, if_pos h]
    exact fun h => by cases h
  have hjudge : ∀ o bytes' i, (judge fc key wanted o).go bytes' i = (judge fc key wanted o).go bytes i := by
    intro o bytes' i
    unfold judge
    split
    · rfl
    · split <;> rfl
  rw [scalarValue_eq, bind_apply, bind_apply]
  simp only [orRefuse, hread]
  cases (readScalar fc vt).go bytes i with
  | done r => exact hjudge _ _ _
  | truncated => rfl
  | refused e => rfl
  | outside => rfl
  | overflow => rfl

/-- a value that is read has a width -/
theorem scalarValue_width {vt : ValueType} {bytes : List UInt8} {i j : ℕ} {scalar : Scalar}
    (h : (scalarValue fc key wanted vt).go bytes i = .done (scalar, j)) : ∃ w, vt.fixedWidth = some w := by
  cases hw : vt.fixedWidth with
  | some w => exact ⟨w, rfl⟩
  | none =>
    rw [scalarValue_eq, bind_apply] at h
    simp only [orRefuse, readScalar, hw, pure_apply, judge] at h
    cases h

variable {fc key wanted}

/-- a scalar accessor on the start of a file: no answer, or the answer, unless the cut is in the value -/
theorem scalar_cut {β : Type} {skip : ValueType → Walk Unit} (hskip : ∀ vt, Stable (skip vt))
    (g : Option Scalar → Option β) (hg : g none = none) {bytes more : List UInt8} {v : β} (h8 : 8 ≤ bytes.length)
    (h : (findScalar skip fc key wanted >>= fun scalar => pure (g scalar)).run (bytes ++ more) = .done (some v)) :
    ((findScalar skip fc key wanted >>= fun scalar => pure (g scalar)).run bytes = .done none ∨
        (findScalar skip fc key wanted >>= fun scalar => pure (g scalar)).run bytes = .done (some v)) ↔
      ¬ ∃ vt i, (locate skip key).run bytes = .done (some (vt, i)) ∧ bytes.length < i + vt.fixedWidth.getD 0 := by
  unfold findScalar at h ⊢
  rw [findKey_eq, Walk.bind_assoc] at h ⊢
  rcases locate_cut key hskip more h8 with hcut | hsame
  · -- the bytes end before the value
    have hrun : (locate skip key).run bytes = .done none := by rw [Walk.run, hcut]
    rw [hrun, Walk.run, bind_apply, hcut]
    simp
  · cases hL : (locate skip key).go bytes 0 with
    | truncated => rw [Walk.run, bind_apply, hsame, hL] at h; simp at h
    | refused e => rw [Walk.run, bind_apply, hsame, hL] at h; simp at h
    | outside => rw [Walk.run, bind_apply, hsame, hL] at h; simp at h
    | overflow => rw [Walk.run, bind_apply, hsame, hL] at h; simp at h
    | done r =>
      obtain ⟨found, k⟩ := r
      cases found with
      | none =>
        rw [Walk.run, bind_apply, hsame, hL] at h
        simp only [readAt, bind_apply, pure_apply, hg] at h
        cases h
      | some place =>
        obtain ⟨vt, i⟩ := place
        obtain rfl := locate_position skip key hL
        have hrun : (locate skip key).run bytes = .done (some (vt, i)) := by rw [Walk.run, hL]
        -- on the whole file the value is read
        obtain ⟨scalar, m, hvalue⟩ : ∃ scalar m, (scalarValue fc key wanted vt).go (bytes ++ more) i = .done (scalar, m) := by
          rw [Walk.run, bind_apply, hsame, hL] at h
          simp only [readAt, bind_apply] at h
          cases hs : (scalarValue fc key wanted vt).go (bytes ++ more) i with
          | done r => exact ⟨r.1, r.2, rfl⟩
          | truncated => rw [hs] at h; simp at h
          | refused e => rw [hs] at h; simp at h
          | outside => rw [hs] at h; simp at h
          | overflow => rw [hs] at h; simp at h
        obtain ⟨w, hw⟩ := scalarValue_width fc key wanted hvalue
        by_cases hin : i + w ≤ bytes.length
        · have hsame' : (locate skip key >>= fun a => readAt (scalarValue fc key wanted) a >>= fun scalar =>
              pure (g scalar)).run bytes = .done (some v) := by
            rw [← h, Walk.run, Walk.run, bind_apply, bind_apply, hsame, hL]
            simp only [readAt, bind_apply, scalarValue_long fc key wanted hw more hin]
            rfl
          refine ⟨?_, fun _ => .inr hsame'⟩
          rintro - ⟨vt', i', hplace, hlt⟩
          rw [hrun] at hplace
          cases hplace
          rw [hw, Option.getD_some] at hlt
          omega
        · have hbad : (locate skip key >>= fun a => readAt (scalarValue fc key wanted) a >>= fun scalar =>
              pure (g scalar)).run bytes = .refused s!"GGUF key {key} is not a number" := by
            rw [Walk.run, bind_apply, hL]
            simp only [readAt, bind_apply, scalarValue_short fc key wanted hw (by omega : bytes.length < i + w)]
          rw [hbad]
          refine ⟨by simp, ?_⟩
          intro hnot
          refine absurd ⟨vt, i, hrun, ?_⟩ hnot
          rw [hw, Option.getD_some]
          omega

end

/-! ## The four accessors -/

namespace Accessor

/-- the bytes hold the key and the type of the scalar asked for and end before its last byte -/
def CutsValue (stack : ℕ) (bytes : List UInt8) : Accessor → Prop
  | .u64 key | .f32 key => ∃ vt i, (locate (skipValue stack) key).run bytes = .done (some (vt, i)) ∧
      bytes.length < i + vt.fixedWidth.getD 0
  | .string _ | .directory => False

end Accessor

/-- the count of `metadataU64` -/
def countOf : Scalar → Option ℕ
  | .unsigned v => some v
  | _ => none

/-- the real of `metadataF32` -/
def realOf (fc : FloatCast) : Scalar → Option UInt32
  | .float v => some (fc.narrow v)
  | _ => none

theorem stable_stringValue (key : String) (vt : ValueType) : Stable (stringValue key vt) := by
  unfold stringValue
  split_ifs
  · exact Reader.stable_string.bind fun _ => Stable.pure _
  · exact Stable.refuse _

/-- **A cut header.** An accessor answers on a file. On any start of it of eight bytes or more it gives the same answer or
none, unless it was asked for a scalar and the start ends inside it. -/
theorem cut_header_answer (fc : FloatCast) (stack : ℕ) (a : Accessor) (file bytes : List UInt8) (v : Answer)
    (hfile : a.run fc stack file = .done (some v)) (hstart : bytes <+: file) (h8 : 8 ≤ bytes.length) :
    (a.run fc stack bytes = .done none ∨ a.run fc stack bytes = .done (some v)) ↔ ¬ a.CutsValue stack bytes := by
  obtain ⟨more, rfl⟩ := hstart
  have hskip := stable_skipValue stack
  unfold Accessor.run at hfile ⊢
  cases a with
  | string key =>
    have hbody := (stable_findKeyBody hskip key (stable_stringValue key)).bind fun s => Stable.pure (s.map Answer.text)
    simp only [Accessor.walk, metadataString, findKey, Walk.bind_assoc] at hfile ⊢
    refine ⟨fun _ => not_false, fun _ => ?_⟩
    rw [← hfile]
    exact run_cut hbody more h8
  | u64 key =>
    simp only [Accessor.walk, metadataU64, Walk.bind_assoc] at hfile ⊢
    exact scalar_cut hskip (fun scalar => (scalar.bind countOf).map Answer.count) rfl h8 hfile
  | f32 key =>
    simp only [Accessor.walk, metadataF32, Walk.bind_assoc] at hfile ⊢
    exact scalar_cut hskip (fun scalar => (scalar.bind (realOf fc)).map Answer.real) rfl h8 hfile
  | directory =>
    have hbody := (stable_directoryBody hskip).bind fun d => Stable.pure (d.map Answer.directory)
    simp only [Accessor.walk, tensorDirectory, Walk.bind_assoc] at hfile ⊢
    refine ⟨fun _ => not_false, fun _ => ?_⟩
    rw [← hfile]
    exact run_cut hbody more h8

/-- the conversions of the machine -/
def FloatCast.native : FloatCast where
  widen bits := (Float32.ofBits bits).toFloat.toBits
  ofUnsigned v := (UInt64.ofNat v).toFloat.toBits
  ofSigned v := (Int64.ofInt v).toFloat.toBits
  narrow bits := (Float.ofBits bits).toFloat32.toBits
  debug bits := toString (Float.ofBits bits)

/-- a header of one entry, `blocks` = 7 as a `u32`, and no tensors -/
def blocksHeader : List UInt8 := magic ++ le 4 3 ++ le 8 0 ++ le 8 1 ++ le 8 6 ++ utf8 "blocks" ++ le 4 4 ++ le 4 7

/-- a cut in the key takes the answer away -/
theorem cut_key_answer :
    (Accessor.u64 "blocks").run .native 1 (blocksHeader.take 36) = .done none ∨
      (Accessor.u64 "blocks").run .native 1 (blocksHeader.take 36) = .done (some (.count 7)) := by
  have hfile : (Accessor.u64 "blocks").run .native 1 blocksHeader = .done (some (.count 7)) := by decide +kernel
  refine (cut_header_answer .native 1 (.u64 "blocks") blocksHeader (blocksHeader.take 36) (.count 7) hfile
    (List.take_prefix _ _) (by decide +kernel)).2 ?_
  rintro ⟨vt, i, hplace, -⟩
  have hnone : (locate (skipValue 1) "blocks").run (blocksHeader.take 36) = .done none := by decide +kernel
  rw [hnone] at hplace
  cases hplace

/-- A file that answers 7, without its last byte: the accessor says that the key is not a number. -/
theorem cut_value_refused :
    (Accessor.u64 "blocks").run .native 1 blocksHeader = .done (some (.count 7)) ∧
      blocksHeader.take 45 <+: blocksHeader ∧ 8 ≤ (blocksHeader.take 45).length ∧
      (Accessor.u64 "blocks").run .native 1 (blocksHeader.take 45) = .refused "GGUF key blocks is not a number" :=
  ⟨by decide +kernel, List.take_prefix _ _, by decide +kernel, by decide +kernel⟩

end Hocmesh.Model
