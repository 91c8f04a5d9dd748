/-
What a header says stands before the tensor data.

Every walk of the reader is local: its value depends on no byte behind the position it stops at. The directory stops at
its last record, before `data_start`. An accessor of the metadata walks over the same entries and stops among them, and on
a file whose directory can be read it does not meet the end of the bytes (`findKey_ends`). So two files with the same bytes
up to `data_start` have the same directory and the same metadata (`directory_before`, `metadata_before`).
-/
import Hocmesh.Model.Directory

namespace Hocmesh.Model

open Hocmesh.Base Walk

/-! ## Local reads -/

namespace Reader

theorem local_string : Local Reader.string := by
  refine (Local.word 8).bind fun len => ?_
  split_ifs
  · exact Local.runOut
  · exact Local.take len

theorem local_skip (count : ℕ) : Local (Reader.skip count) := (Local.take count).bind fun _ => Local.pure ()

end Reader

theorem local_skipValue (stack : ℕ) (vt : ValueType) : Local (skipValue stack vt) := by
  induction stack generalizing vt with
  | zero => exact Local.overrun
  | succ stack ih =>
    unfold skipValue
    split
    · exact Reader.local_string.bind fun _ => Local.pure ()
    · refine (Local.word 4).bind fun code => ?_
      split
      · exact Local.runOut
      · refine (Local.word 8).bind fun count => ?_
        split
        · exact Reader.local_skip _
        · exact ((ih _).times count).bind fun _ => Local.pure ()
    · exact Reader.local_skip _

theorem local_preamble : Local preamble :=
  ((Local.take 4).orRefuse _).bind fun _ => (Local.refuseIf _ _).bind fun _ => ((Local.word 4).orRefuse _).bind fun _ =>
    Local.refuseIf _ _

theorem local_pairCount : Local pairCount :=
  (Local.word 8).bind fun _ => (Local.refuseIf _ _).bind fun _ => Local.pure _

theorem local_pairHead : Local pairHead :=
  Reader.local_string.bind fun _ => (Local.word 4).bind fun _ => (Local.ofCheck _).bind fun _ => Local.pure _

section

variable {α : Type} {skip : ValueType → Walk Unit}

theorem local_findPair (hskip : ∀ vt, Local (skip vt)) (key : String) {read : ValueType → Walk α}
    (hread : ∀ vt, Local (read vt)) (pairs : ℕ) : Local (findPair skip key read pairs) := by
  induction pairs with
  | zero => exact Local.pure none
  | succ pairs ih =>
    refine local_pairHead.bind fun head => ?_
    obtain ⟨found, vt⟩ := head
    dsimp only
    split_ifs
    · exact (hread vt).bind fun _ => Local.pure _
    · exact (hskip vt).bind fun _ => ih

theorem local_findKey (hskip : ∀ vt, Local (skip vt)) (key : String) {read : ValueType → Walk α}
    (hread : ∀ vt, Local (read vt)) : Local (findKey skip key read) :=
  local_preamble.bind fun _ => (Local.word 8).bind fun _ => local_pairCount.bind fun pairs =>
    local_findPair hskip key hread pairs

theorem local_walkPairs (hskip : ∀ vt, Local (skip vt)) (pairs alignment : ℕ) :
    Local (walkPairs skip pairs alignment) := by
  induction pairs generalizing alignment with
  | zero => exact Local.pure alignment
  | succ pairs ih =>
    refine local_pairHead.bind fun head => ?_
    obtain ⟨key, vt⟩ := head
    dsimp only
    split_ifs
    · exact (Local.word 4).bind fun declared => (Local.refuseIf _ _).bind fun _ => ih declared
    · exact (hskip vt).bind fun _ => ih alignment

end

theorem local_readTensor : Local readTensor :=
  Reader.local_string.bind fun _ => (Local.word 4).bind fun n => (Local.refuseIf _ _).bind fun _ =>
    ((Local.word 8).times n).bind fun _ => (Local.word 4).bind fun _ => (Local.word 8).bind fun _ => Local.pure _

theorem local_tensorDirectory {skip : ValueType → Walk Unit} (hskip : ∀ vt, Local (skip vt)) :
    Local (tensorDirectory skip) := by
  refine local_preamble.bind fun _ => (Local.word 8).bind fun _ => (Local.refuseIf _ _).bind fun _ =>
    local_pairCount.bind fun pairs => (local_walkPairs hskip pairs _).bind fun _ => (local_readTensor.times _).bind fun _ =>
      Local.position.bind fun _ => ?_
  split
  · exact Local.refuse _
  · exact Local.pure _

theorem local_stringValue (key : String) (vt : ValueType) : Local (stringValue key vt) := by
  unfold stringValue
  split_ifs
  · exact Reader.local_string.bind fun _ => Local.pure _
  · exact Local.refuse _

theorem local_scalarValue (fc : FloatCast) (key : String) (wanted : Scalar → Option Scalar) (vt : ValueType) :
    Local (scalarValue fc key wanted vt) := by
  unfold scalarValue
  refine .bind (.orRefuse ?_ _) fun found => ?_
  · unfold readScalar
    split
    · exact Local.pure none
    · exact (Local.word _).bind fun _ => Local.pure _
  · split
    · exact Local.refuse _
    · split
      · exact Local.pure _
      · exact Local.refuse _

/-! ## Where an accessor stops -/

/-- a walk that has stopped at `k` or before, or not among the bytes at all -/
def Ends {α : Type} (o : Outcome (α × ℕ)) (k : ℕ) : Prop :=
  match o with
  | .done (_, j) => j ≤ k
  | .refused _ => True
  | .overflow => True
  | .truncated => False
  | .outside => False

theorem Ends.mono {α : Type} {o : Outcome (α × ℕ)} {j k : ℕ} (h : Ends o j) (hjk : j ≤ k) : Ends o k := by
  cases o with
  | done r => exact le_trans h hjk
  | truncated => exact h
  | refused e => trivial
  | outside => exact h
  | overflow => trivial

theorem ends_bind {α β : Type} {p : Walk α} {f : α → Walk β} {bytes : List UInt8} {i j k : ℕ} (hp : Ends (p.go bytes i) j)
    (hf : ∀ a l, p.go bytes i = .done (a, l) → Ends ((f a).go bytes l) k) : Ends ((p >>= f).go bytes i) k := by
  rw [bind_apply]
  cases hgo : p.go bytes i with
  | done r =>
    obtain ⟨a, l⟩ := r
    exact hf a l hgo
  | truncated =>
    rw [hgo] at hp
    exact hp
  | refused e => trivial
  | outside =>
    rw [hgo] at hp
    exact hp
  | overflow => trivial

/-- an accessor's own read stops where the value does, or refuses it -/
structure ReadsValue {α : Type} (read : ValueType → Walk α) : Prop where
  fixed : ∀ vt w bytes i, vt.fixedWidth = some w → i + w ≤ bytes.length → Ends ((read vt).go bytes i) (i + w)
  string : ∀ bytes i b k, Reader.string.go bytes i = .done (b, k) → Ends ((read .string).go bytes i) k
  array : ∀ bytes i k, Ends ((read .array).go bytes i) k

/-- what is stepped over can be read -/
theorem ReadsValue.ends {α : Type} {read : ValueType → Walk α} (h : ReadsValue read) {stack : ℕ} {vt : ValueType}
    {bytes : List UInt8} {i k : ℕ} {u : Unit} (hskip : (skipValue stack vt).go bytes i = .done (u, k)) :
    Ends ((read vt).go bytes i) k := by
  cases stack with
  | zero => cases hskip
  | succ stack =>
    rcases hw : vt.fixedWidth with _ | w
    · cases vt with
      | string =>
        rw [skipValue] at hskip
        obtain ⟨b, j, hj, hpure⟩ := bind_done.1 hskip
        obtain ⟨-, rfl⟩ := Prod.mk.inj (Outcome.done.inj hpure)
        exact h.string bytes i b j hj
      | array => exact h.array bytes i k
      | _ => cases hw
    · have hfixed : skipValue (stack + 1) vt = Reader.skip w := by
        cases vt with
        | string => cases hw
        | array => cases hw
        | _ => exact congrArg Reader.skip (congrArg (Option.getD · 0) hw)
      rw [hfixed] at hskip
      obtain ⟨b, j, hj, hpure⟩ := bind_done.1 hskip
      obtain ⟨-, rfl⟩ := Prod.mk.inj (Outcome.done.inj hpure)
      obtain ⟨hle, -, rfl⟩ := take_done.1 hj
      exact h.fixed vt w bytes i hw hle

theorem readsValue_string (key : String) : ReadsValue (stringValue key) := by
  refine ⟨fun vt w bytes i hw _ => ?_, fun bytes i b k hb => ?_, fun bytes i k => ?_⟩
  · have hne : vt ≠ .string := by
      rintro rfl
      cases hw
    rw [stringValue, if_neg hne]
    trivial
  · rw [stringValue, if_pos rfl, bind_of_done hb]
    exact le_rfl
  · rw [stringValue, if_neg (by decide)]
    trivial

theorem readsValue_scalar (fc : FloatCast) (key : String) (wanted : Scalar → Option Scalar) :
    ReadsValue (scalarValue fc key wanted) := by
  have hnone : ∀ (vt : ValueType) (bytes : List UInt8) (i k : ℕ), vt.fixedWidth = none →
      Ends ((scalarValue fc key wanted vt).go bytes i) k := by
    intro vt bytes i k hw
    have hread : (readScalar fc vt).go bytes i = .done (none, i) := by
      unfold readScalar
      rw [hw]
      rfl
    rw [scalarValue, bind_of_done (orRefuse_done.2 hread)]
    trivial
  refine ⟨fun vt w bytes i hw hle => ?_, fun bytes i b k hb => ?_, fun bytes i k => ?_⟩
  · have hread : (readScalar fc vt).go bytes i = .done (vt.scalar fc (leNat ((bytes.drop i).take w)), i + w) := by
      unfold readScalar
      rw [hw]
      have hword := word_apply w bytes i
      rw [if_pos hle] at hword
      exact bind_of_done hword
    rw [scalarValue, bind_of_done (orRefuse_done.2 hread)]
    split
    · trivial
    · split
      · exact le_rfl
      · trivial
  · exact hnone .string bytes i k rfl
  · have hread : (readScalar fc .array).go bytes i = .done (none, i) := rfl
    rw [scalarValue, bind_of_done (orRefuse_done.2 hread)]
    trivial

theorem refuseIf_stop {c : Prop} [Decidable c] {e : String} {bytes : List UInt8} {i j : ℕ} {u : Unit}
    (h : (refuseIf c e).go bytes i = .done (u, j)) : j = i := by
  unfold refuseIf at h
  split_ifs at h
  · cases h
  · exact (Prod.mk.inj (Outcome.done.inj h)).2.symm

section

variable {α : Type} (stack : ℕ) (key : String) {read : ValueType → Walk α}

/-- the accessor walks over the entries the directory walks over -/
theorem findPair_ends (hread : ReadsValue read) (pairs : ℕ) {bytes : List UInt8} {alignment alignment' i k : ℕ}
    (h : (walkPairs (skipValue stack) pairs alignment).go bytes i = .done (alignment', k)) :
    Ends ((findPair (skipValue stack) key read pairs).go bytes i) k := by
  induction pairs generalizing alignment i with
  | zero =>
    obtain ⟨-, rfl⟩ := Prod.mk.inj (Outcome.done.inj h)
    exact le_rfl
  | succ pairs ih =>
    rw [walkPairs] at h
    obtain ⟨⟨found, vt⟩, j, hhead, hrest⟩ := bind_done.1 h
    rw [findPair, bind_of_done hhead]
    dsimp only at hrest ⊢
    -- both read on from the end of this value
    have hnext : ∃ l alignment, (∀ u m, (skipValue stack vt).go bytes j = .done (u, m) → m = l) ∧
        Ends ((skipValue stack vt).go bytes j) l ∧ Ends ((read vt).go bytes j) l ∧
        (walkPairs (skipValue stack) pairs alignment).go bytes l = .done (alignment', k) := by
      split_ifs at hrest with halign
      · obtain ⟨-, rfl⟩ := halign
        obtain ⟨declared, l, hdeclared, hrest⟩ := bind_done.1 hrest
        obtain ⟨_, l', hrefuse, hrest⟩ := bind_done.1 hrest
        rw [Reader.u32, word_apply] at hdeclared
        split_ifs at hdeclared with hle
        obtain ⟨rfl, rfl⟩ := Prod.mk.inj (Outcome.done.inj hdeclared)
        obtain rfl : l' = j + 4 := refuseIf_stop hrefuse
        have hskip : stack = 0 ∨ (skipValue stack .u32).go bytes j = .done ((), j + 4) := by
          cases stack with
          | zero => exact .inl rfl
          | succ stack => exact .inr (bind_of_done (take_done.2 ⟨hle, rfl, rfl⟩))
        refine ⟨j + 4, _, ?_, ?_, hread.fixed .u32 4 bytes j rfl hle, hrest⟩
        · intro u m hm
          rcases hskip with rfl | hskip
          · cases hm
          · rw [hskip] at hm
            exact (Prod.mk.inj (Outcome.done.inj hm)).2.symm
        · rcases hskip with rfl | hskip
          · trivial
          · rw [hskip]
            exact le_rfl
      · obtain ⟨u, l, hskip, hrest⟩ := bind_done.1 hrest
        refine ⟨l, alignment, fun u m hm => ?_, ?_, hread.ends hskip, hrest⟩
        · rw [hskip] at hm
          exact (Prod.mk.inj (Outcome.done.inj hm)).2.symm
        · rw [hskip]
          exact le_rfl
    obtain ⟨l, alignment, hstop, hskip, hvalue, hwalk⟩ := hnext
    have hle : l ≤ k := (local_walkPairs (local_skipValue stack) pairs alignment bytes l _ k hwalk).1
    split_ifs
    · refine ends_bind hvalue fun a m hm => ?_
      rw [hm] at hvalue
      exact le_trans hvalue hle
    · refine ends_bind hskip fun u m hm => ?_
      rw [hstop u m hm]
      exact ih hwalk

/-- on a file whose directory can be read, an accessor of the metadata stops before the end of the directory -/
theorem findKey_ends (hread : ReadsValue read) {bytes : List UInt8} {d : TensorDirectory} {k : ℕ}
    (h : (tensorDirectory (skipValue stack)).go bytes 0 = .done (some d, k)) :
    Ends ((findKey (skipValue stack) key read).go bytes 0) k := by
  obtain ⟨_, i, hpreamble, hbody⟩ := bind_done.1 h
  obtain ⟨tensorCount, j, htensors, hcounted⟩ := bind_done.1 hbody
  obtain ⟨_, j', hrefuse, hplausible⟩ := bind_done.1 hcounted
  obtain rfl : j' = j := refuseIf_stop hrefuse
  obtain ⟨pairs, l, hpairs, hentries⟩ := bind_done.1 hplausible
  obtain ⟨alignment, m, hwalk, hrecords⟩ := bind_done.1 hentries
  have hle : m ≤ k := by
    refine (Local.bind (local_readTensor.times _) (fun _ => Local.position.bind fun _ => ?_) bytes m _ k hrecords).1
    split
    · exact Local.refuse _
    · exact Local.pure _
  rw [findKey, bind_of_done hpreamble, findKeyBody, bind_of_done htensors, bind_of_done hpairs]
  exact (findPair_ends stack key hread pairs hwalk).mono hle

end

theorem le_alignUp {value alignment d : ℕ} (h : alignUp value alignment = some d) : value ≤ d := by
  unfold alignUp at h
  dsimp only at h
  split_ifs at h
  · exact (Option.some.inj h).le
  · exact (Option.some.inj h).le
  · have := Option.some.inj h
    omega

/-- the directory ends before the data -/
theorem directory_stop {skip : ValueType → Walk Unit} {bytes : List UInt8} {d : TensorDirectory} {k : ℕ}
    (h : (tensorDirectory skip).go bytes 0 = .done (some d, k)) : k ≤ d.dataStart := by
  obtain ⟨_, _, -, hbody⟩ := bind_done.1 h
  obtain ⟨_, _, -, hcounted⟩ := bind_done.1 hbody
  obtain ⟨_, _, -, hplausible⟩ := bind_done.1 hcounted
  obtain ⟨_, _, -, hentries⟩ := bind_done.1 hplausible
  obtain ⟨_, _, -, hrecords⟩ := bind_done.1 hentries
  obtain ⟨_, _, -, hend⟩ := bind_done.1 hrecords
  obtain ⟨stop, l, hstop, hdone⟩ := bind_done.1 hend
  obtain ⟨rfl, rfl⟩ := Prod.mk.inj (Outcome.done.inj hstop)
  split at hdone
  · cases hdone
  · next dataStart halign =>
    obtain ⟨hd, rfl⟩ := Prod.mk.inj (Outcome.done.inj hdone)
    obtain rfl := Option.some.inj hd
    exact le_alignUp halign

theorem run_some {α : Type} {p : Walk (Option α)} {bytes : List UInt8} {a : α} :
    p.run bytes = .done (some a) ↔ ∃ k, p.go bytes 0 = .done (some a, k) := by
  unfold Walk.run
  cases p.go bytes 0 with
  | done r => simp [Prod.ext_iff]
  | truncated => simp
  | refused e => simp
  | outside => simp
  | overflow => simp

section

variable {stack : ℕ} {bytes other : List UInt8} {d : TensorDirectory}

theorem take_of_take {j k : ℕ} (hjk : j ≤ k) (h : other.take k = bytes.take k) : other.take j = bytes.take j := by
  have hshort := congrArg (List.take j) h
  rwa [List.take_take, List.take_take, min_eq_left hjk] at hshort

/-- **The directory stands before the data.** -/
theorem directory_before (h : (tensorDirectory (skipValue stack)).run bytes = .done (some d))
    (hsame : other.take d.dataStart = bytes.take d.dataStart) :
    (tensorDirectory (skipValue stack)).run other = .done (some d) := by
  obtain ⟨k, hk⟩ := run_some.1 h
  obtain ⟨-, hother⟩ := local_tensorDirectory (local_skipValue stack) bytes 0 _ k hk
  exact run_some.2 ⟨k, hother other (take_of_take (directory_stop hk) hsame)⟩

/-- **The metadata stands before the data.** An accessor that answers on one file answers the same on the other. -/
theorem metadata_before {α : Type} {key : String} {read : ValueType → Walk α} (hlocal : ∀ vt, Local (read vt))
    (hread : ReadsValue read) (h : (tensorDirectory (skipValue stack)).run bytes = .done (some d))
    (hsame : other.take d.dataStart = bytes.take d.dataStart) {v : Option α}
    (hv : (findKey (skipValue stack) key read).run bytes = .done v) :
    (findKey (skipValue stack) key read).run other = .done v := by
  obtain ⟨k, hk⟩ := run_some.1 h
  have hends := findKey_ends stack key hread hk
  unfold Walk.run at hv ⊢
  cases hgo : (findKey (skipValue stack) key read).go bytes 0 with
  | done r =>
    obtain ⟨a, j⟩ := r
    rw [hgo] at hv hends
    have hjk : j ≤ d.dataStart := le_trans hends (directory_stop hk)
    obtain ⟨-, hother⟩ := local_findKey (local_skipValue stack) key hlocal bytes 0 a j hgo
    rw [hother other (take_of_take hjk hsame)]
    exact hv
  | truncated =>
    rw [hgo] at hends
    exact hends.elim
  | refused e =>
    rw [hgo] at hv
    cases hv
  | outside =>
    rw [hgo] at hends
    exact hends.elim
  | overflow =>
    rw [hgo] at hv
    cases hv

end

end Hocmesh.Model
