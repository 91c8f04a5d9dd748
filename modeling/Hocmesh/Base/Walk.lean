/-
Reading a byte string from front to back.

A `Walk` is given the whole string and a position. It ends with a value and a new position, or the bytes end first, or it
refuses what it has read. Two more ends are what a program should not come to: an index outside the bytes it has taken,
and a call deeper than its stack.

Four properties are closed under what walks are built from:
- `Stable`: unless the bytes end first, bytes that follow make no difference;
- `Local`: a value depends on no byte behind the position it leaves the walk at;
- `Inside`: the position stays in the string and no index is out of range;
- `Reads p a e`: wherever `e` stands, the walk reads `a` from it and stops behind it.
`Shallow` walks do not overflow, and a walk `Within` another does what the other does or overflows.
-/
import Hocmesh.Base.Check

namespace Hocmesh.Base

/-- how a walk ends -/
inductive Outcome (α : Type) where
  | done (a : α)
  /-- the bytes end before the answer -/
  | truncated
  | refused (e : String)
  /-- an index outside the bytes taken -/
  | outside
  /-- a call deeper than the stack -/
  | overflow
deriving DecidableEq

/-- a walk over a byte string from a position -/
@[ext] structure Walk (α : Type) where
  go : List UInt8 → ℕ → Outcome (α × ℕ)

/-- the number that bytes spell, least significant first -/
def leNat : List UInt8 → ℕ
  | [] => 0
  | b :: bytes => b.toNat + 256 * leNat bytes

/-- a number as `w` bytes, least significant first -/
def le : ℕ → ℕ → List UInt8
  | 0, _ => []
  | w + 1, n => UInt8.ofNat n :: le w (n / 256)

@[simp] theorem length_le (w n : ℕ) : (le w n).length = w := by
  induction w generalizing n with
  | zero => rfl
  | succ w ih => rw [le, List.length_cons, ih]

theorem leNat_le (w n : ℕ) : leNat (le w n) = n % 256 ^ w := by
  induction w generalizing n with
  | zero => simp [le, leNat, Nat.mod_one]
  | succ w ih =>
    have hbyte : (UInt8.ofNat n).toNat = n % 256 := UInt8.toNat_ofNat' 
    rw [le, leNat, ih, hbyte, Nat.pow_succ, Nat.mul_comm (256 ^ w) 256, Nat.mod_mul]

theorem leNat_lt (bytes : List UInt8) : leNat bytes < 256 ^ bytes.length := by
  induction bytes with
  | nil => simp [leNat]
  | cons b bytes ih =>
    have hb : b.toNat < 256 := b.toNat_lt
    rw [leNat, List.length_cons, pow_succ]
    omega

namespace Walk

variable {α β : Type}

protected def bind (p : Walk α) (f : α → Walk β) : Walk β where
  go bytes i := match p.go bytes i with
    | .done (a, j) => (f a).go bytes j
    | .truncated => .truncated
    | .refused e => .refused e
    | .outside => .outside
    | .overflow => .overflow

instance : Monad Walk where
  pure a := ⟨fun _ i => .done (a, i)⟩
  bind := Walk.bind

theorem pure_apply (a : α) (bytes : List UInt8) (i : ℕ) : (pure a : Walk α).go bytes i = .done (a, i) := rfl

theorem bind_apply (p : Walk α) (f : α → Walk β) (bytes : List UInt8) (i : ℕ) :
    (p >>= f).go bytes i = match p.go bytes i with
      | .done (a, j) => (f a).go bytes j
      | .truncated => .truncated
      | .refused e => .refused e
      | .outside => .outside
      | .overflow => .overflow := rfl

theorem bind_of_done {p : Walk α} {f : α → Walk β} {bytes : List UInt8} {i j : ℕ} {a : α} (h : p.go bytes i = .done (a, j)) :
    (p >>= f).go bytes i = (f a).go bytes j := by
  rw [bind_apply, h]

theorem bind_done {p : Walk α} {f : α → Walk β} {bytes : List UInt8} {i k : ℕ} {b : β} :
    (p >>= f).go bytes i = .done (b, k) ↔ ∃ a j, p.go bytes i = .done (a, j) ∧ (f a).go bytes j = .done (b, k) := by
  rw [bind_apply]
  cases h : p.go bytes i with
  | done r =>
    obtain ⟨a, j⟩ := r
    simp
  | truncated => simp
  | refused e => simp
  | outside => simp
  | overflow => simp

theorem bind_assoc {γ : Type} (p : Walk α) (f : α → Walk β) (g : β → Walk γ) :
    p >>= f >>= g = p >>= fun a => f a >>= g := by
  apply Walk.ext
  funext bytes i
  rw [bind_apply, bind_apply, bind_apply]
  cases p.go bytes i with
  | done r => rfl
  | truncated => rfl
  | refused e => rfl
  | outside => rfl
  | overflow => rfl

/-- the bytes are taken to have ended -/
def runOut : Walk α := ⟨fun _ _ => .truncated⟩

def refuse (e : String) : Walk α := ⟨fun _ _ => .refused e⟩

def refuseIf (c : Prop) [Decidable c] (e : String) : Walk Unit := if c then refuse e else pure ()

/-- `?` on a check made outside the bytes -/
def ofCheck : Check α → Walk α
  | .ok a => pure a
  | .error e => refuse e

/-- more frames than the stack has -/
def overrun : Walk α := ⟨fun _ _ => .overflow⟩

/-- the next `n` bytes -/
def take (n : ℕ) : Walk (List UInt8) where
  go bytes i := if i + n ≤ bytes.length then .done ((bytes.drop i).take n, i + n) else .truncated

/-- `l[k]` -/
def item (l : List α) (k : ℕ) : Walk α where
  go _ i := match l[k]? with
    | some a => .done (a, i)
    | none => .outside

/-- `[l[0], …, l[n - 1]]` -/
def items (l : List UInt8) : ℕ → Walk (List UInt8)
  | 0 => pure []
  | n + 1 => do
    let front ← items l n
    let last ← item l n
    pure (front ++ [last])

def position : Walk ℕ := ⟨fun _ i => .done (i, i)⟩

/-- a walk whose bytes ending is reported as `e` -/
def orRefuse (p : Walk α) (e : String) : Walk α where
  go bytes i := match p.go bytes i with
    | .truncated => .refused e
    | o => o

/-- a walk made `n` times -/
def times : ℕ → Walk α → Walk (List α)
  | 0, _ => pure []
  | n + 1, p => do
    let a ← p
    let l ← times n p
    pure (a :: l)

/-- a number of `n` bytes: `uN::from_le_bytes` of the next `n` -/
def word (n : ℕ) : Walk ℕ := do
  let b ← take n
  let b ← items b n
  pure (leNat b)

/-- the answer of a walk over the whole string; one that is not in the bytes is no answer -/
def run (p : Walk (Option α)) (bytes : List UInt8) : Outcome (Option α) :=
  match p.go bytes 0 with
  | .done (a, _) => .done a
  | .truncated => .done none
  | .refused e => .refused e
  | .outside => .outside
  | .overflow => .overflow

theorem items_apply (l bytes : List UInt8) (n i : ℕ) (h : n ≤ l.length) : (items l n).go bytes i = .done (l.take n, i) := by
  induction n with
  | zero => rfl
  | succ n ih =>
    rw [items, bind_of_done (ih (by omega))]
    have hitem : (item l n).go bytes i = .done (l[n], i) := by
      rw [item, List.getElem?_eq_getElem (by omega)]
    rw [bind_of_done hitem, pure_apply, List.take_succ_eq_append_getElem (by omega)]

theorem take_apply (n : ℕ) (bytes : List UInt8) (i : ℕ) :
    (take n).go bytes i = if i + n ≤ bytes.length then .done ((bytes.drop i).take n, i + n) else .truncated := rfl

theorem take_done {n i j : ℕ} {bytes b : List UInt8} :
    (take n).go bytes i = .done (b, j) ↔ i + n ≤ bytes.length ∧ (bytes.drop i).take n = b ∧ i + n = j := by
  rw [take_apply]
  split_ifs with h
  · simp only [Outcome.done.injEq, Prod.mk.injEq, h, true_and]
  · simp only [h, false_and]

/-- the bytes taken are as many as asked for, so no index of a word is out of range -/
theorem word_apply (n : ℕ) (bytes : List UInt8) (i : ℕ) :
    (word n).go bytes i = if i + n ≤ bytes.length then .done (leNat ((bytes.drop i).take n), i + n) else .truncated := by
  unfold word
  by_cases h : i + n ≤ bytes.length
  · have hlen : ((bytes.drop i).take n).length = n := by
      rw [List.length_take, List.length_drop]
      omega
    rw [if_pos h, bind_of_done (take_done.2 ⟨h, rfl, rfl⟩), bind_of_done (items_apply _ _ _ _ (by omega)), pure_apply,
      List.take_of_length_le (by omega)]
  · rw [if_neg h, bind_apply, take_apply, if_neg h]

/-! ## Bytes that follow -/

/-- unless the bytes end first, bytes that follow make no difference -/
def Stable (p : Walk α) : Prop := ∀ bytes more i, p.go bytes i ≠ .truncated → p.go (bytes ++ more) i = p.go bytes i

theorem Stable.pure (a : α) : Stable (pure a : Walk α) := fun _ _ _ _ => rfl

theorem Stable.runOut : Stable (runOut : Walk α) := fun _ _ _ _ => rfl

theorem Stable.refuse (e : String) : Stable (refuse e : Walk α) := fun _ _ _ _ => rfl

theorem Stable.overrun : Stable (overrun : Walk α) := fun _ _ _ _ => rfl

theorem Stable.position : Stable position := fun _ _ _ _ => rfl

theorem Stable.refuseIf (c : Prop) [Decidable c] (e : String) : Stable (refuseIf c e) := by
  unfold Walk.refuseIf
  split_ifs
  · exact Stable.refuse e
  · exact Stable.pure ()

theorem Stable.ofCheck (c : Check α) : Stable (ofCheck c) := by
  cases c with
  | ok a => exact Stable.pure a
  | error e => exact Stable.refuse e

theorem Stable.take (n : ℕ) : Stable (take n) := by
  intro bytes more i h
  by_cases hin : i + n ≤ bytes.length
  · have hlong : i + n ≤ (bytes ++ more).length := by
      rw [List.length_append]
      omega
    rw [take_apply, take_apply, if_pos hin, if_pos hlong, List.drop_append_of_le_length (by omega),
      List.take_append_of_le_length (by rw [List.length_drop]; omega)]
  · exact absurd (if_neg hin) h

theorem Stable.word (n : ℕ) : Stable (word n) := by
  intro bytes more i h
  have htake : (Walk.take n).go bytes i ≠ .truncated := by
    intro heq
    rw [Walk.word, bind_apply, heq] at h
    exact h rfl
  have hlong := Stable.take n bytes more i htake
  by_cases hin : i + n ≤ bytes.length
  · have hdone := take_done.2 ⟨hin, rfl, rfl⟩
    obtain ⟨hin', heq, -⟩ := take_done.1 (hlong.trans hdone)
    rw [word_apply, word_apply, if_pos hin, if_pos hin', heq]
  · exact absurd (if_neg hin) htake

theorem Stable.bind {p : Walk α} {f : α → Walk β} (hp : Stable p) (hf : ∀ a, Stable (f a)) : Stable (p >>= f) := by
  intro bytes more i h
  rw [bind_apply] at h ⊢
  rw [bind_apply]
  have hfirst : p.go bytes i ≠ .truncated := by
    intro heq
    rw [heq] at h
    exact h rfl
  rw [hp bytes more i hfirst]
  cases hr : p.go bytes i with
  | done r =>
    obtain ⟨a, j⟩ := r
    rw [hr] at h
    exact hf a bytes more j h
  | truncated => exact absurd hr hfirst
  | refused e => rfl
  | outside => rfl
  | overflow => rfl

theorem Stable.times {p : Walk α} (hp : Stable p) (n : ℕ) : Stable (times n p) := by
  induction n with
  | zero => exact Stable.pure []
  | succ n ih => exact hp.bind fun a => ih.bind fun l => Stable.pure _

/-- **A cut.** On the start of a string a stable walk has the answer it has on the string, or none. -/
theorem Stable.run_cut {p : Walk (Option α)} (hp : Stable p) (bytes more : List UInt8) :
    p.run bytes = .done none ∨ p.run bytes = p.run (bytes ++ more) := by
  by_cases h : p.go bytes 0 = .truncated
  · left
    rw [Walk.run, h]
  · right
    rw [Walk.run, Walk.run, hp bytes more 0 h]

/-! ## The bytes up to the answer -/

/-- a walk that ends with a value does not go back, and reads nothing behind the position it ends at -/
def Local (p : Walk α) : Prop := ∀ bytes i a j, p.go bytes i = .done (a, j) →
  i ≤ j ∧ ∀ other : List UInt8, other.take j = bytes.take j → p.go other i = .done (a, j)

theorem Local.pure (a : α) : Local (pure a : Walk α) := by
  intro bytes i b j h
  obtain ⟨rfl, rfl⟩ := Prod.mk.inj (Outcome.done.inj h)
  exact ⟨le_rfl, fun _ _ => rfl⟩

theorem Local.position : Local position := by
  intro bytes i b j h
  obtain ⟨rfl, rfl⟩ := Prod.mk.inj (Outcome.done.inj h)
  exact ⟨le_rfl, fun _ _ => rfl⟩

theorem Local.runOut : Local (runOut : Walk α) := by
  intro bytes i a j h
  cases h

theorem Local.refuse (e : String) : Local (refuse e : Walk α) := by
  intro bytes i a j h
  cases h

theorem Local.overrun : Local (overrun : Walk α) := by
  intro bytes i a j h
  cases h

theorem Local.refuseIf (c : Prop) [Decidable c] (e : String) : Local (refuseIf c e) := by
  unfold Walk.refuseIf
  split_ifs
  · exact Local.refuse e
  · exact Local.pure ()

theorem Local.ofCheck (c : Check α) : Local (ofCheck c) := by
  cases c with
  | ok a => exact Local.pure a
  | error e => exact Local.refuse e

theorem Local.take (n : ℕ) : Local (take n) := by
  intro bytes i b j h
  obtain ⟨hle, rfl, rfl⟩ := take_done.1 h
  refine ⟨by omega, fun other hother => take_done.2 ⟨?_, ?_, rfl⟩⟩
  · have hlen := congrArg List.length hother
    simp only [List.length_take] at hlen
    omega
  · rw [List.take_drop, List.take_drop, hother]

theorem Local.bind {p : Walk α} {f : α → Walk β} (hp : Local p) (hf : ∀ a, Local (f a)) : Local (p >>= f) := by
  intro bytes i b k h
  obtain ⟨a, j, hj, hk⟩ := bind_done.1 h
  obtain ⟨hij, hother⟩ := hp bytes i a j hj
  obtain ⟨hjk, hother'⟩ := hf a bytes j b k hk
  refine ⟨hij.trans hjk, fun other heq => bind_done.2 ⟨a, j, hother other ?_, hother' other heq⟩⟩
  have hshort := congrArg (List.take j) heq
  rwa [List.take_take, List.take_take, min_eq_left hjk] at hshort

theorem Local.items (l : List UInt8) (n : ℕ) : Local (items l n) := by
  induction n with
  | zero => exact Local.pure []
  | succ n ih =>
    refine ih.bind fun front => .bind ?_ fun last => Local.pure _
    intro bytes i a j h
    unfold item at h ⊢
    cases hn : l[n]? with
    | none => simp [hn] at h
    | some b =>
      simp only [hn, Outcome.done.injEq, Prod.mk.injEq] at h
      obtain ⟨rfl, rfl⟩ := h
      exact ⟨le_rfl, fun _ _ => rfl⟩

theorem Local.word (n : ℕ) : Local (word n) :=
  (Local.take n).bind fun b => (Local.items b n).bind fun _ => Local.pure _

theorem Local.times {p : Walk α} (hp : Local p) (n : ℕ) : Local (times n p) := by
  induction n with
  | zero => exact Local.pure []
  | succ n ih => exact hp.bind fun a => ih.bind fun l => Local.pure _

theorem orRefuse_done {p : Walk α} {e : String} {bytes : List UInt8} {i j : ℕ} {a : α} :
    (orRefuse p e).go bytes i = .done (a, j) ↔ p.go bytes i = .done (a, j) := by
  unfold Walk.orRefuse
  dsimp only
  cases p.go bytes i with
  | done r => rfl
  | truncated => simp
  | refused e => simp
  | outside => simp
  | overflow => simp

theorem Local.orRefuse {p : Walk α} (hp : Local p) (e : String) : Local (orRefuse p e) := by
  intro bytes i a j h
  obtain ⟨hij, hother⟩ := hp bytes i a j (orRefuse_done.1 h)
  exact ⟨hij, fun other heq => orRefuse_done.2 (hother other heq)⟩

/-! ## The end of the string -/

/-- the position stays in the string and no index is out of range -/
def Inside (p : Walk α) : Prop :=
  ∀ bytes i, i ≤ bytes.length → p.go bytes i ≠ .outside ∧ ∀ a j, p.go bytes i = .done (a, j) → i ≤ j ∧ j ≤ bytes.length

theorem Inside.pure (a : α) : Inside (pure a : Walk α) := by
  intro bytes i hi
  refine ⟨by simp [pure_apply], ?_⟩
  intro b j h
  obtain ⟨-, rfl⟩ := Prod.mk.inj (Outcome.done.inj h)
  exact ⟨le_rfl, hi⟩

theorem Inside.runOut : Inside (runOut : Walk α) := fun _ _ _ => ⟨by simp [Walk.runOut], by simp [Walk.runOut]⟩

theorem Inside.refuse (e : String) : Inside (refuse e : Walk α) := fun _ _ _ => ⟨by simp [Walk.refuse], by simp [Walk.refuse]⟩

theorem Inside.overrun : Inside (overrun : Walk α) := fun _ _ _ => ⟨by simp [Walk.overrun], by simp [Walk.overrun]⟩

theorem Inside.position : Inside position := by
  intro bytes i hi
  refine ⟨by simp [Walk.position], ?_⟩
  intro b j h
  obtain ⟨-, rfl⟩ := Prod.mk.inj (Outcome.done.inj h)
  exact ⟨le_rfl, hi⟩

theorem Inside.refuseIf (c : Prop) [Decidable c] (e : String) : Inside (refuseIf c e) := by
  unfold Walk.refuseIf
  split_ifs
  · exact Inside.refuse e
  · exact Inside.pure ()

theorem Inside.ofCheck (c : Check α) : Inside (ofCheck c) := by
  cases c with
  | ok a => exact Inside.pure a
  | error e => exact Inside.refuse e

theorem Inside.take (n : ℕ) : Inside (take n) := by
  intro bytes i _
  refine ⟨?_, ?_⟩
  · rw [take_apply]
    split_ifs <;> simp
  · intro b j h
    obtain ⟨h1, -, rfl⟩ := take_done.1 h
    exact ⟨Nat.le_add_right i n, h1⟩

theorem Inside.word (n : ℕ) : Inside (word n) := by
  intro bytes i _
  rw [word_apply]
  split_ifs with h
  · refine ⟨by simp, ?_⟩
    intro b j hd
    obtain ⟨-, rfl⟩ := Prod.mk.inj (Outcome.done.inj hd)
    exact ⟨Nat.le_add_right i n, h⟩
  · exact ⟨by simp, by simp⟩

theorem Inside.bind {p : Walk α} {f : α → Walk β} (hp : Inside p) (hf : ∀ a, Inside (f a)) : Inside (p >>= f) := by
  intro bytes i hi
  obtain ⟨hne, hdone⟩ := hp bytes i hi
  rw [bind_apply]
  cases hr : p.go bytes i with
  | done r =>
    obtain ⟨a, j⟩ := r
    obtain ⟨hij, hj⟩ := hdone a j hr
    obtain ⟨hne', hdone'⟩ := hf a bytes j hj
    refine ⟨hne', ?_⟩
    intro b k hk
    have := hdone' b k hk
    omega
  | truncated => exact ⟨by simp, by simp⟩
  | refused e => exact ⟨by simp, by simp⟩
  | outside => exact absurd hr hne
  | overflow => exact ⟨by simp, by simp⟩

theorem Inside.times {p : Walk α} (hp : Inside p) (n : ℕ) : Inside (times n p) := by
  induction n with
  | zero => exact Inside.pure []
  | succ n ih => exact hp.bind fun a => ih.bind fun l => Inside.pure _

theorem Inside.orRefuse {p : Walk α} (hp : Inside p) (e : String) : Inside (orRefuse p e) := by
  intro bytes i hi
  obtain ⟨hne, hdone⟩ := hp bytes i hi
  simp only [Walk.orRefuse]
  cases hr : p.go bytes i with
  | done r => exact ⟨by simp, by rw [hr] at hdone; exact hdone⟩
  | truncated => exact ⟨by simp, by simp⟩
  | refused e => exact ⟨by simp, by simp⟩
  | outside => exact absurd hr hne
  | overflow => exact ⟨by simp, by simp⟩

theorem Inside.run_ne {p : Walk (Option α)} (hp : Inside p) (bytes : List UInt8) : p.run bytes ≠ .outside := by
  have hne := (hp bytes 0 (Nat.zero_le _)).1
  rw [Walk.run]
  cases hr : p.go bytes 0 with
  | done r => simp
  | truncated => simp
  | refused e => simp
  | outside => exact absurd hr hne
  | overflow => simp

/-! ## The stack -/

/-- the walk does not overflow -/
def Shallow (p : Walk α) : Prop := ∀ bytes i, p.go bytes i ≠ .overflow

theorem Shallow.pure (a : α) : Shallow (pure a : Walk α) := fun _ _ h => by cases h

theorem Shallow.runOut : Shallow (runOut : Walk α) := fun _ _ h => by cases h

theorem Shallow.refuse (e : String) : Shallow (refuse e : Walk α) := fun _ _ h => by cases h

theorem Shallow.position : Shallow position := fun _ _ h => by cases h

theorem Shallow.refuseIf (c : Prop) [Decidable c] (e : String) : Shallow (refuseIf c e) := by
  unfold Walk.refuseIf
  split_ifs
  · exact Shallow.refuse e
  · exact Shallow.pure ()

theorem Shallow.ofCheck (c : Check α) : Shallow (ofCheck c) := by
  cases c with
  | ok a => exact Shallow.pure a
  | error e => exact Shallow.refuse e

theorem Shallow.take (n : ℕ) : Shallow (take n) := by
  intro bytes i
  rw [take_apply]
  split_ifs <;> simp

theorem Shallow.word (n : ℕ) : Shallow (word n) := by
  intro bytes i
  rw [word_apply]
  split_ifs <;> simp

theorem bind_overflow {p : Walk α} {f : α → Walk β} {bytes : List UInt8} {i : ℕ} :
    (p >>= f).go bytes i = .overflow ↔
      p.go bytes i = .overflow ∨ ∃ a j, p.go bytes i = .done (a, j) ∧ (f a).go bytes j = .overflow := by
  rw [bind_apply]
  cases h : p.go bytes i with
  | done r =>
    obtain ⟨a, j⟩ := r
    simp
  | truncated => simp
  | refused e => simp
  | outside => simp
  | overflow => simp

theorem Shallow.bind {p : Walk α} {f : α → Walk β} (hp : Shallow p) (hf : ∀ a, Shallow (f a)) : Shallow (p >>= f) := by
  intro bytes i h
  rcases bind_overflow.1 h with h | ⟨a, j, -, h⟩
  · exact hp bytes i h
  · exact hf a bytes j h

theorem Shallow.times {p : Walk α} (hp : Shallow p) (n : ℕ) : Shallow (times n p) := by
  induction n with
  | zero => exact Shallow.pure []
  | succ n ih => exact hp.bind fun a => ih.bind fun l => Shallow.pure _

theorem Shallow.orRefuse {p : Walk α} (hp : Shallow p) (e : String) : Shallow (orRefuse p e) := by
  intro bytes i h
  simp only [Walk.orRefuse] at h
  cases hr : p.go bytes i with
  | done r => rw [hr] at h; cases h
  | truncated => rw [hr] at h; cases h
  | refused e => rw [hr] at h; cases h
  | outside => rw [hr] at h; cases h
  | overflow => exact hp bytes i hr

theorem run_overflow {p : Walk (Option α)} {bytes : List UInt8} : p.run bytes = .overflow ↔ p.go bytes 0 = .overflow := by
  rw [Walk.run]
  cases p.go bytes 0 with
  | done r => simp
  | truncated => simp
  | refused e => simp
  | outside => simp
  | overflow => simp

/-- on this string and at this position one walk does what another does, or overflows -/
def Within (p q : Walk α) (bytes : List UInt8) (i : ℕ) : Prop := p.go bytes i = .overflow ∨ p.go bytes i = q.go bytes i

theorem Within.bind {p q : Walk α} {f g : α → Walk β} {bytes : List UInt8} {i : ℕ} (hp : Within p q bytes i)
    (hf : ∀ a j, q.go bytes i = .done (a, j) → Within (f a) (g a) bytes j) : Within (p >>= f) (q >>= g) bytes i := by
  rcases hp with hp | hp
  · left
    exact bind_overflow.2 (.inl hp)
  · rw [Within, bind_apply, bind_apply, hp]
    cases hr : q.go bytes i with
    | done r => exact hf r.1 r.2 hr
    | truncated => exact .inr rfl
    | refused e => exact .inr rfl
    | outside => exact .inr rfl
    | overflow => exact .inr rfl

theorem Within.refl (p : Walk α) (bytes : List UInt8) (i : ℕ) : Within p p bytes i := .inr rfl

theorem Within.times {p q : Walk α} (hq : Inside q) {bytes : List UInt8} (h : ∀ i, i ≤ bytes.length → Within p q bytes i)
    (n : ℕ) {i : ℕ} (hi : i ≤ bytes.length) : Within (times n p) (times n q) bytes i := by
  induction n generalizing i with
  | zero => exact Within.refl _ _ _
  | succ n ih =>
    refine (h i hi).bind fun a j hj => ?_
    refine (ih ((hq bytes i hi).2 a j hj).2).bind fun l k _ => ?_
    exact Within.refl _ _ _

/-- the first of several that overflows -/
theorem times_overflow {p : Walk α} {bytes : List UInt8} {n i : ℕ} :
    (times n p).go bytes i = .overflow ↔
      ∃ k < n, ∃ l j, (times k p).go bytes i = .done (l, j) ∧ p.go bytes j = .overflow := by
  induction n generalizing i with
  | zero =>
    constructor
    · intro h
      cases h
    · rintro ⟨k, hk, -⟩
      omega
  | succ n ih =>
    rw [times, bind_overflow]
    constructor
    · rintro (h | ⟨a, j, hj, h⟩)
      · exact ⟨0, Nat.succ_pos n, [], i, rfl, h⟩
      · rcases bind_overflow.1 h with h | ⟨l, m, -, h⟩
        · obtain ⟨k, hk, l, m, hm, hover⟩ := ih.1 h
          refine ⟨k + 1, by omega, a :: l, m, ?_, hover⟩
          rw [times, bind_of_done hj, bind_of_done hm]
          rfl
        · cases h
    · rintro ⟨k, hk, l, m, hm, hover⟩
      cases k with
      | zero =>
        cases hm
        exact .inl hover
      | succ k =>
        obtain ⟨a, j, hj, hm⟩ := bind_done.1 hm
        obtain ⟨l', m', hm', heq⟩ := bind_done.1 hm
        cases heq
        exact .inr ⟨a, j, hj, bind_overflow.2 (.inl (ih.2 ⟨k, by omega, l', _, hm', hover⟩))⟩

/-! ## What was written -/

/-- wherever `e` stands, the walk reads `a` from it and stops behind it -/
def Reads (p : Walk α) (a : α) (e : List UInt8) : Prop :=
  ∀ before after, p.go (before ++ e ++ after) before.length = .done (a, (before ++ e).length)

theorem Reads.pure (a : α) : Reads (pure a : Walk α) a [] := by
  intro before after
  rw [pure_apply, List.append_nil]

theorem Reads.bind {p : Walk α} {f : α → Walk β} {a : α} {b : β} {e e' : List UInt8} (hp : Reads p a e)
    (hf : Reads (f a) b e') : Reads (p >>= f) b (e ++ e') := by
  intro before after
  have hshape : before ++ (e ++ e') ++ after = before ++ e ++ (e' ++ after) := by simp
  rw [hshape, bind_of_done (hp before (e' ++ after)), ← List.append_assoc (before ++ e), hf (before ++ e) after,
    List.append_assoc]

/-- what reads nothing more hands on to nothing -/
theorem Reads.bind_end {p : Walk α} {f : α → Walk β} {a : α} {b : β} {e : List UInt8} (hp : Reads p a e)
    (hf : Reads (f a) b []) : Reads (p >>= f) b e := by
  have := hp.bind hf
  rwa [List.append_nil] at this

theorem Reads.bind_pure {p : Walk α} {f : α → β} {a : α} {e : List UInt8} (hp : Reads p a e) :
    Reads (p >>= fun x => Pure.pure (f x)) (f a) e := hp.bind_end (Reads.pure (f a))

theorem Reads.refuseIf {c : Prop} [Decidable c] (h : ¬ c) (e : String) : Reads (refuseIf c e) () [] := by
  rw [Walk.refuseIf, if_neg h]
  exact Reads.pure ()

theorem Reads.orRefuse {p : Walk α} {a : α} {e : List UInt8} (hp : Reads p a e) (msg : String) :
    Reads (orRefuse p msg) a e := by
  intro before after
  simp only [Walk.orRefuse, hp before after]

theorem Reads.take {n : ℕ} {e : List UInt8} (h : e.length = n) : Reads (take n) e e := by
  subst h
  intro before after
  have hin : before.length + e.length ≤ (before ++ e ++ after).length := by
    simp only [List.length_append]
    omega
  refine take_done.2 ⟨hin, ?_, List.length_append.symm⟩
  rw [List.append_assoc, List.drop_left, List.take_left]

theorem Reads.word {n v : ℕ} (h : v < 256 ^ n) : Reads (word n) v (le n v) := by
  intro before after
  obtain ⟨hin, htaken, -⟩ := take_done.1 (Reads.take (length_le n v) before after)
  rw [word_apply, if_pos hin, htaken, leNat_le, Nat.mod_eq_of_lt h, List.length_append, length_le]

theorem Reads.times {γ : Type} {p : Walk α} (f : γ → α) (enc : γ → List UInt8) (l : List γ)
    (h : ∀ x ∈ l, Reads p (f x) (enc x)) : Reads (times l.length p) (l.map f) (l.flatMap enc) := by
  induction l with
  | nil => exact Reads.pure []
  | cons x l ih =>
    have hx := h x List.mem_cons_self
    have hl := ih fun y hy => h y (List.mem_cons_of_mem _ hy)
    exact hx.bind hl.bind_pure

/-- a walk that reads a string from its start, whatever follows -/
theorem Reads.run {p : Walk (Option α)} {a : Option α} {e : List UInt8} (hp : Reads p a e) (after : List UInt8) :
    p.run (e ++ after) = .done a := by
  have := hp [] after
  rw [List.nil_append, List.length_nil] at this
  rw [Walk.run, this]

end Walk

end Hocmesh.Base
