/-
Programs whose operations can fail and whose process can stop.

A `Faulty σ α` acts on a state that outlives the process. Every operation of it meets one entry of a list of faults: it
completes, or it returns an error, or the process ends in it, the last two after some part of the operation has been done.
Where the list has ended, operations complete. What relates the state after to the state before whatever the faults, the
program `Keeps`; what it does when nothing fails is what it `Runs` to, and when the next few operations complete it is read
off with `Calm`.
-/
import Hocmesh.Base.Check

namespace Hocmesh.Base

/-- what one operation meets; of one that does not complete, `n` says how much was done -/
inductive Fault where
  | none
  | fail (n : ℕ)
  | stop (n : ℕ)
deriving DecidableEq

/-- how a program ends -/
inductive Ending (α : Type) where
  | done (a : α)
  | failed (e : String)
  /-- the process has stopped -/
  | stopped
deriving DecidableEq

/-- a program over a state that outlives it -/
structure Faulty (σ α : Type) where
  go : σ → List Fault → Ending α × σ × List Fault

/-- the next `n` operations complete -/
def Calm (n : ℕ) (faults : List Fault) : Prop := ∀ f ∈ faults.take n, f = .none

instance (n : ℕ) (faults : List Fault) : Decidable (Calm n faults) := inferInstanceAs (Decidable (∀ _ ∈ _, _))

theorem Calm.mono {m n : ℕ} {faults : List Fault} (h : Calm n faults) (hmn : m ≤ n) : Calm m faults :=
  fun f hf => h f ((List.take_prefix_take_left hmn).subset hf)

namespace Faulty

variable {σ α β γ : Type}

protected def bind (p : Faulty σ α) (f : α → Faulty σ β) : Faulty σ β where
  go s faults := match p.go s faults with
    | (.done a, s', rest) => (f a).go s' rest
    | (.failed e, s', rest) => (.failed e, s', rest)
    | (.stopped, s', rest) => (.stopped, s', rest)

instance : Monad (Faulty σ) where
  pure a := ⟨fun s faults => (.done a, s, faults)⟩
  bind := Faulty.bind

theorem bind_go (p : Faulty σ α) (f : α → Faulty σ β) (s : σ) (faults : List Fault) :
    (p >>= f).go s faults = match p.go s faults with
      | (.done a, s', rest) => (f a).go s' rest
      | (.failed e, s', rest) => (.failed e, s', rest)
      | (.stopped, s', rest) => (.stopped, s', rest) := rfl

theorem bind_of_done {p : Faulty σ α} {f : α → Faulty σ β} {s s' : σ} {faults rest : List Fault} {a : α}
    (h : p.go s faults = (.done a, s', rest)) : (p >>= f).go s faults = (f a).go s' rest := by
  rw [bind_go, h]

/-! ## Parts of programs -/

/-- a check, which touches nothing -/
def ofCheck (c : Check α) : Faulty σ α where
  go s faults := match c with
    | .ok a => (.done a, s, faults)
    | .error e => (.failed e, s, faults)

/-- a question that is always answered -/
def peek (read : σ → α) : Faulty σ α where
  go s faults := (.done (read s), s, faults)

/-- one operation: what it does when it completes, and what a part of it does -/
def operation (act : σ → Check α × σ) (part : ℕ → σ → σ) : Faulty σ α where
  go s faults :=
    let complete (rest : List Fault) : Ending α × σ × List Fault := match act s with
      | (.ok a, s') => (.done a, s', rest)
      | (.error e, s') => (.failed e, s', rest)
    match faults with
    | [] => complete []
    | .none :: rest => complete rest
    | .fail n :: rest => (.failed "I/O error", part n s, rest)
    | .stop n :: rest => (.stopped, part n s, rest)

/-- an operation that looks at the state and leaves it alone -/
def look (read : σ → Check α) : Faulty σ α := operation (fun s => (read s, s)) fun _ s => s

/-- go on after an error -/
def attempt (p : Faulty σ α) : Faulty σ (Option α) where
  go s faults := match p.go s faults with
    | (.done a, s', rest) => (.done (some a), s', rest)
    | (.failed _, s', rest) => (.done none, s', rest)
    | (.stopped, s', rest) => (.stopped, s', rest)

def forEach (f : α → Faulty σ Unit) : List α → Faulty σ Unit
  | [] => pure ()
  | a :: l => do
    f a
    forEach f l

/-! ## What a program keeps -/

/-- however the program goes, the state it leaves is related to the one it met -/
def Keeps (r : σ → σ → Prop) (p : Faulty σ α) : Prop := ∀ s faults, r s (p.go s faults).2.1

section

variable {r : σ → σ → Prop}

theorem keeps_pure [Std.Refl r] (a : α) : Keeps r (pure a : Faulty σ α) := fun s _ => Std.Refl.refl s

theorem keeps_peek [Std.Refl r] (read : σ → α) : Keeps r (peek read) := fun s _ => Std.Refl.refl s

theorem keeps_ofCheck [Std.Refl r] (c : Check α) : Keeps r (ofCheck c : Faulty σ α) := by
  intro s faults
  unfold ofCheck
  cases c with
  | ok a => exact Std.Refl.refl s
  | error e => exact Std.Refl.refl s

theorem Keeps.bind [IsTrans σ r] {p : Faulty σ α} {f : α → Faulty σ β} (hp : Keeps r p) (hf : ∀ a, Keeps r (f a)) :
    Keeps r (p >>= f) := by
  intro s faults
  have h := hp s faults
  rw [bind_go]
  split
  · next a s' rest heq =>
    rw [heq] at h
    exact IsTrans.trans _ _ _ h (hf a s' rest)
  · next e s' rest heq => rwa [heq] at h
  · next s' rest heq => rwa [heq] at h

theorem keeps_operation {act : σ → Check α × σ} {part : ℕ → σ → σ} (hact : ∀ s, r s (act s).2)
    (hpart : ∀ n s, r s (part n s)) : Keeps r (operation act part) := by
  intro s faults
  have hcomplete := hact s
  unfold operation
  match faults with
  | [] | .none :: rest =>
    dsimp only
    split
    · next a s' heq => rwa [heq] at hcomplete
    · next e s' heq => rwa [heq] at hcomplete
  | .fail n :: rest => exact hpart n s
  | .stop n :: rest => exact hpart n s

theorem keeps_look [Std.Refl r] (read : σ → Check α) : Keeps r (look read) :=
  keeps_operation (fun s => Std.Refl.refl s) fun _ s => Std.Refl.refl s

theorem Keeps.attempt {p : Faulty σ α} (hp : Keeps r p) : Keeps r (attempt p) := by
  intro s faults
  have h := hp s faults
  unfold Faulty.attempt
  dsimp only
  split
  · next a s' rest heq => rwa [heq] at h
  · next e s' rest heq => rwa [heq] at h
  · next s' rest heq => rwa [heq] at h

theorem Keeps.forEach [Std.Refl r] [IsTrans σ r] {f : α → Faulty σ Unit} {l : List α} (hf : ∀ a ∈ l, Keeps r (f a)) :
    Keeps r (forEach f l) := by
  induction l with
  | nil => exact keeps_pure ()
  | cons a l ih =>
    exact (hf a List.mem_cons_self).bind fun _ => ih fun b hb => hf b (List.mem_cons_of_mem _ hb)

end

/-! ## Nothing fails -/

/-- with no fault to come, the program returns `a` in the state `s'` -/
def Runs (p : Faulty σ α) (s : σ) (a : α) (s' : σ) : Prop := p.go s [] = (.done a, s', [])

theorem runs_pure (a : α) (s : σ) : Runs (pure a) s a s := rfl

theorem Runs.bind {p : Faulty σ α} {f : α → Faulty σ β} {s s₁ s₂ : σ} {a : α} {b : β} (hp : Runs p s a s₁)
    (hf : Runs (f a) s₁ b s₂) : Runs (p >>= f) s b s₂ := (bind_of_done hp).trans hf

theorem runs_peek (read : σ → α) (s : σ) : Runs (peek read) s (read s) s := rfl

theorem runs_ofCheck {c : Check α} {a : α} (h : c = .ok a) (s : σ) : Runs (ofCheck c) s a s := by
  subst h
  rfl

theorem runs_operation {act : σ → Check α × σ} {part : ℕ → σ → σ} {s s' : σ} {a : α} (h : act s = (.ok a, s')) :
    Runs (operation act part) s a s' := by
  simp only [Runs, operation, h]

theorem runs_look {read : σ → Check α} {s : σ} {a : α} (h : read s = .ok a) : Runs (look read) s a s :=
  runs_operation (by rw [h])

/-- an operation that fails for a reason of its own -/
theorem runs_attempt_look (read : σ → Check α) (s : σ) :
    Runs (attempt (look read)) s (match read s with | .ok a => some a | .error _ => none) s := by
  unfold Runs attempt look operation
  dsimp only
  cases read s with
  | ok a => rfl
  | error e => rfl

theorem Runs.eq {p : Faulty σ α} {s s₁ s₂ : σ} {a₁ a₂ : α} (h₁ : Runs p s a₁ s₁) (h₂ : Runs p s a₂ s₂) :
    a₁ = a₂ ∧ s₁ = s₂ := by
  have h := h₁.symm.trans h₂
  simp only [Prod.mk.injEq, Ending.done.injEq] at h
  exact ⟨h.1, h.2.1⟩

/-- a run is one of the ways a program goes -/
theorem Runs.rel {p : Faulty σ α} {s s' : σ} {a : α} {r : σ → σ → Prop} (h : Runs p s a s') (hkeeps : Keeps r p) : r s s' := by
  have hr := hkeeps s []
  rwa [h] at hr

/-! ## Calm -/


/-- an operation that completes takes one entry of the list, or finds none -/
theorem operation_calm {act : σ → Check α × σ} {part : ℕ → σ → σ} {n : ℕ} {s s' : σ} {faults : List Fault} {a : α}
    (hcalm : Calm (n + 1) faults) (hact : act s = (.ok a, s')) :
    ∃ rest, Calm n rest ∧ (operation act part).go s faults = (.done a, s', rest) := by
  unfold operation
  match faults with
  | [] =>
    refine ⟨[], fun f hf => ?_, ?_⟩
    · rw [List.take_nil] at hf
      cases hf
    · dsimp only
      rw [hact]
  | f :: rest =>
    obtain rfl : f = .none := hcalm f (by simp)
    refine ⟨rest, fun f' hf => hcalm f' (by simp [hf]), ?_⟩
    dsimp only
    rw [hact]

end Faulty

end Hocmesh.Base
