/-
Checks: computations that either pass with a value or stop with the text of the first rule they break.

`Check α` is `Except String α`. A validator is a sequence of `bailIf` guards, so what it accepts is the conjunction of
the negated guards. The lemmas here turn an equation `v = .ok a` into that conjunction (`bind_ok`, `bailIf_ok`,
`each_ok`) and carry an invariant through a loop of checks (`foldlM_inv`), or one result for each element of a list
(`mapM_ok_of`, `mem_of_mapM`). A check is `Below` another when it passes only where the other does, with the same value.
Nothing in this file is about a ledger.
-/
import Mathlib.Tactic

namespace Hocmesh.Base

/-- a computation that passes with a value or stops with the text of the rule it broke -/
abbrev Check (α : Type) := Except String α

/-- stop with `msg` when `b` holds -/
def bailIf (b : Prop) [Decidable b] (msg : String) : Check Unit := if b then .error msg else .ok ()

/-- the value of an option, or stop with `msg` -/
def orBail {α : Type} (o : Option α) (msg : String) : Check α :=
  match o with
  | some a => .ok a
  | none => .error msg

/-- run a check on every element in order; the first failure stops the loop -/
def each {α : Type} (f : α → Check Unit) : List α → Check Unit
  | [] => .ok ()
  | a :: l => do f a; each f l

/-- rewrite the text of a failure -/
def mapErr {α : Type} (f : String → String) : Check α → Check α
  | .ok a => .ok a
  | .error e => .error (f e)

/-- whether a computation passes, and with a value that satisfies `p` -/
def Check.okWith {α : Type} (p : α → Bool) : Check α → Bool
  | .ok a => p a
  | .error _ => false

variable {α β : Type}

@[simp] theorem bind_ok (x : Check α) (f : α → Check β) (b : β) :
    (x >>= f) = .ok b ↔ ∃ a, x = .ok a ∧ f a = .ok b := by
  cases x <;> simp [bind, Except.bind]

/-- a check that returns nothing can only pass with `()` -/
@[simp] theorem exists_ok_unit (x : Check Unit) : (∃ u, x = .ok u) ↔ x = .ok () :=
  ⟨fun ⟨_, h⟩ => h, fun h => ⟨(), h⟩⟩

@[simp] theorem exists_ok_unit_and (x : Check Unit) (p : Prop) : (∃ u, x = .ok u ∧ p) ↔ x = .ok () ∧ p :=
  ⟨fun ⟨_, h⟩ => h, fun h => ⟨(), h⟩⟩

@[simp] theorem pure_ok (a b : α) : (pure a : Check α) = .ok b ↔ a = b := by simp [pure, Except.pure]

@[simp] theorem bailIf_ok (b : Prop) [Decidable b] (msg : String) (u : Unit) : bailIf b msg = .ok u ↔ ¬ b := by
  unfold bailIf
  split_ifs with h <;> simp [h]

@[simp] theorem orBail_ok (o : Option α) (msg : String) (a : α) : orBail o msg = .ok a ↔ o = some a := by
  cases o <;> simp [orBail]

@[simp] theorem mapErr_ok (f : String → String) (x : Check α) (a : α) : mapErr f x = .ok a ↔ x = .ok a := by
  cases x <;> simp [mapErr]

@[simp] theorem each_ok (f : α → Check Unit) (l : List α) (u : Unit) :
    each f l = .ok u ↔ ∀ a ∈ l, f a = .ok () := by
  induction l with
  | nil => simp [each]
  | cons a l ih => simp [each, ih]

theorem okWith_iff (p : α → Bool) (x : Check α) : x.okWith p = true ↔ ∃ a, x = .ok a ∧ p a = true := by
  cases x <;> simp [Check.okWith]

/-- **Loop rule.** What every iteration preserves, a whole loop of checks preserves. -/
theorem foldlM_inv (f : β → α → Check β) (P : List α → β → Prop)
    (hstep : ∀ pre b a b', P pre b → f b a = .ok b' → P (pre ++ [a]) b') :
    ∀ (l pre : List α) (b b' : β), P pre b → l.foldlM f b = .ok b' → P (pre ++ l) b' := by
  intro l
  induction l with
  | nil =>
    intro pre b b' hb h
    simp only [List.foldlM_nil, pure_ok] at h
    subst h; simpa using hb
  | cons a l ih =>
    intro pre b b' hb h
    simp only [List.foldlM_cons, bind_ok] at h
    obtain ⟨b1, h1, h2⟩ := h
    have := ih (pre ++ [a]) b1 b' (hstep pre b a b1 hb h1) h2
    simpa using this

theorem foldlM_append_ok (f : β → α → Check β) (l₁ l₂ : List α) (b b' : β) :
    (l₁ ++ l₂).foldlM f b = .ok b' ↔ ∃ b1, l₁.foldlM f b = .ok b1 ∧ l₂.foldlM f b1 = .ok b' := by
  rw [List.foldlM_append, bind_ok]

/-! ## One result for each element -/

/-- a loop of checks that all pass gives one result for each element -/
theorem mapM_ok_of (f : α → Check β) (P : β → Prop) (l : List α) (h : ∀ a ∈ l, ∃ b, f a = .ok b ∧ P b) :
    ∃ r, l.mapM' f = .ok r ∧ r.length = l.length ∧ ∀ b ∈ r, P b := by
  induction l with
  | nil => exact ⟨[], rfl, rfl, by simp⟩
  | cons a l ih =>
    obtain ⟨b, hb, hP⟩ := h a List.mem_cons_self
    obtain ⟨r, hr, hlen, hall⟩ := ih fun x hx => h x (List.mem_cons_of_mem _ hx)
    refine ⟨b :: r, ?_, by simp [hlen], ?_⟩
    · simp [hb, hr]
    · intro x hx
      rcases List.mem_cons.1 hx with rfl | hx
      · exact hP
      · exact hall x hx

theorem length_of_mapM (f : α → Check β) (l : List α) (r : List β) (h : l.mapM' f = .ok r) :
    r.length = l.length := by
  induction l generalizing r with
  | nil =>
    simp only [List.mapM'_nil, pure_ok] at h
    subst h; rfl
  | cons a l ih =>
    simp only [List.mapM'_cons, bind_ok, pure_ok] at h
    obtain ⟨b, -, bs, hbs, rfl⟩ := h
    simp [ih bs hbs]

theorem mem_of_mapM (f : α → Check β) (l : List α) (r : List β) (h : l.mapM' f = .ok r) :
    ∀ b ∈ r, ∃ a ∈ l, f a = .ok b := by
  induction l generalizing r with
  | nil =>
    simp only [List.mapM'_nil, pure_ok] at h
    subst h
    simp
  | cons a l ih =>
    simp only [List.mapM'_cons, bind_ok, pure_ok] at h
    obtain ⟨b, hb, bs, hbs, rfl⟩ := h
    intro x hx
    rcases List.mem_cons.1 hx with rfl | hx
    · exact ⟨a, List.mem_cons_self, hb⟩
    · obtain ⟨a', ha', hx'⟩ := ih bs hbs x hx
      exact ⟨a', List.mem_cons_of_mem _ ha', hx'⟩

theorem mapM_append_ok (f : α → Check β) (l₁ l₂ : List α) (r : List β) :
    (l₁ ++ l₂).mapM' f = .ok r ↔ ∃ r₁ r₂, l₁.mapM' f = .ok r₁ ∧ l₂.mapM' f = .ok r₂ ∧ r₁ ++ r₂ = r := by
  induction l₁ generalizing r with
  | nil => simp
  | cons a l₁ ih =>
    simp only [List.cons_append, List.mapM'_cons, bind_ok, pure_ok, ih]
    constructor
    · intro h
      obtain ⟨b, hb, _, ⟨r₁, r₂, h1, h2, rfl⟩, rfl⟩ := h
      exact ⟨b :: r₁, r₂, ⟨b, hb, r₁, h1, rfl⟩, h2, rfl⟩
    · intro h
      obtain ⟨_, r₂, ⟨b, hb, r₁, h1, rfl⟩, h2, rfl⟩ := h
      exact ⟨b, hb, r₁ ++ r₂, ⟨r₁, r₂, h1, h2, rfl⟩, rfl⟩

theorem each_map (f : β → Check Unit) (g : α → β) (l : List α) : each f (l.map g) = each (f ∘ g) l := by
  induction l with
  | nil => rfl
  | cons a l ih => simp only [List.map_cons, each, ih, Function.comp_apply]

theorem ok_of_mapM (f : α → Check β) (l : List α) (r : List β) (h : l.mapM' f = .ok r) : ∀ a ∈ l, ∃ b, f a = .ok b := by
  induction l generalizing r with
  | nil => simp
  | cons a l ih =>
    simp only [List.mapM'_cons, bind_ok] at h
    obtain ⟨b, hb, rest, hrest, -⟩ := h
    intro x hx
    rcases List.mem_cons.1 hx with rfl | hx
    · exact ⟨b, hb⟩
    · exact ih rest hrest x hx

/-! ## One check below another -/

/-- where the first passes, the second passes with the same value -/
def Below (x y : Check α) : Prop := ∀ a, x = .ok a → y = .ok a

theorem Below.refl (x : Check α) : Below x x := fun _ h => h

theorem Below.bind {x y : Check α} {f g : α → Check β} (hxy : Below x y) (hfg : ∀ a, Below (f a) (g a)) :
    Below (x >>= f) (y >>= g) := by
  intro b hb
  obtain ⟨a, ha, hf⟩ := (bind_ok x f b).1 hb
  exact (bind_ok y g b).2 ⟨a, hxy a ha, hfg a b hf⟩

theorem Below.mapErr {x y : Check α} (hxy : Below x y) (f : String → String) : Below (mapErr f x) (mapErr f y) := by
  intro a ha
  exact (mapErr_ok f y a).2 (hxy a ((mapErr_ok f x a).1 ha))

theorem Below.mapM {f g : α → Check β} {l : List α} (h : ∀ a ∈ l, Below (f a) (g a)) :
    Below (l.mapM' f) (l.mapM' g) := by
  induction l with
  | nil => exact Below.refl _
  | cons a l ih =>
    rw [List.mapM'_cons, List.mapM'_cons]
    exact (h a List.mem_cons_self).bind fun _ => (ih fun b hb => h b (List.mem_cons_of_mem _ hb)).bind fun _ => Below.refl _

end Hocmesh.Base
