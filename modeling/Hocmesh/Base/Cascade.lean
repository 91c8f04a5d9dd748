/-
Cascades: a value passed through a row of layers, each with a state of its own.

`cascade step layers states x` gives the value to the first layer, the result to the second, and stops at the first
failure; every layer that ran keeps what it wrote, also when a later one fails. The one fact everything else rests on is
`cascade_append`: a row of layers cut in two is the first part followed by the second, states and failures included.
`cascade_step` and `cascade_stop` follow a pass layer by layer. Nothing in this file is about a model.
-/
import Hocmesh.Base.Check

namespace Hocmesh.Base

variable {L C X : Type} (step : L → C → X → C × Check X)

/-- the states after the pass, and the value that comes out or the failure that stopped it -/
def cascade : List L → List C → X → List C × Check X
  | [], cs, x => (cs, .ok x)
  | _ :: _, [], _ => ([], .error "index out of bounds")
  | l :: ls, c :: cs, x =>
    match step l c x with
    | (c', .error e) => (c' :: cs, .error e)
    | (c', .ok y) => (c' :: (cascade ls cs y).1, (cascade ls cs y).2)

@[simp] theorem cascade_nil (cs : List C) (x : X) : cascade step [] cs x = (cs, .ok x) := by
  cases cs <;> rfl

theorem cascade_cons (l : L) (ls : List L) (c : C) (cs : List C) (x : X) :
    cascade step (l :: ls) (c :: cs) x = match step l c x with
      | (c', .error e) => (c' :: cs, .error e)
      | (c', .ok y) => (c' :: (cascade step ls cs y).1, (cascade step ls cs y).2) := rfl

@[simp] theorem length_cascade (ls : List L) (cs : List C) (x : X) : (cascade step ls cs x).1.length = cs.length := by
  induction ls generalizing cs x with
  | nil => simp
  | cons l ls ih =>
    cases cs with
    | nil => rfl
    | cons c cs =>
      rw [cascade_cons]
      cases hs : step l c x with
      | mk c' r =>
        cases r with
        | error e => rfl
        | ok y => simp [ih]

/-- **A row of layers cut in two.** The second part gets the value the first part ends with, and is not reached when the
first part fails. -/
theorem cascade_append (ls₁ ls₂ : List L) (cs₁ cs₂ : List C) (x : X) (h : cs₁.length = ls₁.length) :
    cascade step (ls₁ ++ ls₂) (cs₁ ++ cs₂) x = match cascade step ls₁ cs₁ x with
      | (cs', .error e) => (cs' ++ cs₂, .error e)
      | (cs', .ok y) => (cs' ++ (cascade step ls₂ cs₂ y).1, (cascade step ls₂ cs₂ y).2) := by
  induction ls₁ generalizing cs₁ x with
  | nil =>
    obtain rfl := List.length_eq_zero_iff.1 h
    simp
  | cons l ls ih =>
    cases cs₁ with
    | nil => cases h
    | cons c cs =>
      rw [List.cons_append, List.cons_append, cascade_cons, cascade_cons]
      cases hs : step l c x with
      | mk c' r =>
        cases r with
        | error e => rfl
        | ok y =>
          simp only [ih cs y (by simpa using h)]
          cases hp : cascade step ls cs y with
          | mk cs' r => cases r <;> rfl

/-- one layer further -/
theorem cascade_step {ls : List L} {cs cs' : List C} {k : ℕ} {l : L} {c : C} {x y : X} (hlen : cs.length = ls.length)
    (hl : ls[k]? = some l) (hc : cs[k]? = some c) (h : cascade step (ls.take k) (cs.take k) x = (cs', .ok y)) :
    cascade step (ls.take (k + 1)) (cs.take (k + 1)) x = (cs' ++ [(step l c y).1], (step l c y).2) := by
  have hls : ls.take (k + 1) = ls.take k ++ [l] := by rw [List.take_add_one, hl]; rfl
  have hcs : cs.take (k + 1) = cs.take k ++ [c] := by rw [List.take_add_one, hc]; rfl
  rw [hls, hcs, cascade_append step _ _ _ _ _ (by simp [hlen]), h]
  simp only [cascade_cons]
  cases hs : step l c y with
  | mk c' r => cases r <;> simp

/-- a failure on the way is the failure of the whole -/
theorem cascade_stop {ls : List L} {cs cs' : List C} {k : ℕ} {x : X} {e : String} (hlen : cs.length = ls.length)
    (h : cascade step (ls.take k) (cs.take k) x = (cs', .error e)) :
    cascade step ls cs x = (cs' ++ cs.drop k, .error e) := by
  have happ := cascade_append step (ls.take k) (ls.drop k) (cs.take k) (cs.drop k) x (by simp [hlen])
  rw [List.take_append_drop, List.take_append_drop, h] at happ
  exact happ

/-- What every layer keeps of the value, a whole cascade keeps. -/
theorem cascade_keeps (P : X → Prop) (hstep : ∀ l c x c' y, P x → step l c x = (c', .ok y) → P y) (ls : List L)
    (cs : List C) (x y : X) (cs' : List C) (hx : P x) (h : cascade step ls cs x = (cs', .ok y)) : P y := by
  induction ls generalizing cs x cs' with
  | nil =>
    simp only [cascade_nil, Prod.mk.injEq, Except.ok.injEq] at h
    exact h.2 ▸ hx
  | cons l ls ih =>
    cases cs with
    | nil => cases h
    | cons c cs =>
      rw [cascade_cons] at h
      cases hs : step l c x with
      | mk c1 r =>
        rw [hs] at h
        cases r with
        | error e => cases h
        | ok z =>
          simp only [Prod.mk.injEq] at h
          refine ih cs z (cascade step ls cs z).1 (hstep l c x c1 z hx hs) ?_
          exact Prod.ext rfl h.2

/-- A cascade goes through when every layer does: each finds its state as `P` says and leaves it as `Q` says. -/
theorem cascade_ok (P Q : C → Prop) (R : X → Prop) (ls : List L)
    (hstep : ∀ l ∈ ls, ∀ c x, P c → R x → ∃ c' y, step l c x = (c', .ok y) ∧ R y ∧ Q c') (cs : List C) (x : X)
    (hlen : cs.length = ls.length) (hcs : ∀ c ∈ cs, P c) (hx : R x) :
    ∃ cs' y, cascade step ls cs x = (cs', .ok y) ∧ R y ∧ ∀ c ∈ cs', Q c := by
  induction ls generalizing cs x with
  | nil =>
    obtain rfl := List.length_eq_zero_iff.1 hlen
    exact ⟨[], x, rfl, hx, by simp⟩
  | cons l ls ih =>
    cases cs with
    | nil => cases hlen
    | cons c cs =>
      obtain ⟨c', y, hs, hy, hc'⟩ := hstep l List.mem_cons_self c x (hcs c List.mem_cons_self) hx
      obtain ⟨cs', z, hrest, hz, hcs'⟩ := ih (fun l hl => hstep l (List.mem_cons_of_mem _ hl)) cs y
        (Nat.succ.inj hlen) (fun c hc => hcs c (List.mem_cons_of_mem _ hc)) hy
      refine ⟨c' :: cs', z, by rw [cascade_cons, hs]; simp only [hrest], hz, ?_⟩
      rintro d hd
      cases hd with
      | head => exact hc'
      | tail _ hd => exact hcs' d hd

end Hocmesh.Base
