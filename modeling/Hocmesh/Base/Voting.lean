/-
One decision taken by ballots.

Voters vote for a value under a ballot and may close ballots they will not vote under any more. Ballots are only ordered:
nothing here counts them or assumes that a descending sequence ends. `SafeAt` is the condition under which a proposer may
ask for a value at a ballot; `SafeAt.of_promises` is how a quorum of promises establishes it, `SafeAt.mono` that it is
never lost, `Sound.after_chosen` that with it no later vote departs from a decision, and `chosen_agree` that no two quorums
decide differently.
-/
import Mathlib.Tactic

namespace Hocmesh.Base

/-- who voted for what under which ballot, and which ballots a voter has closed to itself -/
structure Voting (A B V : Type) where
  voted : A → B → V → Prop
  closed : A → B → Prop

namespace Voting

variable {A B V : Type}

/-- a later state of the same decision: nothing is taken back, and nobody votes under a ballot it has closed -/
structure Extends (x y : Voting A B V) : Prop where
  voted : ∀ a b v, x.voted a b v → y.voted a b v
  closed : ∀ a b, x.closed a b → y.closed a b
  late : ∀ a b v, x.closed a b → y.voted a b v → x.voted a b v

theorem Extends.refl (x : Voting A B V) : Extends x x := ⟨fun _ _ _ h => h, fun _ _ h => h, fun _ _ _ _ h => h⟩

variable [LinearOrder B]

/-- a quorum votes for the value under one ballot -/
def Chosen (Quorum : Finset A → Prop) (x : Voting A B V) (b : B) (v : V) : Prop :=
  ∃ Q, Quorum Q ∧ ∀ a ∈ Q, x.voted a b v

/-- under every earlier ballot some quorum voted for the value or never will vote at all -/
def SafeAt (Quorum : Finset A → Prop) (x : Voting A B V) (b : B) (v : V) : Prop :=
  ∀ c < b, ∃ Q, Quorum Q ∧ ∀ a ∈ Q, x.voted a c v ∨ (x.closed a c ∧ ∀ w, ¬ x.voted a c w)

/-- what a voter tells a proposer: earlier ballots are closed, and `latest` is its newest vote under them -/
structure Promise (x : Voting A B V) (a : A) (b : B) (latest : Option (B × V)) : Prop where
  closed : ∀ c < b, x.closed a c
  newest : ∀ c < b, ∀ v, x.voted a c v → ∃ d w, latest = some (d, w) ∧ c ≤ d
  cast : ∀ d w, latest = some (d, w) → x.voted a d w ∧ d ≤ b

variable {Quorum : Finset A → Prop} {x y : Voting A B V} {b : B} {v : V}

theorem SafeAt.mono (h : SafeAt Quorum x b v) (hxy : Extends x y) : SafeAt Quorum y b v := by
  intro c hc
  obtain ⟨Q, hQ, hall⟩ := h c hc
  refine ⟨Q, hQ, ?_⟩
  intro a ha
  rcases hall a ha with hv | ⟨hclosed, hnone⟩
  · exact Or.inl (hxy.voted a c v hv)
  · exact Or.inr ⟨hxy.closed a c hclosed, fun w hw => hnone w (hxy.late a c w hclosed hw)⟩

theorem Promise.mono {a : A} {latest : Option (B × V)} (h : Promise x a b latest) (hxy : Extends x y) :
    Promise y a b latest where
  closed c hc := hxy.closed a c (h.closed c hc)
  newest c hc w hw := h.newest c hc w (hxy.late a c w (h.closed c hc) hw)
  cast d w hd := ⟨hxy.voted a d w (h.cast d w hd).1, (h.cast d w hd).2⟩

/-- every vote is for the one value of its ballot, and that value was safe to ask for -/
structure Sound (Quorum : Finset A → Prop) (x : Voting A B V) : Prop where
  one_value : ∀ a a' c v v', x.voted a c v → x.voted a' c v' → v = v'
  safe : ∀ a c v, x.voted a c v → SafeAt Quorum x c v

/-- **Phase one.** When a quorum reports what it promises, the value of the newest vote reported is safe, and any value is
when no vote is reported. -/
theorem SafeAt.of_promises (hx : Sound Quorum x) {Q : Finset A} (hQ : Quorum Q) (reports : A → Option (B × V) → Prop)
    (hall : ∀ a ∈ Q, ∃ latest, reports a latest) (hp : ∀ a latest, reports a latest → Promise x a b latest)
    (hpick : (∀ a latest, reports a latest → latest = none) ∨ ∃ a₀ d, reports a₀ (some (d, v)) ∧
      ∀ a d' w, reports a (some (d', w)) → d' ≤ d) : SafeAt Quorum x b v := by
  intro c hc
  rcases hpick with hnone | ⟨a₀, d, hd, hmax⟩
  · refine ⟨Q, hQ, ?_⟩
    intro a ha
    obtain ⟨latest, hr⟩ := hall a ha
    refine Or.inr ⟨(hp a latest hr).closed c hc, ?_⟩
    intro w hw
    obtain ⟨_, _, hlast, _⟩ := (hp a latest hr).newest c hc w hw
    rw [hnone a latest hr] at hlast
    cases hlast
  · obtain ⟨hcast, _⟩ := (hp a₀ _ hd).cast d v rfl
    rcases lt_trichotomy c d with hcd | rfl | hdc
    · exact hx.safe a₀ d v hcast c hcd
    · refine ⟨Q, hQ, ?_⟩
      intro a ha
      obtain ⟨latest, hr⟩ := hall a ha
      by_cases hvote : ∃ w, x.voted a c w
      · obtain ⟨w, hw⟩ := hvote
        rw [hx.one_value a a₀ c w v hw hcast] at hw
        exact Or.inl hw
      · exact Or.inr ⟨(hp a latest hr).closed c hc, fun w hw => hvote ⟨w, hw⟩⟩
    · refine ⟨Q, hQ, ?_⟩
      intro a ha
      obtain ⟨latest, hr⟩ := hall a ha
      refine Or.inr ⟨(hp a latest hr).closed c hc, ?_⟩
      intro w hw
      obtain ⟨d', w', rfl, hle⟩ := (hp a latest hr).newest c hc w hw
      exact absurd (hmax a d' w' hr) (not_le.2 (lt_of_lt_of_le hdc hle))

/-- **After a decision.** From the deciding ballot on, every vote is for the value that was chosen. -/
theorem Sound.after_chosen (hx : Sound Quorum x) (hmeet : ∀ Q Q', Quorum Q → Quorum Q' → ∃ a, a ∈ Q ∧ a ∈ Q')
    {b b' : B} {v v' : V} (h : Chosen Quorum x b v) {a' : A} (hv : x.voted a' b' v') (hle : b ≤ b') : v' = v := by
  obtain ⟨Q, hQ, hvotes⟩ := h
  rcases hle.lt_or_eq with hlt | rfl
  · obtain ⟨R, hR, hall⟩ := hx.safe a' b' v' hv b hlt
    obtain ⟨a, haQ, haR⟩ := hmeet Q R hQ hR
    rcases hall a haR with hcast | ⟨_, hnone⟩
    · exact hx.one_value a a b v' v hcast (hvotes a haQ)
    · exact absurd (hvotes a haQ) (hnone v)
  · obtain ⟨a, ha, _⟩ := hmeet Q Q hQ hQ
    exact hx.one_value a' a b v' v hv (hvotes a ha)

/-- **Agreement.** Quorums that meet decide one value. -/
theorem chosen_agree (hx : Sound Quorum x) (hmeet : ∀ Q Q', Quorum Q → Quorum Q' → ∃ a, a ∈ Q ∧ a ∈ Q') {b b' : B}
    {v v' : V} (h : Chosen Quorum x b v) (h' : Chosen Quorum x b' v') : v = v' := by
  have hvoter : ∀ {c : B} {w : V}, Chosen Quorum x c w → ∃ a, x.voted a c w := by
    intro c w hc
    obtain ⟨Q, hQ, hvotes⟩ := hc
    obtain ⟨a, ha, _⟩ := hmeet Q Q hQ hQ
    exact ⟨a, hvotes a ha⟩
  rcases le_total b b' with hle | hle
  · obtain ⟨a, ha⟩ := hvoter h'
    exact (hx.after_chosen hmeet h ha hle).symm
  · obtain ⟨a, ha⟩ := hvoter h
    exact hx.after_chosen hmeet h' ha hle

end Voting

end Hocmesh.Base
