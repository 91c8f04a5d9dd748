/-
Lists in strictly descending order of a key, and readers that follow a cursor through one.

A strictly descending list is determined by its members, so a page that is put together from several queries equals the
slice it stands for as soon as it has the slice's members. `follow` reads page after page until no cursor is left;
`Pages` is what each single page must do for the whole walk to return everything once.
-/
import Mathlib.Data.List.Sort
import Mathlib.Data.List.Nodup
import Mathlib.Data.List.Flatten

namespace Hocmesh.Base

/-! ## Strictly descending lists -/

section

variable {α β : Type} [LinearOrder β] {key : α → β} {l l₁ l₂ : List α}

def Descending (key : α → β) (l : List α) : Prop := l.Pairwise fun a b => key b < key a

/-- `ORDER BY key DESC` -/
def orderDesc (key : α → β) (l : List α) : List α := l.insertionSort fun a b => key b ≤ key a

theorem mem_orderDesc {x : α} : x ∈ orderDesc key l ↔ x ∈ l := List.mem_insertionSort _

theorem descending_orderDesc (h : (l.map key).Nodup) : Descending key (orderDesc key l) := by
  have : Std.Total fun a b : α => key b ≤ key a := ⟨fun a b => le_total (key b) (key a)⟩
  have : IsTrans α fun a b : α => key b ≤ key a := ⟨fun _ _ _ hab hbc => hbc.trans hab⟩
  have hperm : ((orderDesc key l).map key).Nodup := ((List.perm_insertionSort _ l).map key).nodup_iff.2 h
  have hsorted := List.pairwise_insertionSort (fun a b : α => key b ≤ key a) l
  refine (hsorted.and (List.pairwise_map.1 hperm)).imp fun hab => ?_
  exact lt_of_le_of_ne hab.1 hab.2.symm

namespace Descending

theorem nodup (h : Descending key l) : l.Nodup :=
  List.Pairwise.imp (fun hlt heq => by rw [heq] at hlt; exact lt_irrefl _ hlt) h

theorem filter (h : Descending key l) (p : α → Bool) : Descending key (l.filter p) := List.Pairwise.filter p h

theorem take (h : Descending key l) (n : ℕ) : Descending key (l.take n) :=
  List.Pairwise.sublist (List.take_sublist n l) h

/-- two strictly descending lists with the same members are equal -/
theorem ext (h₁ : Descending key l₁) (h₂ : Descending key l₂) (hmem : ∀ x, x ∈ l₁ ↔ x ∈ l₂) : l₁ = l₂ := by
  have hperm : l₁.Perm l₂ := (List.perm_ext_iff_of_nodup h₁.nodup h₂.nodup).2 hmem
  exact List.Perm.eq_of_pairwise (fun a b _ _ hab hba => absurd hab (lt_asymm hba)) h₁ h₂ hperm

/-- the last element is the least -/
theorem getLast_le (h : Descending key l) {b x : α} (hb : l.getLast? = some b) (hx : x ∈ l) : key b ≤ key x := by
  obtain ⟨init, rfl⟩ := List.getLast?_eq_some_iff.1 hb
  rcases List.mem_append.1 hx with hx | hx
  · exact (List.pairwise_append.1 h).2.2 x hx b List.mem_cons_self |>.le
  · rw [List.mem_singleton.1 hx]

/-- the first element is the greatest -/
theorem le_head (h : Descending key l) {a x : α} (ha : l.head? = some a) (hx : x ∈ l) : key x ≤ key a := by
  obtain ⟨rest, rfl⟩ := List.head?_eq_some_iff.1 ha
  rcases List.mem_cons.1 hx with rfl | hx
  · exact le_rfl
  · exact ((List.pairwise_cons.1 h).1 x hx).le

/-- the first rows of a descending list are those at or above the last of them -/
theorem mem_take_iff (h : Descending key l) {n : ℕ} {b x : α} (hb : (l.take n).getLast? = some b) :
    x ∈ l.take n ↔ x ∈ l ∧ key b ≤ key x := by
  constructor
  · exact fun hx => ⟨List.mem_of_mem_take hx, (h.take n).getLast_le hb hx⟩
  · rintro ⟨hx, hle⟩
    rw [← List.take_append_drop n l] at hx h
    rcases List.mem_append.1 hx with hx | hx
    · exact hx
    · have hlt := (List.pairwise_append.1 h).2.2 b (List.mem_of_getLast? hb) x hx
      exact absurd hle (not_le.2 hlt)

end Descending

end

/-! ## Following a cursor -/

section

variable {σ β α : Type}

/-- every page from a cursor on, `none` when the fuel ends before the pages do -/
def follow (page : Option σ → β) (next : β → Option σ) : ℕ → Option σ → Option (List β)
  | 0, _ => none
  | fuel + 1, cursor =>
    match next (page cursor) with
    | none => some [page cursor]
    | some c => (follow page next fuel (some c)).map fun pages => page cursor :: pages

/-- every page of a walk is the page of some cursor -/
theorem mem_follow {page : Option σ → β} {next : β → Option σ} : ∀ {n : ℕ} {cursor : Option σ} {pages : List β},
    follow page next n cursor = some pages → ∀ p ∈ pages, ∃ c, p = page c := by
  intro n
  induction n with
  | zero => exact fun hrun => nomatch hrun
  | succ n ih =>
    intro cursor pages hrun p hp
    cases hnext : next (page cursor) with
    | none =>
      simp only [follow, hnext, Option.some.injEq] at hrun
      subst hrun
      exact ⟨cursor, List.mem_singleton.1 hp⟩
    | some c =>
      simp only [follow, hnext, Option.map_eq_some_iff] at hrun
      obtain ⟨rest, hrest, rfl⟩ := hrun
      rcases List.mem_cons.1 hp with rfl | hp
      · exact ⟨cursor, rfl⟩
      · exact ih hrest p hp

/-- a page holds what lies beyond its cursor down to the cursor it hands out -/
structure Pages (page : Option σ → β) (next : β → Option σ) (items : β → List α) (beyond : Option σ → List α) :
    Prop where
  last : ∀ cursor, next (page cursor) = none → items (page cursor) = beyond cursor
  split : ∀ cursor c, next (page cursor) = some c → items (page cursor) ++ beyond (some c) = beyond cursor
  nonempty : ∀ cursor c, next (page cursor) = some c → items (page cursor) ≠ []
  more : ∀ cursor c, next (page cursor) = some c → beyond (some c) ≠ []

variable {page : Option σ → β} {next : β → Option σ} {items : β → List α} {beyond : Option σ → List α}

theorem Pages.page_ne_nil (h : Pages page next items beyond) {cursor : Option σ} (hne : beyond cursor ≠ []) :
    items (page cursor) ≠ [] := by
  cases hnext : next (page cursor) with
  | none => rw [h.last cursor hnext]; exact hne
  | some c => exact h.nonempty cursor c hnext

/-- **The walk ends and returns everything.** The pages together are what lies beyond the cursor, and no page but the
first can be empty. -/
theorem Pages.follow (h : Pages page next items beyond) : ∀ (n : ℕ) (cursor : Option σ), (beyond cursor).length < n →
    ∃ first rest, Base.follow page next n cursor = some (first :: rest) ∧ first = page cursor ∧
      (first :: rest).flatMap items = beyond cursor ∧ ∀ p ∈ rest, items p ≠ [] := by
  intro n
  induction n with
  | zero => exact fun _ hlen => absurd hlen (Nat.not_lt_zero _)
  | succ n ih =>
    intro cursor hlen
    cases hnext : next (page cursor) with
    | none =>
      refine ⟨page cursor, [], by simp only [Base.follow, hnext], rfl, ?_, fun p hp => absurd hp List.not_mem_nil⟩
      rw [List.flatMap_cons, List.flatMap_nil, List.append_nil, h.last cursor hnext]
    | some c =>
      have hsplit := h.split cursor c hnext
      have hshort : (beyond (some c)).length < n := by
        have hpos := List.length_pos_of_ne_nil (h.nonempty cursor c hnext)
        rw [← hsplit, List.length_append] at hlen
        omega
      obtain ⟨first, rest, hrun, hfirst, hall, hne⟩ := ih (some c) hshort
      refine ⟨page cursor, first :: rest, by simp only [Base.follow, hnext, hrun, Option.map_some], rfl, ?_, ?_⟩
      · rw [List.flatMap_cons, hall, hsplit]
      · intro p hp
        rcases List.mem_cons.1 hp with rfl | hp
        · rw [hfirst]
          exact h.page_ne_nil (h.more cursor c hnext)
        · exact hne p hp

/-- a relation that separates every page from what lies beyond its cursor separates the pages from each other -/
theorem Pages.apart (h : Pages page next items beyond) {apart : α → α → Prop}
    (happart : ∀ cursor c, next (page cursor) = some c → ∀ x ∈ items (page cursor), ∀ y ∈ beyond (some c), apart x y) :
    ∀ (n : ℕ) (cursor : Option σ) (pages : List β), Base.follow page next n cursor = some pages →
      pages.flatMap items = beyond cursor ∧ pages.Pairwise fun p q => ∀ x ∈ items p, ∀ y ∈ items q, apart x y := by
  intro n
  induction n with
  | zero => exact fun _ _ hrun => nomatch hrun
  | succ n ih =>
    intro cursor pages hrun
    cases hnext : next (page cursor) with
    | none =>
      simp only [Base.follow, hnext, Option.some.injEq] at hrun
      subst hrun
      refine ⟨?_, List.pairwise_singleton _ _⟩
      rw [List.flatMap_cons, List.flatMap_nil, List.append_nil, h.last cursor hnext]
    | some c =>
      simp only [Base.follow, hnext, Option.map_eq_some_iff] at hrun
      obtain ⟨rest, hrest, rfl⟩ := hrun
      obtain ⟨hall, hpair⟩ := ih (some c) rest hrest
      refine ⟨by rw [List.flatMap_cons, hall, h.split cursor c hnext], List.pairwise_cons.2 ⟨?_, hpair⟩⟩
      intro q hq x hx y hy
      have hbeyond : y ∈ beyond (some c) := by
        rw [← hall]
        exact List.mem_flatMap.2 ⟨q, hq, hy⟩
      exact happart cursor c hnext x hx y hbeyond

end

end Hocmesh.Base
