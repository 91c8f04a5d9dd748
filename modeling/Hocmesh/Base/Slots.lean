/-
Amounts set aside in slots, each paid out at most once.

A slot holds a price under an id and draws on an account; it is open until it is settled, with or without a payment. In a
`Budgeted` pair of slots and payments no slot is paid twice and no account pays more than its budget, because what is paid
and what open slots still hold never exceed it together. Three operations keep it: closing slots, closing one against its
price, and opening the slots of a new account within its budget.
-/
import Mathlib.Tactic

namespace Hocmesh.Base

/-- an amount set aside under an id -/
structure Slot (K A : Type) where
  id : K
  account : A
  price : ℤ
  isOpen : Bool

structure Payment (K A : Type) where
  id : K
  account : A
  amount : ℤ

/-- an update of the rows behind the slots, `f` before and `g` after, that opens none -/
structure Closes {K A α : Type} (rows : List α) (f g : α → Slot K A) : Prop where
  id : ∀ x ∈ rows, (g x).id = (f x).id
  account : ∀ x ∈ rows, (g x).account = (f x).account
  price : ∀ x ∈ rows, (g x).price = (f x).price
  isOpen : ∀ x ∈ rows, (g x).isOpen = true → (f x).isOpen = true

theorem Closes.map_ids {K A α : Type} {rows : List α} {f g : α → Slot K A} (h : Closes rows f g) :
    (rows.map g).map Slot.id = (rows.map f).map Slot.id := by
  rw [List.map_map, List.map_map]
  exact List.map_congr_left fun x hx => h.id x hx

theorem Closes.sub {K A α : Type} {rows rows' : List α} {f g : α → Slot K A} (h : Closes rows f g) (hsub : rows' ⊆ rows) :
    Closes rows' f g :=
  ⟨fun x hx => h.id x (hsub hx), fun x hx => h.account x (hsub hx), fun x hx => h.price x (hsub hx),
    fun x hx => h.isOpen x (hsub hx)⟩

section

variable {K A : Type} [DecidableEq A]

/-- what a slot still holds for an account -/
def Slot.holds (a : A) (s : Slot K A) : ℤ := if s.account = a ∧ s.isOpen = true then s.price else 0

def held (slots : List (Slot K A)) (a : A) : ℤ := (slots.map (Slot.holds a)).sum

def Payment.drawn (a : A) (p : Payment K A) : ℤ := if p.account = a then p.amount else 0

def paid (payments : List (Payment K A)) (a : A) : ℤ := (payments.map (Payment.drawn a)).sum

variable {slots : List (Slot K A)}

theorem Slot.holds_nonneg {s : Slot K A} (h : 0 ≤ s.price) (a : A) : 0 ≤ s.holds a := by
  unfold Slot.holds
  split_ifs
  · exact h
  · exact le_rfl

theorem Closes.holds_le {α : Type} {rows : List α} {f g : α → Slot K A} (h : Closes rows f g) {x : α} (hx : x ∈ rows)
    (hprice : 0 ≤ (f x).price) (a : A) : (g x).holds a ≤ (f x).holds a := by
  unfold Slot.holds
  rw [h.account x hx, h.price x hx]
  split_ifs with hnew hold
  · exact le_rfl
  · exact absurd ⟨hnew.1, h.isOpen x hx hnew.2⟩ hold
  · exact hprice
  · exact le_rfl

theorem held_nonneg (h : ∀ s ∈ slots, 0 ≤ s.price) (a : A) : 0 ≤ held slots a := by
  refine List.sum_nonneg ?_
  intro x hx
  obtain ⟨s, hs, rfl⟩ := List.mem_map.1 hx
  exact Slot.holds_nonneg (h s hs) a

theorem Closes.held_le {α : Type} {rows : List α} {f g : α → Slot K A} (h : Closes rows f g)
    (hprice : ∀ x ∈ rows, 0 ≤ (f x).price) (a : A) : held (rows.map g) a ≤ held (rows.map f) a := by
  unfold held
  rw [List.map_map, List.map_map]
  exact List.sum_le_sum fun x hx => h.holds_le hx (hprice x hx) a

/-- closing an open slot frees its price -/
theorem Closes.held_add_le {α : Type} {rows : List α} {f g : α → Slot K A} (h : Closes rows f g)
    (hprice : ∀ x ∈ rows, 0 ≤ (f x).price) {x : α} (hx : x ∈ rows) (hopen : (f x).isOpen = true)
    (hclosed : (g x).isOpen = false) (a : A) :
    held (rows.map g) a + (if (f x).account = a then (f x).price else 0) ≤ held (rows.map f) a := by
  obtain ⟨before, after, rfl⟩ := List.append_of_mem hx
  have hb : before ⊆ before ++ x :: after := List.subset_append_left _ _
  have ha : after ⊆ before ++ x :: after := fun y hy => List.mem_append_right _ (List.mem_cons_of_mem _ hy)
  have h1 := (h.sub hb).held_le (fun y hy => hprice y (hb hy)) a
  have h2 := (h.sub ha).held_le (fun y hy => hprice y (ha hy)) a
  have hold : (f x).holds a = if (f x).account = a then (f x).price else 0 := by simp [Slot.holds, hopen]
  have hnew : (g x).holds a = 0 := by simp [Slot.holds, hclosed]
  simp only [held, List.map_append, List.map_cons, List.sum_append, List.sum_cons] at *
  rw [hnew, ← hold]
  linarith

end

section

variable {K A : Type} [DecidableEq K] [DecidableEq A]

/-- the payments of one slot -/
def paymentsOf (payments : List (Payment K A)) (id : K) : List (Payment K A) := payments.filter fun p => p.id = id

structure Budgeted (slots : List (Slot K A)) (payments : List (Payment K A)) (budget : A → ℤ) : Prop where
  ids : (slots.map Slot.id).Nodup
  price : ∀ s ∈ slots, 0 ≤ s.price
  /-- what is paid is the account of a closed slot -/
  closed : ∀ p ∈ payments, ∃ s ∈ slots, s.id = p.id ∧ s.account = p.account ∧ s.isOpen = false
  once : ∀ id, (paymentsOf payments id).length ≤ 1
  within : ∀ a, paid payments a + held slots a ≤ budget a

variable {slots : List (Slot K A)} {payments : List (Payment K A)} {budget : A → ℤ}

namespace Budgeted

theorem paid_le (h : Budgeted slots payments budget) (a : A) : paid payments a ≤ budget a := by
  have := held_nonneg h.price a
  have := h.within a
  linarith

/-- the slot an id names is the only one -/
theorem only (h : Budgeted slots payments budget) {s s' : Slot K A} (hs : s ∈ slots) (hs' : s' ∈ slots)
    (hid : s.id = s'.id) : s = s' := List.inj_on_of_nodup_map h.ids hs hs' hid

/-- an open slot has not been paid -/
theorem unpaid (h : Budgeted slots payments budget) {s : Slot K A} (hs : s ∈ slots) (hopen : s.isOpen = true) :
    paymentsOf payments s.id = [] := by
  refine List.filter_eq_nil_iff.2 ?_
  intro p hp hid
  obtain ⟨s', hs', hid', _, hclosed⟩ := h.closed p hp
  simp only [decide_eq_true_eq] at hid
  rw [h.only hs hs' (hid.symm.trans hid'.symm), hclosed] at hopen
  cases hopen

section

variable {α : Type} {rows : List α} {f g : α → Slot K A}

/-- closed slots stay closed -/
theorem closed_map (h : Budgeted (rows.map f) payments budget) (hg : Closes rows f g) {p : Payment K A}
    (hp : p ∈ payments) : ∃ s ∈ rows.map g, s.id = p.id ∧ s.account = p.account ∧ s.isOpen = false := by
  obtain ⟨s, hs, hid, hacc, hclosed⟩ := h.closed p hp
  obtain ⟨x, hx, rfl⟩ := List.mem_map.1 hs
  refine ⟨g x, List.mem_map_of_mem hx, (hg.id x hx).trans hid, (hg.account x hx).trans hacc, ?_⟩
  by_contra hopen
  rw [hg.isOpen x hx (by simpa using hopen)] at hclosed
  cases hclosed

/-- **Close.** Slots may be closed without a payment. -/
theorem close (h : Budgeted (rows.map f) payments budget) (hg : Closes rows f g) : Budgeted (rows.map g) payments budget where
  ids := by
    rw [hg.map_ids]
    exact h.ids
  price := by
    intro s hs
    obtain ⟨x, hx, rfl⟩ := List.mem_map.1 hs
    rw [hg.price x hx]
    exact h.price _ (List.mem_map_of_mem hx)
  closed := fun p hp => h.closed_map hg hp
  once := h.once
  within := by
    intro a
    have := hg.held_le (fun x hx => h.price _ (List.mem_map_of_mem hx)) a
    have := h.within a
    linarith

/-- **Pay.** An open slot is closed against its price. -/
theorem pay (h : Budgeted (rows.map f) payments budget) (hg : Closes rows f g) {x : α} (hx : x ∈ rows)
    (hopen : (f x).isOpen = true) (hclosed : (g x).isOpen = false) :
    Budgeted (rows.map g) (payments ++ [⟨(f x).id, (f x).account, (f x).price⟩]) budget where
  ids := (h.close hg).ids
  price := (h.close hg).price
  closed := by
    intro p hp
    rcases List.mem_append.1 hp with hp | hp
    · exact h.closed_map hg hp
    · rw [List.mem_singleton.1 hp]
      exact ⟨g x, List.mem_map_of_mem hx, hg.id x hx, hg.account x hx, hclosed⟩
  once := by
    intro id
    unfold paymentsOf
    rw [List.filter_append, List.length_append]
    by_cases hid : (f x).id = id
    · have hnone : payments.filter (fun p => p.id = id) = [] := by
        rw [← hid]
        exact h.unpaid (List.mem_map_of_mem hx) hopen
      rw [hnone]
      simp [hid]
    · have := h.once id
      simpa [paymentsOf, hid] using this
  within := by
    intro a
    have hfree := hg.held_add_le (fun x hx => h.price _ (List.mem_map_of_mem hx)) hx hopen hclosed a
    have hbudget := h.within a
    simp only [paid, List.map_append, List.map_cons, List.map_nil, List.sum_append, List.sum_cons, List.sum_nil, add_zero,
      Payment.drawn] at *
    linarith

end

/-- **Open.** A new account comes with slots it can pay for. -/
theorem opens (h : Budgeted slots payments budget) {budget' : A → ℤ} {new : List (Slot K A)} {a : A}
    (hids : (new.map Slot.id).Nodup) (hfresh : ∀ s ∈ slots, ∀ s' ∈ new, s.id ≠ s'.id)
    (hprice : ∀ s ∈ new, 0 ≤ s.price) (haccount : ∀ s ∈ new, s.account = a) (hnone : ∀ s ∈ slots, s.account ≠ a)
    (hbudget : ∀ b, b ≠ a → budget b = budget' b) (hcover : (new.map Slot.price).sum ≤ budget' a) :
    Budgeted (slots ++ new) payments budget' where
  ids := by
    rw [List.map_append]
    refine List.nodup_append.2 ⟨h.ids, hids, ?_⟩
    intro x hx y hy hxy
    obtain ⟨s, hs, rfl⟩ := List.mem_map.1 hx
    obtain ⟨s', hs', rfl⟩ := List.mem_map.1 hy
    exact hfresh s hs s' hs' hxy
  price := by
    intro s hs
    rcases List.mem_append.1 hs with hs | hs
    · exact h.price s hs
    · exact hprice s hs
  closed := by
    intro p hp
    obtain ⟨s, hs, hrest⟩ := h.closed p hp
    exact ⟨s, List.mem_append_left _ hs, hrest⟩
  once := h.once
  within := by
    intro b
    have hsplit : held (slots ++ new) b = held slots b + held new b := by
      simp [held]
    rw [hsplit]
    by_cases hb : b = a
    · subst hb
      have hpaid : paid payments b = 0 := by
        refine List.sum_eq_zero ?_
        intro x hx
        obtain ⟨p, hp, rfl⟩ := List.mem_map.1 hx
        obtain ⟨s, hs, _, hacc, _⟩ := h.closed p hp
        have hne : p.account ≠ b := hacc ▸ hnone s hs
        simp [Payment.drawn, hne]
      have hold : held slots b = 0 := by
        refine List.sum_eq_zero ?_
        intro x hx
        obtain ⟨s, hs, rfl⟩ := List.mem_map.1 hx
        simp [Slot.holds, hnone s hs]
      have hnew : held new b ≤ (new.map Slot.price).sum := by
        refine List.sum_le_sum fun s hs => ?_
        unfold Slot.holds
        split_ifs
        · exact le_rfl
        · exact hprice s hs
      linarith
    · have hnew : held new b = 0 := by
        refine List.sum_eq_zero ?_
        intro x hx
        obtain ⟨s, hs, rfl⟩ := List.mem_map.1 hx
        have hne : s.account ≠ b := by
          rw [haccount s hs]
          exact fun hab => hb hab.symm
        simp [Slot.holds, hne]
      have := h.within b
      rw [hbudget b hb] at this
      linarith

theorem empty (budget : A → ℤ) (hbudget : ∀ a, 0 ≤ budget a) : Budgeted ([] : List (Slot K A)) [] budget :=
  ⟨by simp, by simp, by simp, by simp [paymentsOf], by simpa [paid, held] using hbudget⟩

end Budgeted

end

/-! ## Budgets kept in a table -/

section

variable {A J : Type} [DecidableEq A] {key : J → A} {amount : J → ℤ} {rows : List J}

/-- the budget of an account in the table that names it, nothing for one that is not there -/
def budgetOf (key : J → A) (amount : J → ℤ) (rows : List J) (a : A) : ℤ :=
  ((rows.find? fun j => key j = a).map amount).getD 0

theorem budgetOf_append {row : J} (hfresh : ∀ j ∈ rows, key j ≠ key row) (a : A) :
    budgetOf key amount (rows ++ [row]) a = if a = key row then amount row else budgetOf key amount rows a := by
  unfold budgetOf
  rw [List.find?_append]
  split_ifs with hsame
  · subst hsame
    have hnone : (rows.find? fun j => key j = key row) = none :=
      List.find?_eq_none.2 fun j hj => by simpa using hfresh j hj
    rw [hnone]
    simp
  · have hnone : (([row] : List J).find? fun j => key j = a) = none :=
      List.find?_eq_none.2 fun j hj => by simpa [List.mem_singleton.1 hj] using fun heq : key row = a => hsame heq.symm
    rw [hnone, Option.or_none]

theorem budgetOf_of_mem (hnodup : (rows.map key).Nodup) {row : J} (h : row ∈ rows) :
    budgetOf key amount rows (key row) = amount row := by
  unfold budgetOf
  cases hx : rows.find? fun j => key j = key row with
  | none => exact absurd (by simp) (List.find?_eq_none.1 hx row h)
  | some x =>
    have hkey : key x = key row := by simpa using List.find?_some hx
    rw [List.inj_on_of_nodup_map hnodup (List.mem_of_find?_eq_some hx) h hkey]
    rfl

theorem nodup_keys_append (hnodup : (rows.map key).Nodup) {row : J} (hfresh : ∀ j ∈ rows, key j ≠ key row) :
    ((rows ++ [row]).map key).Nodup := by
  rw [List.map_append]
  refine List.nodup_append.2 ⟨hnodup, by simp, ?_⟩
  intro x hx y hy hxy
  obtain ⟨j, hj, rfl⟩ := List.mem_map.1 hx
  rw [List.map_singleton, List.mem_singleton] at hy
  exact hfresh j hj (hxy.trans hy)

end

end Hocmesh.Base
