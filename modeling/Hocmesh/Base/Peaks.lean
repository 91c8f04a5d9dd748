/-
The highest value of a function on a set, and the least element that attains it.

A peak is a pair of a value and an element, with a default element for the value zero, so that an empty set has one too.
There is at most one (`IsPeak.unique`), and the peaks of two sets join to that of their union (`IsPeak.union`). So a
search can be cut up in any way, and the parts combined in any order. Nothing in this file is about a trajectory.
-/
import Mathlib.Tactic

namespace Hocmesh.Base

variable {α : Type*} [LinearOrder α] [Zero α]

/-- `p.1` is the highest value on `S`, and `p.2` the least element that has it; zero where the highest value is zero -/
structure IsPeak (f : α → ℕ) (S : Set α) (p : ℕ × α) : Prop where
  bound : ∀ n ∈ S, f n ≤ p.1
  attained : 0 < p.1 → p.2 ∈ S ∧ f p.2 = p.1
  least : 0 < p.1 → ∀ n ∈ S, f n = p.1 → p.2 ≤ n
  none : p.1 = 0 → p.2 = 0

/-- the higher of two peaks, and of two of one height the one of the lesser element -/
def joinPeaks (p q : ℕ × α) : ℕ × α := if p.1 < q.1 ∨ (q.1 = p.1 ∧ 0 < q.1 ∧ q.2 < p.2) then q else p

namespace IsPeak

variable {f : α → ℕ} {S T : Set α} {p q : ℕ × α}

theorem empty : IsPeak f ∅ (0, 0) := by
  constructor <;> simp

theorem unique (hp : IsPeak f S p) (hq : IsPeak f S q) : p = q := by
  have hle : ∀ {p q : ℕ × α}, IsPeak f S p → IsPeak f S q → p.1 ≤ q.1 := by
    intro p q hp hq
    rcases Nat.eq_zero_or_pos p.1 with hzero | hpos
    · omega
    · obtain ⟨hmem, heq⟩ := hp.attained hpos
      exact heq ▸ hq.bound _ hmem
  have hvalue : p.1 = q.1 := le_antisymm (hle hp hq) (hle hq hp)
  rcases Nat.eq_zero_or_pos p.1 with hzero | hpos
  · exact Prod.ext hvalue ((hp.none hzero).trans (hq.none (hvalue ▸ hzero)).symm)
  · obtain ⟨hpmem, hpeq⟩ := hp.attained hpos
    obtain ⟨hqmem, hqeq⟩ := hq.attained (hvalue ▸ hpos)
    exact Prod.ext hvalue (le_antisymm (hp.least hpos _ hqmem (hqeq.trans hvalue.symm))
      (hq.least (hvalue ▸ hpos) _ hpmem (hpeq.trans hvalue)))

/-- the peaks of two sets join to the peak of both -/
theorem union (hp : IsPeak f S p) (hq : IsPeak f T q) : IsPeak f (S ∪ T) (joinPeaks p q) := by
  unfold joinPeaks
  split_ifs with hjoin
  · refine ⟨?_, fun hpos => ⟨.inr (hq.attained hpos).1, (hq.attained hpos).2⟩, ?_, hq.none⟩
    · rintro n (hn | hn)
      · have := hp.bound n hn
        omega
      · exact hq.bound n hn
    · rintro hpos n (hn | hn) hvalue
      · -- an element of the first set that is as high is no less than that set's own
        have hbound := hp.bound n hn
        rcases hjoin with hlt | ⟨heq, -, hseed⟩
        · omega
        · exact hseed.le.trans (hp.least (heq ▸ hpos) n hn (hvalue.trans heq))
      · exact hq.least hpos n hn hvalue
  · have hle : q.1 ≤ p.1 := by
      by_contra hlt
      exact hjoin (.inl (by omega))
    refine ⟨?_, fun hpos => ⟨.inl (hp.attained hpos).1, (hp.attained hpos).2⟩, ?_, hp.none⟩
    · rintro n (hn | hn)
      · exact hp.bound n hn
      · exact (hq.bound n hn).trans hle
    · rintro hpos n (hn | hn) hvalue
      · exact hp.least hpos n hn hvalue
      · have hbound := hq.bound n hn
        have heq : q.1 = p.1 := by omega
        have hseed : p.2 ≤ q.2 := by
          by_contra hlt
          exact hjoin (.inr ⟨heq, heq ▸ hpos, not_le.1 hlt⟩)
        exact hseed.trans (hq.least (heq ▸ hpos) n hn (hvalue.trans heq.symm))

/-- one more element, beyond all of the set, is the peak when it is higher -/
theorem insert_last (hp : IsPeak f S p) {n : α} (hlast : ∀ m ∈ S, m < n) :
    IsPeak f (insert n S) (if p.1 < f n then (f n, n) else p) := by
  split_ifs with hhigher
  · refine ⟨?_, fun _ => ⟨Set.mem_insert n S, rfl⟩, ?_, fun hzero => absurd hzero (by dsimp only; omega)⟩
    · rintro m (rfl | hm)
      · exact le_rfl
      · exact (hp.bound m hm).trans hhigher.le
    · rintro - m (rfl | hm) hvalue
      · exact le_rfl
      · exact absurd hvalue (((hp.bound m hm).trans_lt hhigher).ne)
  · refine ⟨?_, fun hpos => ⟨Set.mem_insert_of_mem n (hp.attained hpos).1, (hp.attained hpos).2⟩, ?_, hp.none⟩
    · rintro m (rfl | hm)
      · exact not_lt.1 hhigher
      · exact hp.bound m hm
    · rintro hpos m (rfl | hm) hvalue
      · exact (hlast _ (hp.attained hpos).1).le
      · exact hp.least hpos m hm hvalue

/-- parts combined one after another -/
theorem foldl {ι : Type*} (part : ι → Set α) (peak : ι → ℕ × α) (l : List ι) (h : ∀ i ∈ l, IsPeak f (part i) (peak i)) :
    ∀ (S : Set α) (p : ℕ × α), IsPeak f S p →
      IsPeak f (S ∪ {n | ∃ i ∈ l, n ∈ part i}) (l.foldl (fun best i => joinPeaks best (peak i)) p) := by
  induction l with
  | nil =>
    intro S p hp
    simpa using hp
  | cons i l ih =>
    intro S p hp
    have hrest := ih (fun j hj => h j (List.mem_cons_of_mem _ hj)) _ _ (hp.union (h i List.mem_cons_self))
    have hset : S ∪ part i ∪ {n | ∃ j ∈ l, n ∈ part j} = S ∪ {n | ∃ j ∈ i :: l, n ∈ part j} := by
      ext n
      simp [or_assoc]
    rwa [hset] at hrest

end IsPeak

end Hocmesh.Base
