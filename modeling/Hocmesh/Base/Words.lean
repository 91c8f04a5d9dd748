/-
Thirty-two-bit words as bytes, least significant first.

`leBytes` writes a word, `ofLe` reads four bytes, `words` reads as many words as a byte string holds. Writing a list of
words and reading it back gives the list (`words_leBytes`), and a byte string of words is a multiple of four long.
-/
import Mathlib.Tactic

namespace Hocmesh.Base

def leBytes (v : UInt32) : List UInt8 :=
  [UInt8.ofNat v.toNat, UInt8.ofNat (v.toNat / 2 ^ 8), UInt8.ofNat (v.toNat / 2 ^ 16), UInt8.ofNat (v.toNat / 2 ^ 24)]

def ofLe (a b c d : UInt8) : UInt32 :=
  UInt32.ofNat (a.toNat + b.toNat * 2 ^ 8 + c.toNat * 2 ^ 16 + d.toNat * 2 ^ 24)

/-- the words of a byte string; the bytes that do not fill a word are dropped -/
def words : List UInt8 → List UInt32
  | a :: b :: c :: d :: rest => ofLe a b c d :: words rest
  | _ => []

@[simp] theorem length_leBytes (v : UInt32) : (leBytes v).length = 4 := rfl

theorem ofLe_leBytes (v : UInt32) :
    ofLe (UInt8.ofNat v.toNat) (UInt8.ofNat (v.toNat / 2 ^ 8)) (UInt8.ofNat (v.toNat / 2 ^ 16))
      (UInt8.ofNat (v.toNat / 2 ^ 24)) = v := by
  apply UInt32.toNat_inj.1
  have hv : v.toNat < 2 ^ 32 := v.toNat_lt
  simp only [ofLe, UInt32.toNat_ofNat', UInt8.toNat_ofNat']
  omega

@[simp] theorem words_append_leBytes (v : UInt32) (rest : List UInt8) :
    words (leBytes v ++ rest) = v :: words rest := by
  simp only [leBytes, List.cons_append, List.nil_append, words, ofLe_leBytes]

/-- **Round trip.** -/
@[simp] theorem words_leBytes (l : List UInt32) : words (l.flatMap leBytes) = l := by
  induction l with
  | nil => rfl
  | cons v l ih => rw [List.flatMap_cons, words_append_leBytes, ih]

@[simp] theorem length_flatMap_leBytes (l : List UInt32) : (l.flatMap leBytes).length = l.length * 4 := by
  induction l with
  | nil => rfl
  | cons v l ih =>
    rw [List.flatMap_cons, List.length_append, ih, length_leBytes, List.length_cons]
    omega

end Hocmesh.Base
