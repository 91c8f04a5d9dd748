/-
Text as bytes: `str::as_bytes` and `String::from_utf8_lossy`.

Bytes that are the encoding of a text are read back as that text (`fromUtf8Lossy_utf8`). What is not valid is replaced,
one replacement character for the longest start of a character that the bytes break off.
-/
import Mathlib.Tactic

namespace Hocmesh.Base

/-- the bytes of a text -/
def utf8 (s : String) : List UInt8 := s.toList.flatMap String.utf8EncodeChar

/-- the character that bytes start with -/
def decodeChar (bytes : List UInt8) : Option Char := (bytes.take 4).toByteArray.utf8DecodeChar? 0

def isContinuation (b : UInt8) : Bool := 0x80 ≤ b ∧ b ≤ 0xBF

/-- what may follow the first byte of a character of three or four bytes -/
def mayFollow (first second : UInt8) : Bool :=
  (first = 0xE0 ∧ 0xA0 ≤ second ∧ second ≤ 0xBF) ∨
  (0xE1 ≤ first ∧ first ≤ 0xEC ∧ isContinuation second) ∨
  (first = 0xED ∧ 0x80 ≤ second ∧ second ≤ 0x9F) ∨
  (0xEE ≤ first ∧ first ≤ 0xEF ∧ isContinuation second) ∨
  (first = 0xF0 ∧ 0x90 ≤ second ∧ second ≤ 0xBF) ∨
  (0xF1 ≤ first ∧ first ≤ 0xF3 ∧ isContinuation second) ∨
  (first = 0xF4 ∧ 0x80 ≤ second ∧ second ≤ 0x8F)

/-- how many bytes of a character that breaks off are replaced together -/
def brokenLen : List UInt8 → ℕ
  | first :: second :: third :: _ =>
    if mayFollow first second then if 0xF0 ≤ first ∧ isContinuation third then 3 else 2 else 1
  | [first, second] => if mayFollow first second then 2 else 1
  | _ => 1

/-- the characters of at most `n` steps -/
def lossyChars : ℕ → List UInt8 → List Char
  | 0, _ => []
  | _, [] => []
  | n + 1, bytes =>
    match decodeChar bytes with
    | some c => c :: lossyChars n (bytes.drop c.utf8Size)
    | none => Char.ofNat 0xFFFD :: lossyChars n (bytes.drop (brokenLen bytes))

/-- every step takes a byte at least, so there are no more steps than bytes -/
def fromUtf8Lossy (bytes : List UInt8) : String := String.ofList (lossyChars bytes.length bytes)

theorem decodeChar_append (c : Char) (rest : List UInt8) : decodeChar (String.utf8EncodeChar c ++ rest) = some c := by
  have hlen : (String.utf8EncodeChar c).length ≤ 4 := by
    rw [String.length_utf8EncodeChar]
    exact c.utf8Size_le_four
  have htake : (String.utf8EncodeChar c ++ rest).take 4 =
      String.utf8EncodeChar c ++ rest.take (4 - (String.utf8EncodeChar c).length) := by
    rw [List.take_append, List.take_of_length_le hlen]
  rw [decodeChar, htake, List.toByteArray_append]
  exact ByteArray.utf8DecodeChar?_utf8EncodeChar_append

theorem lossyChars_encoded (l : List Char) (n : ℕ) (hn : (l.flatMap String.utf8EncodeChar).length ≤ n) :
    lossyChars n (l.flatMap String.utf8EncodeChar) = l := by
  induction l generalizing n with
  | nil => cases n <;> rfl
  | cons c l ih =>
    have hpos : 0 < (String.utf8EncodeChar c).length := List.length_pos_iff.2 String.utf8EncodeChar_ne_nil
    rw [List.flatMap_cons, List.length_append] at hn
    obtain ⟨n, rfl⟩ : ∃ m, n = m + 1 := ⟨n - 1, by omega⟩
    have hdrop : (String.utf8EncodeChar c ++ l.flatMap String.utf8EncodeChar).drop c.utf8Size =
        l.flatMap String.utf8EncodeChar := by
      rw [← String.length_utf8EncodeChar, List.drop_left]
    have hne : String.utf8EncodeChar c ++ l.flatMap String.utf8EncodeChar ≠ [] := by
      intro h
      rw [List.append_eq_nil_iff] at h
      exact String.utf8EncodeChar_ne_nil h.1
    rw [List.flatMap_cons, lossyChars, decodeChar_append]
    · simp only [hdrop]
      rw [ih n (by omega)]
    · exact hne

/-- **Round trip.** A text is read back from its bytes. -/
@[simp] theorem fromUtf8Lossy_utf8 (s : String) : fromUtf8Lossy (utf8 s) = s := by
  rw [fromUtf8Lossy, utf8, lossyChars_encoded s.toList _ le_rfl, String.ofList_toList]

theorem utf8_inj {s t : String} : utf8 s = utf8 t ↔ s = t := by
  refine ⟨?_, fun h => by rw [h]⟩
  intro h
  rw [← fromUtf8Lossy_utf8 s, h, fromUtf8Lossy_utf8]

end Hocmesh.Base
