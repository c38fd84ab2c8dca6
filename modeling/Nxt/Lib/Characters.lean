import Nxt.Lib.Utf8

/- Texts of characters as bytes: the characters can be told from the bytes, and where each begins. -/
namespace Nxt.Lib
open List

def encoded (chars : List Char) : List UInt8 := chars.flatMap String.utf8EncodeChar

@[simp] theorem encoded_nil : encoded [] = [] := rfl

theorem encoded_cons (c : Char) (rest : List Char) : encoded (c :: rest) = String.utf8EncodeChar c ++ encoded rest :=
  flatMap_cons

theorem encoded_flatMap {α : Type} (f : α → List Char) (parts : List α) :
    encoded (parts.flatMap f) = parts.flatMap fun part => encoded (f part) := flatMap_assoc

theorem char_append_inj {c d : Char} {a b : List UInt8}
    (same : String.utf8EncodeChar c ++ a = String.utf8EncodeChar d ++ b) : c = d ∧ a = b := by
  have first (c : Char) (a : List UInt8) :
      ByteArray.utf8DecodeChar? (String.utf8EncodeChar c ++ a).toByteArray 0 = some c := by
    rw [toByteArray_append]
    exact ByteArray.utf8DecodeChar?_utf8EncodeChar_append
  have chars : some c = some d := by rw [← first c a, same, first d b]
  cases chars
  exact ⟨rfl, append_cancel_left same⟩

theorem char_ne_nil (c : Char) : String.utf8EncodeChar c ≠ [] := by
  have some_ := (encodes_char c).length_pos
  exact length_pos_iff.mp some_

theorem encoded_append_inj {chars more : List Char} {rest : List UInt8} (same : encoded chars ++ rest = encoded more) :
    ∃ tail, more = chars ++ tail ∧ rest = encoded tail := by
  induction chars generalizing more with
  | nil => exact ⟨more, rfl, same⟩
  | cons c chars ih =>
    rw [encoded_cons, append_assoc] at same
    cases more with
    | nil => exact absurd (append_eq_nil_iff.mp same).1 (char_ne_nil c)
    | cons d more =>
      rw [encoded_cons] at same
      obtain ⟨rfl, later⟩ := char_append_inj same
      obtain ⟨tail, rfl, rest⟩ := ih later
      exact ⟨tail, rfl, rest⟩

theorem encoded_inj {a b : List Char} (same : encoded a = encoded b) : a = b := by
  obtain ⟨tail, rfl, none_⟩ := encoded_append_inj ((append_nil _).trans same)
  cases tail with
  | nil => rw [append_nil]
  | cons c rest =>
    rw [encoded_cons] at none_
    exact absurd (append_eq_nil_iff.mp none_.symm).1 (char_ne_nil c)

theorem char_ascii {c : Char} (low : c.val.toNat < 0x80) : String.utf8EncodeChar c = [.ofNat c.val.toNat] := by
  unfold String.utf8EncodeChar
  dsimp only
  rw [if_pos (by omega)]

theorem char_multibyte {c : Char} (high : 0x80 ≤ c.val.toNat) :
    ∃ lead trails, String.utf8EncodeChar c = lead :: trails ∧ 0xc2 ≤ lead.toNat ∧ trails ≠ [] ∧
      ∀ b ∈ trails, Trail b := by
  have encodes := encodes_char c
  generalize c.val.toNat = v at encodes high
  generalize String.utf8EncodeChar c = bytes at encodes
  cases encodes with
  | one low => omega
  | @two a b lead second => exact ⟨a, [b], rfl, lead.1, cons_ne_nil _ _, by simpa using second⟩
  | @three a b c lead second third =>
    exact ⟨a, [b, c], rfl, by omega, cons_ne_nil _ _, by simpa using ⟨second, third⟩⟩
  | @four a b c d lead second third fourth =>
    exact ⟨a, [b, c, d], rfl, by omega, cons_ne_nil _ _, by simpa using ⟨second, third, fourth⟩⟩

theorem encoded_head {chars : List Char} {b : UInt8} {rest : List UInt8} (front : encoded chars = b :: rest) :
    ¬Trail b := by
  unfold Trail
  cases chars with
  | nil => cases front
  | cons c more =>
    rw [encoded_cons] at front
    by_cases low : c.val.toNat < 0x80
    · rw [char_ascii low] at front
      have first := (cons.inj front).1
      rw [← first, toNat_ofNat_small (by omega)]
      omega
    · obtain ⟨lead, trails, bytes, least, -, -⟩ := @char_multibyte c (by omega)
      rw [bytes] at front
      have first := (cons.inj front).1
      rw [← first]
      have most := lead.toNat_lt
      omega

end Nxt.Lib
