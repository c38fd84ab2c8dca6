import Nxt.Lib.Utf8
import Nxt.Lib.Wire

/- The text checks of nxtrt/websocket.hpp. A text is accepted when it is the encoding of
   characters. -/
namespace Nxt.WebSocket
open Nxt.Lib List

/-- The character that is read: its bits so far, the least value of its length, and the bytes left of it. -/
structure Utf8 where
  value : Nat := 0
  minimum : Nat := 0
  left : Nat := 0
  deriving DecidableEq

def utf8Step (s : Utf8) (c : UInt8) : Option Utf8 :=
  let c := c.toNat
  if s.left ≠ 0 then
    if c / 64 ≠ 2 then none
    else
      let value := s.value * 64 + c % 64
      if s.left = 1 ∧ (value < s.minimum ∨ value > 0x10ffff ∨ (value ≥ 0xd800 ∧ value ≤ 0xdfff)) then none
      else some { s with value, left := s.left - 1 }
  else if c ≥ 0x80 then
    if c ≥ 0xc2 ∧ c ≤ 0xdf then some { left := 1, minimum := 0x80, value := c % 32 }
    else if c ≥ 0xe0 ∧ c ≤ 0xef then some { left := 2, minimum := 0x800, value := c % 16 }
    else if c ≥ 0xf0 ∧ c ≤ 0xf4 then some { left := 3, minimum := 0x10000, value := c % 8 }
    else none
  else some s

def utf8From : Utf8 → Bytes → Bool
  | s, [] => s.left = 0
  | s, c :: text =>
      match utf8Step s c with
      | none => false
      | some s => utf8From s text

def utf8 (text : Bytes) : Bool := utf8From {} text

def closeCode (code : Nat) : Bool :=
  (1000 ≤ code && code ≤ 1014 && code ≠ 1004 && code ≠ 1005 && code ≠ 1006) || (3000 ≤ code && code ≤ 4999)

section Steps

theorem utf8From_between (s : Utf8) (text : Bytes) (between : s.left = 0) : utf8From s text = utf8 text := by
  unfold utf8
  induction text generalizing s with
  | nil => simp [utf8From, between]
  | cons c text ih =>
    have same : utf8Step s c = some s ∧ utf8Step {} c = some {} ∨ utf8Step s c = utf8Step {} c := by
      unfold utf8Step
      simp only [between, ne_eq, not_true_eq_false, if_false]
      split
      · exact .inr rfl
      · exact .inl ⟨rfl, rfl⟩
    rcases same with ⟨first, second⟩ | same
    · simp only [utf8From, first, second]
      exact ih s between
    · simp only [utf8From, same]

theorem utf8_ascii {a : UInt8} (small : a.toNat < 0x80) (text : Bytes) : utf8 (a :: text) = utf8 text := by
  have step : utf8Step {} a = some {} := by
    unfold utf8Step
    rw [if_neg (by simp), if_neg (by omega)]
  show utf8From {} (a :: text) = _
  rw [utf8From, step]
  rfl

theorem utf8From_middle {value minimum left : Nat} {b : UInt8} (text : Bytes) :
    utf8From { value, minimum, left := left + 2 } (b :: text) =
      (b.toNat / 64 = 2 && utf8From { value := value * 64 + b.toNat % 64, minimum, left := left + 1 } text) := by
  rw [utf8From, utf8Step, if_pos (by simp)]
  by_cases continues : b.toNat / 64 = 2
  · simp [continues]
  · simp [continues]

theorem utf8From_last {value minimum : Nat} {b : UInt8} (text : Bytes) :
    utf8From { value, minimum, left := 1 } (b :: text) =
      (b.toNat / 64 = 2 && (minimum ≤ value * 64 + b.toNat % 64 && value * 64 + b.toNat % 64 ≤ 0x10ffff &&
        !(0xd800 ≤ value * 64 + b.toNat % 64 && value * 64 + b.toNat % 64 ≤ 0xdfff)) && utf8 text) := by
  rw [utf8From, utf8Step, if_pos (by simp)]
  by_cases continues : b.toNat / 64 = 2
  · simp only [continues, ne_eq, not_true_eq_false, if_false, true_and, decide_true, Bool.true_and]
    by_cases wrong : value * 64 + b.toNat % 64 < minimum ∨ value * 64 + b.toNat % 64 > 0x10ffff ∨
        (value * 64 + b.toNat % 64 ≥ 0xd800 ∧ value * 64 + b.toNat % 64 ≤ 0xdfff)
    · rw [if_pos wrong]
      symm
      rw [Bool.and_eq_false_iff]
      left
      simp only [Bool.and_eq_false_iff, Bool.not_eq_false', Bool.and_eq_true, decide_eq_true_eq, decide_eq_false_iff_not]
      omega
    · rw [if_neg wrong]
      dsimp only
      rw [utf8From_between _ text rfl]
      have right : (decide (minimum ≤ value * 64 + b.toNat % 64) && decide (value * 64 + b.toNat % 64 ≤ 0x10ffff) &&
          !(decide (0xd800 ≤ value * 64 + b.toNat % 64) && decide (value * 64 + b.toNat % 64 ≤ 0xdfff))) = true := by
        simp only [Bool.and_eq_true, Bool.not_eq_true', Bool.and_eq_false_iff, decide_eq_true_eq, decide_eq_false_iff_not]
        omega
      rw [right, Bool.true_and]
  · simp [continues]

theorem utf8_first (a : UInt8) (text : Bytes) (large : ¬ a.toNat < 0x80) : utf8 (a :: text) =
    if 0xc2 ≤ a.toNat ∧ a.toNat ≤ 0xdf then utf8From { left := 1, minimum := 0x80, value := a.toNat % 32 } text
    else if 0xe0 ≤ a.toNat ∧ a.toNat ≤ 0xef then utf8From { left := 2, minimum := 0x800, value := a.toNat % 16 } text
    else if 0xf0 ≤ a.toNat ∧ a.toNat ≤ 0xf4 then utf8From { left := 3, minimum := 0x10000, value := a.toNat % 8 } text
    else false := by
  rw [utf8, utf8From, utf8Step, if_neg (by simp), if_pos (by omega)]
  split
  · rename_i s none_
    split at none_
    · cases none_
    · split at none_
      · cases none_
      · split at none_
        · cases none_
        · rename_i two three four
          rw [if_neg two, if_neg three, if_neg four]
  · rename_i s' s found
    split at found
    · rename_i two
      cases found
      rw [if_pos two]
    · rename_i two
      rw [if_neg two]
      split at found
      · rename_i three
        cases found
        rw [if_pos three]
      · rename_i three
        rw [if_neg three]
        split at found
        · rename_i four
          cases found
          rw [if_pos four]
        · cases found

theorem utf8_encodes {v : Nat} {bytes : Bytes} (encodes : Encodes v bytes) (text : Bytes) :
    utf8 (bytes ++ text) = utf8 text := by
  cases encodes with
  | one low => exact utf8_ascii low text
  | two lead second =>
    unfold Trail at second
    rw [cons_append, cons_append, nil_append, utf8_first _ _ (by omega), if_pos lead, utf8From_last]
    simp only [Bool.and_eq_right_iff_imp, Bool.and_eq_true, Bool.not_eq_true', Bool.and_eq_false_iff,
      decide_eq_true_eq, decide_eq_false_iff_not]
    omega
  | three lead second third least valid =>
    unfold Trail at second third
    unfold Scalar at valid
    rw [cons_append, cons_append, cons_append, nil_append,
      utf8_first _ _ (by omega), if_neg (by omega), if_pos lead, @utf8From_middle _ _ 0,
      utf8From_last, decide_eq_true second, Bool.true_and]
    simp only [Bool.and_eq_right_iff_imp, Bool.and_eq_true, Bool.not_eq_true', Bool.and_eq_false_iff,
      decide_eq_true_eq, decide_eq_false_iff_not]
    omega
  | four lead second third fourth least valid =>
    unfold Trail at second third fourth
    unfold Scalar at valid
    rw [cons_append, cons_append, cons_append, cons_append, nil_append,
      utf8_first _ _ (by omega), if_neg (by omega), if_neg (by omega), if_pos lead,
      @utf8From_middle _ _ 1, @utf8From_middle _ _ 0, utf8From_last,
      decide_eq_true second, decide_eq_true third, Bool.true_and, Bool.true_and]
    simp only [Bool.and_eq_right_iff_imp, Bool.and_eq_true, Bool.not_eq_true', Bool.and_eq_false_iff,
      decide_eq_true_eq, decide_eq_false_iff_not]
    omega

theorem utf8_encoded (chars : List Char) : utf8 (chars.flatMap String.utf8EncodeChar) = true := by
  induction chars with
  | nil => rfl
  | cons c chars ih => rw [flatMap_cons, utf8_encodes (encodes_char c), ih]

theorem utf8Text_cons {v : Nat} {bytes text : Bytes} (encodes : Encodes v bytes) (rest : Utf8Text text) :
    Utf8Text (bytes ++ text) := by
  obtain ⟨c, -, same⟩ := char_of_encodes encodes
  obtain ⟨chars, rfl⟩ := rest
  exact ⟨c :: chars, by rw [flatMap_cons, same]⟩

theorem utf8From_middle_inv {value minimum left : Nat} {text : Bytes}
    (accepted : utf8From { value, minimum, left := left + 2 } text = true) :
    ∃ b rest, text = b :: rest ∧ b.toNat / 64 = 2 ∧
      utf8From { value := value * 64 + b.toNat % 64, minimum, left := left + 1 } rest = true := by
  cases text with
  | nil => cases accepted
  | cons b rest =>
    rw [utf8From_middle, Bool.and_eq_true, decide_eq_true_eq] at accepted
    exact ⟨b, rest, rfl, accepted⟩

theorem utf8From_last_inv {value minimum : Nat} {text : Bytes}
    (accepted : utf8From { value, minimum, left := 1 } text = true) :
    ∃ b rest, text = b :: rest ∧ b.toNat / 64 = 2 ∧ minimum ≤ value * 64 + b.toNat % 64 ∧
      (value * 64 + b.toNat % 64 < 0xd800 ∨ (0xdfff < value * 64 + b.toNat % 64 ∧ value * 64 + b.toNat % 64 < 0x110000)) ∧
      utf8 rest = true := by
  cases text with
  | nil => cases accepted
  | cons b rest =>
    rw [utf8From_last] at accepted
    simp only [Bool.and_eq_true, Bool.not_eq_true', Bool.and_eq_false_iff, decide_eq_true_eq,
      decide_eq_false_iff_not] at accepted
    obtain ⟨⟨continues, ⟨least, most⟩, apart⟩, later⟩ := accepted
    exact ⟨b, rest, rfl, continues, least, by omega, later⟩

theorem utf8_inv {a : UInt8} {text : Bytes} (accepted : utf8 (a :: text) = true) :
    ∃ v bytes rest, a :: text = bytes ++ rest ∧ Encodes v bytes ∧ utf8 rest = true := by
  by_cases small : a.toNat < 0x80
  · rw [utf8_ascii small] at accepted
    exact ⟨_, [a], text, rfl, .one small, accepted⟩
  · rw [utf8_first a text small] at accepted
    split at accepted
    · rename_i lead
      obtain ⟨b, rest, rfl, second, least, valid, later⟩ := utf8From_last_inv accepted
      exact ⟨_, [a, b], rest, rfl, .two lead second, later⟩
    · split at accepted
      · rename_i lead
        obtain ⟨b, rest, rfl, second, accepted⟩ := utf8From_middle_inv accepted
        obtain ⟨c, rest, rfl, third, least, valid, later⟩ := utf8From_last_inv accepted
        exact ⟨_, [a, b, c], rest, rfl, .three lead second third least valid, later⟩
      · split at accepted
        · rename_i lead
          obtain ⟨b, rest, rfl, second, accepted⟩ := utf8From_middle_inv accepted
          obtain ⟨c, rest, rfl, third, accepted⟩ := utf8From_middle_inv accepted
          obtain ⟨d, rest, rfl, fourth, least, valid, later⟩ := utf8From_last_inv accepted
          exact ⟨_, [a, b, c, d], rest, rfl, .four lead second third fourth least valid, later⟩
        · cases accepted

theorem utf8Text_utf8 (text : Bytes) (accepted : utf8 text = true) : Utf8Text text := by
  induction size : text.length using Nat.strongRecOn generalizing text with
  | _ size' ih =>
    cases text with
    | nil => exact ⟨[], rfl⟩
    | cons a text =>
      obtain ⟨v, bytes, rest, same, encodes, later⟩ := utf8_inv accepted
      have shorter := congrArg List.length same
      have nonempty := encodes.length_pos
      rw [length_append] at shorter
      rw [same]
      exact utf8Text_cons encodes (ih rest.length (by omega) rest later rfl)

theorem utf8_iff (text : Bytes) : utf8 text = true ↔ Utf8Text text := by
  constructor
  · exact utf8Text_utf8 text
  · rintro ⟨chars, rfl⟩
    exact utf8_encoded chars

end Steps

end Nxt.WebSocket
