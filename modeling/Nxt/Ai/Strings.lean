import Nxt.Ai.Json
import Nxt.Lib.Utf8

/- JSON strings both ways (json.hpp): what the writer puts out is read back whole, and the escapes
   of characters are read as their UTF-8. -/
namespace Nxt.Ai
open Nxt.Lib List

def readString (input : Bytes) : Except Error (Bytes × Bytes) :=
  match skipWs input with
  | [] => .error (endOfJson "string")
  | c :: rest =>
      if c ≠ 0x22 then .error (.parse "expected JSON string") else readStringBody [] rest

/-- Every quote is escaped, and so is what follows a backslash. -/
def quotesEscaped : Bytes → Bool
  | [] => true
  | 0x5c :: [] => false
  | 0x5c :: _ :: rest => quotesEscaped rest
  | c :: rest => c ≠ 0x22 && quotesEscaped rest

def hexUnit : Bytes → Option Nat
  | [a, b, c, d] => do
      some ((((← hexValue a) * 16 + (← hexValue b)) * 16 + (← hexValue c)) * 16 + (← hexValue d))
  | _ => none

def HighSurrogate (v : Nat) : Prop := 0xd800 ≤ v ∧ v ≤ 0xdbff

def LowSurrogate (v : Nat) : Prop := 0xdc00 ≤ v ∧ v ≤ 0xdfff

def unicodeEscape (digits : Bytes) : Bytes := 0x5c :: 0x75 :: digits

inductive Spells : Char → Bytes → Prop where
  | short {c : Char} {e b : UInt8} (known : simpleEscape e = some b) (value : c.val.toNat = b.toNat) :
      Spells c [0x5c, e]
  | unit {c : Char} {digits : Bytes} (value : hexUnit digits = some c.val.toNat) :
      Spells c (unicodeEscape digits)
  | pair {c : Char} {digits more : Bytes} {high low : Nat} (first : hexUnit digits = some high)
      (second : hexUnit more = some low) (isHigh : HighSurrogate high) (isLow : LowSurrogate low)
      (value : c.val.toNat = 0x10000 + (high - 0xd800) * 0x400 + (low - 0xdc00)) :
      Spells c (unicodeEscape digits ++ unicodeEscape more)

/-- Characters as they are and escapes, and what they denote. -/
inductive StringText : Bytes → Bytes → Prop where
  | nil : StringText [] []
  | plain {c : UInt8} {text value : Bytes} (quote : c ≠ 0x22) (slash : c ≠ 0x5c) (printable : ¬ c < 0x20)
      (more : StringText text value) : StringText (c :: text) (c :: value)
  | escape {c : Char} {spelled text value : Bytes} (spells : Spells c spelled) (more : StringText text value) :
      StringText (spelled ++ text) (String.utf8EncodeChar c ++ value)

/-- A surrogate without its other half: a low one, or a high one that no low one follows. -/
def Unpaired (input : Bytes) : Prop :=
  ∃ digits v rest, input = unicodeEscape digits ++ rest ∧ hexUnit digits = some v ∧
    (LowSurrogate v ∨ (HighSurrogate v ∧ ¬ ∃ more low after,
      rest = unicodeEscape more ++ after ∧ hexUnit more = some low ∧ LowSurrogate low))

section Body
variable {out rest : Bytes}

theorem body_plain {c : UInt8} (quote : c ≠ 0x22) (slash : c ≠ 0x5c) (printable : ¬ c < 0x20) :
    readStringBody out (c :: rest) = readStringBody (out ++ [c]) rest := by
  rw [readStringBody.eq_def]
  dsimp only
  rw [if_neg quote, if_neg printable, if_pos slash]

theorem body_short {e b : UInt8} (known : simpleEscape e = some b) :
    readStringBody out (0x5c :: e :: rest) = readStringBody (out ++ [b]) rest := by
  rw [readStringBody, if_neg (by decide), if_neg (by decide), if_neg (by decide)]
  simp only [known]

theorem body_unicode {cp took : Nat} (read : readUnicode rest = .ok (cp, took)) :
    readStringBody out (0x5c :: 0x75 :: rest) = readStringBody (out ++ appendUtf8 cp) (rest.drop took) := by
  rw [readStringBody, if_neg (by decide), if_neg (by decide), if_neg (by decide)]
  have long : simpleEscape 0x75 = none := by decide
  simp only [long, ne_eq, not_true, if_false, read]

theorem body_refused {e : Error} (read : readUnicode rest = .error e) :
    readStringBody out (0x5c :: 0x75 :: rest) = .error e := by
  rw [readStringBody, if_neg (by decide), if_neg (by decide), if_neg (by decide)]
  have long : simpleEscape 0x75 = none := by decide
  simp only [long, ne_eq, not_true, if_false, read]

end Body

theorem hexUnit_eq_some {digits : Bytes} {v : Nat} (spelled : hexUnit digits = some v) :
    ∃ p q r s a b c d, digits = [p, q, r, s] ∧ hexValue p = some a ∧ hexValue q = some b ∧
      hexValue r = some c ∧ hexValue s = some d ∧ v = ((a * 16 + b) * 16 + c) * 16 + d := by
  unfold hexUnit at spelled
  split at spelled
  · rename_i p q r s
    obtain ⟨a, first, spelled⟩ := Option.bind_eq_some_iff.mp spelled
    obtain ⟨b, second, spelled⟩ := Option.bind_eq_some_iff.mp spelled
    obtain ⟨c, third, spelled⟩ := Option.bind_eq_some_iff.mp spelled
    obtain ⟨d, fourth, spelled⟩ := Option.bind_eq_some_iff.mp spelled
    exact ⟨p, q, r, s, a, b, c, d, rfl, first, second, third, fourth, (Option.some.inj spelled).symm⟩
  · cases spelled

theorem readU16Escape_unit {digits : Bytes} {v : Nat} (spelled : hexUnit digits = some v)
    (rest : Bytes) : digits.length = 4 ∧ readU16Escape 0 4 (digits ++ rest) = .ok v := by
  obtain ⟨p, q, r, s, a, b, c, d, rfl, first, second, third, fourth, rfl⟩ := hexUnit_eq_some spelled
  refine ⟨rfl, ?_⟩
  simp only [cons_append, readU16Escape, first, second, third, fourth, Nat.zero_mul, Nat.zero_add]

theorem hexValue_lt {c : UInt8} {v : Nat} (value : hexValue c = some v) : v < 16 := by
  unfold hexValue at value
  have bounds (a b : UInt8) : a ≤ b ↔ a.toNat ≤ b.toNat := UInt8.le_iff_toNat_le
  split at value
  · rename_i range
    simp only [bounds] at range
    cases value
    have last : (0x39 : UInt8).toNat = 0x39 := rfl
    omega
  · split at value
    · rename_i range
      simp only [bounds] at range
      cases value
      have last : (0x66 : UInt8).toNat = 0x66 := rfl
      omega
    · split at value
      · rename_i range
        simp only [bounds] at range
        cases value
        have last : (0x46 : UInt8).toNat = 0x46 := rfl
        omega
      · cases value

theorem hexUnit_lt {digits : Bytes} {v : Nat} (spelled : hexUnit digits = some v) : v < 0x10000 := by
  obtain ⟨p, q, r, s, a, b, c, d, -, first, second, third, fourth, rfl⟩ := hexUnit_eq_some spelled
  have := hexValue_lt first
  have := hexValue_lt second
  have := hexValue_lt third
  have := hexValue_lt fourth
  omega

theorem unit_of_readU16Escape {input : Bytes} {v : Nat} (read : readU16Escape 0 4 input = .ok v) :
    ∃ digits rest, input = digits ++ rest ∧ hexUnit digits = some v := by
  have turn {value n : Nat} {input : Bytes} (read : readU16Escape value (n + 1) input = .ok v) :
      ∃ p rest a, input = p :: rest ∧ hexValue p = some a ∧
        readU16Escape (value * 16 + a) n rest = .ok v := by
    cases input with
    | nil => cases read
    | cons p rest =>
      rw [readU16Escape] at read
      cases value : hexValue p with
      | none =>
        rw [value] at read
        cases read
      | some a =>
        rw [value] at read
        exact ⟨p, rest, a, rfl, value, read⟩
  obtain ⟨p, rest, a, rfl, first, read⟩ := turn read
  obtain ⟨q, rest, b, rfl, second, read⟩ := turn read
  obtain ⟨r, rest, c, rfl, third, read⟩ := turn read
  obtain ⟨s, rest, d, rfl, fourth, read⟩ := turn read
  refine ⟨[p, q, r, s], rest, rfl, ?_⟩
  simp only [hexUnit, first, second, third, fourth, Option.bind_eq_bind, Option.bind_some]
  cases read
  simp only [Nat.zero_mul, Nat.zero_add]

theorem appendUtf8_char (c : Char) : appendUtf8 c.val.toNat = String.utf8EncodeChar c := (utf8EncodeChar_bits c).symm

theorem appendUtf8_ascii {b : UInt8} (small : b.toNat < 0x80) : appendUtf8 b.toNat = [b] := by
  rw [appendUtf8, if_pos (by omega)]
  exact congrArg (fun b => [b]) (byte_eq rfl)

theorem simpleEscape_ascii {e b : UInt8} (known : simpleEscape e = some b) : b.toNat < 0x80 := by
  unfold simpleEscape at known
  split at known <;> [skip; split at known <;> [skip; split at known <;> [skip; split at known <;>
    [skip; split at known <;> [skip; split at known <;> [skip; split at known <;> [skip; split at known]]]]]]]
  all_goals cases known
  all_goals decide

theorem readUnicode_pair {digits more : Bytes} {high low : Nat} (first : hexUnit digits = some high)
    (second : hexUnit more = some low) (isHigh : HighSurrogate high) (isLow : LowSurrogate low)
    (rest : Bytes) : readUnicode (digits ++ unicodeEscape more ++ rest) =
      .ok (0x10000 + (high - 0xd800) * 0x400 + (low - 0xdc00), 10) := by
  obtain ⟨four, read⟩ := readU16Escape_unit first (unicodeEscape more ++ rest)
  obtain ⟨-, read'⟩ := readU16Escape_unit second rest
  unfold HighSurrogate at isHigh
  unfold LowSurrogate at isLow
  have dropped : (digits ++ (unicodeEscape more ++ rest)).drop 4 = 0x5c :: 0x75 :: (more ++ rest) := by
    rw [← four, drop_left]
    rfl
  rw [append_assoc, readUnicode, read, ok_bind, if_pos isHigh, dropped]
  simp only [ne_eq, not_true, if_false, read', ok_bind]
  rw [if_neg (by omega)]

theorem readUnicode_unit {digits : Bytes} {v : Nat} (spelled : hexUnit digits = some v)
    (valid : Scalar v) (rest : Bytes) : readUnicode (digits ++ rest) = .ok (v, 4) := by
  obtain ⟨-, read⟩ := readU16Escape_unit spelled rest
  unfold Scalar at valid
  rw [readUnicode, read, ok_bind, if_neg (by omega), if_neg (by omega)]

theorem body_spells {c : Char} {spelled : Bytes} (spells : Spells c spelled) (out rest : Bytes) :
    readStringBody out (spelled ++ rest) = readStringBody (out ++ String.utf8EncodeChar c) rest := by
  cases spells with
  | @short e b known value =>
    rw [← appendUtf8_char, value, appendUtf8_ascii (simpleEscape_ascii known)]
    exact body_short known
  | @unit digits value =>
    have four := (readU16Escape_unit value rest).1
    have whole := readUnicode_unit value (char_scalar c) rest
    rw [unicodeEscape, cons_append, cons_append, body_unicode whole, ← four, drop_left, appendUtf8_char]
  | @pair digits more high low first second isHigh isLow value =>
    have whole := readUnicode_pair first second isHigh isLow rest
    have size : (digits ++ unicodeEscape more).length = 10 := by
      rw [length_append, unicodeEscape, length_cons, length_cons,
        (readU16Escape_unit first []).1, (readU16Escape_unit second []).1]
    rw [← value] at whole
    rw [unicodeEscape, cons_append, cons_append, cons_append, cons_append,
      body_unicode whole, ← size, drop_left, appendUtf8_char]

theorem readUnicode_unpaired {digits rest : Bytes} {v : Nat} (spelled : hexUnit digits = some v)
    (alone : LowSurrogate v ∨ (HighSurrogate v ∧ ¬ ∃ more low after,
      rest = unicodeEscape more ++ after ∧ hexUnit more = some low ∧ LowSurrogate low)) :
    ∃ e, readUnicode (digits ++ rest) = .error e := by
  obtain ⟨four, read⟩ := readU16Escape_unit spelled rest
  rw [readUnicode, read, ok_bind]
  rcases alone with low | ⟨high, alone⟩
  · unfold LowSurrogate at low
    rw [if_neg (by omega), if_pos low]
    exact ⟨_, rfl⟩
  · unfold HighSurrogate at high
    have dropped : (digits ++ rest).drop 4 = rest := by rw [← four, drop_left]
    rw [if_pos high, dropped]
    cases rest with
    | nil => exact ⟨_, rfl⟩
    | cons a rest =>
      simp only
      split
      · exact ⟨_, rfl⟩
      · rename_i slash
        cases rest with
        | nil => exact ⟨_, rfl⟩
        | cons b rest =>
          simp only
          split
          · exact ⟨_, rfl⟩
          · rename_i letter
            cases next : readU16Escape 0 4 rest with
            | error e => exact ⟨e, rfl⟩
            | ok low =>
              rw [ok_bind]
              split
              · exact ⟨_, rfl⟩
              · rename_i inside
                obtain ⟨more, after, rfl, unit⟩ := unit_of_readU16Escape next
                have isLow : LowSurrogate low := by
                  unfold LowSurrogate
                  omega
                refine absurd ⟨more, low, after, ?_, unit, isLow⟩ alone
                rw [not_not.mp slash, not_not.mp letter]
                rfl

theorem body_text {text value : Bytes} (inside : StringText text value) (out rest : Bytes) :
    readStringBody out (text ++ rest) = readStringBody (out ++ value) rest := by
  induction inside generalizing out with
  | nil => rw [append_nil, nil_append]
  | plain quote slash printable _ ih =>
    rw [cons_append, body_plain quote slash printable, ih, append_assoc]
    rfl
  | escape spells _ ih => rw [append_assoc, body_spells spells, ih, append_assoc]

theorem StringText.spelled {chars : List Char} {spelled : List Bytes} (spells : List.Forall₂ Spells chars spelled) :
    StringText spelled.flatten (chars.flatMap String.utf8EncodeChar) := by
  induction spells with
  | nil => exact .nil
  | cons first _ ih => exact .escape first ih

theorem digit_value : ∀ d < 16, hexValue ((lit "0123456789abcdef").getD d 0) = some d := by
  decide

theorem body_escape (c : UInt8) (out rest : Bytes) :
    readStringBody out (escape c ++ rest) = readStringBody (out ++ [c]) rest := by
  unfold escape
  split
  · rename_i same
    subst same
    exact body_short (by decide)
  split
  · rename_i same
    subst same
    exact body_short (by decide)
  split
  · rename_i same
    subst same
    exact body_short (by decide)
  split
  · rename_i same
    subst same
    exact body_short (by decide)
  split
  · rename_i same
    subst same
    exact body_short (by decide)
  split
  · rename_i same
    subst same
    exact body_short (by decide)
  split
  · rename_i same
    subst same
    exact body_short (by decide)
  split
  · rename_i quote slash _ _ _ _ _ control
    have low : c.toNat < 0x20 := UInt8.lt_iff_toNat_lt.mp control
    have high := digit_value (c.toNat / 16) (by omega)
    have last := digit_value (c.toNat % 16) (by omega)
    have zero : hexValue 0x30 = some 0 := by decide
    have begins : lit "\\u00" = [0x5c, 0x75, 0x30, 0x30] := by decide
    rw [begins]
    generalize (lit "0123456789abcdef").getD (c.toNat / 16) 0 = p at high
    generalize (lit "0123456789abcdef").getD (c.toNat % 16) 0 = q at last
    have unit : hexUnit [0x30, 0x30, p, q] = some c.toNat := by
      simp only [hexUnit, zero, high, last, Option.bind_eq_bind, Option.bind_some]
      exact congrArg some (by omega)
    have read := readUnicode_unit unit (Or.inl (by omega)) rest
    have whole := @body_unicode out ([0x30, 0x30, p, q] ++ rest) _ _ read
    rw [appendUtf8_ascii (by omega)] at whole
    exact whole
  · rename_i quote slash _ _ _ _ _ printable
    exact body_plain quote slash printable

theorem escape_closed (c : UInt8) : (∀ rest, quotesEscaped (escape c ++ rest) = quotesEscaped rest) ∧
    ∀ b ∈ escape c, 0x20 ≤ b.toNat := by
  unfold escape
  split
  · exact ⟨fun rest => rfl, by simp⟩
  split
  · exact ⟨fun rest => rfl, by simp⟩
  split
  · exact ⟨fun rest => rfl, by simp⟩
  split
  · exact ⟨fun rest => rfl, by simp⟩
  split
  · exact ⟨fun rest => rfl, by simp⟩
  split
  · exact ⟨fun rest => rfl, by simp⟩
  split
  · exact ⟨fun rest => rfl, by simp⟩
  split
  · rename_i control
    have low : c.toNat < 0x20 := UInt8.lt_iff_toNat_lt.mp control
    have digits : ∀ d < 16, ∃ p : UInt8, (lit "0123456789abcdef").getD d 0 = p ∧ 0x20 ≤ p.toNat ∧
        p ≠ 0x5c ∧ p ≠ 0x22 := by
      have each : ∀ d < 16, 0x20 ≤ ((lit "0123456789abcdef").getD d 0).toNat ∧
          (lit "0123456789abcdef").getD d 0 ≠ 0x5c ∧ (lit "0123456789abcdef").getD d 0 ≠ 0x22 := by
        decide
      exact fun d small => ⟨_, rfl, each d small⟩
    obtain ⟨p, high, first⟩ := digits (c.toNat / 16) (by omega)
    obtain ⟨q, last, second⟩ := digits (c.toNat % 16) (by omega)
    have begins : lit "\\u00" = [0x5c, 0x75, 0x30, 0x30] := by decide
    rw [high, last, begins]
    refine ⟨fun rest => ?_, ?_⟩
    · simp [quotesEscaped, first, second]
    · simp [first.1, second.1]
  · rename_i quote slash _ _ _ _ _ printable
    refine ⟨fun rest => ?_, ?_⟩
    · simp [quotesEscaped, slash, quote]
    · rw [forall_mem_singleton]
      exact Nat.not_lt.mp fun low => printable (UInt8.lt_iff_toNat_lt.mpr low)

theorem body_written (text out rest : Bytes) :
    readStringBody out (text.flatMap escape ++ 0x22 :: rest) = .ok (out ++ text, rest) := by
  induction text generalizing out with
  | nil =>
    rw [flatMap_nil, nil_append, append_nil, readStringBody.eq_def]
    rfl
  | cons c text ih =>
    rw [flatMap_cons, append_assoc, body_escape, ih, append_assoc]
    rfl

theorem written_closed (text : Bytes) : quotesEscaped (text.flatMap escape) = true ∧
    ∀ b ∈ text.flatMap escape, 0x20 ≤ b.toNat := by
  induction text with
  | nil => exact ⟨rfl, nofun⟩
  | cons c text ih =>
    obtain ⟨closed, printable⟩ := escape_closed c
    rw [flatMap_cons, closed]
    refine ⟨ih.1, fun b held => ?_⟩
    rcases mem_append.mp held with first | later
    · exact printable b first
    · exact ih.2 b later

/-- What the writer puts out for a text is read back as it and nothing more, has no control
    character and no quote that is not escaped; escapes are read as the characters they denote; and
    half a surrogate pair is refused, wherever it stands. -/
theorem json_strings : (∀ text rest, readString (string text ++ rest) = .ok (text, rest)) ∧
    (∀ text, (∀ b ∈ string text, 0x20 ≤ b.toNat) ∧
      ∃ body, string text = [0x22] ++ body ++ [0x22] ∧ quotesEscaped body = true) ∧
    (∀ chars spelled rest, List.Forall₂ Spells chars spelled →
      readStringBody [] (spelled.flatten ++ 0x22 :: rest) = .ok (chars.flatMap String.utf8EncodeChar, rest)) ∧
    ∀ text value rest, StringText text value → Unpaired rest → ∃ e, readStringBody [] (text ++ rest) = .error e := by
  refine ⟨fun text rest => ?_, fun text => ?_, fun chars spelled rest spells => ?_,
    fun text value rest inside alone => ?_⟩
  · have opens : string text ++ rest = 0x22 :: (text.flatMap escape ++ 0x22 :: rest) := by
      simp [string]
    have quote : skipWs (0x22 :: (text.flatMap escape ++ 0x22 :: rest)) =
        0x22 :: (text.flatMap escape ++ 0x22 :: rest) := rfl
    rw [opens, readString, quote]
    exact body_written text [] rest
  · obtain ⟨closed, printable⟩ := written_closed text
    refine ⟨fun b held => ?_, _, rfl, closed⟩
    simp only [string, mem_append, mem_singleton] at held
    rcases held with (rfl | inside) | rfl
    · decide
    · exact printable b inside
    · decide
  · rw [body_text (.spelled spells), readStringBody.eq_def]
    rfl
  · rw [body_text inside]
    obtain ⟨digits, v, after, rfl, unit, alone⟩ := alone
    obtain ⟨e, refused⟩ := readUnicode_unpaired unit alone
    exact ⟨e, body_refused refused⟩

/-- The escapes of a character above the basic plane, and its first half alone behind a letter. -/
theorem json_strings_pair :
    readStringBody [] (lit "\\ud83d\\ude00" ++ 0x22 :: [0x2c]) = .ok ([0xf0, 0x9f, 0x98, 0x80], [0x2c]) ∧
      ∃ e, readStringBody [] (lit "a\\ud83d\"") = .error e := by
  have spells : List.Forall₂ Spells ['😀'] [lit "\\ud83d\\ude00"] :=
    .cons (@Spells.pair _ (lit "d83d") (lit "de00") 0xd83d 0xde00 (by decide) (by decide)
      ⟨by decide, by decide⟩ ⟨by decide, by decide⟩ (by decide)) .nil
  refine ⟨json_strings.2.2.1 _ _ [0x2c] spells, ?_⟩
  exact json_strings.2.2.2 (lit "a") (lit "a") (lit "\\ud83d\"") (.plain (by decide) (by decide) (by decide) .nil)
    ⟨lit "d83d", 0xd83d, [0x22], rfl, by decide, Or.inr ⟨⟨by decide, by decide⟩, by
      rintro ⟨more, low, after, same, -⟩
      cases same⟩⟩

end Nxt.Ai
