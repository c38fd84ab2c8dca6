import Nxt.Ai.Strings

/- The lenient reader of flat objects (tool_json.hpp). Its scanner has no errors of its own; it reads
   strings as json.hpp does. -/
namespace Nxt.Ai
open Nxt.Lib List

def jsonHexDigit (c : UInt8) : Int :=
  if 0x30 ≤ c ∧ c ≤ 0x39 then c.toNat - 0x30
  else if 0x61 ≤ c ∧ c ≤ 0x66 then c.toNat - 0x61 + 10
  else if 0x41 ≤ c ∧ c ≤ 0x46 then c.toNat - 0x41 + 10
  else -1

/-- The loop of `read_json_u16`, in sixteen bits. -/
def u16Digits (value : Nat) : Nat → Bytes → Option (Nat × Bytes)
  | 0, input => some (value, input)
  | _ + 1, [] => none
  | n + 1, c :: rest =>
    let digit := jsonHexDigit c
    if digit < 0 then none else u16Digits ((value <<< 4 ||| digit.toNat) % 2 ^ 16) n rest

def readJsonU16 (input : Bytes) : Option (Nat × Bytes) :=
  if input.length < 4 then none else u16Digits 0 4 input

def appendJsonUtf8 (codepoint : Nat) : Bytes := appendUtf8 codepoint

/-- The case of a `\u` escape in `read_json_string`: the code point, and what follows. -/
def unicodeCase (input : Bytes) : Option (Nat × Bytes) := do
  let (first, rest) ← readJsonU16 input
  if 0xd800 ≤ first ∧ first ≤ 0xdbff then
    match rest with
    | a :: b :: rest =>
      if a ≠ 0x5c ∨ b ≠ 0x75 then none
      else do
        let (second, rest) ← readJsonU16 rest
        if second < 0xdc00 ∨ 0xdfff < second then none
        else some (0x10000 + ((first - 0xd800) <<< 10 ||| (second - 0xdc00)), rest)
    | _ => none
  else if 0xdc00 ≤ first ∧ first ≤ 0xdfff then none
  else some (first, rest)

theorem hexDigit_cases (c : UInt8) : (jsonHexDigit c < 0 ∧ hexValue c = none) ∨
    ∃ v : Nat, v < 16 ∧ jsonHexDigit c = v ∧ hexValue c = some v := by
  have bounds (a b : UInt8) : a ≤ b ↔ a.toNat ≤ b.toNat := UInt8.le_iff_toNat_le
  unfold jsonHexDigit hexValue
  split
  · rename_i range
    simp only [bounds] at range
    have last : (0x39 : UInt8).toNat = 0x39 := rfl
    have first : (0x30 : UInt8).toNat = 0x30 := rfl
    exact Or.inr ⟨c.toNat - 0x30, by omega, by omega, rfl⟩
  split
  · rename_i range
    simp only [bounds] at range
    have last : (0x66 : UInt8).toNat = 0x66 := rfl
    have first : (0x61 : UInt8).toNat = 0x61 := rfl
    exact Or.inr ⟨c.toNat - 0x61 + 10, by omega, by omega, rfl⟩
  split
  · rename_i range
    simp only [bounds] at range
    have last : (0x46 : UInt8).toNat = 0x46 := rfl
    have first : (0x41 : UInt8).toNat = 0x41 := rfl
    exact Or.inr ⟨c.toNat - 0x41 + 10, by omega, by omega, rfl⟩
  · exact Or.inl ⟨by decide, rfl⟩

theorem u16Digits_eq (n : Nat) (value : Nat) (input : Bytes) (held : n ≤ input.length)
    (small : (value + 1) * 16 ^ n ≤ 2 ^ 16) :
    u16Digits value n input = (readU16Escape value n input).toOption.map fun v => (v, input.drop n) := by
  induction n generalizing value input with
  | zero => rfl
  | succ n ih =>
    cases input with
    | nil => exact absurd held (by simp)
    | cons c rest =>
      rw [u16Digits, readU16Escape]
      rcases hexDigit_cases c with ⟨negative, none⟩ | ⟨digit, least, same, some⟩
      · rw [none, if_pos negative]
        rfl
      · have next : (value * 16 + digit + 1) * 16 ^ n ≤ 2 ^ 16 := by
          calc (value * 16 + digit + 1) * 16 ^ n ≤ ((value + 1) * 16) * 16 ^ n := Nat.mul_le_mul_right _ (by omega)
            _ = (value + 1) * 16 ^ (n + 1) := by rw [Nat.pow_succ, Nat.mul_assoc, Nat.mul_comm 16]
            _ ≤ 2 ^ 16 := small
        have room : value * 16 + digit + 1 ≤ 2 ^ 16 := (Nat.le_mul_of_pos_right _ (Nat.pow_pos (by omega))).trans next
        have shifted : (value <<< 4 ||| digit) % 2 ^ 16 = value * 16 + digit := by
          rw [← Nat.shiftLeft_add_eq_or_of_lt (i := 4) least, Nat.shiftLeft_eq]
          omega
        rw [some, same, if_neg (by omega), Int.toNat_natCast, shifted]
        exact ih _ _ (by rw [length_cons] at held; omega) next

theorem readJsonU16_eq (input : Bytes) :
    readJsonU16 input = (readU16Escape 0 4 input).toOption.map fun v => (v, input.drop 4) := by
  unfold readJsonU16
  split
  · rename_i short
    cases read : readU16Escape 0 4 input with
    | error e => rfl
    | ok v =>
      obtain ⟨digits, rest, rfl, unit⟩ := unit_of_readU16Escape read
      rw [length_append, (readU16Escape_unit unit []).1] at short
      omega
  · rename_i long
    exact u16Digits_eq 4 0 input (by omega) (by decide)

theorem unicodeCase_eq (input : Bytes) :
    unicodeCase input = (readUnicode input).toOption.map fun read => (read.1, input.drop read.2) := by
  unfold unicodeCase readUnicode
  rw [readJsonU16_eq]
  cases first : readU16Escape 0 4 input with
  | error e => rfl
  | ok high =>
    simp only [Except.toOption, Option.map_some, Option.bind_eq_bind, Option.bind_some, ok_bind]
    by_cases isHigh : 0xd800 ≤ high ∧ high ≤ 0xdbff
    · rw [if_pos isHigh, if_pos isHigh]
      cases left : input.drop 4 with
      | nil => rfl
      | cons a more =>
        cases more with
        | nil =>
          dsimp only
          rcases Decidable.em (a ≠ 0x5c) with other | slash
          · rw [if_pos other]
            rfl
          · rw [if_neg slash]
            rfl
        | cons b rest =>
          dsimp only
          by_cases slash : a = 0x5c
          · by_cases letter : b = 0x75
            · rw [if_neg (by simp [slash, letter]), if_neg (not_not.mpr slash), if_neg (not_not.mpr letter),
                readJsonU16_eq]
              cases second : readU16Escape 0 4 rest with
              | error e => rfl
              | ok low =>
                simp only [Except.toOption, Option.map_some, Option.bind_some, ok_bind]
                by_cases outside : low < 0xdc00 ∨ 0xdfff < low
                · rw [if_pos outside, if_pos outside]
                  rfl
                · have dropped : input.drop 10 = rest.drop 4 := by
                    rw [← drop_drop (i := 6) (j := 4), left]
                    rfl
                  have joined : (high - 0xd800) <<< 10 ||| (low - 0xdc00) = (high - 0xd800) * 1024 + (low - 0xdc00) := by
                    rw [← Nat.shiftLeft_add_eq_or_of_lt (i := 10) (by omega), Nat.shiftLeft_eq]
                  rw [if_neg outside, if_neg outside, joined, ← Nat.add_assoc]
                  simp only [Option.map_some, dropped]
            · rw [if_pos (Or.inr letter), if_neg (not_not.mpr slash), if_pos letter]
              rfl
          · rw [if_pos (Or.inl slash), if_pos slash]
            rfl
    · rw [if_neg isHigh, if_neg isHigh]
      split <;> rfl

def stringLoop (out : Bytes) : Bytes → Option (Bytes × Bytes)
  | [] => none
  | c :: rest =>
    if c = 0x22 then some (out, rest)
    else if c < 0x20 then none
    else if c ≠ 0x5c then stringLoop (out ++ [c]) rest
    else match rest with
      | [] => none
      | e :: rest =>
        match simpleEscape e with
        | some b => stringLoop (out ++ [b]) rest
        | none =>
          if e ≠ 0x75 then none
          else match _read : unicodeCase rest with
            | none => none
            | some (codepoint, after) => stringLoop (out ++ appendJsonUtf8 codepoint) after
  termination_by input => input.length
  decreasing_by
    · exact Nat.lt_succ_self _
    · exact (Nat.lt_succ_self _).trans (Nat.lt_succ_self _)
    · rw [unicodeCase_eq] at _read
      obtain ⟨read, -, same⟩ := Option.map_eq_some_iff.mp _read
      cases same
      simp only [length_cons, length_drop]
      omega

def readJsonString : Bytes → Option (Bytes × Bytes)
  | [] => none
  | c :: rest => if c ≠ 0x22 then none else stringLoop [] rest

theorem stringLoop_eq (out input : Bytes) : stringLoop out input = (readStringBody out input).toOption := by
  fun_induction readStringBody out input with
  | case1 out =>
    rw [stringLoop]
    rfl
  | case2 out rest =>
    rw [stringLoop.eq_def]
    rfl
  | case3 out c rest quote control =>
    rw [stringLoop.eq_def]
    dsimp only
    rw [if_neg quote, if_pos control]
    rfl
  | case4 out c rest quote control slash ih =>
    rw [stringLoop.eq_def]
    dsimp only
    rw [if_neg quote, if_neg control, if_pos slash, ih]
  | case5 out c quote control slash =>
    rw [stringLoop.eq_def]
    dsimp only
    rw [if_neg quote, if_neg control, if_neg slash]
    rfl
  | case6 out c quote control slash e rest b known ih =>
    rw [stringLoop.eq_def]
    dsimp only
    rw [if_neg quote, if_neg control, if_neg slash, known]
    exact ih
  | case7 out c quote control slash e rest long other =>
    rw [stringLoop.eq_def]
    dsimp only
    rw [if_neg quote, if_neg control, if_neg slash, long]
    dsimp only
    rw [if_pos other]
    rfl
  | case8 out c quote control slash e rest long letter error refused =>
    rw [stringLoop.eq_def]
    dsimp only
    have none : unicodeCase rest = none := by
      rw [unicodeCase_eq, refused]
      rfl
    rw [if_neg quote, if_neg control, if_neg slash, long]
    dsimp only
    rw [if_neg letter, none]
    rfl
  | case9 out c quote control slash e rest long letter cp took read ih =>
    rw [stringLoop.eq_def]
    dsimp only
    have some : unicodeCase rest = some (cp, rest.drop took) := by
      rw [unicodeCase_eq, read]
      rfl
    rw [if_neg quote, if_neg control, if_neg slash, long]
    dsimp only
    rw [if_neg letter, some]
    exact ih

/-- The scanner accepts and decodes what `read_string_body` does. -/
theorem readJsonString_quoted (rest : Bytes) : readJsonString (0x22 :: rest) = (readStringBody [] rest).toOption :=
  stringLoop_eq [] rest

theorem readJsonString_other {c : UInt8} (quote : c ≠ 0x22) (rest : Bytes) : readJsonString (c :: rest) = none :=
  if_pos quote

theorem readJsonString_shorter {input text rest : Bytes} (read : readJsonString input = some (text, rest)) :
    rest.length < input.length := by
  cases input with
  | nil => cases read
  | cons c after =>
    by_cases quote : c = 0x22
    · rw [quote, readJsonString_quoted] at read
      cases body : readStringBody [] after with
      | error e =>
        rw [body] at read
        cases read
      | ok found =>
        rw [body] at read
        cases read
        exact (readStringBody_shorter body).trans (Nat.lt_succ_self _)
    · rw [readJsonString_other quote] at read
      cases read

/-- The last loop of `skip_json_sync_value`. -/
def toSeparator (input : Bytes) : Bytes := input.dropWhile fun c => c ≠ 0x2c && c ≠ 0x7d

/-- The first loop of `skip_json_sync_value`, with the closing brackets it waits for. -/
def skipBrackets (stack : List UInt8) : Bytes → Option Bytes
  | [] => some []
  | c :: rest =>
    if c = 0x22 then
      match _read : readJsonString (c :: rest) with
      | none => none
      | some (_, after) => if stack = [] then some (toSeparator after) else skipBrackets stack after
    else if c = 0x7b then skipBrackets (0x7d :: stack) rest
    else if c = 0x5b then skipBrackets (0x5d :: stack) rest
    else if c = 0x7d ∨ c = 0x5d then
      match stack with
      | [] => some (c :: rest)
      | top :: below =>
        if top ≠ c then some (c :: rest)
        else if below = [] then some (toSeparator rest)
        else skipBrackets below rest
    else if stack = [] then
      if c = 0x2c then some (c :: rest) else some (toSeparator rest)
    else skipBrackets stack rest
  termination_by input => input.length
  decreasing_by
    · exact readJsonString_shorter _read
    all_goals exact Nat.lt_succ_self _

def skipJsonSyncValue (input : Bytes) : Option Bytes :=
  match skipWs input with
  | [] => none
  | c :: rest => if c = 0x22 then (readJsonString (c :: rest)).map (·.2) else skipBrackets [] (c :: rest)

theorem toSeparator_shorter (input : Bytes) : (toSeparator input).length ≤ input.length :=
  length_dropWhile_le _ _

theorem skipBrackets_shorter {stack : List UInt8} {input rest : Bytes} (skipped : skipBrackets stack input = some rest) :
    rest.length ≤ input.length := by
  fun_induction skipBrackets stack input with
  | case1 | case7 | case8 | case11 =>
    cases skipped
    exact le_rfl
  | case2 => cases skipped
  | case3 input text after _ =>
    cases skipped
    exact (toSeparator_shorter after).trans (readJsonString_shorter (by assumption)).le
  | case4 stack input text after _ _ ih =>
    exact (ih skipped).trans (readJsonString_shorter (by assumption)).le
  | case9 | case12 =>
    cases skipped
    exact (toSeparator_shorter _).trans (Nat.le_succ _)
  | case5 _ _ _ ih | case6 _ _ _ _ ih | case10 _ _ _ _ _ _ _ _ _ _ ih | case13 _ _ _ _ _ _ _ _ ih =>
    exact (ih skipped).trans (Nat.le_succ _)

theorem skipWs_shorter (input : Bytes) : (skipWs input).length ≤ input.length := length_dropWhile_le _ _

theorem skipJsonSyncValue_shorter {input rest : Bytes} (skipped : skipJsonSyncValue input = some rest) :
    rest.length ≤ input.length := by
  have inside := skipWs_shorter input
  unfold skipJsonSyncValue at skipped
  split at skipped
  · cases skipped
  · next c after found =>
    rw [found] at inside
    split at skipped
    · obtain ⟨⟨text, left⟩, read, rfl⟩ := Option.map_eq_some_iff.mp skipped
      exact (readJsonString_shorter read).le.trans inside
    · exact (skipBrackets_shorter skipped).trans inside

/-- The member that starts at a key: what a string member adds to `json_string_object`, and what
    follows the value. -/
def jsonStringEntry (input : Bytes) : Option (List (Bytes × Bytes) × Bytes) := do
  let (key, rest) ← readJsonString input
  match skipWs rest with
  | [] => none
  | c :: rest =>
    if c ≠ 0x3a then none
    else match skipWs rest with
      | 0x22 :: rest => do
        let (value, rest) ← readJsonString (0x22 :: rest)
        some ([(key, value)], rest)
      | rest => do some ([], ← skipJsonSyncValue rest)

theorem jsonStringEntry_shorter {input rest : Bytes} {added : List (Bytes × Bytes)}
    (read : jsonStringEntry input = some (added, rest)) : rest.length < input.length := by
  unfold jsonStringEntry at read
  obtain ⟨⟨key, after⟩, first, read⟩ := Option.bind_eq_some_iff.mp read
  have shorter := readJsonString_shorter first
  have space := skipWs_shorter after
  simp only at read
  split at read
  · cases read
  · next c after' found =>
    rw [found, length_cons] at space
    have space' := skipWs_shorter after'
    split at read
    · cases read
    · split at read
      · next after'' found' =>
        obtain ⟨⟨value, left⟩, second, read⟩ := Option.bind_eq_some_iff.mp read
        cases read
        have shorter' := readJsonString_shorter second
        rw [found'] at space'
        show left.length < input.length
        omega
      · obtain ⟨left, second, read⟩ := Option.bind_eq_some_iff.mp read
        cases read
        have shorter' := skipJsonSyncValue_shorter second
        omega

/-- The loop of `json_string_object`. -/
def jsonStringEntries (out : List (Bytes × Bytes)) (input : Bytes) : Option (List (Bytes × Bytes)) :=
  match _space : skipWs input with
  | [] => none
  | c :: rest =>
    if c = 0x7d then some out
    else match _read : jsonStringEntry (c :: rest) with
      | none => none
      | some (added, after) =>
        match _next : skipWs after with
        | [] => none
        | d :: after' =>
          if d = 0x7d then some (out ++ added)
          else if d ≠ 0x2c then none
          else jsonStringEntries (out ++ added) after'
  termination_by input.length
  decreasing_by
    have shorter := jsonStringEntry_shorter _read
    have space := skipWs_shorter after
    have space' := skipWs_shorter input
    rw [_space] at space'
    rw [_next, length_cons] at space
    omega

def jsonStringObject (object : Bytes) : Option (List (Bytes × Bytes)) :=
  match skipWs object with
  | [] => none
  | c :: rest => if c ≠ 0x7b then none else jsonStringEntries [] rest

def jsonStringMember (object key : Bytes) : Option Bytes := do
  let members ← jsonStringObject object
  let found ← members.find? (·.1 = key)
  some found.2

end Nxt.Ai
