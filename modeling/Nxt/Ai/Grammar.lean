import Nxt.Ai.Strings

/- The grammar of JSON texts (RFC 8259) on bytes, with the form of a number left open, and the depth
   to which the values of a text may nest. -/
namespace Nxt.Ai
open Nxt.Lib List

def Ws (text : Bytes) : Prop := ∀ c ∈ text, isWs c = true

inductive StringLiteral : Bytes → Bytes → Prop where
  | quoted {text value : Bytes} (inside : StringText text value) : StringLiteral (0x22 :: (text ++ [0x22])) value

def Digit (c : UInt8) : Prop := 0x30 ≤ c ∧ c ≤ 0x39

instance (c : UInt8) : Decidable (Digit c) := inferInstanceAs (Decidable (_ ∧ _))

def Digits (text : Bytes) : Prop := text ≠ [] ∧ ∀ c ∈ text, Digit c

inductive RfcInt : Bytes → Prop where
  | zero : RfcInt [0x30]
  | positive {c : UInt8} {text : Bytes} (first : Digit c) (leading : c ≠ 0x30) (more : ∀ d ∈ text, Digit d) :
      RfcInt (c :: text)

inductive RfcFrac : Bytes → Prop where
  | none : RfcFrac []
  | point {text : Bytes} (digits : Digits text) : RfcFrac (0x2e :: text)

inductive RfcExp : Bytes → Prop where
  | none : RfcExp []
  | exponent {e : UInt8} {sign text : Bytes} (letter : e = 0x65 ∨ e = 0x45)
      (signed : sign = [] ∨ sign = [0x2b] ∨ sign = [0x2d]) (digits : Digits text) : RfcExp (e :: (sign ++ text))

inductive RfcNumber : Bytes → Prop where
  | number {minus int frac exp : Bytes} (signed : minus = [] ∨ minus = [0x2d]) (whole : RfcInt int)
      (fraction : RfcFrac frac) (power : RfcExp exp) : RfcNumber (minus ++ int ++ frac ++ exp)

/-- A digit or a minus sign, and any run of the characters that numbers have. -/
inductive NumberRun : Bytes → Prop where
  | run {c : UInt8} {text : Bytes} (first : Digit c ∨ c = 0x2d) (more : ∀ d ∈ text, numberChar d = true) :
      NumberRun (c :: text)

def opening (object : Bool) : UInt8 := if object then 0x7b else 0x5b

def closing (object : Bool) : UInt8 := if object then 0x7d else 0x5d

/-- What stands before the value in a member or an element, and the name it gives. -/
inductive Label : Bool → Bytes → Bytes → Prop where
  | element : Label false [] []
  | member {before key name after : Bytes} (space : Ws before) (literal : StringLiteral key name) (space' : Ws after) :
      Label true name (before ++ key ++ after ++ [0x3a])

inductive Part where
  | value
  | items (object : Bool)

/-- A value, or what stands between the brackets of one that has items; the values nest within the
    room there is. -/
inductive Json (Num : Bytes → Prop) : Part → Nat → Bytes → Prop where
  | literal {room : Nat} {text : Bytes} (known : text = lit "true" ∨ text = lit "false" ∨ text = lit "null") :
      Json Num .value room text
  | number {room : Nat} {text : Bytes} (number : Num text) : Json Num .value room text
  | string {room : Nat} {text value : Bytes} (literal : StringLiteral text value) : Json Num .value room text
  | empty {object : Bool} {room : Nat} {space : Bytes} (blank : Ws space) :
      Json Num .value room (opening object :: (space ++ [closing object]))
  | container {object : Bool} {room : Nat} {text : Bytes} (items : Json Num (.items object) room text) :
      Json Num .value (room + 1) (opening object :: (text ++ [closing object]))
  | last {object : Bool} {room : Nat} {name label before text after : Bytes} (labelled : Label object name label)
      (space : Ws before) (value : Json Num .value room text) (space' : Ws after) :
      Json Num (.items object) room (label ++ (before ++ text) ++ after)
  | more {object : Bool} {room : Nat} {name label before text after items : Bytes}
      (labelled : Label object name label) (space : Ws before) (value : Json Num .value room text) (space' : Ws after)
      (others : Json Num (.items object) room items) :
      Json Num (.items object) room (label ++ (before ++ text) ++ after ++ 0x2c :: items)

/-- The items of the outermost value: the name of each, and its text up to the end of its value from
    the colon, bracket or comma before it. -/
inductive Entries (Num : Bytes → Prop) (object : Bool) (room : Nat) : List (Bytes × Bytes) → Bytes → Prop where
  | last {name label before text after : Bytes} (labelled : Label object name label) (space : Ws before)
      (value : Json Num .value room text) (space' : Ws after) :
      Entries Num object room [(name, before ++ text)] (label ++ (before ++ text) ++ after)
  | more {name label before text after items : Bytes} {others : List (Bytes × Bytes)}
      (labelled : Label object name label) (space : Ws before) (value : Json Num .value room text) (space' : Ws after)
      (rest : Entries Num object room others items) :
      Entries Num object room ((name, before ++ text) :: others) (label ++ (before ++ text) ++ after ++ 0x2c :: items)

/-- A text that is one object, or one array, with nothing but whitespace around it. -/
inductive Document (Num : Bytes → Prop) (object : Bool) (room : Nat) : List (Bytes × Bytes) → Bytes → Prop where
  | empty {before space after : Bytes} (front : Ws before) (blank : Ws space) (back : Ws after) :
      Document Num object room [] (before ++ opening object :: (space ++ closing object :: after))
  | full {before text after : Bytes} {entries : List (Bytes × Bytes)} (front : Ws before)
      (items : Entries Num object room entries text) (back : Ws after) :
      Document Num object room entries (before ++ opening object :: (text ++ closing object :: after))

theorem Ws.nil : Ws [] := nofun

theorem skipWs_append {space rest : Bytes} (blank : Ws space) : skipWs (space ++ rest) = skipWs rest := by
  unfold skipWs
  rw [dropWhile_append_of_pos blank]

theorem skipWs_split (input : Bytes) : ∃ space, Ws space ∧ input = space ++ skipWs input :=
  ⟨input.takeWhile isWs, fun _ held => mem_takeWhile_imp held, (takeWhile_append_dropWhile).symm⟩

theorem skipWs_blank {space : Bytes} (blank : Ws space) : skipWs space = [] := by
  rw [← append_nil space, skipWs_append blank]
  rfl

theorem readUnicode_spells {input : Bytes} {cp took : Nat} (read : readUnicode input = .ok (cp, took)) :
    ∃ c spelled rest, Spells c (0x5c :: 0x75 :: spelled) ∧ input = spelled ++ rest ∧ took = spelled.length ∧
      cp = c.val.toNat := by
  unfold readUnicode at read
  cases first : readU16Escape 0 4 input with
  | error e =>
    rw [first] at read
    cases read
  | ok high =>
    obtain ⟨digits, after, rfl, unit⟩ := unit_of_readU16Escape first
    have four := (readU16Escape_unit unit []).1
    have dropped : (digits ++ after).drop 4 = after := by rw [← four, drop_left]
    rw [first, ok_bind, dropped] at read
    split at read
    · rename_i isHigh
      split at read
      · cases read
      · rename_i a after
        split at read
        · cases read
        · rename_i slash
          split at read
          · cases read
          · rename_i b after
            split at read
            · cases read
            · rename_i letter
              cases second : readU16Escape 0 4 after with
              | error e =>
                rw [second] at read
                cases read
              | ok low =>
                rw [second, ok_bind] at read
                obtain ⟨more, rest, rfl, unit'⟩ := unit_of_readU16Escape second
                have four' := (readU16Escape_unit unit' []).1
                split at read
                · cases read
                · rename_i inside
                  obtain ⟨rfl, rfl⟩ := Prod.mk.inj (Except.ok.inj read)
                  have isLow : LowSurrogate low := by
                    unfold LowSurrogate
                    omega
                  have known := isLow
                  unfold LowSurrogate at known
                  obtain ⟨c, value⟩ := char_exists (v := 0x10000 + (high - 0xd800) * 1024 + (low - 0xdc00))
                    (Or.inr (by omega))
                  refine ⟨c, digits ++ unicodeEscape more, rest, .pair unit unit' isHigh isLow value, ?_, ?_, value.symm⟩
                  · rw [not_not.mp slash, not_not.mp letter, append_assoc]
                    rfl
                  · rw [length_append, unicodeEscape, length_cons, length_cons, four, four']
    · rename_i notHigh
      split at read
      · cases read
      · rename_i notLow
        have small := hexUnit_lt unit
        obtain ⟨c, value⟩ := char_exists (v := high) (by unfold Scalar; omega)
        cases read
        exact ⟨c, digits, after, .unit (unit.trans (congrArg some value.symm)), rfl, four.symm, value.symm⟩

theorem body_complete {text value : Bytes} (inside : StringText text value) (out rest : Bytes) :
    readStringBody out (text ++ 0x22 :: rest) = .ok (out ++ value, rest) := by
  rw [body_text inside, readStringBody.eq_def]
  rfl

theorem body_sound {out input found rest : Bytes} (read : readStringBody out input = .ok (found, rest)) :
    ∃ text value, input = text ++ 0x22 :: rest ∧ found = out ++ value ∧ StringText text value := by
  fun_induction readStringBody out input with
  | case1 | case3 | case5 | case7 | case8 => cases read
  | case2 out after =>
    cases read
    exact ⟨[], [], rfl, (append_nil _).symm, .nil⟩
  | case4 out c after quote control slash ih =>
    obtain ⟨text, value, rfl, rfl, inside⟩ := ih read
    exact ⟨c :: text, c :: value, rfl, by rw [append_assoc]; rfl, .plain quote slash control inside⟩
  | case6 out c quote control slash e after b known ih =>
    obtain ⟨text, value, rfl, rfl, inside⟩ := ih read
    have ascii := simpleEscape_ascii known
    obtain ⟨d, same⟩ := char_exists (v := b.toNat) (Or.inl (by omega))
    refine ⟨[0x5c, e] ++ text, _, ?_, ?_, .escape (.short known same) inside⟩
    · rw [not_not.mp slash]
      rfl
    · rw [← appendUtf8_char, same, appendUtf8_ascii ascii, append_assoc]
  | case9 out c quote control slash e after long letter cp took known ih =>
    obtain ⟨text, value, cut, rfl, inside⟩ := ih read
    obtain ⟨d, spelled, left, spells, rfl, rfl, rfl⟩ := readUnicode_spells known
    rw [drop_left] at cut
    refine ⟨(0x5c :: 0x75 :: spelled) ++ text, _, ?_, ?_, .escape spells inside⟩
    · rw [not_not.mp slash, not_not.mp letter, cut, append_assoc]
      rfl
    · rw [appendUtf8_char, append_assoc]

theorem RfcNumber.isRun {text : Bytes} (number : RfcNumber text) : NumberRun text := by
  have digit {c : UInt8} (known : Digit c) : numberChar c = true := by
    unfold Digit at known
    simp only [numberChar, known.1, known.2, decide_true, Bool.and_self, Bool.true_or]
  obtain @⟨minus, int, frac, exp, signed, whole, fraction, power⟩ := number
  have inInt : ∀ d ∈ int, numberChar d = true := by
    cases whole with
    | zero => exact forall_mem_singleton.mpr rfl
    | positive first _ more => exact forall_mem_cons.mpr ⟨digit first, fun d held => digit (more d held)⟩
  have inFrac : ∀ d ∈ frac, numberChar d = true := by
    cases fraction with
    | none => nofun
    | point digits => exact forall_mem_cons.mpr ⟨rfl, fun d held => digit (digits.2 d held)⟩
  have inExp : ∀ d ∈ exp, numberChar d = true := by
    cases power with
    | none => nofun
    | exponent letter signed digits =>
      refine forall_mem_cons.mpr ⟨by rcases letter with rfl | rfl <;> decide, forall_mem_append.mpr ⟨?_, ?_⟩⟩
      · rcases signed with rfl | rfl | rfl
        · nofun
        · exact forall_mem_singleton.mpr rfl
        · exact forall_mem_singleton.mpr rfl
      · exact fun d held => digit (digits.2 d held)
  have later : ∀ d ∈ int ++ frac ++ exp, numberChar d = true :=
    forall_mem_append.mpr ⟨forall_mem_append.mpr ⟨inInt, inFrac⟩, inExp⟩
  rcases signed with rfl | rfl
  · cases whole with
    | zero => exact .run (Or.inl ⟨by decide, by decide⟩) fun d held => later d (mem_cons_of_mem _ held)
    | positive first leading more => exact .run (Or.inl first) fun d held => later d (mem_cons_of_mem _ held)
  · rw [append_assoc, append_assoc, ← append_assoc int]
    exact .run (Or.inr rfl) later

section Wider
variable {Num Num' : Bytes → Prop} (inside : ∀ text, Num text → Num' text)
include inside

theorem Json.wider {part : Part} {room : Nat} {text : Bytes} (json : Json Num part room text) :
    Json Num' part room text := by
  induction json with
  | literal known => exact .literal known
  | number number => exact .number (inside _ number)
  | string literal => exact .string literal
  | empty blank => exact .empty blank
  | container _ ih => exact .container ih
  | last labelled space _ space' ih => exact .last labelled space ih space'
  | more labelled space _ space' _ ih ih' => exact .more labelled space ih space' ih'

theorem Document.wider {object : Bool} {room : Nat} {entries : List (Bytes × Bytes)} {text : Bytes}
    (document : Document Num object room entries text) : Document Num' object room entries text := by
  have among {entries : List (Bytes × Bytes)} {text : Bytes} (items : Entries Num object room entries text) :
      Entries Num' object room entries text := by
    induction items with
    | last labelled space value space' => exact .last labelled space (value.wider inside) space'
    | more labelled space value space' _ ih => exact .more labelled space (value.wider inside) space' ih
  cases document with
  | empty front blank back => exact .empty front blank back
  | full front items back => exact .full front (among items) back

end Wider

end Nxt.Ai
