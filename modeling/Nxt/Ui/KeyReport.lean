import Nxt.Ui.KeyNumbers
import Nxt.Ui.KeyText

/- Reports of named keys: every way to write one, with defaults left out, and what the decoder makes of it. The key's
   number has to be written, although a missing one stands for 1. -/
namespace Nxt.Ui.Input
open Nxt.Lib List

inductive Named where
  | letter (final : UInt8)
  | tilde (number : Nat)
  deriving DecidableEq

namespace Named

def key : Named → Key
  | letter final => keyFromFinal final
  | tilde number => keyFromTilde number

def number : Named → Nat
  | letter _ => 1
  | tilde number => number

def final : Named → UInt8
  | letter final => final
  | tilde _ => 0x7e

end Named

structure Report where
  named : Named
  mods : Modifiers := {}
  type : EventType := .press
  text : List Char := []

def modifierNumber (mods : Modifiers) : Nat :=
  1 + mods.shift.toNat + 2 * mods.alt.toNat + 4 * mods.ctrl.toNat + 8 * mods.super.toNat + 16 * mods.hyper.toNat +
    32 * mods.meta_.toNat + 64 * mods.capsLock.toNat + 128 * mods.numLock.toNat

def typeNumber : EventType → Nat
  | .press => 1
  | .repeat_ => 2
  | .release => 3

/-- A number as digits, or nothing when it is 1, the default. -/
def Written (number : Nat) (param : List UInt8) : Prop := param = decimal number ∨ number = 1 ∧ param = []

def WrittenModifiers (r : Report) (param : List UInt8) : Prop :=
  ∃ mods, Written (modifierNumber r.mods) mods ∧
    (r.type = .press ∧ param = mods ∨ ∃ type, Written (typeNumber r.type) type ∧ param = mods ++ 0x3a :: type)

def textParam (text : List Char) : List UInt8 := [0x3a].intercalate (text.map fun c => decimal c.val.toNat)

/-- The parameters of a report, the last ones missing when they have nothing to say. -/
inductive Encodes (r : Report) : List (List UInt8) → Prop
  | one {first : List UInt8} (written : Written r.named.number first) (mods : r.mods = {}) (type : r.type = .press)
      (text : r.text = []) : Encodes r [first]
  | two {first second : List UInt8} (written : Written r.named.number first) (modifiers : WrittenModifiers r second)
      (text : r.text = []) : Encodes r [first, second]
  | three {first second : List UInt8} (written : Written r.named.number first) (modifiers : WrittenModifiers r second) :
      Encodes r [first, second, textParam r.text]

def Report.bytes (r : Report) (params : List (List UInt8)) : List UInt8 :=
  [0x1b, 0x5b] ++ [0x3b].intercalate params ++ [r.named.final]

def isPosition (r : Report) (params : List (List UInt8)) : Bool := r.named.final = 0x52 && params.length = 2

/-- The report gives its key, modifiers, type and text, and one of two parameters with the final `R` a position. -/
def Decodes (r : Report) (params : List (List UInt8)) : Prop :=
  if isPosition r params then
    ∃ pos, ({} : Parser).feed (r.bytes params) = ([{ raw := r.bytes params, cursorPosition := some pos }], {})
  else
    ({} : Parser).feed (r.bytes params) =
      ([{ key := r.named.key, mods := r.mods, type := r.type, text := r.text.flatMap String.utf8EncodeChar
          raw := r.bytes params }], {})

/-- The key's number is written or the final is `Z`, which is Tab with Shift; a position has both its numbers. -/
def Accepted (r : Report) (params : List (List UInt8)) : Prop :=
  if isPosition r params then params = [decimal 1, decimal (modifierNumber r.mods)]
  else (params.headD [] ≠ [] ∨ r.named.final = 0x5a) ∧ (r.named.final = 0x5a → r.mods.shift = true)

section Numbers

theorem decimal_digits {n : Nat} {c : UInt8} (inside : c ∈ decimal n) : digit c = true := by
  obtain ⟨low, high⟩ := decimal_digit inside
  unfold digit
  rw [Bool.and_eq_true, decide_eq_true_eq, decide_eq_true_eq]
  exact ⟨low, high⟩

theorem readOn_digits (value : Nat) {text : List UInt8} (digits : ∀ c ∈ text, digit c = true) :
    readOn value text = text.foldl (fun value b => 10 * value + (b.toNat - 0x30)) value := by
  unfold readOn
  rw [takeWhile_eq_self_iff.mpr digits]

theorem parseNumber_digits {value : Nat} {text : List UInt8} (digits : ∀ c ∈ text, digit c = true)
    (fits : readOn value text < 2 ^ 63) : text.foldlM (fun (value : Int) c => if c < 0x30 || c > 0x39 then none
      else some ((value * 10 + (c.toNat - 0x30 : Nat)).bmod (2 ^ 64))) (value : Int) =
        some ((readOn value text : Nat) : Int) := by
  induction text generalizing value with
  | nil => rfl
  | cons c rest ih =>
    have is := digits c mem_cons_self
    rw [readOn_cons value is] at fits ⊢
    have most := le_readOn (10 * value + (c.toNat - 0x30)) rest
    have stays : (((10 * value + (c.toNat - 0x30) : Nat) : Int)).bmod (2 ^ 64) =
        ((10 * value + (c.toNat - 0x30) : Nat) : Int) :=
      Int.bmod_eq_of_le (by omega) (by omega)
    rw [foldlM_cons, if_neg (digit_range.mp is), step_value, stays]
    exact ih (fun d inside => digits d (mem_cons_of_mem _ inside)) fits

theorem parseNumber_decimal {n : Nat} (small : n < 2 ^ 63) : parseNumber (decimal n) = some (n : Int) := by
  have value : readOn 0 (decimal n) = n := by
    rw [readOn_digits 0 fun c => decimal_digits]
    exact readDecimal_decimal n
  have read := @parseNumber_digits 0 (decimal n) (fun c => decimal_digits) (by rw [value]; exact small)
  rw [value] at read
  unfold parseNumber
  rw [if_neg (by rw [List.isEmpty_iff]; exact decimal_ne_nil n)]
  exact read

theorem parseCodepoint_decimal {n : Nat} (scalar : Scalar n) : parseCodepoint (decimal n) = some n := by
  unfold Scalar at scalar
  unfold parseCodepoint
  rw [parseNumber_decimal (by omega)]
  dsimp only
  rw [if_neg (by simp only [Bool.or_eq_true, decide_eq_true_eq]; omega),
    if_neg (by simp only [Bool.and_eq_true, decide_eq_true_eq]; omega), Int.toNat_natCast]

theorem decodeModifiers_number (mods : Modifiers) : decodeModifiers (modifierNumber mods) = mods := by
  obtain ⟨_ | _, _ | _, _ | _, _ | _, _ | _, _ | _, _ | _, _ | _⟩ := mods <;> rfl

theorem decodeEventType_number (type : EventType) : decodeEventType (typeNumber type) = type := by
  cases type <;> rfl

theorem modifierNumber_small (mods : Modifiers) : 0 < modifierNumber mods ∧ modifierNumber mods ≤ 256 := by
  obtain ⟨_ | _, _ | _, _ | _, _ | _, _ | _, _ | _, _ | _, _ | _⟩ := mods <;> decide

theorem modifierNumber_one {mods : Modifiers} (one : modifierNumber mods = 1) : mods = {} := by
  rw [← decodeModifiers_number mods, one]
  rfl

theorem typeNumber_one {type : EventType} (one : typeNumber type = 1) : type = .press := by
  cases type
  · rfl
  · cases one
  · cases one

theorem named_known {named : Named} (known : named.key ≠ .unknown) :
    0 < named.number ∧ named.number ≤ 24 ∧ 0x40 ≤ named.final ∧ named.final ≤ 0x7e := by
  cases named with
  | letter final =>
    refine ⟨Nat.one_pos, Nat.le_of_ble_eq_true rfl, ?_⟩
    have known : keyFromFinal final ≠ .unknown := known
    unfold keyFromFinal at known
    show 0x40 ≤ final ∧ final ≤ 0x7e
    rw [UInt8.le_iff_toNat_le, UInt8.le_iff_toNat_le]
    show 64 ≤ final.toNat ∧ final.toNat ≤ 126
    split at known
    all_goals first | exact absurd rfl known | omega
  | tilde number =>
    have known : keyFromTilde number ≠ .unknown := known
    unfold keyFromTilde at known
    show 0 < number ∧ number ≤ 24 ∧ (0x40 : UInt8) ≤ 0x7e ∧ (0x7e : UInt8) ≤ 0x7e
    refine and_assoc.mp ⟨?_, by decide⟩
    split at known
    all_goals first | exact absurd rfl known | omega

end Numbers

section Params
variable {r : Report} {params : List (List UInt8)}

theorem mem_joined {x c : UInt8} {parts : List (List UInt8)} (inside : c ∈ [x].intercalate parts) :
    c = x ∨ ∃ part ∈ parts, c ∈ part := by
  induction parts with
  | nil => cases inside
  | cons part rest ih =>
    cases rest with
    | nil => exact .inr ⟨part, mem_cons_self, by simpa [List.intercalate] using inside⟩
    | cons next more =>
      have split : [x].intercalate (part :: next :: more) = part ++ x :: [x].intercalate (next :: more) := by
        simp [List.intercalate]
      rw [split, mem_append, mem_cons] at inside
      rcases inside with here | rfl | later
      · exact .inr ⟨part, mem_cons_self, here⟩
      · exact .inl rfl
      · exact (ih later).imp_right fun ⟨other, among, c_in⟩ => ⟨other, mem_cons_of_mem _ among, c_in⟩

theorem splitOn_alone {x : UInt8} {part : List UInt8} (clean : x ∉ part) : part.splitOn x = [part] := by
  have split := @splitOn_intercalate _ [part] _ _ x (by simpa using clean) (cons_ne_nil _ _)
  have alone : [x].intercalate [part] = part := by simp [List.intercalate]
  rwa [alone] at split

theorem splitOn_pair {x : UInt8} {a b : List UInt8} (clean : x ∉ a) (clean' : x ∉ b) :
    (a ++ x :: b).splitOn x = [a, b] := by
  have split := @splitOn_intercalate _ [a, b] _ _ x (by simpa using ⟨clean, clean'⟩) (cons_ne_nil _ _)
  have joined : [x].intercalate [a, b] = a ++ x :: b := by simp [List.intercalate]
  rwa [joined] at split

theorem Written.digits {number : Nat} {param : List UInt8} (written : Written number param) :
    ∀ c ∈ param, digit c = true := by
  rcases written with rfl | ⟨-, rfl⟩
  · exact fun c => decimal_digits
  · exact fun c inside => absurd inside not_mem_nil

theorem digits_colon {param : List UInt8} (digits : ∀ c ∈ param, digit c = true) : 0x3a ∉ param :=
  fun inside => absurd (digits _ inside) (by decide)

def inParam (c : UInt8) : Bool := digit c || c = 0x3a

theorem WrittenModifiers.plain {param : List UInt8} (written : WrittenModifiers r param) :
    ∀ c ∈ param, inParam c = true := by
  intro c inside
  unfold inParam
  rw [Bool.or_eq_true, decide_eq_true_eq]
  obtain ⟨mods, number, ⟨-, rfl⟩ | ⟨type, written, rfl⟩⟩ := written
  · exact .inl (number.digits c inside)
  · rcases mem_append.mp inside with here | there
    · exact .inl (number.digits c here)
    · rcases mem_cons.mp there with rfl | later
      · exact .inr rfl
      · exact .inl (written.digits c later)

theorem textParam_plain (text : List Char) : ∀ c ∈ textParam text, inParam c = true := by
  intro c inside
  unfold inParam
  rw [Bool.or_eq_true, decide_eq_true_eq]
  rcases mem_joined inside with colon | ⟨part, among, c_in⟩
  · exact .inr colon
  · obtain ⟨char, -, rfl⟩ := mem_map.mp among
    exact .inl (decimal_digits c_in)

theorem Encodes.plain (encodes : Encodes r params) : ∀ param ∈ params, ∀ c ∈ param, inParam c = true := by
  have number {first : List UInt8} (written : Written r.named.number first) : ∀ c ∈ first, inParam c = true :=
    fun c inside => by
      unfold inParam
      rw [written.digits c inside]
      rfl
  cases encodes with
  | one written => simpa using number written
  | two written modifiers => simpa using ⟨number written, modifiers.plain⟩
  | three written modifiers => simpa using ⟨number written, modifiers.plain, textParam_plain r.text⟩

theorem Encodes.some_ (encodes : Encodes r params) : params ≠ [] := by
  cases encodes <;> exact cons_ne_nil _ _

theorem Encodes.split (encodes : Encodes r params) : ([0x3b].intercalate params).splitOn 0x3b = params :=
  splitOn_intercalate _ (fun param among inside => absurd (encodes.plain param among _ inside) (by decide))
    encodes.some_

theorem textParam_empty {text : List Char} : textParam text = [] ↔ text = [] := by
  constructor
  · intro empty
    cases text with
    | nil => rfl
    | cons c rest =>
      cases rest with
      | nil => exact absurd (by simpa [textParam, List.intercalate] using empty) (decimal_ne_nil c.toNat)
      | cons d more => simp [textParam, List.intercalate] at empty
  · rintro rfl
    rfl

theorem parseCodepoint_text (text : List Char) :
    (text.map fun c => decimal c.val.toNat).mapM parseCodepoint = some (text.map fun c => c.val.toNat) := by
  induction text with
  | nil => rfl
  | cons c rest ih =>
    rw [map_cons, mapM_cons, parseCodepoint_decimal (char_scalar c), ih]
    rfl

theorem parseAssociatedText_param (text : List Char) :
    parseAssociatedText (textParam text) = some (text.flatMap String.utf8EncodeChar) := by
  unfold parseAssociatedText
  by_cases empty : text = []
  · rw [empty]
    rfl
  · have split : (textParam text).splitOn 0x3a = text.map fun c => decimal c.val.toNat := by
      refine splitOn_intercalate _ ?_ (by simpa using empty)
      intro part among inside
      obtain ⟨char, -, rfl⟩ := mem_map.mp among
      exact absurd (decimal_digits inside) (by decide)
    rw [if_neg (by rw [List.isEmpty_iff, textParam_empty]; exact empty), split, parseCodepoint_text]
    simp only [Option.map_some, flatMap_map, encodeUtf8_char]

end Params

section Fields
variable {r : Report} {params : List (List UInt8)}

theorem Written.mods {mods : List UInt8} (written : Written (modifierNumber r.mods) mods) (raw : List UInt8) :
    setModifiers (parseNumber mods) { raw } = { raw, mods := r.mods } := by
  rcases written with rfl | ⟨one, rfl⟩
  · rw [parseNumber_decimal (by have := modifierNumber_small r.mods; omega)]
    show ({ raw, mods := decodeModifiers (modifierNumber r.mods) } : KeyEvent) = _
    rw [decodeModifiers_number]
  · rw [modifierNumber_one one]
    rfl

theorem readModifiers_written {first second : List UInt8} {more : List (List UInt8)}
    (written : WrittenModifiers r second) (raw : List UInt8) :
    readModifiers (first :: second :: more) { raw } = .ok { raw, mods := r.mods, type := r.type } := by
  obtain ⟨mods, number, ⟨press, rfl⟩ | ⟨type, written, rfl⟩⟩ := written
  · have parts := splitOn_alone (digits_colon number.digits)
    unfold readModifiers
    simp only [getElem?_cons_succ, getElem?_cons_zero, parts, headD_cons, getElem?_nil]
    rw [number.mods, press]
  · have parts := splitOn_pair (digits_colon number.digits) (digits_colon written.digits)
    unfold readModifiers
    simp only [getElem?_cons_succ, getElem?_cons_zero, parts, headD_cons]
    rw [number.mods]
    rcases written with rfl | ⟨one, rfl⟩
    · have small : typeNumber r.type < 2 ^ 63 := by cases r.type <;> decide
      rw [if_neg (by rw [List.isEmpty_iff]; exact decimal_ne_nil _), parseNumber_decimal small]
      dsimp only
      rw [decodeEventType_number]
    · rw [typeNumber_one one]
      rfl

theorem Encodes.fields (encodes : Encodes r params) (raw : List UInt8) :
    (do readText params (← readModifiers params { raw })) =
      .ok { raw, mods := r.mods, type := r.type, text := r.text.flatMap String.utf8EncodeChar } := by
  cases encodes with
  | one written mods type text =>
    rw [mods, type, text]
    rfl
  | two written modifiers text =>
    rw [readModifiers_written modifiers, text]
    rfl
  | three written modifiers =>
    rw [readModifiers_written modifiers]
    show readText _ _ = _
    unfold readText
    rw [drop_succ_cons, drop_succ_cons, drop_zero]
    by_cases empty : r.text = []
    · rw [empty]
      rfl
    · have some_ : (!(textParam r.text).isEmpty) = true := by
        rw [Bool.not_eq_true', isEmpty_eq_false_iff, ne_eq, textParam_empty]
        exact empty
      have found : [textParam r.text].find? (fun part => !part.isEmpty) = some (textParam r.text) :=
        find?_cons_of_pos some_
      rw [found]
      dsimp only
      rw [parseAssociatedText_param]

theorem Encodes.first (encodes : Encodes r params) : Written r.named.number (params.headD []) := by
  cases encodes <;> assumption

theorem Encodes.keyParts (encodes : Encodes r params) : (params.headD []).splitOn 0x3a = [params.headD []] :=
  splitOn_alone (digits_colon encodes.first.digits)

theorem readCommand_letter {final : UInt8} {event : KeyEvent} {first : Nat} (text : final ≠ 0x75) (tilde : final ≠ 0x7e) :
    readCommand final first event =
      { event with key := keyFromFinal final
                   mods := if final = 0x5a then { event.mods with shift := true } else event.mods } := by
  unfold readCommand
  rw [if_neg text, if_neg tilde]
  dsimp only
  split <;> rfl

theorem readCommand_named {event : KeyEvent} {first : Nat} (known : r.named.key ≠ .unknown)
    (number : first = r.named.number ∨ r.named.final = 0x5a) :
    readCommand r.named.final first event =
      { event with key := r.named.key
                   mods := if r.named.final = 0x5a then { event.mods with shift := true } else event.mods } := by
  cases named : r.named with
  | letter final =>
    rw [named] at known
    have text : final ≠ 0x75 := by
      rintro rfl
      exact known rfl
    have tilde : final ≠ 0x7e := by
      rintro rfl
      exact known rfl
    exact readCommand_letter text tilde
  | tilde n =>
    rw [named] at number
    rcases number with rfl | never
    · rfl
    · cases never

theorem readKey_encodes (known : r.named.key ≠ .unknown) (encodes : Encodes r params) (raw : List UInt8) :
    readKey raw params r.named.final =
      if params.headD [] = [] ∧ r.named.final ≠ 0x5a then .error {}
      else .ok
        { key := r.named.key
          mods := if r.named.final = 0x5a then { r.mods with shift := true } else r.mods
          type := r.type, text := r.text.flatMap String.utf8EncodeChar, raw } := by
  have bounds := named_known known
  have code : firstCode [params.headD []] = if params.headD [] = [] then none else some r.named.number := by
    unfold firstCode
    rw [headD_cons]
    rcases encodes.first with digits | ⟨-, none_⟩
    · have some_ := decimal_ne_nil r.named.number
      rw [← digits] at some_
      rw [if_neg (by rw [List.isEmpty_iff]; exact some_), if_neg some_, digits,
        parseCodepoint_decimal (Or.inl (by omega))]
    · rw [none_]
      rfl
  unfold readKey
  dsimp only
  rw [encodes.keyParts, code]
  by_cases refused : params.headD [] = [] ∧ r.named.final ≠ 0x5a
  · rw [if_pos refused, if_pos refused.1]
    simp [refused.2]
  · rw [if_neg refused, if_neg (by split <;> simp_all)]
    have plain : readAlternates [params.headD []] { raw } = .ok { raw } := rfl
    have rest := encodes.fields raw
    rw [plain]
    show (readModifiers params { raw } >>= fun event => readText params event >>= fun event =>
      .ok (readCommand _ _ event)) = _
    cases modifiers : readModifiers params { raw } with
    | error event =>
      rw [modifiers] at rest
      cases rest
    | ok event =>
      rw [modifiers] at rest
      have text : readText params event = _ := rest
      show (readText params event >>= fun event => .ok (readCommand _ _ event)) = _
      rw [text]
      show Except.ok (readCommand _ _ _) = _
      rw [readCommand_named known]
      by_cases none_ : params.headD [] = []
      · exact .inr (not_not.mp fun other => refused ⟨none_, other⟩)
      · rw [if_neg none_]
        exact .inl rfl

end Fields

section Delivery
variable {r : Report} {params : List (List UInt8)}

theorem plain_body (encodes : Encodes r params) : ∀ c ∈ [0x3b].intercalate params, inParam c = true ∨ c = 0x3b := by
  intro c inside
  rcases mem_joined inside with semicolon | ⟨param, among, c_in⟩
  · exact .inr semicolon
  · exact .inl (encodes.plain param among c c_in)

theorem inner_byte {c : UInt8} (inner : inParam c = true ∨ c = 0x3b) : ¬0x40 ≤ c ∧ c ≠ 0x3c := by
  rcases inner with plain | rfl
  · unfold inParam digit at plain
    simp only [Bool.or_eq_true, Bool.and_eq_true, decide_eq_true_eq] at plain
    rcases plain with ⟨-, high⟩ | rfl
    · refine ⟨fun low => absurd (UInt8.le_trans low high) (by decide), ?_⟩
      rintro rfl
      exact absurd high (by decide)
    · decide
  · decide

theorem csiEnd_body {body : List UInt8} {final : UInt8} (inner : ∀ c ∈ body, ¬0x40 ≤ c) (low : 0x40 ≤ final)
    (high : final ≤ 0x7e) : csiEnd ([0x1b, 0x5b] ++ body ++ [final]) = some (body.length + 2) := by
  have none_ : body.findIdx? (fun b => 0x40 ≤ b && b ≤ 0x7e) = none := by
    rw [findIdx?_eq_none_iff]
    intro c inside
    rw [decide_eq_false (inner c inside), Bool.false_and]
  have last : [final].findIdx? (fun b => 0x40 ≤ b && b ≤ 0x7e) = some 0 := by
    simp [findIdx?_cons, low, high]
  unfold csiEnd
  rw [append_assoc]
  show ((body ++ [final]).findIdx? _).map _ = _
  rw [findIdx?_append, none_, last]
  simp

theorem feed_report (known : r.named.key ≠ .unknown) (encodes : Encodes r params) :
    ({} : Parser).feed (r.bytes params) =
      ([match (if isPosition r params then readPosition (r.bytes params) (params.getD 0 []) (params.getD 1 [])
          else readKey (r.bytes params) params r.named.final) with
        | .ok event => event
        | .error event => { event with key := .unknown, raw := r.bytes params }], {}) := by
  obtain ⟨-, -, low, high⟩ := named_known known
  have inner := fun c inside => inner_byte (plain_body encodes c inside)
  have ends : csiEnd (r.bytes params) = some (([0x3b].intercalate params).length + 2) :=
    csiEnd_body (fun c inside => (inner c inside).1) low high
  have split := encodes.split
  have length : (r.bytes params).length = ([0x3b].intercalate params).length + 2 + 1 := by
    unfold Report.bytes
    rw [length_append, length_append, length_singleton]
    show 2 + _ + 1 = _
    omega
  have whole : (r.bytes params).take (([0x3b].intercalate params).length + 2 + 1) = r.bytes params := by
    rw [← length, take_length]
  have body : ((r.bytes params).drop 2).take (([0x3b].intercalate params).length + 2 - 2) =
      [0x3b].intercalate params := by
    unfold Report.bytes
    rw [Nat.add_sub_cancel, append_assoc]
    exact take_left
  have last : (r.bytes params)[([0x3b].intercalate params).length + 2]?.getD 0 = r.named.final := by
    unfold Report.bytes
    rw [getElem?_append_right (by rw [length_append]; show 2 + _ ≤ _; omega), length_append]
    show ([r.named.final] : List UInt8)[_ - (2 + _)]?.getD 0 = _
    rw [Nat.add_comm 2, Nat.sub_self]
    rfl
  have mouse : ([0x3b].intercalate params).head? ≠ some 0x3c := by
    intro front
    exact (inner _ (mem_of_mem_head? front)).2 rfl
  obtain ⟨result, given⟩ : ∃ result, (if isPosition r params then
      readPosition (r.bytes params) (params.getD 0 []) (params.getD 1 [])
    else readKey (r.bytes params) params r.named.final) = result := ⟨_, rfl⟩
  have inner_ : (if (r.named.final = 0x52 && params.length = 2) = true then
      readPosition (r.bytes params) (params.getD 0 []) (params.getD 1 [])
    else readKey (r.bytes params) params r.named.final) = result := given
  have read : parseCsi (r.bytes params) (([0x3b].intercalate params).length + 2) =
      (if result.isOk then .parsed else .invalid, outcome result) := by
    unfold parseCsi
    dsimp only
    rw [whole, body, last, if_neg mouse, split, inner_]
    cases result <;> rfl
  obtain ⟨tail, shape⟩ : ∃ tail, r.bytes params = 0x1b :: 0x5b :: tail := ⟨_, rfl⟩
  have one : keyDecoder.next (r.bytes params) = some (if result.isOk then outcome result
      else { outcome result with key := .unknown, raw := r.bytes params }, (r.bytes params).length) := by
    show nextEvent (r.bytes params) = _
    rw [shape, nextEvent.eq_def]
    simp only [head?_cons, if_true]
    rw [← shape, ends]
    simp only
    rw [read, length]
    cases result with
    | ok event => rfl
    | error event =>
      simp [Except.isOk, Except.toBool, outcome, whole]
  have none_ : keyDecoder.drain [] = ([], []) := keyDecoder.drain_none rfl
  show ((keyDecoder.drain (r.bytes params)).1, (⟨(keyDecoder.drain (r.bytes params)).2⟩ : Parser)) = _
  rw [keyDecoder.drain_some one, drop_length, none_, given]
  cases result <;> rfl

theorem parseNumber_other {text : List UInt8} {c : UInt8} (inside : c ∈ text) (other : digit c = false) :
    parseNumber text = none := by
  have stuck : ∀ value : Int, text.foldlM (fun (value : Int) c =>
      if c < 0x30 || c > 0x39 then none
      else some ((value * 10 + (c.toNat - 0x30 : Nat)).bmod (2 ^ 64))) value = none := by
    induction text with
    | nil => cases inside
    | cons d rest ih =>
      intro value
      rw [foldlM_cons]
      rcases mem_cons.mp inside with rfl | later
      · rw [if_pos (not_not.mp fun no => by rw [digit_range.mpr no] at other; cases other)]
        rfl
      · split
        · rfl
        · exact ih later _
  unfold parseNumber
  split
  · rfl
  · exact stuck 0

theorem readPosition_encodes {first second raw : List UInt8} (one : Written 1 first) (written : WrittenModifiers r second) :
    (∃ event, readPosition raw first second = .ok event) ↔
      [first, second] = [decimal 1, decimal (modifierNumber r.mods)] := by
  have small := modifierNumber_small r.mods
  have number := parseNumber_decimal (n := modifierNumber r.mods) (by omega)
  have row : parseNumber (decimal 1) = some 1 := parseNumber_decimal (n := 1) (by omega)
  rw [List.cons.injEq, List.cons.injEq, and_iff_left rfl]
  constructor
  · rintro ⟨event, read⟩
    unfold readPosition at read
    rcases one with rfl | ⟨-, rfl⟩
    · refine ⟨rfl, ?_⟩
      obtain ⟨mods, digits, ⟨-, rfl⟩ | ⟨type, -, rfl⟩⟩ := written
      · rcases digits with rfl | ⟨-, rfl⟩
        · rfl
        · rw [row] at read
          cases read
      · rw [parseNumber_other (c := 0x3a) (mem_append_right _ mem_cons_self) (by decide), row] at read
        cases read
    · cases read
  · rintro ⟨rfl, rfl⟩
    unfold readPosition
    rw [row, number]
    dsimp only
    rw [if_neg (by simp only [Bool.or_eq_true, decide_eq_true_eq]; omega)]
    exact ⟨_, rfl⟩

theorem readPosition_ok {raw row col : List UInt8} {event : KeyEvent} (read : readPosition raw row col = .ok event) :
    ∃ pos, event = { raw, cursorPosition := some pos } := by
  unfold readPosition at read
  split at read
  · split at read
    · cases read
    · cases read
      exact ⟨_, rfl⟩
  · cases read

/-- Every written report of a named key decodes exactly if it is accepted. -/
theorem report_decodes_iff (known : r.named.key ≠ .unknown) (encodes : Encodes r params) :
    Decodes r params ↔ Accepted r params := by
  have fed := feed_report known encodes
  unfold Decodes Accepted
  rw [fed]
  by_cases position : isPosition r params = true
  · rw [if_pos position, if_pos position, if_pos position]
    have two := position
    unfold isPosition at two
    rw [Bool.and_eq_true, decide_eq_true_eq, decide_eq_true_eq] at two
    have one : r.named.number = 1 := by
      cases named : r.named with
      | letter final => rfl
      | tilde n =>
        rw [named] at two
        exact absurd two.1 (show (0x7e : UInt8) ≠ 0x52 by decide)
    cases encodes with
    | one written => exact absurd two.2 (show 1 ≠ 2 by decide)
    | three written modifiers => exact absurd two.2 (show 3 ≠ 2 by decide)
    | @two first second written modifiers text =>
      rw [one] at written
      have exactly := @readPosition_encodes r first second (r.bytes [first, second]) written modifiers
      rw [← exactly]
      show (∃ pos, ([match readPosition (r.bytes [first, second]) first second with
        | .ok event => event
        | .error event => { event with key := .unknown, raw := r.bytes [first, second] }], _) = _) ↔ _
      constructor
      · rintro ⟨pos, same⟩
        cases read : readPosition (r.bytes [first, second]) first second with
        | ok event => exact ⟨event, rfl⟩
        | error event =>
          rw [read, readPosition_refused read] at same
          cases same
      · rintro ⟨event, read⟩
        obtain ⟨pos, rfl⟩ := readPosition_ok read
        rw [read]
        exact ⟨pos, rfl⟩
  · rw [if_neg position, if_neg position, if_neg position, readKey_encodes known encodes]
    by_cases refused : params.headD [] = [] ∧ r.named.final ≠ 0x5a
    · rw [if_pos refused]
      refine iff_of_false (fun same => ?_) fun accepted => accepted.1.elim (· refused.1) refused.2
      have key := congrArg (fun fed => fed.1.map KeyEvent.key) same
      exact known (cons.inj key).1.symm
    · rw [if_neg refused]
      have written : params.headD [] ≠ [] ∨ r.named.final = 0x5a := by
        by_cases none_ : params.headD [] = []
        · exact .inr (not_not.mp fun other => refused ⟨none_, other⟩)
        · exact .inl none_
      rw [and_iff_right written]
      by_cases tab : r.named.final = 0x5a
      · dsimp only
        rw [if_pos tab]
        constructor
        · intro same _
          have mods := congrArg (fun fed => fed.1.map KeyEvent.mods) same
          exact (congrArg Modifiers.shift (cons.inj mods).1).symm
        · intro shift
          have shifted : { r.mods with shift := true } = r.mods := by
            rw [← shift tab]
          rw [shifted]
      · dsimp only
        rw [if_neg tab]
        exact iff_of_true rfl fun never => absurd never tab

/-- Up, pressed alone and written without its number. -/
theorem bare_up_unknown :
    Encodes { named := .letter 0x41 } [[]] ∧ (Report.bytes { named := .letter 0x41 } [[]]) = [0x1b, 0x5b, 0x41] ∧
      ¬Decodes { named := .letter 0x41 } [[]] := by
  refine ⟨.one (.inr ⟨rfl, rfl⟩) rfl rfl rfl, rfl, ?_⟩
  have known : keyFromFinal 0x41 ≠ .unknown := by decide
  have fed := @feed_report { named := .letter 0x41 } [[]] known (.one (.inr ⟨rfl, rfl⟩) rfl rfl rfl)
  unfold Decodes
  rw [fed]
  intro same
  exact absurd (congrArg (fun fed => fed.1.map KeyEvent.key) same) (by decide)

theorem numbered_up_decodes : Decodes { named := .letter 0x41 } [decimal 1] :=
  (report_decodes_iff (by decide) (.one (.inl rfl) rfl rfl rfl)).mpr
    ⟨.inl (decimal_ne_nil 1), fun never => absurd never (by decide)⟩

end Delivery

end Nxt.Ui.Input
