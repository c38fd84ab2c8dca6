import Nxt.Lib.Decimal
import Nxt.Ui.Input

/- The numbers of a report. `parse_number` goes on in a 64-bit `long` however many digits there are;
   its values are those of the digits as long as the number fits. -/
namespace Nxt.Ui.Input
open Nxt.Lib List
variable {pending : List UInt8} {event : KeyEvent} {n : Nat}

def InLong (v : Int) : Prop := -2 ^ 63 ≤ v ∧ v < 2 ^ 63

instance (v : Int) : Decidable (InLong v) := inferInstanceAs (Decidable (_ ∧ _))

/-- What the expressions of the loop of `parse_number` come to, before they are a `long` again. -/
def numberSteps : Int → List UInt8 → List Int
  | _, [] => []
  | value, c :: rest =>
      if c < 0x30 || c > 0x39 then []
      else
        let next := value * 10 + (c.toNat - 0x30 : Nat)
        value * 10 :: next :: numberSteps (next.bmod (2 ^ 64)) rest

/-- The texts that are handed on up to the first that is refused. -/
def upToRefused : List (List UInt8 × Bool) → List (List UInt8)
  | [] => []
  | (text, accepted) :: rest => text :: if accepted then upToRefused rest else []

def codeField (part : Option (List UInt8)) : List (List UInt8 × Bool) :=
  match part with
  | none => []
  | some part => if part.isEmpty then [] else [(part, (parseCodepoint part).isSome)]

def modifierFields (params : List (List UInt8)) : List (List UInt8 × Bool) :=
  match params[1]? with
  | none => []
  | some param =>
      let parts := param.splitOn 0x3a
      (parts.headD [], true) ::
        match parts[1]? with
        | none => []
        | some part => if part.isEmpty then [] else [(part, (parseNumber part).isSome)]

def textFields (params : List (List UInt8)) : List (List UInt8 × Bool) :=
  match (params.drop 2).find? (fun part => !part.isEmpty) with
  | none => []
  | some part => (part.splitOn 0x3a).map fun text => (text, (parseCodepoint text).isSome)

/-- The fields of a report that `parse_csi` has read as numbers. -/
def numberFields (pending : List UInt8) (end_ : Nat) : List (List UInt8) :=
  let body := (pending.drop 2).take (end_ - 2)
  let command := pending[end_]?.getD 0
  if body.head? = some 0x3c then []
  else
    let params := body.splitOn 0x3b
    if command = 0x52 && params.length = 2 then [params.getD 0 [], params.getD 1 []]
    else
      let keyParts := (params.headD []).splitOn 0x3a
      let first := keyParts.headD []
      let others := codeField keyParts[1]? ++ codeField keyParts[2]? ++ modifierFields params ++ textFields params
      upToRefused
        (if first.isEmpty then if command = 0x5a then others else []
          else (first, (parseCodepoint first).isSome || command = 0x5a) :: others)

/-- The fields that are read as numbers at a turn of `feed`. -/
def turnFields (pending : List UInt8) : List (List UInt8) :=
  if pending.take 2 = [0x1b, 0x5b] then
    match csiEnd pending with
    | none => []
    | some end_ => numberFields pending end_
  else []

def digit (c : UInt8) : Bool := 0x30 ≤ c && c ≤ 0x39

/-- The number that the digits at the front of a text denote. -/
def numeral (text : List UInt8) : Nat := readDecimal (text.takeWhile digit)

/-- A report of the cursor has the numbers of its two fields, less one. -/
def Positioned (event : KeyEvent) : Prop :=
  ∀ pos, event.cursorPosition = some pos → ∃ row col, row ≠ [] ∧ col ≠ [] ∧
    (∀ c ∈ row ++ col, digit c = true) ∧
    event.raw = [0x1b, 0x5b] ++ row ++ [0x3b] ++ col ++ [0x52] ∧
    pos.y + 1 = readDecimal row ∧ pos.x + 1 = readDecimal col

section Numbers

theorem digit_range {c : UInt8} : digit c = true ↔ ¬(c < 0x30 || c > 0x39) = true := by
  unfold digit
  simp only [Bool.and_eq_true, decide_eq_true_eq, Bool.or_eq_true, not_or, UInt8.not_lt, gt_iff_lt]

def readOn (value : Nat) (text : List UInt8) : Nat :=
  (text.takeWhile digit).foldl (fun value b => 10 * value + (b.toNat - 0x30)) value

theorem readOn_cons (value : Nat) {c : UInt8} (is : digit c = true) (rest : List UInt8) :
    readOn value (c :: rest) = readOn (10 * value + (c.toNat - 0x30)) rest := by
  unfold readOn
  rw [takeWhile_cons_of_pos is, foldl_cons]

theorem readOn_stop (value : Nat) {c : UInt8} (other : ¬digit c = true) (rest : List UInt8) :
    readOn value (c :: rest) = value := by
  unfold readOn
  rw [takeWhile_cons_of_neg other, foldl_nil]

theorem le_readOn (value : Nat) (text : List UInt8) : value ≤ readOn value text := by
  induction text generalizing value with
  | nil => exact le_rfl
  | cons c rest ih =>
    by_cases is : digit c = true
    · rw [readOn_cons value is]
      exact le_trans (by omega) (ih _)
    · rw [readOn_stop value is]

theorem step_value (value : Nat) (c : UInt8) :
    (value : Int) * 10 + (c.toNat - 0x30 : Nat) = ((10 * value + (c.toNat - 0x30) : Nat) : Int) := by
  push_cast
  ring

theorem numberSteps_inLong {value : Nat} (small : value < 2 ^ 63) (text : List UInt8) :
    (∀ v ∈ numberSteps value text, InLong v) ↔ readOn value text < 2 ^ 63 := by
  induction text generalizing value with
  | nil => exact iff_of_true (fun v inside => by cases inside) small
  | cons c rest ih =>
    by_cases is : digit c = true
    · rw [numberSteps, if_neg (digit_range.mp is), readOn_cons value is]
      dsimp only
      rw [step_value, forall_mem_cons, forall_mem_cons]
      by_cases fits : 10 * value + (c.toNat - 0x30) < 2 ^ 63
      · have stays : (((10 * value + (c.toNat - 0x30) : Nat) : Int)).bmod (2 ^ 64) =
            ((10 * value + (c.toNat - 0x30) : Nat) : Int) :=
          Int.bmod_eq_of_le (by omega) (by omega)
        rw [stays, ih fits]
        unfold InLong
        refine ⟨fun holds => holds.2.2, fun holds => ⟨?_, ?_, holds⟩⟩
        · omega
        · omega
      · have most := le_readOn (10 * value + (c.toNat - 0x30)) rest
        unfold InLong
        refine iff_of_false (fun holds => ?_) (by omega)
        have second := holds.2.1.2
        omega
    · rw [numberSteps, if_pos (not_not.mp fun no => is (digit_range.mpr no)), readOn_stop value is]
      exact iff_of_true (fun v inside => by cases inside) small

theorem numberSteps_numeral (text : List UInt8) : (∀ v ∈ numberSteps 0 text, InLong v) ↔ numeral text < 2 ^ 63 :=
  @numberSteps_inLong 0 (by decide) text

theorem parseNumber_from {value : Nat} {text : List UInt8} {v : Int} (fits : readOn value text < 2 ^ 63)
    (read : text.foldlM (fun (value : Int) c => if c < 0x30 || c > 0x39 then none
      else some ((value * 10 + (c.toNat - 0x30 : Nat)).bmod (2 ^ 64))) (value : Int) = some v) :
    (∀ c ∈ text, digit c = true) ∧ v = (text.foldl (fun value b => 10 * value + (b.toNat - 0x30)) value : Nat) := by
  induction text generalizing value with
  | nil =>
    cases read
    exact ⟨fun c inside => absurd inside not_mem_nil, rfl⟩
  | cons c rest ih =>
    rw [foldlM_cons] at read
    by_cases is : digit c = true
    · rw [readOn_cons value is] at fits
      have most := le_readOn (10 * value + (c.toNat - 0x30)) rest
      have stays : (((10 * value + (c.toNat - 0x30) : Nat) : Int)).bmod (2 ^ 64) =
          ((10 * value + (c.toNat - 0x30) : Nat) : Int) :=
        Int.bmod_eq_of_le (by omega) (by omega)
      rw [if_neg (digit_range.mp is), step_value, stays] at read
      obtain ⟨digits, same⟩ := ih fits read
      refine ⟨fun d inside => ?_, same⟩
      rcases mem_cons.mp inside with rfl | later
      · exact is
      · exact digits d later
    · rw [if_pos (not_not.mp fun no => is (digit_range.mpr no))] at read
      cases read

theorem parseNumber_exact {text : List UInt8} {v : Int} (fits : numeral text < 2 ^ 63)
    (read : parseNumber text = some v) : text ≠ [] ∧ (∀ c ∈ text, digit c = true) ∧ v = (readDecimal text : Nat) := by
  unfold parseNumber at read
  split at read
  · cases read
  · rename_i some_
    have whole := @parseNumber_from 0 text v fits read
    exact ⟨fun none_ => some_ (by rw [none_]; rfl), whole.1, whole.2⟩

end Numbers

section Reports

theorem unpositioned (none_ : event.cursorPosition = none) : Positioned event := by
  intro pos at_
  rw [none_] at at_
  cases at_

theorem readPosition_exact {raw row col : List UInt8} (fits : numeral row < 2 ^ 63 ∧ numeral col < 2 ^ 63)
    (read : readPosition raw row col = .ok event) {pos : Pos} (at_ : event.cursorPosition = some pos) : row ≠ [] ∧ col ≠
    [] ∧ (∀ c ∈ row ++ col, digit c = true) ∧ pos.y + 1 = readDecimal row ∧ pos.x + 1 = readDecimal col := by
  unfold readPosition at read
  split at read
  · rename_i y x first second
    split at read
    · cases read
    · rename_i positive
      cases read
      cases at_
      obtain ⟨some_row, row_digits, row_value⟩ := parseNumber_exact fits.1 first
      obtain ⟨some_col, col_digits, col_value⟩ := parseNumber_exact fits.2 second
      simp only [Bool.or_eq_true, decide_eq_true_eq, not_or] at positive
      refine ⟨some_row, some_col, fun c inside => ?_, ?_, ?_⟩
      · rcases mem_append.mp inside with here | there
        · exact row_digits c here
        · exact col_digits c there
      · dsimp only
        omega
      · dsimp only
        omega
  · cases read

theorem readPosition_refused {raw row col : List UInt8} {event : KeyEvent}
    (read : readPosition raw row col = .error event) : event = {} := by
  unfold readPosition at read
  split at read
  · split at read
    · cases read
      rfl
    · cases read
  · cases read
    rfl

theorem raw_parts {tail : List UInt8} {end_ : Nat} (two : 2 ≤ end_)
    (inside : end_ < (0x1b :: 0x5b :: tail : List UInt8).length) :
    (0x1b :: 0x5b :: tail : List UInt8).take (end_ + 1) =
      [0x1b, 0x5b] ++ (((0x1b :: 0x5b :: tail : List UInt8).drop 2).take (end_ - 2)) ++
    [(0x1b :: 0x5b :: tail : List UInt8)[end_]?.getD 0] := by
  obtain ⟨k, rfl⟩ := Nat.exists_eq_add_of_le' two
  have at_ : k < tail.length := by
    simp only [length_cons] at inside
    omega
  have last : (0x1b :: 0x5b :: tail : List UInt8)[k + 2]? = some tail[k] := by
    rw [getElem?_cons_succ, getElem?_cons_succ]
    exact getElem?_eq_getElem at_
  rw [last, take_succ_cons, take_succ_cons, drop_succ_cons, drop_succ_cons, drop_zero,
    Nat.add_sub_cancel, take_succ_eq_append_getElem at_]
  rfl

theorem two_params {body : List UInt8} (two : (body.splitOn 0x3b).length = 2) :
    body = (body.splitOn 0x3b).getD 0 [] ++ [0x3b] ++ (body.splitOn 0x3b).getD 1 [] := by
  have joined : [0x3b].intercalate (body.splitOn 0x3b) = body := intercalate_splitOn 0x3b
  obtain ⟨a, b, parts⟩ := length_eq_two.mp two
  rw [parts] at joined ⊢
  rw [← joined]
  simp [List.intercalate]

theorem readKey_unpositioned {raw : List UInt8} {params : List (List UInt8)} {command : UInt8}
    {result : Except KeyEvent KeyEvent} (read : readKey raw params command = result) :
    (outcome result).cursorPosition = none := by
  rw [← read]
  exact readKey_position raw params command

theorem parseCsi_refused {end_ : Nat} {result : CsiResult} (parsed : parseCsi pending end_ = (result, event))
    (refused : result ≠ .parsed) : event.cursorPosition = none := by
  unfold parseCsi at parsed
  dsimp only at parsed
  split at parsed
  · cases parsed
    rfl
  · split at parsed
    · cases parsed
      exact absurd rfl refused
    · rename_i read
      cases parsed
      split at read
      · rw [readPosition_refused read]
      · exact readKey_unpositioned read

theorem parseCsi_positioned {tail : List UInt8} {end_ : Nat} (found : csiEnd (0x1b :: 0x5b :: tail) = some end_)
    (fits : ∀ field ∈ numberFields (0x1b :: 0x5b :: tail) end_, numeral field < 2 ^ 63) :
    Positioned (parseCsi (0x1b :: 0x5b :: tail) end_).2 := by
  obtain ⟨-, two, inside⟩ := csiEnd_append found []
  have raw := raw_parts two inside
  unfold numberFields at fits
  unfold parseCsi
  dsimp only at fits ⊢
  generalize ((0x1b :: 0x5b :: tail : List UInt8).drop 2).take (end_ - 2) = body at raw fits ⊢
  generalize (0x1b :: 0x5b :: tail : List UInt8)[end_]?.getD 0 = command at raw fits ⊢
  by_cases marked : body.head? = some 0x3c
  · rw [if_pos marked]
    intro pos at_
    cases at_
  · rw [if_neg marked] at fits ⊢
    by_cases report : (command = 0x52 && (body.splitOn 0x3b).length = 2) = true
    · rw [if_pos report] at fits ⊢
      simp only [Bool.and_eq_true, decide_eq_true_eq] at report
      obtain ⟨first, others⟩ := forall_mem_cons.mp fits
      have second := others _ mem_cons_self
      split
      · rename_i event read
        intro pos at_
        obtain ⟨some_row, some_col, digits, y, x⟩ := readPosition_exact ⟨first, second⟩ read at_
        refine ⟨_, _, some_row, some_col, digits, ?_, y, x⟩
        show event.raw = _
        rw [readPosition_raw read, raw, report.1]
        nth_rewrite 1 [two_params report.2]
        simp only [append_assoc]
      · rename_i event read
        exact unpositioned (congrArg KeyEvent.cursorPosition (readPosition_refused read))
    · rw [if_neg report]
      split
      · rename_i event read
        exact unpositioned (readKey_unpositioned read)
      · rename_i event read
        exact unpositioned (readKey_unpositioned read)

end Reports

section Turns

theorem parseControl_positioned (c : UInt8) : Positioned (parseControl c) := by
  refine unpositioned ?_
  unfold parseControl
  repeat' split
  all_goals rfl

theorem flushByte_positioned (c : UInt8) : Positioned (Parser.flushByte c) := by
  unfold Parser.flushByte
  split
  · exact unpositioned rfl
  · split
    · exact parseControl_positioned c
    · exact unpositioned rfl

theorem parseUtf8_positioned (found : parseUtf8 pending = some (event, n)) : Positioned event := by
  refine unpositioned ?_
  unfold parseUtf8 at found
  split at found
  · cases found
    rfl
  · split at found
    · cases found
    · dsimp only at found
      split at found
      · cases found
        rfl
      · cases found
        rfl

theorem nextEvent_positioned (found : nextEvent pending = some (event, n))
    (fits : ∀ field ∈ turnFields pending, numeral field < 2 ^ 63) : Positioned event := by
  cases pending with
  | nil => cases found
  | cons c rest =>
    simp only [nextEvent] at found
    split at found
    · rename_i escape
      split at found
      · cases found
      · rename_i second next
        split at found
        · rename_i bracket
          split at found
          · cases found
          · rename_i end_ at_
            obtain ⟨tail, rfl⟩ := head?_eq_some_iff.mp next
            subst escape bracket
            have fields : turnFields (0x1b :: 0x5b :: tail) = numberFields (0x1b :: 0x5b :: tail) end_ := by
              unfold turnFields
              rw [at_]
              rfl
            have reported := parseCsi_positioned at_ (fields ▸ fits)
            split at found
            · rename_i result parsed
              cases found
              rwa [parsed] at reported
            · rename_i result parsed
              have none_ := parseCsi_refused parsed (by decide)
              cases found
              exact unpositioned none_
            · rename_i result parsed
              have none_ := parseCsi_refused parsed (by decide)
              cases found
              exact unpositioned none_
        · cases found
          exact unpositioned rfl
    · split at found
      · cases found
        exact parseControl_positioned c
      · exact parseUtf8_positioned found

end Turns

namespace Parser

/-- The numbers of the reports stay in range, and the positions are those of the reports, as long as every field
    that is read as a number has a number below 2^63 at its front. -/
theorem numbers_exact_iff (all : List (Option (List UInt8))) :
    ((∀ front ∈ ({} : Parser).turns all, ∀ field ∈ turnFields front, ∀ v ∈ numberSteps 0 field, InLong v) ∧
      ∀ event ∈ (({} : Parser).calls all).1, Positioned event) ↔
    ∀ front ∈ ({} : Parser).turns all, ∀ field ∈ turnFields front, numeral field < 2 ^ 63 := by
  constructor
  · intro holds front turn field inside
    exact (numberSteps_numeral field).mp (holds.1 front turn field inside)
  · intro fits
    refine ⟨fun front turn field inside => (numberSteps_numeral field).mpr (fits front turn field inside), ?_⟩
    refine (calls_turns flushByte_positioned {} all).mpr fun front turn event n found => ?_
    exact nextEvent_positioned found (fits front turn)

/-- The first number of this report is 2^64 + 1, and its row is the first. -/
theorem wrapped_report : ¬((∀ front ∈ ({} : Parser).turns [some ("\x1b[18446744073709551617;1R".toUTF8.toList)],
        ∀ field ∈ turnFields front, ∀ v ∈ numberSteps 0 field, InLong v) ∧
      ∀ event ∈ (({} : Parser).calls [some ("\x1b[18446744073709551617;1R".toUTF8.toList)]).1, Positioned event) := by
  rintro ⟨inRange, -⟩
  revert inRange
  decide +kernel

end Parser

end Nxt.Ui.Input
