import Nxt.Ai.Grammar

/- The strict reader of responses_stream.hpp, which slices the complete values of an object or an array
   out of a text. A reader is given what is left of its input; the loops take fuel, which no text
   uses up. -/
namespace Nxt.Ai
open Nxt.Lib List

def token (input : Bytes) : Except Error (Token × Bytes) := do
  match ← readToken input with
  | none => .error (.runtime "truncated Responses JSON")
  | some read => .ok read

/-- `detail::expect`, of a token that has no text. -/
def expect (expected : Token) (input : Bytes) : Except Error Bytes := do
  let (next, rest) ← token input
  if next ≠ expected then .error (.runtime "malformed Responses JSON") else .ok rest

def Token.scalar : Token → Bool
  | .string _ | .number _ | .boolean _ | .null => true
  | _ => false

def endOf (object : Bool) : Token := if object then .objectEnd else .arrayEnd

def toValue (object : Bool) (next : Token) (input : Bytes) : Except Error (Token × Bytes) :=
  if object then
    match next with
    | .string _ => do token (← expect .colon input)
    | _ => .error (.runtime "malformed Responses JSON key")
  else .ok (next, input)

mutual

/-- `detail::value`: what follows the value that begins with the token. -/
def value : Nat → Token → Nat → Bytes → Except Error Bytes
  | 0, _, _, _ => .error (.other 0)
  | fuel + 1, first, depth, input =>
    if 128 < depth then .error (.runtime "Responses JSON nesting limit")
    else if first = .objectBegin ∨ first = .arrayBegin then do
      let object := decide (first = .objectBegin)
      let (next, rest) ← token input
      if next = endOf object then .ok rest else items fuel object depth next rest
    else if first.scalar then .ok input
    else .error (.runtime "malformed Responses JSON value")

/-- The loop of `detail::value`. -/
def items : Nat → Bool → Nat → Token → Bytes → Except Error Bytes
  | 0, _, _, _, _ => .error (.other 0)
  | fuel + 1, object, depth, next, input => do
    let (first, rest) ← toValue object next input
    let rest ← value fuel first (depth + 1) rest
    let (next, rest) ← token rest
    if next = endOf object then .ok rest
    else if next ≠ .comma then .error (.runtime "malformed Responses JSON separator")
    else do
      let (next, rest) ← token rest
      items fuel object depth next rest

end

def ended (input : Bytes) : Except Error Unit := do
  match ← readToken input with
  | none => .ok ()
  | some _ => .error (.runtime "trailing Responses JSON")

def between (start rest : Bytes) : Bytes := start.take (start.length - rest.length)

/-- The loop of `detail::object`; the fields stand in the order of the text. -/
def objectFields : Nat → List (Bytes × Bytes) → Token → Bytes → Except Error (List (Bytes × Bytes) × Bytes)
  | 0, _, _, _ => .error (.other 0)
  | fuel + 1, fields, next, input =>
    if next = .objectEnd then .ok (fields, input)
    else match next with
    | .string key => do
      let start ← expect .colon input
      let (first, rest) ← token start
      let rest ← value fuel first 0 rest
      if fields.any fun field => field.1 = key then .error (.runtime "duplicate Responses JSON key")
      else do
        let fields := fields ++ [(key, between start rest)]
        let (next, rest) ← token rest
        if next = .objectEnd then .ok (fields, rest)
        else if next ≠ .comma then .error (.runtime "malformed Responses JSON object")
        else do
          let (next, rest) ← token rest
          if next = .objectEnd then .error (.runtime "trailing Responses JSON comma")
          else objectFields fuel fields next rest
    | _ => .error (.runtime "malformed Responses JSON key")

def object (raw : Bytes) : Except Error (List (Bytes × Bytes)) := do
  let input ← expect .objectBegin raw
  let (next, rest) ← token input
  let (fields, rest) ← objectFields (2 * raw.length) [] next rest
  ended rest
  .ok fields

/-- The loop of `detail::array`, with the input from which the next item is cut. -/
def arrayItems : Nat → List Bytes → Bytes → Token → Bytes → Except Error (List Bytes × Bytes)
  | 0, _, _, _, _ => .error (.other 0)
  | fuel + 1, read, start, next, input =>
    if next = .arrayEnd then .ok (read, input)
    else do
      let rest ← value fuel next 0 input
      let read := read ++ [between start rest]
      let (next, rest) ← token rest
      if next = .arrayEnd then .ok (read, rest)
      else if next ≠ .comma then .error (.runtime "malformed Responses JSON array")
      else do
        let start := rest
        let (next, rest) ← token start
        if next = .arrayEnd then .error (.runtime "trailing Responses JSON comma")
        else arrayItems fuel read start next rest

def array (raw : Bytes) : Except Error (List Bytes) := do
  let start ← expect .arrayBegin raw
  let (next, rest) ← token start
  let (read, rest) ← arrayItems (2 * raw.length) [] start next rest
  ended rest
  .ok read

inductive Spelling : Token → Bytes → Prop where
  | objectBegin : Spelling .objectBegin [0x7b]
  | objectEnd : Spelling .objectEnd [0x7d]
  | arrayBegin : Spelling .arrayBegin [0x5b]
  | arrayEnd : Spelling .arrayEnd [0x5d]
  | colon : Spelling .colon [0x3a]
  | comma : Spelling .comma [0x2c]
  | string {text value : Bytes} (literal : StringLiteral text value) : Spelling (.string value) text
  | number {text : Bytes} (run : NumberRun text) : Spelling (.number text) text
  | true : Spelling (.boolean true) (lit "true")
  | false : Spelling (.boolean false) (lit "false")
  | null : Spelling .null (lit "null")

def Stop (rest : Bytes) : Prop := ∀ c ∈ rest.head?, numberChar c = false

section Sound
variable {c d : UInt8} {after : Bytes} {given : Token} {other : Except Error (Option (Token × Bytes))}
  {found : Option (Token × Bytes)}

def Taken (input : Bytes) (found : Option (Token × Bytes)) : Prop :=
  ∃ token text rest, found = some (token, rest) ∧ Spelling token text ∧ input = text ++ rest

theorem mark_sound (spelled : Spelling given [d])
    (read : (if c = d then .ok (some (given, after)) else other) = .ok found) :
    Taken (c :: after) found ∨ other = .ok found := by
  by_cases same : c = d
  · rw [if_pos same] at read
    cases read
    exact Or.inl ⟨given, [d], after, rfl, spelled, by rw [same]; rfl⟩
  · rw [if_neg same] at read
    exact Or.inr read

theorem literal_sound {tail : Bytes} (spelled : Spelling given (d :: tail))
    (read : (if c = d then literalTail given tail after else other) = .ok found) :
    Taken (c :: after) found ∨ other = .ok found := by
  by_cases same : c = d
  · rw [if_pos same, literalTail] at read
    split at read
    · rename_i begins
      obtain ⟨left, rfl⟩ := begins
      rw [drop_left] at read
      cases read
      exact Or.inl ⟨given, d :: tail, left, rfl, spelled, by rw [same]; rfl⟩
    · cases read
  · rw [if_neg same] at read
    exact Or.inr read

theorem readToken_sound {input : Bytes} (read : readToken input = .ok found) :
    ∃ space left, Ws space ∧ input = space ++ left ∧ (left = [] ∧ found = none ∨ Taken left found) := by
  obtain ⟨space, blank, cut⟩ := skipWs_split input
  refine ⟨space, skipWs input, blank, cut, ?_⟩
  unfold readToken at read
  cases left : skipWs input with
  | nil =>
    rw [left] at read
    cases read
    exact Or.inl ⟨rfl, rfl⟩
  | cons c after =>
    rw [left] at read
    refine Or.inr ?_
    by_contra fresh
    replace read := (mark_sound .objectBegin read).resolve_left fresh
    replace read := (mark_sound .objectEnd read).resolve_left fresh
    replace read := (mark_sound .arrayBegin read).resolve_left fresh
    replace read := (mark_sound .arrayEnd read).resolve_left fresh
    replace read := (mark_sound .colon read).resolve_left fresh
    replace read := (mark_sound .comma read).resolve_left fresh
    by_cases quote : c = 0x22
    · rw [if_pos quote] at read
      cases body : readStringBody [] after with
      | error e =>
        rw [body] at read
        cases read
      | ok taken =>
        rw [body] at read
        cases read
        obtain ⟨text, value, rfl, same, inside⟩ := body_sound body
        rw [nil_append] at same
        refine fresh ⟨_, _, _, rfl, .string (.quoted (same ▸ inside)), ?_⟩
        rw [quote, cons_append, append_assoc]
        rfl
    rw [if_neg quote] at read
    replace read := (literal_sound .true read).resolve_left fresh
    replace read := (literal_sound .false read).resolve_left fresh
    replace read := (literal_sound .null read).resolve_left fresh
    by_cases first : (0x30 ≤ c ∧ c ≤ 0x39) ∨ c = 0x2d
    · rw [if_pos first] at read
      cases read
      refine fresh ⟨_, _, _, rfl, .number (.run first fun _ held => mem_takeWhile_imp held), ?_⟩
      rw [cons_append, takeWhile_append_dropWhile]
    · rw [if_neg first] at read
      cases read

end Sound

theorem number_mark {c : UInt8} (first : Digit c ∨ c = 0x2d) : isWs c = false := by
  have apart {d : UInt8} (far : ¬ (Digit d ∨ d = 0x2d)) : decide (c = d) = false :=
    decide_eq_false fun same => far (same ▸ first)
  simp only [isWs, apart (by decide : ¬ (Digit 0x20 ∨ _)), apart (by decide : ¬ (Digit 0x0a ∨ _)),
    apart (by decide : ¬ (Digit 0x0d ∨ _)), apart (by decide : ¬ (Digit 0x09 ∨ _)), Bool.or_self]

theorem literalTail_complete (given : Token) (tail rest : Bytes) :
    literalTail given tail (tail ++ rest) = .ok (some (given, rest)) := by
  rw [literalTail, if_pos (prefix_append tail rest), drop_left]

theorem readToken_complete {space text rest : Bytes} {token : Token} (blank : Ws space) (spelled : Spelling token text)
    (stops : ∀ run, token = .number run → Stop rest) :
    readToken (space ++ (text ++ rest)) = .ok (some (token, rest)) := by
  have begins {c : UInt8} {more : Bytes} (mark : isWs c = false) : skipWs (space ++ c :: more) = c :: more := by
    rw [skipWs_append blank, skipWs, dropWhile_cons_of_neg (by rw [mark]; decide)]
  cases spelled with
  | objectBegin | objectEnd | arrayBegin | arrayEnd | colon | comma =>
    rw [cons_append, readToken, begins (by decide)]
    rfl
  | string literal =>
    obtain ⟨inside⟩ := literal
    rw [cons_append, readToken, begins (by decide), append_assoc]
    exact congrArg (Except.map _) (body_complete inside [] rest)
  | @number text run =>
    obtain @⟨c, more, first, inside⟩ := run
    have whole : (more ++ rest).takeWhile numberChar = more ∧ (more ++ rest).dropWhile numberChar = rest := by
      have stop := stops _ rfl
      rw [takeWhile_append_of_pos inside, dropWhile_append_of_pos inside]
      cases rest with
      | nil => exact ⟨append_nil _, rfl⟩
      | cons d rest =>
        have next : ¬ numberChar d = true := by
          rw [stop d rfl]
          decide
        rw [takeWhile_cons_of_neg next, dropWhile_cons_of_neg next, append_nil]
        exact ⟨rfl, rfl⟩
    have apart {d : UInt8} (far : ¬ (Digit d ∨ d = 0x2d)) : c ≠ d := fun same => far (same ▸ first)
    have leads : (0x30 ≤ c ∧ c ≤ 0x39) ∨ c = 0x2d := first
    rw [cons_append, readToken, begins (number_mark first)]
    dsimp only
    rw [if_neg (apart (by decide)), if_neg (apart (by decide)), if_neg (apart (by decide)),
      if_neg (apart (by decide)), if_neg (apart (by decide)), if_neg (apart (by decide)),
      if_neg (apart (by decide)), if_neg (apart (by decide)), if_neg (apart (by decide)),
      if_neg (apart (by decide)), if_pos leads, whole.1, whole.2]
  | true =>
    rw [show lit "true" = 0x74 :: lit "rue" from rfl, cons_append, readToken, begins (by decide)]
    exact literalTail_complete (.boolean true) (lit "rue") rest
  | false =>
    rw [show lit "false" = 0x66 :: lit "alse" from rfl, cons_append, readToken, begins (by decide)]
    exact literalTail_complete (.boolean false) (lit "alse") rest
  | null =>
    rw [show lit "null" = 0x6e :: lit "ull" from rfl, cons_append, readToken, begins (by decide)]
    exact literalTail_complete .null (lit "ull") rest

theorem readToken_blank {input : Bytes} (blank : Ws input) : readToken input = .ok none := by
  rw [readToken, skipWs_blank blank]

theorem ended_iff {input : Bytes} : ended input = .ok () ↔ Ws input := by
  constructor
  · intro read
    unfold ended at read
    cases found : readToken input with
    | error e =>
      rw [found] at read
      cases read
    | ok taken =>
      rw [found] at read
      cases taken with
      | some taken => cases read
      | none =>
        obtain ⟨space, left, blank, rfl, none | some⟩ := readToken_sound found
        · rw [none.1, append_nil]
          exact blank
        · obtain ⟨_, _, _, some, _⟩ := some
          cases some
  · intro blank
    rw [ended, readToken_blank blank]
    rfl

theorem token_sound {input rest : Bytes} {next : Token} (read : token input = .ok (next, rest)) :
    ∃ space text, Ws space ∧ Spelling next text ∧ input = space ++ (text ++ rest) := by
  unfold token at read
  cases found : readToken input with
  | error e =>
    rw [found] at read
    cases read
  | ok taken =>
    rw [found] at read
    cases taken with
    | none => cases read
    | some taken =>
      cases read
      obtain ⟨space, left, blank, rfl, none | some⟩ := readToken_sound found
      · cases none.2
      · obtain ⟨_, text, _, same, spelled, rfl⟩ := some
        cases same
        exact ⟨space, text, blank, spelled, rfl⟩

theorem token_complete {space text rest : Bytes} {next : Token} (blank : Ws space) (spelled : Spelling next text)
    (stops : ∀ run, next = .number run → Stop rest) : token (space ++ (text ++ rest)) = .ok (next, rest) := by
  rw [token, readToken_complete blank spelled stops]
  rfl

end Nxt.Ai
