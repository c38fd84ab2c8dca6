import Nxt.Lib.Wire

/- JSON as the agent reads and writes it: the token reader and the writer of json.hpp. Text is bytes;
   a reader is given what is left of its input. -/
namespace Nxt.Ai
open Nxt.Lib List

def lit (s : String) : Bytes := s.toList.map fun c => c.toNat.toUInt8

inductive Error where
  | parse (message : String)
  | runtime (message : String)
  | invalidArgument (message : String)
  | operationCancelled
  /-- An exception of a tool, the transport or the observer. -/
  | other (n : Nat)
  deriving DecidableEq

inductive Token where
  | objectBegin
  | objectEnd
  | arrayBegin
  | arrayEnd
  | colon
  | comma
  | string (text : Bytes)
  | number (text : Bytes)
  | boolean (value : Bool)
  | null
  deriving DecidableEq

def isWs (c : UInt8) : Bool := c = 0x20 || c = 0x0a || c = 0x0d || c = 0x09

def skipWs (input : Bytes) : Bytes := input.dropWhile isWs

def hexValue (c : UInt8) : Option Nat :=
  if 0x30 ≤ c ∧ c ≤ 0x39 then some (c.toNat - 0x30)
  else if 0x61 ≤ c ∧ c ≤ 0x66 then some (c.toNat - 0x61 + 10)
  else if 0x41 ≤ c ∧ c ≤ 0x46 then some (c.toNat - 0x41 + 10)
  else none

def appendUtf8 (cp : Nat) : Bytes :=
  if cp ≤ 0x7f then [cp.toUInt8]
  else if cp ≤ 0x7ff then [(0xc0 ||| cp >>> 6).toUInt8, (0x80 ||| cp &&& 0x3f).toUInt8]
  else if cp ≤ 0xffff then
    [(0xe0 ||| cp >>> 12).toUInt8, (0x80 ||| cp >>> 6 &&& 0x3f).toUInt8, (0x80 ||| cp &&& 0x3f).toUInt8]
  else
    [(0xf0 ||| cp >>> 18).toUInt8, (0x80 ||| cp >>> 12 &&& 0x3f).toUInt8, (0x80 ||| cp >>> 6 &&& 0x3f).toUInt8,
      (0x80 ||| cp &&& 0x3f).toUInt8]

def endOfJson (context : String) : Error := .parse ("unexpected end of JSON while reading " ++ context)

/-- `read_u16_escape`, on the input after the `u`; it takes four characters. -/
def readU16Escape (value : Nat) : Nat → Bytes → Except Error Nat
  | 0, _ => .ok value
  | _ + 1, [] => .error (endOfJson "unicode escape")
  | n + 1, c :: rest =>
    match hexValue c with
    | none => .error (.parse "invalid JSON unicode escape")
    | some digit => readU16Escape (value * 16 + digit) n rest

/-- A `\u` escape: the code point and the characters it took. -/
def readUnicode (input : Bytes) : Except Error (Nat × Nat) := do
  let cp ← readU16Escape 0 4 input
  if 0xd800 ≤ cp ∧ cp ≤ 0xdbff then
    match input.drop 4 with
    | [] => .error (endOfJson "low surrogate escape")
    | a :: rest =>
      if a ≠ 0x5c then .error (.parse "missing JSON low surrogate")
      else match rest with
        | [] => .error (endOfJson "low surrogate escape")
        | b :: rest =>
          if b ≠ 0x75 then .error (.parse "missing JSON low surrogate")
          else do
            let low ← readU16Escape 0 4 rest
            if low < 0xdc00 ∨ 0xdfff < low then .error (.parse "invalid JSON low surrogate")
            else .ok (0x10000 + (cp - 0xd800) * 1024 + (low - 0xdc00), 10)
  else if 0xdc00 ≤ cp ∧ cp ≤ 0xdfff then .error (.parse "unpaired JSON low surrogate")
  else .ok (cp, 4)

def simpleEscape (c : UInt8) : Option UInt8 :=
  if c = 0x22 then some 0x22
  else if c = 0x5c then some 0x5c
  else if c = 0x2f then some 0x2f
  else if c = 0x62 then some 0x08
  else if c = 0x66 then some 0x0c
  else if c = 0x6e then some 0x0a
  else if c = 0x72 then some 0x0d
  else if c = 0x74 then some 0x09
  else none

/-- `read_string_body`: the text up to the closing quote, and what follows. -/
def readStringBody (out : Bytes) : Bytes → Except Error (Bytes × Bytes)
  | [] => .error (endOfJson "string")
  | c :: rest =>
    if c = 0x22 then .ok (out, rest)
    else if c < 0x20 then .error (.parse "control character in JSON string")
    else if c ≠ 0x5c then readStringBody (out ++ [c]) rest
    else match rest with
      | [] => .error (endOfJson "string escape")
      | e :: rest =>
        match simpleEscape e with
        | some b => readStringBody (out ++ [b]) rest
        | none =>
          if e ≠ 0x75 then .error (.parse "invalid JSON string escape")
          else match readUnicode rest with
            | .error failed => .error failed
            | .ok (cp, took) => readStringBody (out ++ appendUtf8 cp) (rest.drop took)
  termination_by input => input.length
  decreasing_by all_goals simp only [length_cons, length_drop]; omega

theorem readStringBody_shorter {out input text rest : Bytes} (read : readStringBody out input = .ok (text, rest)) :
    rest.length < input.length := by
  fun_induction readStringBody out input <;> simp_all <;> omega

def numberChar (c : UInt8) : Bool :=
  (0x30 ≤ c && c ≤ 0x39) || c = 0x2e || c = 0x65 || c = 0x45 || c = 0x2b || c = 0x2d

def literalTail (token : Token) (tail rest : Bytes) : Except Error (Option (Token × Bytes)) :=
  if tail <+: rest then .ok (some (token, rest.drop tail.length)) else .error (.parse "invalid JSON token")

/-- `read_token`: a token and what follows, or nothing at the end of the input. -/
def readToken (input : Bytes) : Except Error (Option (Token × Bytes)) :=
  match skipWs input with
  | [] => .ok none
  | c :: rest =>
    if c = 0x7b then .ok (some (.objectBegin, rest))
    else if c = 0x7d then .ok (some (.objectEnd, rest))
    else if c = 0x5b then .ok (some (.arrayBegin, rest))
    else if c = 0x5d then .ok (some (.arrayEnd, rest))
    else if c = 0x3a then .ok (some (.colon, rest))
    else if c = 0x2c then .ok (some (.comma, rest))
    else if c = 0x22 then (readStringBody [] rest).map fun read => some (.string read.1, read.2)
    else if c = 0x74 then literalTail (.boolean true) (lit "rue") rest
    else if c = 0x66 then literalTail (.boolean false) (lit "alse") rest
    else if c = 0x6e then literalTail .null (lit "ull") rest
    else if (0x30 ≤ c ∧ c ≤ 0x39) ∨ c = 0x2d then
      .ok (some (.number (c :: rest.takeWhile numberChar), rest.dropWhile numberChar))
    else .error (.parse "invalid JSON token")

theorem readToken_shorter {input rest : Bytes} {token : Token} (read : readToken input = .ok (some (token, rest))) :
    rest.length < input.length := by
  have skipped : (skipWs input).length ≤ input.length := length_dropWhile_le _ _
  have literal {t : Token} {tail after : Bytes} (read : literalTail t tail after = .ok (some (token, rest))) :
      rest.length ≤ after.length := by
    unfold literalTail at read
    split at read
    · cases read
      rw [length_drop]
      omega
    · cases read
  unfold readToken at read
  split at read
  · cases read
  · next c after found =>
    rw [found, length_cons] at skipped
    suffices rest.length ≤ after.length by omega
    split at read
    · cases read; exact le_rfl
    split at read
    · cases read; exact le_rfl
    split at read
    · cases read; exact le_rfl
    split at read
    · cases read; exact le_rfl
    split at read
    · cases read; exact le_rfl
    split at read
    · cases read; exact le_rfl
    split at read
    · cases body : readStringBody [] after with
      | error e => rw [body] at read; cases read
      | ok found =>
        rw [body] at read
        cases read
        exact (readStringBody_shorter body).le
    split at read
    · exact literal read
    split at read
    · exact literal read
    split at read
    · exact literal read
    split at read
    · cases read
      exact length_dropWhile_le _ _
    · cases read

/-- The tokens of the input up to its end or to the first invalid one, with the error that reading
    on throws. -/
def readTokens (input : Bytes) : List Token × Option Error :=
  match _read : readToken input with
  | .error e => ([], some e)
  | .ok none => ([], none)
  | .ok (some (token, rest)) =>
    let more := readTokens rest
    (token :: more.1, more.2)
  termination_by input.length
  decreasing_by exact readToken_shorter _read

def atEnd {α : Type} (e : Option Error) : Except Error (Option α) :=
  match e with
  | none => .ok none
  | some e => .error e

def Token.opens (t : Token) : Bool := t = .objectBegin || t = .arrayBegin

def Token.closes (t : Token) : Bool := t = .objectEnd || t = .arrayEnd

/-- The loop of `skip_json_value`: the tokens after the value, or nothing on truncated input. -/
def skipOpen (e : Option Error) : Nat → List Token → Except Error (Option (List Token))
  | 0, tokens => .ok (some tokens)
  | _ + 1, [] => atEnd e
  | depth + 1, t :: tokens =>
    if t.opens then skipOpen e (depth + 2) tokens
    else if t.closes then skipOpen e depth tokens
    else skipOpen e (depth + 1) tokens

def skipNextJsonValue (e : Option Error) : List Token → Except Error (Option (List Token))
  | [] => atEnd e
  | t :: tokens => skipOpen e (if t.opens then 1 else 0) tokens

theorem skipOpen_shorter {e : Option Error} {depth : Nat} {tokens rest : List Token}
    (skipped : skipOpen e depth tokens = .ok (some rest)) : rest.length ≤ tokens.length := by
  fun_induction skipOpen e depth tokens with
  | case1 tokens =>
    cases skipped
    exact le_rfl
  | case2 depth =>
    cases e <;> cases skipped
  | case3 depth t tokens opens ih => exact (ih skipped).trans (Nat.le_succ _)
  | case4 depth t tokens opens closes ih => exact (ih skipped).trans (Nat.le_succ _)
  | case5 depth t tokens opens closes ih => exact (ih skipped).trans (Nat.le_succ _)

/-- The escape of one character in `writer::string`. -/
def escape (c : UInt8) : Bytes :=
  if c = 0x22 then [0x5c, 0x22]
  else if c = 0x5c then [0x5c, 0x5c]
  else if c = 0x08 then [0x5c, 0x62]
  else if c = 0x0c then [0x5c, 0x66]
  else if c = 0x0a then [0x5c, 0x6e]
  else if c = 0x0d then [0x5c, 0x72]
  else if c = 0x09 then [0x5c, 0x74]
  else if c < 0x20 then
    lit "\\u00" ++ [(lit "0123456789abcdef").getD (c.toNat / 16) 0, (lit "0123456789abcdef").getD (c.toNat % 16) 0]
  else [c]

def string (text : Bytes) : Bytes := [0x22] ++ text.flatMap escape ++ [0x22]

def key (name : Bytes) : Bytes := string name ++ [0x3a]

def boolean (value : Bool) : Bytes := if value then lit "true" else lit "false"

end Nxt.Ai
