import Nxt.Lib.Decoder
import Nxt.Lib.Exec
import Nxt.Ui.Raster

/- The keyboard decoder of input.cpp: control bytes, UTF-8 text, and the CSI sequences of the Kitty
   protocol with cursor and function keys and position reports. A number is a 64-bit `long`, and one
   that is too large wraps round. -/
namespace Nxt.Ui.Input
open Nxt.Lib List

inductive Key where
  | unknown | character | enter | tab | backspace | escape | insert | delete | left | right | up | down
  | home | end_ | pageUp | pageDown | begin_ | f1 | f2 | f3 | f4 | f5 | f6 | f7 | f8 | f9 | f10 | f11 | f12
  deriving DecidableEq

inductive EventType where
  | press | repeat_ | release
  deriving DecidableEq

structure Modifiers where
  shift : Bool := false
  alt : Bool := false
  ctrl : Bool := false
  super : Bool := false
  hyper : Bool := false
  meta_ : Bool := false
  capsLock : Bool := false
  numLock : Bool := false
  deriving DecidableEq

structure KeyEvent where
  key : Key := .unknown
  type : EventType := .press
  mods : Modifiers := {}
  codepoint : Nat := 0
  shiftedCodepoint : Option Nat := none
  baseLayoutCodepoint : Option Nat := none
  text : List UInt8 := []
  raw : List UInt8 := []
  cursorPosition : Option Pos := none
  deriving DecidableEq

def encodeUtf8 (cp : Nat) : List UInt8 :=
  if cp ≤ 0x7f then [.ofNat cp]
  else if cp ≤ 0x7ff then [.ofNat (0xc0 ||| cp >>> 6), .ofNat (0x80 ||| cp &&& 0x3f)]
  else if cp ≤ 0xffff then
    [.ofNat (0xe0 ||| cp >>> 12), .ofNat (0x80 ||| (cp >>> 6) &&& 0x3f), .ofNat (0x80 ||| cp &&& 0x3f)]
  else
    [.ofNat (0xf0 ||| cp >>> 18), .ofNat (0x80 ||| (cp >>> 12) &&& 0x3f),
      .ofNat (0x80 ||| (cp >>> 6) &&& 0x3f), .ofNat (0x80 ||| cp &&& 0x3f)]

def parseNumber (text : List UInt8) : Option Int :=
  if text.isEmpty then none
  else text.foldlM (fun value c =>
    if c < 0x30 || c > 0x39 then none
    else some ((value * 10 + (c.toNat - 0x30 : Nat)).bmod (2 ^ 64))) 0

def decodeModifiers (encoded : Int) : Modifiers :=
  let bits := if encoded > 0 then (encoded - 1).toNat else 0
  { shift := bits.testBit 0, alt := bits.testBit 1, ctrl := bits.testBit 2, super := bits.testBit 3
    hyper := bits.testBit 4, meta_ := bits.testBit 5, capsLock := bits.testBit 6, numLock := bits.testBit 7 }

def decodeEventType (encoded : Int) : EventType :=
  if encoded = 2 then .repeat_ else if encoded = 3 then .release else .press

def parseCodepoint (text : List UInt8) : Option Nat :=
  match parseNumber text with
  | none => none
  | some value =>
      if value < 0 || value > 0x10ffff then none
      else if 0xd800 ≤ value && value ≤ 0xdfff then none
      else some value.toNat

/-- Code points separated by colons; no text at all is none of them. -/
def parseAssociatedText (text : List UInt8) : Option (List UInt8) :=
  if text.isEmpty then some []
  else ((text.splitOn 0x3a).mapM parseCodepoint).map fun cps => cps.flatMap encodeUtf8

def keyFromTilde (number : Nat) : Key :=
  match number with
  | 2 => .insert
  | 3 => .delete
  | 5 => .pageUp
  | 6 => .pageDown
  | 7 => .home
  | 8 => .end_
  | 11 => .f1
  | 12 => .f2
  | 13 => .f3
  | 14 => .f4
  | 15 => .f5
  | 17 => .f6
  | 18 => .f7
  | 19 => .f8
  | 20 => .f9
  | 21 => .f10
  | 23 => .f11
  | 24 => .f12
  | _ => .unknown

def keyFromFinal (command : UInt8) : Key :=
  match command.toNat with
  | 0x41 => .up
  | 0x42 => .down
  | 0x43 => .right
  | 0x44 => .left
  | 0x45 => .begin_
  | 0x46 => .end_
  | 0x48 => .home
  | 0x50 => .f1
  | 0x51 => .f2
  | 0x52 => .f3
  | 0x53 => .f4
  | 0x5a => .tab
  | _ => .unknown

def keyFromCodepoint (cp : Nat) : Key :=
  match cp with
  | 0 => .unknown
  | 9 => .tab
  | 13 => .enter
  | 27 => .escape
  | 127 => .backspace
  | _ => if 0xe000 ≤ cp && cp ≤ 0xf8ff then .unknown else .character

inductive CsiResult where
  | incomplete | parsed | invalid
  deriving DecidableEq

/-- An optional code point; an invalid one gives the event as far as it is. -/
def readCode (part : Option (List UInt8)) (set : Nat → KeyEvent) (event : KeyEvent) : Except KeyEvent KeyEvent :=
  match part with
  | none => .ok event
  | some part =>
      if part.isEmpty then .ok event
      else match parseCodepoint part with
        | none => .error event
        | some cp => .ok (set cp)

/-- The alternate codes of the key. -/
def readAlternates (keyParts : List (List UInt8)) (event : KeyEvent) : Except KeyEvent KeyEvent := do
  let event ← readCode keyParts[1]? (fun cp => { event with shiftedCodepoint := some cp }) event
  readCode keyParts[2]? (fun cp => { event with baseLayoutCodepoint := some cp }) event

def setModifiers (number : Option Int) (event : KeyEvent) : KeyEvent :=
  match number with
  | none => event
  | some mods => { event with mods := decodeModifiers mods }

def readModifiers (params : List (List UInt8)) (event : KeyEvent) : Except KeyEvent KeyEvent :=
  match params[1]? with
  | none => .ok event
  | some param =>
      let parts := param.splitOn 0x3a
      let event := setModifiers (parseNumber (parts.headD [])) event
      match parts[1]? with
      | none => .ok event
      | some part =>
          if part.isEmpty then .ok event
          else match parseNumber part with
            | none => .error event
            | some type => .ok { event with type := decodeEventType type }

/-- The associated text is the first parameter from the third on that is not empty. -/
def readText (params : List (List UInt8)) (event : KeyEvent) : Except KeyEvent KeyEvent :=
  match (params.drop 2).find? (fun part => !part.isEmpty) with
  | none => .ok event
  | some part =>
      match parseAssociatedText part with
      | none => .error event
      | some text => .ok { event with text }

/-- What the final byte makes of it. -/
def readCommand (command : UInt8) (first : Nat) (event : KeyEvent) : KeyEvent :=
  if command = 0x75 then
    let event := { event with codepoint := first, key := keyFromCodepoint first }
    let event := if !event.text.isEmpty && event.key = .unknown then { event with key := .character } else event
    if event.key = .character && event.text.isEmpty then { event with text := encodeUtf8 first } else event
  else if command = 0x7e then { event with key := keyFromTilde first }
  else
    let event := { event with key := keyFromFinal command }
    if command = 0x5a then { event with mods := { event.mods with shift := true } } else event

def readPosition (raw row col : List UInt8) : Except KeyEvent KeyEvent :=
  match parseNumber row, parseNumber col with
  | some row, some col =>
      if row ≤ 0 || col ≤ 0 then .error {}
      else .ok { raw, cursorPosition := some ⟨(col - 1).toNat, (row - 1).toNat⟩ }
  | _, _ => .error {}

def firstCode (keyParts : List (List UInt8)) : Option Nat :=
  if (keyParts.headD []).isEmpty then none else parseCodepoint (keyParts.headD [])

def readKey (raw : List UInt8) (params : List (List UInt8)) (command : UInt8) : Except KeyEvent KeyEvent :=
  let keyParts := (params.headD []).splitOn 0x3a
  let first := firstCode keyParts
  if first.isNone && command ≠ 0x5a then .error {}
  else
    do
      let event ← readAlternates keyParts { raw }
      let event ← readModifiers params event
      let event ← readText params event
      .ok (readCommand command (first.getD 0) event)

/-- `parse_csi`, on a sequence whose final byte is at `end_`. -/
def parseCsi (pending : List UInt8) (end_ : Nat) : CsiResult × KeyEvent :=
  let raw := pending.take (end_ + 1)
  let body := (pending.drop 2).take (end_ - 2)
  let command := pending[end_]?.getD 0
  if body.head? = some 0x3c then (.invalid, {})
  else
    let params := body.splitOn 0x3b
    let result :=
      if command = 0x52 && params.length = 2 then readPosition raw (params.getD 0 []) (params.getD 1 [])
      else readKey raw params command
    match result with
    | .ok event => (.parsed, event)
    | .error event => (.invalid, event)

def parseControl (c : UInt8) : KeyEvent :=
  if c = 0x0d || c = 0x0a then { raw := [c], key := .enter }
  else if c = 0x09 then { raw := [c], key := .tab }
  else if c = 0x08 || c = 0x7f then { raw := [c], key := .backspace }
  else if 1 ≤ c && c ≤ 26 then
    let codepoint := 0x61 + c.toNat - 1
    { raw := [c], key := .character, mods := { ctrl := true }, codepoint, text := encodeUtf8 codepoint }
  else { raw := [c], key := .unknown }

/-- The length that the first byte of a character tells, and its bits. -/
def utf8Lead (first : UInt8) : Option (Nat × Nat) :=
  if first &&& 0x80 = 0 then some (1, first.toNat)
  else if first &&& 0xe0 = 0xc0 then some (2, (first &&& 0x1f).toNat)
  else if first &&& 0xf0 = 0xe0 then some (3, (first &&& 0x0f).toNat)
  else if first &&& 0xf8 = 0xf0 then some (4, (first &&& 0x07).toNat)
  else none

/-- `parse_utf8`, with the number of bytes it erases. -/
def parseUtf8 (pending : List UInt8) : Option (KeyEvent × Nat) :=
  match utf8Lead (pending.headD 0) with
  | none => some ({ raw := pending.take 1 }, 1)
  | some (len, lead) =>
      if pending.length < len then none
      else
        let rest := (pending.take len).drop 1
        if rest.any fun c => c &&& 0xc0 ≠ 0x80 then some ({ raw := pending.take 1 }, 1)
        else
          let codepoint := rest.foldl (fun cp c => cp <<< 6 ||| (c &&& 0x3f).toNat) lead
          some ({ key := .character, codepoint, text := pending.take len, raw := pending.take len }, len)

def csiEnd (pending : List UInt8) : Option Nat :=
  ((pending.drop 2).findIdx? fun b => 0x40 ≤ b && b ≤ 0x7e).map (· + 2)

/-- One turn of the loop of `feed`: an event and the bytes it erases, or a wait for more. -/
def nextEvent (pending : List UInt8) : Option (KeyEvent × Nat) :=
  match pending with
  | [] => none
  | c :: rest =>
      if c = 0x1b then
        match rest.head? with
        | none => none
        | some second =>
            if second = 0x5b then
              match csiEnd pending with
              | none => none
              | some end_ =>
                  match parseCsi pending end_ with
                  | (.parsed, event) => some (event, end_ + 1)
                  | (.invalid, event) =>
                      some ({ event with key := .unknown, raw := pending.take (end_ + 1) }, end_ + 1)
                  | (.incomplete, event) => some ({ event with key := .escape, raw := pending.take 1 }, 1)
            else some ({ key := .escape, raw := pending.take 1 }, 1)
      else if c < 0x20 || c = 0x7f then some (parseControl c, 1)
      else parseUtf8 pending

section Raw
variable {event result : KeyEvent} {raw : List UInt8}

/-- The event as far as it was read. -/
def outcome : Except KeyEvent KeyEvent → KeyEvent
  | .ok event => event
  | .error event => event

/-- A relation that goes on while the codes, the modifiers and the type are set. -/
structure Carried (R : KeyEvent → KeyEvent → Prop) : Prop where
  refl : ∀ event, R event event
  trans : ∀ {a b c}, R a b → R b c → R a c
  shifted : ∀ event cp, R event { event with shiftedCodepoint := some cp }
  base : ∀ event cp, R event { event with baseLayoutCodepoint := some cp }
  mods : ∀ event mods, R event { event with mods }
  type : ∀ event type, R event { event with type }

namespace Carried
variable {R : KeyEvent → KeyEvent → Prop} (carried : Carried R)
include carried

theorem bind {x : Except KeyEvent KeyEvent} {f : KeyEvent → Except KeyEvent KeyEvent}
    (first : R event (outcome x)) (rest : ∀ middle, R middle (outcome (f middle))) : R event (outcome (x >>= f)) := by
  cases x with
  | error e => exact first
  | ok middle => exact carried.trans first (rest middle)

theorem readCode {part : Option (List UInt8)} {set : Nat → KeyEvent} (keeps : ∀ cp, R event (set cp)) :
    R event (outcome (readCode part set event)) := by
  unfold Input.readCode
  split
  · exact carried.refl event
  · split
    · exact carried.refl event
    · split
      · exact carried.refl event
      · exact keeps _

theorem readAlternates (keyParts : List (List UInt8)) (event : KeyEvent) :
    R event (outcome (readAlternates keyParts event)) :=
  carried.bind (carried.readCode (carried.shifted event)) fun middle => carried.readCode (carried.base middle)

theorem setModifiers (number : Option Int) (event : KeyEvent) : R event (setModifiers number event) := by
  cases number with
  | none => exact carried.refl event
  | some mods => exact carried.mods event _

theorem readModifiers (params : List (List UInt8)) (event : KeyEvent) :
    R event (outcome (readModifiers params event)) := by
  unfold Input.readModifiers
  split
  · exact carried.refl event
  · dsimp only
    split
    · exact carried.setModifiers _ event
    · split
      · exact carried.setModifiers _ event
      · split
        · exact carried.setModifiers _ event
        · exact carried.trans (carried.setModifiers _ event) (carried.type _ _)

end Carried

def Bare (event result : KeyEvent) : Prop :=
  result.raw = event.raw ∧ result.cursorPosition = event.cursorPosition

theorem bare_carried : Carried Bare where
  refl _ := ⟨rfl, rfl⟩
  trans first second := ⟨second.1.trans first.1, second.2.trans first.2⟩
  shifted _ _ := ⟨rfl, rfl⟩
  base _ _ := ⟨rfl, rfl⟩
  mods _ _ := ⟨rfl, rfl⟩
  type _ _ := ⟨rfl, rfl⟩

theorem readText_bare (params : List (List UInt8)) (event : KeyEvent) :
    Bare event (outcome (readText params event)) := by
  unfold readText
  split
  · exact bare_carried.refl event
  · split
    · exact bare_carried.refl event
    · exact ⟨rfl, rfl⟩

theorem readCommand_bare (command : UInt8) (first : Nat) (event : KeyEvent) :
    Bare event (readCommand command first event) := by
  unfold readCommand
  dsimp only
  split
  · split
    · split <;> exact ⟨rfl, rfl⟩
    · split <;> exact ⟨rfl, rfl⟩
  · split
    · exact ⟨rfl, rfl⟩
    · split <;> exact ⟨rfl, rfl⟩

theorem readKey_bare (raw : List UInt8) (params : List (List UInt8)) (command : UInt8) :
    readKey raw params command = .error {} ∨ Bare { raw } (outcome (readKey raw params command)) := by
  unfold readKey
  dsimp only
  split
  · exact .inl rfl
  · refine .inr (bare_carried.bind (bare_carried.readAlternates _ _) fun one => ?_)
    refine bare_carried.bind (bare_carried.readModifiers _ _) fun two => ?_
    exact bare_carried.bind (readText_bare _ _) fun three => readCommand_bare _ _ three

theorem readKey_raw {params : List (List UInt8)} {command : UInt8} (read : readKey raw params command = .ok result) :
    result.raw = raw := by
  rcases readKey_bare raw params command with refused | bare
  · rw [read] at refused
    cases refused
  · rw [read] at bare
    exact bare.1

theorem readKey_position (raw : List UInt8) (params : List (List UInt8)) (command : UInt8) :
    (outcome (readKey raw params command)).cursorPosition = none := by
  rcases readKey_bare raw params command with refused | bare
  · rw [refused]
    rfl
  · exact bare.2

theorem readPosition_raw {row col : List UInt8} (read : readPosition raw row col = .ok result) : result.raw = raw := by
  unfold readPosition at read
  split at read
  · split at read
    · cases read
    · cases read
      rfl
  · cases read

theorem parseCsi_raw {pending : List UInt8} {end_ : Nat} (parsed : parseCsi pending end_ = (.parsed, event)) :
    event.raw = pending.take (end_ + 1) := by
  unfold parseCsi at parsed
  dsimp only at parsed
  split at parsed
  · cases parsed
  · split at parsed
    · rename_i result read
      cases parsed
      split at read
      · exact readPosition_raw read
      · exact readKey_raw read
    · cases parsed

theorem parseControl_raw (c : UInt8) : (parseControl c).raw = [c] := by
  unfold parseControl
  repeat' split
  all_goals rfl

end Raw

section Stable
variable {pending : List UInt8} {event : KeyEvent} {n : Nat}

theorem parseCsi_append {end_ : Nat} (inside : end_ < pending.length) (more : List UInt8) :
    parseCsi (pending ++ more) end_ = parseCsi pending end_ := by
  have raw : (pending ++ more).take (end_ + 1) = pending.take (end_ + 1) :=
    take_append_of_le_length (by omega)
  have body : ((pending ++ more).drop 2).take (end_ - 2) = (pending.drop 2).take (end_ - 2) := by
    by_cases short : end_ ≤ 2
    · rw [Nat.sub_eq_zero_of_le short, take_zero, take_zero]
    · rw [drop_append_of_le_length (by omega), take_append_of_le_length]
      rw [length_drop]
      omega
  have command : (pending ++ more)[end_]? = pending[end_]? := getElem?_append_left inside
  unfold parseCsi
  rw [raw, body, command]

theorem csiEnd_append {end_ : Nat} (found : csiEnd pending = some end_) (more : List UInt8) :
    csiEnd (pending ++ more) = some end_ ∧ 2 ≤ end_ ∧ end_ < pending.length := by
  unfold csiEnd at found ⊢
  obtain ⟨i, at_, rfl⟩ := Option.map_eq_some_iff.mp found
  obtain ⟨inside, -⟩ := findIdx?_eq_some_iff_getElem.mp at_
  rw [length_drop] at inside
  refine ⟨?_, by omega, by omega⟩
  rw [drop_append_of_le_length (by omega), findIdx?_append, at_]
  rfl

theorem parseUtf8_progress (some_ : pending ≠ []) (found : parseUtf8 pending = some (event, n)) :
    0 < n ∧ n ≤ pending.length ∧ event.raw = pending.take n := by
  have one : 0 < pending.length := length_pos_iff.mpr some_
  unfold parseUtf8 at found
  split at found
  · cases found
    exact ⟨by omega, one, rfl⟩
  · rename_i len lead told
    have positive : 0 < len := by
      unfold utf8Lead at told
      repeat' split at told
      all_goals cases told <;> omega
    split at found
    · cases found
    · dsimp only at found
      split at found
      · cases found
        exact ⟨by omega, one, rfl⟩
      · cases found
        exact ⟨positive, by omega, rfl⟩

theorem parseUtf8_append (some_ : pending ≠ []) (found : parseUtf8 pending = some (event, n)) (more : List UInt8) :
    parseUtf8 (pending ++ more) = some (event, n) := by
  have one : 0 < pending.length := length_pos_iff.mpr some_
  have head : (pending ++ more).headD 0 = pending.headD 0 := by
    cases pending with
    | nil => exact absurd rfl some_
    | cons c rest => rfl
  have first : (pending ++ more).take 1 = pending.take 1 := take_append_of_le_length one
  unfold parseUtf8 at found ⊢
  rw [head, first]
  split at found
  · exact found
  · rename_i len lead told
    split at found
    · cases found
    · rename_i enough
      rw [if_neg (by rw [length_append]; omega), take_append_of_le_length (by omega)]
      exact found

theorem nextEvent_progress (found : nextEvent pending = some (event, n)) :
    0 < n ∧ n ≤ pending.length ∧ event.raw = pending.take n := by
  cases pending with
  | nil => cases found
  | cons c rest =>
    simp only [nextEvent] at found
    split at found
    · split at found
      · cases found
      · split at found
        · split at found
          · cases found
          · rename_i end_ at_
            obtain ⟨-, -, inside⟩ := csiEnd_append at_ []
            split at found
            · rename_i result parsed
              cases found
              exact ⟨by omega, inside, parseCsi_raw parsed⟩
            · cases found
              exact ⟨by omega, inside, rfl⟩
            · cases found
              exact ⟨by omega, by simp, rfl⟩
        · cases found
          exact ⟨by omega, by simp, rfl⟩
    · split at found
      · cases found
        exact ⟨by omega, by simp, parseControl_raw c⟩
      · exact parseUtf8_progress (by simp) found

theorem nextEvent_append (found : nextEvent pending = some (event, n)) (more : List UInt8) :
    nextEvent (pending ++ more) = some (event, n) := by
  cases pending with
  | nil => cases found
  | cons c rest =>
    have first : ((c :: rest) ++ more).take 1 = (c :: rest).take 1 := rfl
    simp only [nextEvent, cons_append] at found ⊢
    split at found
    · rename_i escape
      rw [if_pos escape]
      cases rest with
      | nil => cases found
      | cons second tail =>
        simp only [head?_cons, cons_append] at found ⊢
        split at found
        · rename_i bracket
          rw [if_pos bracket]
          split at found
          · cases found
          · rename_i end_ at_
            obtain ⟨still, two, inside⟩ := csiEnd_append at_ more
            rw [cons_append, cons_append] at still
            have same := parseCsi_append inside more
            rw [cons_append, cons_append] at same
            have raw : (c :: second :: (tail ++ more)).take (end_ + 1) = (c :: second :: tail).take (end_ + 1) := by
              rw [← cons_append, ← cons_append]
              exact take_append_of_le_length inside
            simp only [still, same]
            rw [raw]
            exact found
        · rename_i other
          rw [if_neg other]
          exact found
    · rename_i plain
      rw [if_neg plain]
      split at found
      · rename_i control
        rw [if_pos control]
        exact found
      · rename_i text
        rw [if_neg text]
        exact parseUtf8_append (by simp) found more

end Stable

def keyDecoder : Decoder UInt8 KeyEvent where
  next := nextEvent
  progress found := ⟨(nextEvent_progress found).1, (nextEvent_progress found).2.1⟩
  stable more found := nextEvent_append found more

structure Parser where
  pending : List UInt8 := []
  deriving DecidableEq

namespace Parser

def feed (p : Parser) (bytes : List UInt8) : List KeyEvent × Parser :=
  let drained := keyDecoder.drain (p.pending ++ bytes)
  (drained.1, ⟨drained.2⟩)

def flushByte (c : UInt8) : KeyEvent :=
  if c = 0x1b then { key := .escape, raw := [c] }
  else if c < 0x20 || c = 0x7f then parseControl c
  else { key := .unknown, raw := [c] }

def flush (p : Parser) : List KeyEvent × Parser := (p.pending.map flushByte, ⟨[]⟩)

def call (p : Parser) : Option (List UInt8) → List KeyEvent × Parser
  | some bytes => p.feed bytes
  | none => p.flush

def calls (p : Parser) : List (Option (List UInt8)) → List KeyEvent × Parser
  | [] => ([], p)
  | c :: rest =>
      let first := p.call c
      let after := first.2.calls rest
      (first.1 ++ after.1, after.2)

theorem flushByte_raw (c : UInt8) : (flushByte c).raw = [c] := by
  unfold flushByte
  split
  · rfl
  · split
    · exact parseControl_raw c
    · rfl

theorem feed_append (p : Parser) (bytes more : List UInt8) :
    p.feed (bytes ++ more) = ((p.feed bytes).1 ++ ((p.feed bytes).2.feed more).1, ((p.feed bytes).2.feed more).2) := by
  unfold feed
  dsimp only
  rw [← append_assoc, keyDecoder.drain_append]

theorem call_covers (p : Parser) (c : Option (List UInt8)) :
    (p.call c).1.flatMap KeyEvent.raw ++ (p.call c).2.pending = p.pending ++ c.getD [] := by
  cases c with
  | some bytes => exact keyDecoder.drain_covers KeyEvent.raw (fun found => (nextEvent_progress found).2.2) _
  | none =>
    show (p.pending.map flushByte).flatMap KeyEvent.raw ++ [] = p.pending ++ []
    have each : ∀ bytes : List UInt8, (bytes.map flushByte).flatMap KeyEvent.raw = bytes := by
      intro bytes
      induction bytes with
      | nil => rfl
      | cons c rest ih => rw [map_cons, flatMap_cons, flushByte_raw, ih, singleton_append]
    rw [each]

theorem calls_covers (p : Parser) (all : List (Option (List UInt8))) :
    (p.calls all).1.flatMap KeyEvent.raw ++ (p.calls all).2.pending = p.pending ++ all.flatMap (·.getD []) := by
  induction all generalizing p with
  | nil => simp [calls]
  | cons c rest ih =>
    have first := call_covers p c
    have after := ih (p.call c).2
    simp only [calls, flatMap_append, append_assoc, flatMap_cons]
    rw [after, ← append_assoc, first, append_assoc]

theorem calls_concat (p : Parser) (all : List (Option (List UInt8))) (c : Option (List UInt8)) :
    (p.calls (all ++ [c])).2 = ((p.calls all).2.call c).2 := by
  induction all generalizing p with
  | nil => rfl
  | cons d rest ih => exact ih (p.call d).2

theorem calls_pieces (pieces : List (List UInt8)) (p : Parser) (waits : nextEvent p.pending = none) :
    p.calls (pieces.map some) = p.feed pieces.flatten := by
  induction pieces generalizing p with
  | nil =>
    have stays : keyDecoder.drain p.pending = ([], p.pending) := keyDecoder.drain_none waits
    show ([], p) = p.feed []
    unfold feed
    rw [append_nil, stays]
  | cons piece rest ih =>
    have still : nextEvent (p.feed piece).2.pending = none := keyDecoder.drain_waits _
    show ((p.feed piece).1 ++ ((p.feed piece).2.calls (rest.map some)).1,
      ((p.feed piece).2.calls (rest.map some)).2) = p.feed (piece ++ rest.flatten)
    rw [feed_append, ih _ still]

def turns (p : Parser) : List (Option (List UInt8)) → List (List UInt8)
  | [] => []
  | c :: rest =>
      (match c with
        | some bytes => keyDecoder.turns (p.pending ++ bytes)
        | none => []) ++ (p.call c).2.turns rest

theorem calls_turns {P : KeyEvent → Prop} (flushed : ∀ c, P (flushByte c)) (p : Parser)
    (all : List (Option (List UInt8))) : (∀ event ∈ (p.calls all).1, P event) ↔
      ∀ front ∈ p.turns all, ∀ event n, nextEvent front = some (event, n) → P event := by
  induction all generalizing p with
  | nil => simp [calls, turns]
  | cons c rest ih =>
    simp only [calls, turns, forall_mem_append]
    refine and_congr ?_ (ih (p.call c).2)
    cases c with
    | some bytes => exact keyDecoder.drain_turns (p.pending ++ bytes)
    | none =>
      constructor
      · intro _ front inside
        cases inside
      · intro _ event inside
        obtain ⟨b, -, rfl⟩ := mem_map.mp inside
        exact flushed b

theorem turns_event {p : Parser} {all : List (Option (List UInt8))} {front : List UInt8}
    (inside : front ∈ p.turns all) : ∃ event n, nextEvent front = some (event, n) := by
  induction all generalizing p with
  | nil => cases inside
  | cons c rest ih =>
    rcases mem_append.mp inside with here | later
    · cases c with
      | some bytes => exact keyDecoder.turns_found here
      | none => cases here
    · exact ih later

theorem keyboard_chunking (pieces : List (List UInt8)) (all : List (Option (List UInt8))) :
    ({} : Parser).calls (pieces.map some) = ({} : Parser).feed pieces.flatten ∧
      (({} : Parser).calls (all ++ [none])).1.flatMap KeyEvent.raw = all.flatMap (·.getD []) := by
  refine ⟨calls_pieces pieces {} rfl, ?_⟩
  have covers := calls_covers {} (all ++ [none])
  have empty : (({} : Parser).calls (all ++ [none])).2.pending = [] := by
    rw [calls_concat]
    rfl
  rw [empty, append_nil] at covers
  rw [covers]
  simp

end Parser

end Nxt.Ui.Input
