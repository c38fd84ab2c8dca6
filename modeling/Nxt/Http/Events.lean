import Nxt.Mt.Abridged

/- The two parsers of server-sent events: `parse_sse_event`, which takes lines from a byte feed
   (nxtrt/http.hpp), and `server_sent_event_parser`, which is fed characters (nxt/http.hpp). -/
namespace Nxt.Http
open Nxt.Lib List
open Nxt.Mt (Feed)

def octets (s : String) : Bytes := s.toList.map fun c => c.toNat.toUInt8

def message : Bytes := octets "message"

structure ServerSentEvent where
  type : Bytes := message
  data : Bytes := []
  id : Bytes := []
  retryMs : Option Int := none
  deriving DecidableEq

inductive SseError where
  | bufferFilled
  | protocol (text : String)
  deriving DecidableEq

/-- The field before the first colon, and the value after it but for one space. -/
def fieldAndValue (text : Bytes) : Bytes × Bytes :=
  let value := (text.dropWhile (· ≠ 0x3a)).drop 1
  (text.takeWhile (· ≠ 0x3a), if value.head? = some 0x20 then value.drop 1 else value)

def decimal (digits : Bytes) : Option Nat :=
  if digits ≠ [] ∧ digits.all (fun c => 0x30 ≤ c && c ≤ 0x39) then
    some (digits.foldl (fun n c => n * 10 + (c.toNat - 0x30)) 0)
  else none

/-- `from_chars` of an `int` that takes the whole value. -/
def wholeInt (value : Bytes) : Option Int :=
  if value.head? = some 0x2d then
    (decimal (value.drop 1)).bind fun n => if n ≤ 2 ^ 31 then some (-n) else none
  else (decimal value).bind fun n => if n < 2 ^ 31 then some n else none

/-- A final newline is taken off. -/
def chomp (data : Bytes) : Bytes := if data.getLast? = some 0x0a then data.dropLast else data

/-! ### Lines taken from a feed -/

inductive FeedError where
  | bufferFilled
  | endOfStream
  deriving DecidableEq

/-- The loop of `take_until_slow` for a delimiter of one byte. A refill reads what there is room
    for of the next piece; a buffer never holds more than its capacity. -/
def untilFrom (delimiter : UInt8) (capacity : Nat) (buffered : Bytes) (pieces : List Bytes) :
    Except FeedError Bytes × Bytes × List Bytes :=
  if delimiter ∈ buffered then
    (.ok (buffered.takeWhile (· ≠ delimiter)), (buffered.dropWhile (· ≠ delimiter)).drop 1, pieces)
  else if _full : capacity ≤ buffered.length then (.error .bufferFilled, buffered, pieces)
  else match pieces with
    | [] => (.error .endOfStream, buffered, [])
    | piece :: pieces =>
        let room := capacity - buffered.length
        untilFrom delimiter capacity (buffered ++ piece.take room)
          (if piece.length ≤ room then pieces else piece.drop room :: pieces)
  termination_by pieces.flatten.length + pieces.length
  decreasing_by
    split
    · simp only [flatten_cons, length_append, length_cons]
      omega
    · simp only [flatten_cons, length_append, length_cons, length_drop]
      omega

/-- `take_until`: what is before the delimiter, which is consumed too. -/
def takeUntil (delimiter : UInt8) (f : Feed) : Except FeedError Bytes × Feed :=
  let (taken, buffered, pieces) := untilFrom delimiter f.capacity f.buffered f.pieces
  (taken, { f with buffered, pieces })

theorem cut_at {d : UInt8} {xs : Bytes} (found : d ∈ xs) :
    xs = xs.takeWhile (· ≠ d) ++ d :: (xs.dropWhile (· ≠ d)).drop 1 := by
  induction xs with
  | nil => cases found
  | cons x xs ih =>
    by_cases same : x = d
    · simp [same]
    · have later : d ∈ xs := by
        rcases mem_cons.mp found with here | later
        · exact absurd here.symm same
        · exact later
      simp only [takeWhile_cons, dropWhile_cons, same, ne_eq, not_false_eq_true,
        decide_true, if_true, cons_append]
      exact congrArg (x :: ·) (ih later)

def consumed (delimiter : UInt8) : Except FeedError Bytes → Bytes
  | .ok taken => taken ++ [delimiter]
  | .error _ => []

theorem untilFrom_rest (delimiter : UInt8) (capacity : Nat) (buffered : Bytes) (pieces : List Bytes) :
    buffered ++ pieces.flatten = consumed delimiter (untilFrom delimiter capacity buffered pieces).1 ++
      ((untilFrom delimiter capacity buffered pieces).2.1 ++
        (untilFrom delimiter capacity buffered pieces).2.2.flatten) := by
  fun_induction untilFrom delimiter capacity buffered pieces with
  | case1 buffered pieces found =>
    have whole := congrArg (· ++ pieces.flatten) (cut_at found)
    simpa [consumed] using whole
  | case2 => rfl
  | case3 => rfl
  | case4 buffered missing room piece pieces room' ih =>
    simp only [dite_eq_ite] at ih
    rw [← ih, append_assoc, flatten_cons]
    split
    · rename_i whole
      rw [take_of_length_le whole]
    · rw [flatten_cons, ← append_assoc (piece.take room'), take_append_drop]

theorem takeUntil_ok {d : UInt8} {f f' : Feed} {raw : Bytes} (taken : takeUntil d f = (.ok raw, f')) :
    f.rest = raw ++ d :: f'.rest := by
  have rest := untilFrom_rest d f.capacity f.buffered f.pieces
  simp only [takeUntil, Prod.mk.injEq] at taken
  obtain ⟨first, rfl⟩ := taken
  rw [first, consumed, append_assoc] at rest
  exact rest

theorem takeUntil_error {d : UInt8} {f f' : Feed} {e : FeedError}
    (failed : takeUntil d f = (.error e, f')) : f'.rest = f.rest := by
  have rest := untilFrom_rest d f.capacity f.buffered f.pieces
  simp only [takeUntil, Prod.mk.injEq] at failed
  obtain ⟨first, rfl⟩ := failed
  rw [first] at rest
  exact rest.symm

/-! ### The pulling parser -/

/-- What `parse_sse_event` keeps from line to line. -/
structure Pulled where
  event : ServerSentEvent := {}
  haveData : Bool := false
  haveFields : Bool := false
  deriving DecidableEq

def Pulled.field (s : Pulled) (text : Bytes) : Pulled :=
  let s := { s with haveFields := true }
  if text.head? = some 0x3a then s
  else
    let (field, value) := fieldAndValue text
    if field = octets "data" then
      { s with event.data := s.event.data ++ value ++ [0x0a], haveData := true }
    else if field = octets "event" then
      { s with event.type := if value = [] then message else value }
    else if field = octets "id" then
      if 0 ∈ value then s else { s with event.id := value }
    else if field = octets "retry" then
      match wholeInt value with
      | some retry => { s with event.retryMs := some retry }
      | none => s
    else s

def Pulled.finished (s : Pulled) : ServerSentEvent := { s.event with data := chomp s.event.data }

def trimmed (raw : Bytes) : Bytes := if raw.getLast? = some 0x0d then raw.dropLast else raw

/-- `parse_sse_event`: the next event, or none at a clean end. -/
def parseSseEvent (s : Pulled) (f : Feed) : Except SseError (Option ServerSentEvent) × Feed :=
  match _taken : takeUntil 0x0a f with
  | (.error .endOfStream, f') =>
      if s.haveData then (.ok (some s.finished), f')
      else if s.haveFields then (.error (.protocol "unterminated server-sent event"), f')
      else (.ok none, f')
  | (.error .bufferFilled, f') => (.error .bufferFilled, f')
  | (.ok raw, f') =>
      if trimmed raw = [] then
        if s.haveData then (.ok (some s.finished), f')
        else parseSseEvent { s with haveFields := false } f'
      else parseSseEvent (s.field (trimmed raw)) f'
  termination_by f.rest.length
  decreasing_by all_goals
    have rest := congrArg List.length (takeUntil_ok _taken)
    rw [length_append, length_cons] at rest
    omega

theorem parseSseEvent_shorter (s : Pulled) (f : Feed) {event : ServerSentEvent} {f' : Feed}
    (parsed : parseSseEvent s f = (.ok (some event), f')) :
    f'.rest.length < f.rest.length ∨ (s.haveData = true ∧ f'.rest.length ≤ f.rest.length) := by
  fun_induction parseSseEvent s f with
  | case1 s f left taken some_data =>
    cases parsed
    exact Or.inr ⟨some_data, (congrArg List.length (takeUntil_error taken)).le⟩
  | case2 => cases parsed
  | case3 => cases parsed
  | case4 => cases parsed
  | case5 s f raw left taken empty some_data =>
    cases parsed
    have rest := congrArg List.length (takeUntil_ok taken)
    rw [length_append, length_cons] at rest
    exact Or.inl (by omega)
  | case6 s f raw left taken empty no_data ih =>
    have rest := congrArg List.length (takeUntil_ok taken)
    rw [length_append, length_cons] at rest
    have later := ih parsed
    exact Or.inl (by omega)
  | case7 s f raw left taken some_text ih =>
    have rest := congrArg List.length (takeUntil_ok taken)
    rw [length_append, length_cons] at rest
    have later := ih parsed
    exact Or.inl (by omega)

def sseEvents (f : Feed) : Except SseError (List ServerSentEvent) :=
  match _parsed : parseSseEvent {} f with
  | (.error e, _) => .error e
  | (.ok none, _) => .ok []
  | (.ok (some event), f') => (sseEvents f').map (event :: ·)
  termination_by f.rest.length
  decreasing_by
    have shorter := parseSseEvent_shorter {} f _parsed
    simpa using shorter

/-! ### The pushing parser -/

structure Parser where
  line : Bytes := []
  previousWasCr : Bool := false
  pending : ServerSentEvent := {}
  pendingHasId : Bool := false
  lastId : Bytes := []
  deriving DecidableEq

namespace Parser

def dispatch (p : Parser) : Parser × List ServerSentEvent :=
  let lastId := if p.pendingHasId then p.pending.id else p.lastId
  let events :=
    if p.pending.data = [] then []
    else [{ p.pending with
      data := chomp p.pending.data
      id := if p.pendingHasId then p.pending.id else lastId }]
  ({ p with lastId, pending := {}, pendingHasId := false }, events)

def processLine (p : Parser) : Parser × List ServerSentEvent :=
  if p.line = [] then p.dispatch
  else if p.line.head? = some 0x3a then (p, [])
  else
    let (field, value) := fieldAndValue p.line
    if field = octets "data" then
      ({ p with pending.data := p.pending.data ++ value ++ [0x0a] }, [])
    else if field = octets "event" then
      ({ p with pending.type := if value = [] then message else value }, [])
    else if field = octets "id" then
      if 0 ∈ value then (p, []) else ({ p with pending.id := value, pendingHasId := true }, [])
    else if field = octets "retry" then
      match wholeInt value with
      | some retry => ({ p with pending.retryMs := some retry }, [])
      | none => (p, [])
    else (p, [])

def endLine (p : Parser) : Parser × List ServerSentEvent :=
  let (p, events) := p.processLine
  ({ p with line := [] }, events)

def character (p : Parser) (c : UInt8) : Parser × List ServerSentEvent :=
  if c = 0x0d then
    let (p, events) := p.endLine
    ({ p with previousWasCr := true }, events)
  else if c = 0x0a then
    if p.previousWasCr then ({ p with previousWasCr := false }, [])
    else p.endLine
  else ({ p with previousWasCr := false, line := p.line ++ [c] }, [])

def feed (p : Parser) : Bytes → Parser × List ServerSentEvent
  | [] => (p, [])
  | c :: body =>
      let (p, events) := p.character c
      let (p, more) := feed p body
      (p, events ++ more)

end Parser

end Nxt.Http
