import Nxt.Lib.Segments
import Nxt.Tls.Flight

/- The session after the handshake (nxtrt/tls.cpp): the records that are read, and the stream of
   application data made of them. -/
namespace Nxt.Tls
open Nxt.Lib

section Transport

/-- `read_exact` over the segments the transport hands out. -/
def readExact (n : Nat) (segments : List Bytes) : Except String (Bytes × List Bytes) :=
  match gather n segments with
  | none => .error "unexpected end of TLS input"
  | some taken => .ok taken

def readRecordIntoStorage (segments : List Bytes) : Except String (Record × List Bytes) := do
  let (header, segments) ← readExact 5 segments
  let (payload, segments) ← readExact (beValue ((header.drop 3).take 2)) segments
  return ({ type := beValue (header.take 1), version := beValue ((header.drop 1).take 2), payload }, segments)

end Transport

inductive EventKind where
  | changeCipherSpec
  | alert
  | handshake
  | applicationData
  | unknown
  deriving DecidableEq

def eventKindFromContentType (type : Nat) : EventKind :=
  if type = 20 then .changeCipherSpec
  else if type = 21 then .alert
  else if type = 22 then .handshake
  else if type = 23 then .applicationData
  else .unknown

structure Event where
  kind : EventKind
  contentType : Nat
  content : Bytes
  deriving DecidableEq

structure Session where
  keys : ApplicationKeys
  /-- The bytes of a handshake message that is not complete. -/
  postHandshake : Bytes := []
  closeNotifyReceived : Bool := false
  pending : Bytes := []
  pendingOffset : Nat := 0
  deriving DecidableEq

def keyUpdate (requested : UInt8) : Bytes := [24, 0, 0, 1, requested]

section Messages
variable (p : Primitives)

structure Processed where
  keys : ApplicationKeys
  rest : Bytes
  /-- The sealed reply, if the loop is suspended in the write of it. -/
  reply : Option Bytes := none
  updated : Bool := false
  deriving DecidableEq

/-- The loop over complete messages, up to the first reply; each message has at least four bytes. -/
def processMessages : Nat → Processed → Except String Processed
  | 0, s => .ok s
  | fuel + 1, s =>
      if s.rest.length < 4 then .ok s
      else do
        require (messageSize s.rest ≤ maxFlightSize) "post-handshake message is too large"
        if s.rest.length < messageSize s.rest then return s
        else if s.rest.getD 0 0 ≠ 24 then
          processMessages fuel { s with rest := s.rest.drop (messageSize s.rest) }
        else
          require (messageSize s.rest = 5 && s.rest.length = 5 && (s.rest.getD 4 0 = 0 || s.rest.getD 4 0 = 1))
            "invalid TLS KeyUpdate"
          let server := updateKeys p s.keys.server
          if s.rest.getD 4 0 = 1 then
            -- the client's keys change when the reply has been written
            let (reply, client) ← sealRecord p s.keys.client 22 (keyUpdate 0)
            return { keys := { server, client }, rest := s.rest.drop (messageSize s.rest), reply := some reply, updated := true }
          else
            processMessages fuel
              { s with keys := { s.keys with server }, rest := s.rest.drop (messageSize s.rest), updated := true }

/-- What one record of `next_event` gives: the session after it, the reply that is to be written before the loop
    goes on, and the event, if the loop does not go on. -/
structure Turn where
  session : Session
  reply : Option Bytes := none
  event : Option Event := none
  deriving DecidableEq

/-- The body of the loop of `next_event`. -/
def nextEventTurn (s : Session) (record : Record) : Except String Turn :=
  if record.type = 20 then
    .ok { session := s, event := some { kind := .changeCipherSpec, contentType := record.type, content := record.payload } }
  else do
    let (plaintext, server) ← openRecord p s.keys.server record
    let s := { s with keys := { s.keys with server } }
    require (s.postHandshake.isEmpty || plaintext.innerType = 22) "interleaved post-handshake message"
    let event : Event :=
      { kind := eventKindFromContentType plaintext.innerType, contentType := plaintext.innerType, content := plaintext.content }
    if plaintext.innerType = 21 then
      require (plaintext.content.length = 2 && plaintext.content.getD 1 0 = 0) "received TLS alert"
      return { session := { s with closeNotifyReceived := true }, event := some { event with kind := .alert } }
    else if plaintext.innerType = 22 then
      require (!plaintext.content.isEmpty && plaintext.content.length ≤ maxFlightSize - s.postHandshake.length)
        "invalid post-handshake message size"
      let buffer := s.postHandshake ++ plaintext.content
      let done ← processMessages p buffer.length { keys := s.keys, rest := buffer }
      if done.reply.isSome then
        return { session := { s with keys := done.keys, postHandshake := buffer }, reply := done.reply }
      else
        let s := { s with keys := done.keys, postHandshake := done.rest }
        if done.updated || !done.rest.isEmpty then return { session := s }
        else return { session := s, event := some event }
    else return { session := s, event := some event }

/-- `next_event` goes on when its reply has been written: nothing follows a KeyUpdate in the buffer, and it waits
    for the next record. -/
def Session.replied (s : Session) : Session :=
  { s with keys := { s.keys with client := updateKeys p s.keys.client }, postHandshake := [] }

end Messages

section Stream
variable (p : Primitives)

inductive Fare where
  | count (n : Nat)
  | eof
  deriving DecidableEq

/-- A call of `stream_more`: how much it may give, and the room of the sink. -/
structure Call where
  limit : Nat
  room : Nat
  deriving DecidableEq

/-- What a call has come to: an answer and the bytes given to the sink, or it waits for a record. -/
inductive Reading where
  | answered (fare : Fare) (given : Bytes)
  | waiting
  deriving DecidableEq

/-- A sink without room makes some. -/
def copyPending (s : Session) (call : Call) : Session × Reading :=
  let pending := s.pending.drop s.pendingOffset
  let n := min call.limit pending.length
  let n := if call.room ≠ 0 then min n call.room else n
  ({ s with pendingOffset := s.pendingOffset + n }, .answered (.count n) (pending.take n))

/-- `stream_more`, up to the first record it has to wait for. -/
def streamMore (s : Session) (call : Call) : Session × Reading :=
  if call.limit = 0 then (s, .answered (.count 0) [])
  else if s.pendingOffset < s.pending.length then copyPending s call
  else
    let s := { s with pending := [], pendingOffset := 0 }
    if s.closeNotifyReceived then (s, .answered .eof []) else (s, .waiting)

/-- `stream_more_task` goes on with an event. -/
def streamEvent (s : Session) (call : Call) (event : Event) : Session × Reading :=
  match event.kind with
  | .alert => (s, .answered .eof [])
  | .applicationData => copyPending { s with pending := event.content } call
  | _ => (s, .waiting)

def streamTurn (s : Session) (call : Call) (record : Record) : Except String (Session × Reading × Option Bytes) := do
  let turn ← nextEventTurn p s record
  match turn.event with
  | none => return (turn.session, .waiting, turn.reply)
  | some event =>
      let (s, reading) := streamEvent turn.session call event
      return (s, reading, turn.reply)

end Stream

/-- `write_all`, up to the write of the first record. -/
def writeRecord (p : Primitives) (s : Session) (bytes : Bytes) : Except String (Session × Bytes × Bytes) := do
  let count := min bytes.length 16384
  let (record, client) ← sealRecord p s.keys.client 23 (bytes.take count)
  return ({ s with keys := { s.keys with client } }, record, bytes.drop count)

section Segments

theorem readExact_ok {n : Nat} {segments rest : List Bytes} {bytes : Bytes}
    (done : readExact n segments = .ok (bytes, rest)) : gather n segments = some (bytes, rest) := by
  unfold readExact at done
  split at done
  · cases done
  · rename_i taken found
    cases done
    exact found

theorem readExact_append {segments : List Bytes} {front more : Bytes} (same : segments.flatten = front ++ more) :
    ∃ rest, readExact front.length segments = .ok (front, rest) ∧ rest.flatten = more := by
  obtain ⟨rest, done, left⟩ := gather_append same
  exact ⟨rest, by rw [readExact, done], left⟩

theorem readRecordIntoStorage_some {segments rest : List Bytes} {record : Record}
    (done : readRecordIntoStorage segments = .ok (record, rest)) : segments.flatten ≠ [] := by
  obtain ⟨⟨header, middle⟩, first, _⟩ := bind_ok done
  obtain ⟨five, same⟩ := gather_some (readExact_ok first)
  intro nothing
  rw [nothing] at same
  rw [(List.append_eq_nil_iff.mp same.symm).1] at five
  cases five

theorem readRecordIntoStorage_recordBytes {record : Record} (typed : record.type < 2 ^ 8)
    (versioned : record.version < 2 ^ 16) (short : record.payload.length < 2 ^ 16) {segments : List Bytes} {more : Bytes}
    (same : segments.flatten = recordBytes record ++ more) :
    ∃ rest, readRecordIntoStorage segments = .ok (record, rest) ∧ rest.flatten = more := by
  rw [recordBytes, List.append_assoc] at same
  obtain ⟨middle, first, left⟩ := readExact_append same
  obtain ⟨rest, second, more'⟩ := readExact_append left
  have size : beValue (((recordAad record.type record.version record.payload.length).drop 3).take 2) = record.payload.length :=
    beValue_put16 short
  refine ⟨rest, ?_, more'⟩
  unfold readRecordIntoStorage
  rw [show 5 = (recordAad record.type record.version record.payload.length).length from rfl, first]
  dsimp only [bind, Except.bind]
  rw [size, second]
  have type : beValue ((recordAad record.type record.version record.payload.length).take 1) = record.type := by
    show beValue [UInt8.ofNat record.type] = record.type
    simp only [beValue, List.foldl_cons, List.foldl_nil, UInt8.toNat_ofNat']
    omega
  have version : beValue (((recordAad record.type record.version record.payload.length).drop 1).take 2) = record.version :=
    beValue_put16 versioned
  dsimp only
  rw [type, version]
  rfl

end Segments

end Nxt.Tls
