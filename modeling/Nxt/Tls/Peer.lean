import Nxt.Lib.Stream
import Nxt.Tls.Session

/- A reference TLS 1.3 server after the handshake, and the session and the server connected by a
   transport. -/
namespace Nxt.Tls
open Nxt.Lib

inductive Sent where
  | data (content : Bytes) (padding : Nat)
  | handshake (content : Bytes) (padding : Nat)
  | closeNotify (padding : Nat)
  deriving DecidableEq

namespace Sent

def type : Sent → UInt8
  | .data _ _ => 23
  | .handshake _ _ => 22
  | .closeNotify _ => 21

def content : Sent → Bytes
  | .data content _ => content
  | .handshake content _ => content
  | .closeNotify _ => [1, 0]

def padding : Sent → Nat
  | .data _ padding => padding
  | .handshake _ padding => padding
  | .closeNotify padding => padding

def payload : Sent → Bytes
  | .data content _ => content
  | _ => []

def closes : Sent → Bool
  | .closeNotify _ => true
  | _ => false

end Sent

inductive Written where
  | data (content : Bytes)
  | reply
  deriving DecidableEq

namespace Written

def payload : Written → Bytes
  | .data content => content
  | .reply => []

end Written

/-- What the server may put in its handshake stream: a KeyUpdate, or another message, the largest of which
    (a NewSessionTicket) has 131341 bytes. -/
def PostHandshake (message : Bytes) : Prop :=
  (∃ requested, (requested = 0 ∨ requested = 1) ∧ message = keyUpdate requested) ∨
    (IsMessage message ∧ message.getD 0 0 ≠ 24 ∧ message.length ≤ maxFlightSize - 16384)

/-- Handshake bytes the server has sent since its last complete message, a record being the last of them. -/
structure Fragment (input : Bytes) : Prop where
  valid : ∀ message ∈ (messages.drain input).1, PostHandshake message
  /-- The server goes on with the message it has begun. -/
  begins : (messages.drain input).2 ≠ [] → ∃ more, PostHandshake ((messages.drain input).2 ++ more)
  /-- A KeyUpdate ends its record. -/
  ends : ∀ {front back : List Bytes} {requested : UInt8},
    (messages.drain input).1 = front ++ keyUpdate requested :: back → back = [] ∧ (messages.drain input).2 = []

def requests (ms : List Bytes) : Nat := ms.count (keyUpdate 1)

def updates (ms : List Bytes) : Bool := ms.any fun message => message.getD 0 0 = 24

section Speakers
variable (p : Primitives)

structure ServerState where
  keys : ReadKeys
  begun : Bytes := []
  deriving DecidableEq

def sealedBytes (keys : ReadKeys) (inner : Bytes) : Bytes :=
  match sealed p keys inner with
  | .ok (record, _) => recordBytes record
  | .error _ => []

def completed (s : ServerState) : Sent → List Bytes
  | .handshake content _ => (messages.drain (s.begun ++ content)).1
  | _ => []

def server : Speaker ServerState Sent UInt8 where
  after s sent :=
    match sent with
    | .handshake content _ =>
        { keys := if updates (completed s sent) then updateKeys p s.keys else s.keys.next
          begun := (messages.drain (s.begun ++ content)).2 }
    | _ => { s with keys := s.keys.next }
  emit s sent := sealedBytes p s.keys (sent.content ++ [sent.type] ++ List.replicate sent.padding 0)

def client : Speaker ReadKeys Written UInt8 where
  after keys
    | .data _ => keys.next
    | .reply => updateKeys p keys
  emit keys
    | .data content => sealedBytes p keys (content ++ [23])
    | .reply => sealedBytes p keys (keyUpdate 0 ++ [22])

/-- How often the server has asked for new keys. -/
def asked : ServerState → List Sent → Nat
  | _, [] => 0
  | s, sent :: rest => requests (completed s sent) + asked ((server p).after s sent) rest

def Allowed (s : ServerState) (closed : Bool) (sent : Sent) : Prop :=
  closed = false ∧ sent.content.length + sent.padding ≤ 16384 ∧
    match sent with
    | .handshake content _ => content ≠ [] ∧ Fragment (s.begun ++ content)
    | _ => s.begun = []

def serverReceive (keys : ReadKeys) (record : Record) : Except String (ReadKeys × Written) := do
  let (plaintext, keys) ← openRecord p keys record
  if plaintext.innerType = 23 then return (keys, .data plaintext.content)
  else if plaintext.innerType = 22 && plaintext.content = keyUpdate 0 then return (updateKeys p keys, .reply)
  else .error "unexpected record"

end Speakers

/-- The session and the server. A record that one side has sealed is written in pieces, while other tasks run. -/
structure World where
  session : Session
  /-- The call of `stream_more` that waits for a record. -/
  call : Option Call := none
  /-- What the sink has not taken of the reply for which that call is suspended. -/
  replying : Option Bytes := none
  /-- What the sink has not taken of the record that `write_all` is writing. -/
  writing : Option Bytes := none
  serverState : ServerState
  closed : Bool := false
  /-- The server's keys for what the client writes. -/
  serverRead : ReadKeys
  toClient : List Bytes := []
  toServer : Bytes := []
  /-- All the server has sealed. -/
  sent : List Sent := []
  /-- All the client has sealed. -/
  written : List Written := []
  /-- All the server has opened. -/
  opened : List Written := []
  /-- What the reads have given. -/
  delivered : Bytes := []
  ended : Bool := false
  failed : Option String := none

section World
variable (p : Primitives)

def worldStart (keys : ApplicationKeys) : World :=
  { session := { keys }, serverState := { keys := keys.server }, serverRead := keys.client }

def World.reads (w : World) (s : Session) (call : Call) : Reading → World
  | .answered (.count _) given => { w with session := s, call := none, delivered := w.delivered ++ given }
  | .answered .eof given => { w with session := s, call := none, delivered := w.delivered ++ given, ended := true }
  | .waiting => { w with session := s, call := some call }

def replyOf : Option Bytes → List Written
  | none => []
  | some _ => [.reply]

/-- The session and the sink go on by themselves: what is being written is taken, or a call begins, or the next
    record is read for the one that waits. -/
def World.advance (w : World) (call : Call) : World :=
  match w.replying with
  | some bytes => { w with session := w.session.replied p, replying := none, toServer := w.toServer ++ bytes }
  | none =>
      match w.writing with
      | some bytes => { w with writing := none, toServer := w.toServer ++ bytes }
      | none =>
          match w.call with
          | none => w.reads (streamMore w.session call).1 call (streamMore w.session call).2
          | some waiting =>
              match readRecordIntoStorage w.toClient with
              | .error _ => w
              | .ok (record, rest) =>
                  match streamTurn p w.session waiting record with
                  | .error e => { w with failed := some e }
                  | .ok (s, reading, reply) =>
                      { w.reads s waiting reading with
                        toClient := rest, replying := reply, written := w.written ++ replyOf reply }

/-- Whether a step reads a record or seals one of the application. -/
inductive Act where
  | record
  | write
  | other

inductive Step : Act → World → World → Prop
  /-- The server seals a record; the transport cuts it as it likes. -/
  | send {w : World} {sent : Sent} {segments : List Bytes} :
      Allowed w.serverState w.closed sent → segments.flatten = (server p).emit w.serverState sent →
      Step .other w { w with
        serverState := (server p).after w.serverState sent, closed := sent.closes,
        toClient := w.toClient ++ segments, sent := w.sent ++ [sent] }
  /-- A read begins. -/
  | read {w : World} (call : Call) : w.call = none →
      Step .other w (w.reads (streamMore w.session call).1 call (streamMore w.session call).2)
  /-- A record has arrived for the read that waits. -/
  | record {w : World} {call : Call} {record : Record} {rest : List Bytes} {s : Session} {reading : Reading}
      {reply : Option Bytes} :
      w.call = some call → w.replying = none → readRecordIntoStorage w.toClient = .ok (record, rest) →
      streamTurn p w.session call record = .ok (s, reading, reply) →
      Step .record w { w.reads s call reading with
        toClient := rest, replying := reply, written := w.written ++ replyOf reply }
  /-- The read fails. -/
  | fail {w : World} {call : Call} {record : Record} {rest : List Bytes} {e : String} :
      w.call = some call → w.replying = none → readRecordIntoStorage w.toClient = .ok (record, rest) →
      streamTurn p w.session call record = .error e → Step .record w { w with failed := some e }
  /-- The sink takes some of the reply. -/
  | reply {w : World} {now later : Bytes} : w.replying = some (now ++ later) →
      Step .other w { w with replying := some later, toServer := w.toServer ++ now }
  | replied {w : World} : w.replying = some [] →
      Step .other w { w with session := w.session.replied p, replying := none }
  /-- The application, which writes one record after the other, begins with one. -/
  | write {w : World} {bytes record left : Bytes} {s : Session} :
      w.writing = none → bytes ≠ [] → writeRecord p w.session bytes = .ok (s, record, left) →
      Step .write w { w with session := s, writing := some record, written := w.written ++ [.data (bytes.take 16384)] }
  | writeFail {w : World} {bytes : Bytes} {e : String} :
      w.writing = none → writeRecord p w.session bytes = .error e → Step .write w { w with failed := some e }
  /-- The sink takes some of the application's record. -/
  | put {w : World} {now later : Bytes} : w.writing = some (now ++ later) →
      Step .other w { w with writing := some later, toServer := w.toServer ++ now }
  | wrote {w : World} : w.writing = some [] → Step .other w { w with writing := none }
  /-- The server opens a record. -/
  | receive {w : World} {record : Record} {rest : Bytes} {keys : ReadKeys} {got : Written} :
      readRecord w.toServer = .ok (record, rest) → serverReceive p w.serverRead record = .ok (keys, got) →
      Step .other w { w with serverRead := keys, toServer := rest, opened := w.opened ++ [got] }
  | receiveFail {w : World} {record : Record} {rest : Bytes} {e : String} :
      readRecord w.toServer = .ok (record, rest) → serverReceive p w.serverRead record = .error e →
      Step .other w { w with failed := some e }

/-- The next record completes a KeyUpdate that asks for another. -/
def World.Requesting (w : World) : Prop :=
  ∃ record rest plaintext keys, readRecordIntoStorage w.toClient = .ok (record, rest) ∧
    openRecord p w.session.keys.server record = .ok (plaintext, keys) ∧ plaintext.innerType = 22 ∧
    keyUpdate 1 ∈ (messages.drain (w.session.postHandshake ++ plaintext.content)).1

/-- The reply and the records of the application are kept apart: none of these is begun while another is being
    written. -/
def Apart : Act → World → Prop
  | .record, w => w.Requesting p → w.writing = none
  | .write, w => w.replying = none
  | .other, _ => True

def AnyStep (w w' : World) : Prop := ∃ act, Step p act w w'

def ApartStep (w w' : World) : Prop := ∃ act, Step p act w w' ∧ Apart p act w

end World

end Nxt.Tls
