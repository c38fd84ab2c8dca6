import Nxt.Lib.BigEndian
import Nxt.WebSocket.Client

/- What RFC 6455 asks of a client that receives, and how a server reads the client's frames. -/
namespace Nxt.WebSocket
open Nxt.Lib

structure RawFrame where
  first : UInt8
  second : UInt8
  extended : Bytes
  payload : Bytes
  deriving DecidableEq

namespace RawFrame

def bytes (f : RawFrame) : Bytes := f.first :: f.second :: (f.extended ++ f.payload)

def fin (f : RawFrame) : Bool := f.first.toNat / 128 ≠ 0

def reserved (f : RawFrame) : Nat := f.first.toNat / 16 % 8

def opcode (f : RawFrame) : Nat := f.first.toNat % 16

def masked (f : RawFrame) : Bool := f.second.toNat / 128 ≠ 0

def short (f : RawFrame) : Nat := f.second.toNat % 128

def width (f : RawFrame) : Nat := if f.short = 126 then 2 else if f.short = 127 then 8 else 0

def size (f : RawFrame) : Nat := if f.short < 126 then f.short else beValue f.extended

def control (f : RawFrame) : Bool := 8 ≤ f.opcode

structure Complete (f : RawFrame) : Prop where
  extended : f.extended.length = f.width
  payload : f.payload.length = f.size

def Minimal (f : RawFrame) : Prop :=
  (f.short = 126 → 126 ≤ f.size) ∧ (f.short = 127 → 65536 ≤ f.size ∧ f.size < 2 ^ 63)

end RawFrame

structure Begun where
  type : MessageType
  data : Bytes
  deriving DecidableEq

def CloseValid (payload : Bytes) : Prop :=
  payload = [] ∨ ∃ high low reason, payload = high :: low :: reason ∧ closeCode (high.toNat * 256 + low.toNat) = true ∧
    Utf8Text reason

def Begun.grown (begun : Option Begun) (f : RawFrame) : Begun :=
  match begun with
  | some message => { message with data := message.data ++ f.payload }
  | none => { type := dataType f.opcode, data := f.payload }

structure Valid (limit : Nat) (begun : Option Begun) (f : RawFrame) : Prop where
  unmasked : f.masked = false
  unreserved : f.reserved = 0
  known : f.opcode = 0 ∨ f.opcode = 1 ∨ f.opcode = 2 ∨ f.opcode = 8 ∨ f.opcode = 9 ∨ f.opcode = 10
  minimal : f.Minimal
  control : f.control = true → f.fin = true ∧ f.payload.length ≤ 125
  /-- A message goes on exactly when one is begun. -/
  fragments : f.control = false → (f.opcode = 0 ↔ begun.isSome = true)
  fits : f.control = false → (Begun.grown begun f).data.length ≤ limit
  text : f.control = false → f.fin = true → (Begun.grown begun f).type = .text → Utf8Text (Begun.grown begun f).data
  close : f.opcode = 8 → CloseValid f.payload

def begunAfter (begun : Option Begun) (f : RawFrame) : Option Begun :=
  if f.control then begun else if f.fin then none else some (Begun.grown begun f)

def AllValid (limit : Nat) : Option Begun → List RawFrame → Prop
  | _, [] => True
  | begun, f :: rest => Valid limit begun f ∧ AllValid limit (begunAfter begun f) rest

def begunAt (begun : Option Begun) (frames : List RawFrame) : Option Begun := frames.foldl begunAfter begun

inductive Item where
  | message (type : MessageType) (data : Bytes)
  | ping (payload : Bytes)
  | pong (payload : Bytes)
  | close (payload : Bytes)
  deriving DecidableEq

def completed (begun : Option Begun) (f : RawFrame) : Option Item :=
  if f.opcode = 9 then some (.ping f.payload)
  else if f.opcode = 10 then some (.pong f.payload)
  else if f.opcode = 8 then some (.close f.payload)
  else if f.fin then some (.message (Begun.grown begun f).type (Begun.grown begun f).data)
  else none

structure Arrival where
  item : Item
  behind : Nat
  deriving DecidableEq

/-- The items of some frames, in the order they are completed, with so many bytes following the frames. -/
def arrivals (after : Nat) : Option Begun → List RawFrame → List Arrival
  | _, [] => []
  | begun, f :: rest =>
      let later := arrivals after (begunAfter begun f) rest
      match completed begun f with
      | none => later
      | some item => { item, behind := (rest.flatMap RawFrame.bytes).length + after } :: later

structure Sent where
  unread : Nat
  opcode : Nat
  payload : Bytes
  deriving DecidableEq

structure Endpoint where
  limit : Nat
  items : List Arrival
  unread : Nat
  connected : Bool := true
  closeSent : Bool := false
  closeReceived : Bool := false
  sent : List Sent := []
  deriving DecidableEq

inductive Outcome where
  | event (message : Message)
  | nothing
  | done
  /-- The server broke the protocol or went away. -/
  | violation
  /-- The call is not possible now, or its arguments are not. -/
  | refused
  deriving DecidableEq

namespace Endpoint

def put (e : Endpoint) (opcode : Nat) (payload : Bytes) : Endpoint :=
  { e with sent := e.sent ++ [{ unread := e.unread, opcode, payload }] }

def closeMessage (payload : Bytes) : Message :=
  match payload with
  | high :: low :: reason => { type := .close, data := reason, code := some (high.toNat * 256 + low.toNat) }
  | _ => { type := .close, data := [] }

def take (e : Endpoint) : List Arrival → Endpoint × Outcome
  | [] => ({ e with items := [], connected := false }, .violation)
  | arrival :: rest =>
      let e := { e with items := rest, unread := arrival.behind }
      match arrival.item with
      | .ping payload => take (e.put 10 payload) rest
      | .pong payload => (e, .event { type := .pong, data := payload })
      | .message type data => if e.closeSent then take e rest else (e, .event { type, data })
      | .close payload =>
          let e := if e.closeSent then e else e.put 8 payload
          ({ e with closeSent := true, closeReceived := true, connected := false }, .event (closeMessage payload))

def receive (e : Endpoint) : Endpoint × Outcome :=
  if e.closeReceived then (e, .nothing) else if e.connected then e.take e.items else (e, .refused)

/-- A frame of this side, which is refused, and ends the connection, once Close was sent. -/
def sends (e : Endpoint) (opcode : Nat) (payload : Bytes) : Endpoint × Outcome :=
  if !e.connected then (e, .refused)
  else if e.closeSent then ({ e with connected := false }, .refused)
  else (e.put opcode payload, .done)

def close (e : Endpoint) (payload : Bytes) : Endpoint × Outcome :=
  if !e.connected then (e, .refused)
  else if e.closeSent then (e, .done)
  else ({ e.put 8 payload with closeSent := true }, .done)

end Endpoint

inductive Call where
  | receive
  | send (type : MessageType) (data : Bytes)
  | ping (data : Bytes)
  | close (code : Nat) (reason : Bytes)
  deriving DecidableEq

def Endpoint.call (e : Endpoint) : Call → Endpoint × Outcome
  | .receive => e.receive
  | .send type data =>
      if (type = .text ∨ type = .binary) ∧ data.length ≤ e.limit ∧ (type = .text → utf8 data = true) then
        e.sends (if type = .text then 1 else 2) data
      else (e, .refused)
  | .ping data => if data.length ≤ 125 then e.sends 9 data else (e, .refused)
  | .close code reason =>
      if closeCode code ∧ reason.length ≤ 123 ∧ utf8 reason then
        e.close (UInt8.ofNat (code / 256) :: UInt8.ofNat code :: reason)
      else (e, .refused)

def Client.call (masks : Nat → Mask) (c : Client) : Call → Client × Except Error (Option Message)
  | .receive => c.receive masks
  | .send type data => ((c.send masks type data).1, (c.send masks type data).2.map fun _ => none)
  | .ping data => ((c.ping masks data).1, (c.ping masks data).2.map fun _ => none)
  | .close code reason => ((c.close masks code reason).1, (c.close masks code reason).2.map fun _ => none)

section Server

structure ClientFrame where
  fin : Bool
  opcode : Nat
  payload : Bytes
  deriving DecidableEq

/-- The size of a masked frame, when it is written with the fewest bytes. -/
def serverSize (second : UInt8) (input : Bytes) : Option (Nat × Bytes) :=
  let short := second.toNat % 128
  if second.toNat / 128 = 0 then none
  else if short < 126 then some (short, input)
  else
    let width := if short = 126 then 2 else 8
    let size := beValue (input.take width)
    if input.length < width then none
    else if short = 126 ∧ size < 126 then none
    else if short = 127 ∧ (size < 65536 ∨ 2 ^ 63 ≤ size) then none
    else some (size, input.drop width)

/-- A server takes a masked frame without reserved bits. -/
def serverDecode (input : Bytes) : Option (ClientFrame × Bytes) :=
  match input with
  | first :: second :: input =>
      if first.toNat / 16 % 8 ≠ 0 then none
      else
        match serverSize second input with
        | none => none
        | some (size, a :: b :: c :: d :: input) =>
            if input.length < size then none
            else
              let mask : Mask := fun i => [a, b, c, d].getD i.val 0
              some ({ fin := first.toNat / 128 ≠ 0, opcode := first.toNat % 16, payload := masked mask (input.take size) },
                input.drop size)
        | _ => none
  | _ => none

end Server

end Nxt.WebSocket
