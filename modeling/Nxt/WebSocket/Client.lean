import Nxt.Lib.Segments
import Nxt.WebSocket.Text

/- The WebSocket client (nxtrt/websocket.hpp) after the upgrade. An operation runs to its end before
   the next one begins, and a failed one closes the connection. -/
namespace Nxt.WebSocket
open Nxt.Lib

inductive MessageType where
  | text
  | binary
  | close
  | pong
  deriving DecidableEq

structure Message where
  type : MessageType
  data : Bytes
  code : Option Nat := none
  deriving DecidableEq

inductive Error where
  | protocol (message : String)
  | logic (message : String)
  | invalidArgument (message : String)
  deriving DecidableEq

abbrev Mask := Fin 4 → UInt8

def Mask.at (mask : Mask) (i : Nat) : UInt8 := mask ⟨i % 4, Nat.mod_lt i (by decide)⟩

def masked (mask : Mask) (data : Bytes) : Bytes := data.mapIdx fun i b => b ^^^ mask.at i

/-- Big-endian, of a number of bytes. -/
def wide (width size : Nat) : Bytes := (List.range width).map fun i => UInt8.ofNat (size / 2 ^ (8 * (width - 1 - i)))

def sizeBytes (size : Nat) : Bytes :=
  if size < 126 then [UInt8.ofNat (128 + size)]
  else if size ≤ 65535 then 254 :: wide 2 size
  else 255 :: wide 8 size

def frame (mask : Mask) (opcode : Nat) (data : Bytes) : Bytes :=
  UInt8.ofNat (128 + opcode) :: (sizeBytes data.length ++ [mask 0, mask 1, mask 2, mask 3] ++ masked mask data)

/-- A frame that was written, and how much of the input was not read then. -/
structure Output where
  unread : Nat
  bytes : Bytes
  deriving DecidableEq

structure Client where
  maxMessageSize : Nat
  /-- The socket is there. -/
  connected : Bool := true
  closeSent : Bool := false
  closeReceived : Bool := false
  /-- The type of the message whose fragments are collected. -/
  fragmentType : Option MessageType := none
  fragments : Bytes := []
  input : List Bytes
  written : List Output := []
  deriving DecidableEq

section Operations
variable (masks : Nat → Mask)

/-- `frame` writes with the next random mask. -/
def Client.writeFrame (c : Client) (opcode : Nat) (data : Bytes) : Client :=
  { c with
    written := c.written ++ [{ unread := c.input.flatten.length, bytes := frame (masks c.written.length) opcode data }] }

/-- An operation holds the guard: it needs a connection, and closes it when it throws. -/
def Client.guarded {α : Type} (c : Client) (operation : Client → Client × Except Error α) : Client × Except Error α :=
  if !c.connected then (c, .error (.logic "WebSocket connection is closed"))
  else
    match operation c with
    | (c, .ok a) => (c, .ok a)
    | (c, .error e) => ({ c with connected := false }, .error e)

def Client.send (c : Client) (type : MessageType) (data : Bytes) : Client × Except Error Unit :=
  if type ≠ .text ∧ type ≠ .binary then (c, .error (.invalidArgument "send requires text or binary"))
  else if data.length > c.maxMessageSize ∨ (type = .text ∧ !utf8 data) then
    (c, .error (.invalidArgument "invalid WebSocket message"))
  else c.guarded fun c =>
    if c.closeSent then (c, .error (.logic "WebSocket is closing"))
    else (c.writeFrame masks (if type = .text then 1 else 2) data, .ok ())

def Client.ping (c : Client) (data : Bytes) : Client × Except Error Unit :=
  if data.length > 125 then (c, .error (.invalidArgument "WebSocket ping exceeds 125 bytes"))
  else c.guarded fun c =>
    if c.closeSent then (c, .error (.logic "WebSocket is closing"))
    else (c.writeFrame masks 9 data, .ok ())

def Client.close (c : Client) (code : Nat) (reason : Bytes) : Client × Except Error Unit :=
  if !closeCode code ∨ reason.length > 123 ∨ !utf8 reason then (c, .error (.invalidArgument "invalid WebSocket close"))
  else c.guarded fun c =>
    if c.closeSent then (c, .ok ())
    else ({ c.writeFrame masks 8 (UInt8.ofNat (code / 256) :: UInt8.ofNat code :: reason) with closeSent := true }, .ok ())

def octet (input : List Bytes) : Except Error (Nat × List Bytes) :=
  match gather 1 input with
  | none => .error (.protocol "WebSocket EOF without Close")
  | some (byte, input) => .ok ((byte.getD 0 0).toNat, input)

def readWide : Nat → Nat → List Bytes → Except Error (Nat × List Bytes)
  | 0, size, input => .ok (size, input)
  | width + 1, size, input => do
      let (byte, input) ← octet input
      readWide width (size * 256 + byte) input

structure Head where
  fin : Bool
  opcode : Nat
  size : Nat
  deriving DecidableEq

def Head.control (head : Head) : Bool := 8 ≤ head.opcode

def check (ok : Bool) (message : String) : Except Error Unit := if ok then .ok () else .error (.protocol message)

def readHead (input : List Bytes) : Except Error (Head × List Bytes) := do
  let (first, input) ← octet input
  let (second, input) ← octet input
  let fin : Bool := first / 128 ≠ 0
  let opcode := first % 16
  let control : Bool := 8 ≤ opcode
  check (first / 16 % 8 = 0 && second / 128 = 0 &&
    (opcode = 0 || opcode = 1 || opcode = 2 || opcode = 8 || opcode = 9 || opcode = 10))
    "invalid WebSocket frame flags/opcode"
  let size := second % 128
  check (!(control && (!fin || 125 < size))) "invalid WebSocket control frame"
  if size = 126 || size = 127 then
    let width := if size = 126 then 2 else 8
    let (size, input) ← readWide width 0 input
    check (!((width = 2 && size < 126) || (width = 8 && (size < 65536 || 2 ^ 63 ≤ size)))) "noncanonical WebSocket length"
    return ({ fin, opcode, size }, input)
  else return ({ fin, opcode, size }, input)

/-- The checks of a data frame before its payload is read. -/
def Client.checkData (c : Client) (head : Head) : Except Error Unit :=
  if head.control then .ok ()
  else do
    check (!((head.opcode = 0 && c.fragmentType.isNone) || (head.opcode ≠ 0 && c.fragmentType.isSome)))
      "invalid WebSocket fragmentation"
    check (head.size ≤ c.maxMessageSize - c.fragments.length) "WebSocket message limit exceeded"

/-- The loop over the parts of a payload. -/
def readPayload (size : Nat) (input : List Bytes) : Except Error (Bytes × List Bytes) :=
  match gather size input with
  | none => .error (.protocol "truncated WebSocket payload")
  | some taken => .ok taken

def closeEvent (payload : Bytes) : Except Error Message :=
  if payload.isEmpty then .ok { type := .close, data := [] }
  else if payload.length = 1 then .error (.protocol "invalid WebSocket close payload")
  else
    let code := (payload.getD 0 0).toNat * 256 + (payload.getD 1 0).toNat
    if !closeCode code || !utf8 (payload.drop 2) then .error (.protocol "invalid WebSocket close code/reason")
    else .ok { type := .close, data := payload.drop 2, code := some code }

def dataType (opcode : Nat) : MessageType := if opcode = 1 then .text else .binary

/-- What a frame does whose payload was read: the event that `receive` returns, if it does not go on. -/
def Client.handle (c : Client) (head : Head) (payload : Bytes) : Except Error (Client × Option Message) :=
  if head.opcode = 9 then .ok (c.writeFrame masks 10 payload, none)
  else if head.opcode = 10 then .ok (c, some { type := .pong, data := payload })
  else if head.opcode = 8 then do
    let event ← closeEvent payload
    let c := if c.closeSent then c else c.writeFrame masks 8 payload
    return ({ c with closeSent := true, closeReceived := true, fragments := [], connected := false }, some event)
  else
    let type := if head.opcode ≠ 0 then some (dataType head.opcode) else c.fragmentType
    let fragments := c.fragments ++ payload
    if !head.fin then .ok ({ c with fragmentType := type, fragments }, none)
    else
      let event : Message := { type := type.getD .binary, data := fragments }
      let c := { c with fragmentType := none, fragments := [] }
      if event.type = .text ∧ !utf8 event.data then .error (.protocol "invalid WebSocket UTF-8")
      -- data is discarded after Close was sent
      else if c.closeSent then .ok (c, none)
      else .ok (c, some event)

/-- One turn of the loop of `receive`. -/
def Client.receiveFrame (c : Client) : Except Error (Client × Option Message) := do
  let (head, input) ← readHead c.input
  c.checkData head
  let (payload, input) ← readPayload head.size input
  Client.handle masks { c with input } head payload

/-- The loop of `receive`; a frame takes at least two bytes. What a frame that throws has read is not read again. -/
def receiveLoop : Nat → Client → Client × Except Error (Option Message)
  | 0, c => (c, .error (.protocol "WebSocket EOF without Close"))
  | fuel + 1, c =>
      match c.receiveFrame masks with
      | .error e => (c, .error e)
      | .ok (c, none) => receiveLoop fuel c
      | .ok (c, some event) => (c, .ok (some event))

def Client.receive (c : Client) : Client × Except Error (Option Message) :=
  if c.closeReceived then (c, .ok none)
  else c.guarded fun c => receiveLoop masks (c.input.flatten.length + 1) c

end Operations

end Nxt.WebSocket
