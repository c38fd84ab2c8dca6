import Nxt.Mt.Formats

/- Sessions of MTProto (session.hpp and the message ids of message.hpp): requests are sent, packets
   are received, and messages inside containers are handled one by one. -/
namespace Nxt.Mt
open Nxt.Lib

def pongConstructor : BitVec 32 := 0x347773c5#32
def msgsAckConstructor : BitVec 32 := 0x62d6b459#32
def newSessionCreatedConstructor : BitVec 32 := 0x9ec20908#32
def badServerSaltConstructor : BitVec 32 := 0xedab447b#32
def rpcResultConstructor : BitVec 32 := 0xf35c6d01#32
def msgContainerConstructor : BitVec 32 := 0x73f1f8dc#32
def vectorConstructor : BitVec 32 := 0x1cb5c415#32

inductive SessionEvent where
  | sessionMessageSent (messageId : BitVec 64) (seqNo : BitVec 32) (body : Bytes)
  | sessionMessageReceived (messageId : BitVec 64) (seqNo : BitVec 32) (body : Bytes)
  | pongReceived (messageId pingId : BitVec 64)
  | msgsAckReceived (messageIds : List (BitVec 64))
  | msgsAckSent (messageId : BitVec 64) (messageIds : List (BitVec 64))
  | newSessionCreated (firstMsgId uniqueId serverSalt : BitVec 64)
  | badServerSalt (badMsgId : BitVec 64) (badMsgSeqNo errorCode : BitVec 32) (newServerSalt : BitVec 64)
  | rpcResult (requestMsgId : BitVec 64) (result : Bytes)
  | rpcRequestResult (requestMsgId : BitVec 64) (request : String) (result : Bytes)
  | unhandledSessionMessage (messageId : BitVec 64) (seqNo : BitVec 32) (body : Bytes)
  deriving DecidableEq

inductive SessionEffect where
  | sendEncrypted (payload : Bytes)
  | notifySession (event : SessionEvent)
  deriving DecidableEq

structure PendingRequest where
  body : Bytes
  request : String
  seqNo : BitVec 32
  deriving DecidableEq

structure Session where
  key : AuthKey
  serverSalt : BitVec 64
  sessionId : BitVec 64
  /-- A signed number of seconds. -/
  timeOffset : BitVec 64
  lastMessageId : Option (BitVec 64) := none
  sentContentMessages : BitVec 64 := 0
  pendingRequests : List (BitVec 64 × PendingRequest) := []

section Ids

def messageIdFromNanoseconds (nowNs : BitVec 64) : BitVec 64 :=
  let seconds := nowNs.toNat / 1000000000
  let nanos := nowNs.toNat % 1000000000
  let fraction := max (nanos * 4294967296 / 1000000000) 4
  let messageId := BitVec.ofNat 64 (seconds * 4294967296 + fraction)
  messageId - BitVec.ofNat 64 (messageId.toNat % 4)

def nextMessageId (lastMessageId : Option (BitVec 64)) (nowNs : BitVec 64) : BitVec 64 :=
  let fromNow := messageIdFromNanoseconds nowNs
  match lastMessageId with
  | none => fromNow
  | some last => if fromNow < last + 4 then last + 4 else fromNow

def adjustedNowNanoseconds (state : Session) (nowNs : BitVec 64) : BitVec 64 :=
  let adjusted : Int := nowNs.toNat + state.timeOffset.toInt * 1000000000
  if adjusted < 0 then 0
  else if adjusted > 2 ^ 64 - 1 then BitVec.allOnes 64
  else BitVec.ofInt 64 adjusted

def nextSessionSeqNo (state : Session) (contentRelated : Bool) : BitVec 32 :=
  (state.sentContentMessages * 2).setWidth 32 + if contentRelated then 1 else 0

end Ids

def makeSessionPacket (state : Session) (nowNs : BitVec 64) (body : Bytes) (contentRelated : Bool) : EncryptedPacket :=
  { salt := state.serverSalt
    sessionId := state.sessionId
    messageId := nextMessageId state.lastMessageId (adjustedNowNanoseconds state nowNs)
    seqNo := nextSessionSeqNo state contentRelated
    body }

def advanceOutboundSession (state : Session) (messageId : BitVec 64) (contentRelated : Bool) : Session :=
  { state with
    lastMessageId := some messageId
    sentContentMessages := if contentRelated then state.sentContentMessages + 1 else state.sentContentMessages }

def sendEffects (encrypted : Bytes) (packet : EncryptedPacket) : List SessionEffect :=
  [.sendEncrypted encrypted, .notifySession (.sessionMessageSent packet.messageId packet.seqNo packet.body)]

namespace Session

def emplace (state : Session) (id : BitVec 64) (request : PendingRequest) : Session :=
  match state.pendingRequests.lookup id with
  | some _ => state
  | none => { state with pendingRequests := (id, request) :: state.pendingRequests }

def erase (state : Session) (id : BitVec 64) : Session :=
  { state with pendingRequests := state.pendingRequests.filter fun pending => pending.1 ≠ id }

end Session

structure SendRequestResult where
  next : Session
  requestId : BitVec 64
  effects : List SessionEffect

structure ReceivePacketResult where
  next : Session
  effects : List SessionEffect

section Handling

structure Handling where
  state : Session
  effects : List SessionEffect := []

def Handling.notify (h : Handling) (event : SessionEvent) : Handling :=
  { h with effects := h.effects ++ [.notifySession event] }

def ended (message : String) : Reader String Unit := do
  if ← empty then return () else throw message

def readPong : Reader String SessionEvent := do
  let messageId ← u64le
  let pingId ← u64le
  ended "trailing pong bytes"
  return .pongReceived messageId pingId

def readIds : Nat → Reader String (List (BitVec 64))
  | 0 => return []
  | count + 1 => do
      let id ← u64le
      return id :: (← readIds count)

def readMsgsAck : Reader String SessionEvent := do
  let vector ← u32le
  if vector ≠ vectorConstructor then throw "invalid msgs_ack vector"
  else
    let count ← u32le
    let ids ← readIds count.toNat
    ended "trailing msgs_ack bytes"
    return .msgsAckReceived ids

def readNewSessionCreated : Reader String (SessionEvent × BitVec 64) := do
  let firstMsgId ← u64le
  let uniqueId ← u64le
  let serverSalt ← u64le
  ended "trailing new_session_created bytes"
  return (.newSessionCreated firstMsgId uniqueId serverSalt, serverSalt)

def readBadServerSalt : Reader String (SessionEvent × BitVec 64) := do
  let badMsgId ← u64le
  let badMsgSeqNo ← u32le
  let errorCode ← u32le
  let newServerSalt ← u64le
  ended "trailing bad_server_salt bytes"
  return (.badServerSalt badMsgId badMsgSeqNo errorCode newServerSalt, newServerSalt)

def handleRpcResult (id : BitVec 64) (result : Bytes) (h : Handling) : Handling :=
  match h.state.pendingRequests.lookup id with
  | none => h.notify (.rpcResult id result)
  | some pending =>
      ({ h with state := h.state.erase id }.notify (.rpcResult id result)).notify
        (.rpcRequestResult id pending.request result)

structure Child where
  messageId : BitVec 64
  seqNo : BitVec 32
  body : Bytes
  deriving DecidableEq

def readChild : Reader String Child := do
  let messageId ← u64le
  let seqNo ← u32le
  let bodySize ← u32le
  if bodySize.toInt < 0 then throw "invalid container message length"
  else
    let body ← take bodySize.toNat
    return { messageId, seqNo, body }

/-- The messages of a container, each announced and handled before the next is read. -/
def handleChildren (handle : Child → Handling → Except String Handling) :
    Nat → Bytes → Handling → Except String (Handling × Bytes)
  | 0, input, h => .ok (h, input)
  | count + 1, input, h => do
      let (child, input) ← readChild input
      let h ← handle child (h.notify (.sessionMessageReceived child.messageId child.seqNo child.body))
      handleChildren handle count input h

/-- The fuel bounds the nesting: a message inside is shorter than the one around it. -/
def handleSessionMessage : Nat → Child → Handling → Except String Handling
  | 0, _, _ => .error "nesting"
  | fuel + 1, message, h => do
      let (constructor, input) ← u32le message.body
      if constructor = pongConstructor then
        let (event, _) ← readPong input
        return h.notify event
      else if constructor = msgsAckConstructor then
        let (event, _) ← readMsgsAck input
        return h.notify event
      else if constructor = newSessionCreatedConstructor then
        let ((event, salt), _) ← readNewSessionCreated input
        return { h with state.serverSalt := salt }.notify event
      else if constructor = badServerSaltConstructor then
        let ((event, salt), _) ← readBadServerSalt input
        return { h with state.serverSalt := salt }.notify event
      else if constructor = rpcResultConstructor then
        let (id, result) ← u64le input
        return handleRpcResult id result h
      else if constructor = msgContainerConstructor then
        let (count, input) ← u32le input
        if count.toInt < 0 then throw "invalid message container count"
        else
          let (h, rest) ← handleChildren (handleSessionMessage fuel) count.toNat input h
          if rest.isEmpty then return h else throw "trailing message container bytes"
      else return h.notify (.unhandledSessionMessage message.messageId message.seqNo message.body)

end Handling

def encodeMsgsAckBody (messageIds : List (BitVec 64)) : Bytes :=
  leBytes 4 msgsAckConstructor.toNat ++ leBytes 4 vectorConstructor.toNat ++ leBytes 4 messageIds.length ++
    messageIds.flatMap fun id => leBytes 8 id.toNat

def contentRelated (seqNo : BitVec 32) : Bool := seqNo.toInt.tmod 2 ≠ 0

section Calls
variable (cipher : Cipher)

/-- A packet is encoded, and decoded again for what it became. -/
def finalize (state : Session) (packet : EncryptedPacket) (paddingBytes : Bytes) :
    Except String (Bytes × EncryptedPacket) := do
  let encrypted ← encodeEncryptedPacket cipher packet state.key .client paddingBytes
  let finalized ← decodeEncryptedPacket cipher encrypted state.key .client (some state.sessionId)
  return (encrypted, finalized)

def sendRequest (state : Session) (nowNs : BitVec 64) (body : Bytes) (request : String) (paddingBytes : Bytes) :
    Except String SendRequestResult := do
  let (encrypted, finalized) ← finalize cipher state (makeSessionPacket state nowNs body true) paddingBytes
  let state := (advanceOutboundSession state finalized.messageId true).emplace finalized.messageId
    { body := finalized.body, request, seqNo := finalized.seqNo }
  return { next := state, requestId := finalized.messageId, effects := sendEffects encrypted finalized }

def sendSessionAck (h : Handling) (nowNs : BitVec 64) (messageIds : List (BitVec 64)) (paddingBytes : Bytes) :
    Except String Handling := do
  let (encrypted, finalized) ← finalize cipher h.state
    (makeSessionPacket h.state nowNs (encodeMsgsAckBody messageIds) false) paddingBytes
  return { state := advanceOutboundSession h.state finalized.messageId false
           effects := h.effects ++ sendEffects encrypted finalized ++
             [.notifySession (.msgsAckSent finalized.messageId messageIds)] }

def receivePacket (state : Session) (payload : Bytes) (nowNs : BitVec 64) (paddingBytes : Bytes) :
    Except String ReceivePacketResult := do
  let packet ← decodeEncryptedPacket cipher payload state.key .server (some state.sessionId)
  let h : Handling := { state }
  let h ← handleSessionMessage (packet.body.length + 1)
    { messageId := packet.messageId, seqNo := packet.seqNo, body := packet.body }
    (h.notify (.sessionMessageReceived packet.messageId packet.seqNo packet.body))
  let h ← if contentRelated packet.seqNo then sendSessionAck cipher h nowNs [packet.messageId] paddingBytes else pure h
  return { next := h.state, effects := h.effects }

theorem finalize_filled {cipher : Cipher} (lawful : cipher.Lawful) {state : Session} {packet filled : EncryptedPacket}
    {paddingBytes : Bytes} (kept : padded packet paddingBytes = .ok filled)
    (good : validateEncryptedPacketPadding filled.body filled.padding = .ok ()) (small : filled.body.length < 2 ^ 31)
    (session : filled.sessionId = state.sessionId) :
    ∃ encrypted, finalize cipher state packet paddingBytes = .ok (encrypted, filled) := by
  obtain ⟨encrypted, accepted⟩ := @encode_accepts cipher packet state.key .client paddingBytes filled kept good
  obtain ⟨_, plaintext, same, written, decodes⟩ := decodeEncryptedPacket_encoded lawful accepted
  cases same.symm.trans kept
  refine ⟨encrypted, ?_⟩
  unfold finalize
  rw [accepted]
  show (decodeEncryptedPacket cipher encrypted state.key .client (some state.sessionId) >>= fun _ => _) = _
  rw [decodes, ← session, decodeEncryptedPlaintext_small written small]
  rfl

end Calls

section Steps

def SessionEvent.quiet : SessionEvent → Bool
  | .pongReceived .. | .msgsAckReceived _ | .newSessionCreated .. | .badServerSalt .. | .unhandledSessionMessage .. =>
      true
  | _ => false

inductive Handling.Step : Handling → Handling → Prop
  | quiet (h : Handling) (event : SessionEvent) (salt : BitVec 64) : event.quiet = true →
      Step h ({ h with state.serverSalt := salt }.notify event)
  | announce (h : Handling) (child : Child) :
      Step h (h.notify (.sessionMessageReceived child.messageId child.seqNo child.body))
  | result (h : Handling) (id : BitVec 64) (result : Bytes) : Step h (handleRpcResult id result h)

abbrev Handling.Steps : Handling → Handling → Prop := Relation.ReflTransGen Handling.Step

variable {event : SessionEvent} {input rest : Bytes}

theorem notify_step (h : Handling) (quiet : event.quiet = true) :
    Handling.Steps h (h.notify event) := .single (.quiet h event h.state.serverSalt quiet)

theorem readPong_quiet (read : readPong input = .ok (event, rest)) : event.quiet = true := by
  have quiet : Yields readPong fun event => event.quiet = true :=
    yields_bind yields_any fun _ _ => yields_bind yields_any fun _ _ => yields_bind yields_any fun _ _ =>
      yields_pure rfl
  exact quiet.holds _ _ _ read

theorem readMsgsAck_quiet (read : readMsgsAck input = .ok (event, rest)) : event.quiet = true := by
  have quiet : Yields readMsgsAck fun event => event.quiet = true := by
    refine yields_bind yields_any fun vector _ => ?_
    split
    · exact ⟨fun _ _ _ done => by cases done⟩
    · exact yields_bind yields_any fun _ _ => yields_bind yields_any fun _ _ => yields_bind yields_any fun _ _ =>
        yields_pure rfl
  exact quiet.holds _ _ _ read

theorem readNewSessionCreated_quiet {salt : BitVec 64}
    (read : readNewSessionCreated input = .ok ((event, salt), rest)) : event.quiet = true := by
  have quiet : Yields readNewSessionCreated fun read => read.1.quiet = true :=
    yields_bind yields_any fun _ _ => yields_bind yields_any fun _ _ => yields_bind yields_any fun _ _ =>
      yields_bind yields_any fun _ _ => yields_pure rfl
  exact quiet.holds _ _ _ read

theorem readBadServerSalt_quiet {salt : BitVec 64}
    (read : readBadServerSalt input = .ok ((event, salt), rest)) : event.quiet = true := by
  have quiet : Yields readBadServerSalt fun read => read.1.quiet = true :=
    yields_bind yields_any fun _ _ => yields_bind yields_any fun _ _ => yields_bind yields_any fun _ _ =>
      yields_bind yields_any fun _ _ => yields_bind yields_any fun _ _ => yields_pure rfl
  exact quiet.holds _ _ _ read

theorem handleChildren_steps {handle : Child → Handling → Except String Handling}
    (inner : ∀ child h h', handle child h = .ok h' → Handling.Steps h h') (count : Nat)
    {h h' : Handling} (done : handleChildren handle count input h = .ok (h', rest)) : Handling.Steps h h' := by
  induction count generalizing input h with
  | zero =>
    cases done
    exact .refl
  | succ count ih =>
    obtain ⟨⟨child, input'⟩, _, done⟩ := bind_ok done
    obtain ⟨next, handled, done⟩ := bind_ok done
    exact ((Relation.ReflTransGen.single (.announce h child)).trans (inner _ _ _ handled)).trans (ih done)

theorem handleSessionMessage_steps (fuel : Nat) (message : Child) {h h' : Handling}
    (done : handleSessionMessage fuel message h = .ok h') : Handling.Steps h h' := by
  induction fuel generalizing message h h' with
  | zero => cases done
  | succ fuel ih =>
    obtain ⟨⟨constructor, input⟩, _, done⟩ := bind_ok done
    dsimp only at done
    split at done
    · obtain ⟨⟨event, _⟩, read, done⟩ := bind_ok done
      cases done
      exact notify_step h (readPong_quiet read)
    · split at done
      · obtain ⟨⟨event, _⟩, read, done⟩ := bind_ok done
        cases done
        exact notify_step h (readMsgsAck_quiet read)
      · split at done
        · obtain ⟨⟨⟨event, salt⟩, _⟩, read, done⟩ := bind_ok done
          cases done
          exact .single (.quiet h event salt (readNewSessionCreated_quiet read))
        · split at done
          · obtain ⟨⟨⟨event, salt⟩, _⟩, read, done⟩ := bind_ok done
            cases done
            exact .single (.quiet h event salt (readBadServerSalt_quiet read))
          · split at done
            · obtain ⟨⟨id, result⟩, _, done⟩ := bind_ok done
              cases done
              exact .single (.result h id result)
            · split at done
              · obtain ⟨⟨count, input⟩, _, done⟩ := bind_ok done
                dsimp only at done
                split at done
                · cases done
                · obtain ⟨⟨h'', rest⟩, handled, done⟩ := bind_ok done
                  dsimp only at done
                  split at done
                  · cases done
                    exact handleChildren_steps (fun child h h' => ih child) _ handled
                  · cases done
              · cases done
                exact notify_step h rfl

end Steps

end Nxt.Mt
