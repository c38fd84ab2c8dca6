import Nxt.Mt.Session

/- Acknowledgements: which messages of a received packet are acknowledged. -/
namespace Nxt.Mt
open Nxt.Lib List

def SessionEffect.ackedIds : SessionEffect → List (BitVec 64)
  | .notifySession (.msgsAckSent _ messageIds) => messageIds
  | _ => []

def acked (effects : List SessionEffect) : List (BitVec 64) := effects.flatMap SessionEffect.ackedIds

def SessionEffect.message? : SessionEffect → Option Child
  | .notifySession (.sessionMessageReceived messageId seqNo body) => some { messageId, seqNo, body }
  | _ => none

def announced (effects : List SessionEffect) : List Child := effects.filterMap SessionEffect.message?

section Nesting

def readChildren : Nat → Reader String (List Child)
  | 0 => return []
  | count + 1 => do
      let child ← readChild
      return child :: (← readChildren count)

def readContainer : Reader String (List Child) := do
  let constructor ← u32le
  if constructor = msgContainerConstructor then
    let count ← u32le
    readChildren count.toNat
  else throw "no container"

def messagesIn : Nat → Bytes → List Child
  | 0, _ => []
  | fuel + 1, body =>
      match readContainer body with
      | .error _ => []
      | .ok (children, _) => children.flatMap fun child => child :: messagesIn fuel child.body

def EncryptedPacket.outer (packet : EncryptedPacket) : Child :=
  { messageId := packet.messageId, seqNo := packet.seqNo, body := packet.body }

def EncryptedPacket.nested (packet : EncryptedPacket) : List Child :=
  messagesIn (packet.body.length + 1) packet.body

end Nesting

section Announced

theorem announced_notify (h : Handling) (event : SessionEvent) :
    announced (h.notify event).effects = announced h.effects ++ (SessionEffect.message? (.notifySession event)).toList := by
  unfold announced
  rw [Handling.notify, filterMap_append]
  cases found : SessionEffect.message? (.notifySession event) <;> simp [found]

theorem announced_result (id : BitVec 64) (result : Bytes) (h : Handling) :
    announced (handleRpcResult id result h).effects = announced h.effects := by
  unfold handleRpcResult
  split
  · rw [announced_notify]
    exact append_nil _
  · rw [announced_notify, announced_notify]
    simp [SessionEffect.message?]

theorem announced_quiet (h : Handling) {event : SessionEvent} (quiet : event.quiet = true) :
    announced (h.notify event).effects = announced h.effects := by
  rw [announced_notify]
  cases event with
  | pongReceived => exact append_nil _
  | msgsAckReceived => exact append_nil _
  | newSessionCreated => exact append_nil _
  | badServerSalt => exact append_nil _
  | unhandledSessionMessage => exact append_nil _
  | _ => cases quiet

theorem handleChildren_announced {handle : Child → Handling → Except String Handling} {inside : Bytes → List Child}
    (inner : ∀ child h h', handle child h = .ok h' → announced h'.effects = announced h.effects ++ inside child.body)
    (count : Nat) {input rest : Bytes} {h h' : Handling} (done : handleChildren handle count input h = .ok (h', rest)) :
    ∃ children, readChildren count input = .ok (children, rest) ∧
      announced h'.effects = announced h.effects ++ children.flatMap fun child => child :: inside child.body := by
  induction count generalizing input h with
  | zero =>
    cases done
    exact ⟨[], rfl, (append_nil _).symm⟩
  | succ count ih =>
    obtain ⟨⟨child, input'⟩, read, done⟩ := bind_ok done
    obtain ⟨next, handled, done⟩ := bind_ok done
    obtain ⟨children, reads, more⟩ := ih done
    refine ⟨child :: children, ?_, ?_⟩
    · rw [readChildren, step_ok read, step_ok reads]
      rfl
    · rw [more, inner _ _ _ handled, announced_notify]
      simp [SessionEffect.message?]

theorem handleSessionMessage_announced (fuel : Nat) (message : Child) {h h' : Handling}
    (done : handleSessionMessage fuel message h = .ok h') :
    announced h'.effects = announced h.effects ++ messagesIn fuel message.body := by
  induction fuel generalizing message h h' with
  | zero => cases done
  | succ fuel ih =>
    obtain ⟨⟨constructor, input⟩, head, done⟩ := bind_ok done
    have other (no : constructor ≠ msgContainerConstructor) : messagesIn (fuel + 1) message.body = [] := by
      have none_ : readContainer message.body = .error "no container" := by
        rw [readContainer, step_ok head, if_neg no]
        rfl
      rw [messagesIn, none_]
    have unchanged (no : constructor ≠ msgContainerConstructor) (same : announced h'.effects = announced h.effects) :
        announced h'.effects = announced h.effects ++ messagesIn (fuel + 1) message.body := by
      rw [other no, append_nil, same]
    dsimp only at done
    split at done
    · rename_i pong
      obtain ⟨⟨event, _⟩, read, done⟩ := bind_ok done
      cases done
      exact unchanged (by rw [pong]; decide) (announced_quiet h (readPong_quiet read))
    · split at done
      · rename_i ack
        obtain ⟨⟨event, _⟩, read, done⟩ := bind_ok done
        cases done
        exact unchanged (by rw [ack]; decide) (announced_quiet h (readMsgsAck_quiet read))
      · split at done
        · rename_i created
          obtain ⟨⟨⟨event, salt⟩, _⟩, read, done⟩ := bind_ok done
          cases done
          exact unchanged (by rw [created]; decide) (announced_quiet _ (readNewSessionCreated_quiet read))
        · split at done
          · rename_i salted
            obtain ⟨⟨⟨event, salt⟩, _⟩, read, done⟩ := bind_ok done
            cases done
            exact unchanged (by rw [salted]; decide) (announced_quiet _ (readBadServerSalt_quiet read))
          · split at done
            · rename_i answer
              obtain ⟨⟨id, result⟩, _, done⟩ := bind_ok done
              cases done
              exact unchanged (by rw [answer]; decide) (announced_result id result h)
            · split at done
              · rename_i container
                obtain ⟨⟨count, input'⟩, size, done⟩ := bind_ok done
                dsimp only at done
                split at done
                · cases done
                · obtain ⟨⟨h'', rest⟩, handled, done⟩ := bind_ok done
                  dsimp only at done
                  split at done
                  · cases done
                    obtain ⟨children, reads, more⟩ := handleChildren_announced (fun child h h' => ih child) _ handled
                    have whole : readContainer message.body = .ok (children, rest) := by
                      rw [readContainer, step_ok head, if_pos container, step_ok size, reads]
                    rw [messagesIn, whole]
                    exact more
                  · cases done
              · rename_i no
                cases done
                exact unchanged no (announced_quiet h rfl)

end Announced

section Acked

theorem acked_step {h h' : Handling} (step : Handling.Step h h') : acked h'.effects = acked h.effects := by
  have notified (h : Handling) (event : SessionEvent) (none_ : SessionEffect.ackedIds (.notifySession event) = []) :
      acked (h.notify event).effects = acked h.effects := by
    simp [acked, Handling.notify, none_]
  cases step with
  | quiet event salt quiet =>
    refine notified _ event ?_
    cases event with
    | msgsAckSent => cases quiet
    | _ => rfl
  | announce child => exact notified h _ rfl
  | result id result =>
    unfold handleRpcResult
    split
    · exact notified h _ rfl
    · rw [notified _ _ rfl, notified _ _ rfl]

theorem acked_steps {h h' : Handling} (steps : Handling.Steps h h') : acked h'.effects = acked h.effects := by
  induction steps with
  | refl => rfl
  | tail _ step ih => rw [acked_step step, ih]

variable {cipher : Cipher} {state : Session} {payload paddingBytes : Bytes} {nowNs : BitVec 64}

theorem sendSessionAck_acked {h h' : Handling} {ids : List (BitVec 64)}
    (done : sendSessionAck cipher h nowNs ids paddingBytes = .ok h') : acked h'.effects = acked h.effects ++ ids := by
  obtain ⟨⟨encrypted, finalized⟩, _, done⟩ := bind_ok done
  cases done
  simp [acked, sendEffects, SessionEffect.ackedIds]

theorem receivePacket_acked {result : ReceivePacketResult}
    (accepted : receivePacket cipher state payload nowNs paddingBytes = .ok result) :
    ∃ packet, decodeEncryptedPacket cipher payload state.key .server (some state.sessionId) = .ok packet ∧
      announced result.effects = packet.outer :: packet.nested ∧
      acked result.effects = if contentRelated packet.seqNo then [packet.messageId] else [] := by
  obtain ⟨packet, opened, done⟩ := bind_ok accepted
  obtain ⟨h, handled, done⟩ := bind_ok done
  have quiet := acked_steps (handleSessionMessage_steps _ _ handled)
  have seen := handleSessionMessage_announced _ _ handled
  refine ⟨packet, opened, ?_⟩
  split at done
  · rename_i content
    obtain ⟨h', sent, done⟩ := bind_ok done
    cases done
    refine ⟨?_, ?_⟩
    · obtain ⟨⟨encrypted, finalized⟩, _, sent⟩ := bind_ok sent
      cases sent
      have same : announced (h.effects ++ sendEffects encrypted finalized ++
          [.notifySession (.msgsAckSent finalized.messageId [packet.messageId])]) = announced h.effects := by
        simp [announced, sendEffects, SessionEffect.message?]
      exact same.trans seen
    · rw [sendSessionAck_acked sent, quiet, if_pos content]
      rfl
  · rename_i other
    cases done
    exact ⟨seen, quiet.trans (if_neg other).symm⟩

/-- The acknowledgement is right exactly when no other content-related message is nested in the packet. -/
theorem acked_iff {result : ReceivePacketResult}
    (accepted : receivePacket cipher state payload nowNs paddingBytes = .ok result) :
    ∃ packet, decodeEncryptedPacket cipher payload state.key .server (some state.sessionId) = .ok packet ∧
      announced result.effects = packet.outer :: packet.nested ∧
      (((acked result.effects).Nodup ∧ ∀ id, id ∈ acked result.effects ↔
          ∃ message ∈ packet.outer :: packet.nested, contentRelated message.seqNo ∧ message.messageId = id) ↔
        ∀ message ∈ packet.nested, contentRelated message.seqNo →
          contentRelated packet.seqNo ∧ message.messageId = packet.messageId) := by
  obtain ⟨packet, opened, seen, ids⟩ := receivePacket_acked accepted
  refine ⟨packet, opened, seen, ?_⟩
  rw [ids]
  constructor
  · rintro ⟨_, exact_⟩ message inside content
    have listed := (exact_ message.messageId).mpr ⟨message, mem_cons_of_mem _ inside, content, rfl⟩
    split at listed
    · rename_i outer
      exact ⟨outer, mem_singleton.mp listed⟩
    · cases listed
  · intro alone
    by_cases outer : contentRelated packet.seqNo = true
    · rw [if_pos outer]
      refine ⟨nodup_singleton _, fun id => ⟨?_, ?_⟩⟩
      · intro listed
        exact ⟨packet.outer, mem_cons_self, outer, (mem_singleton.mp listed).symm⟩
      · rintro ⟨message, inside, content, rfl⟩
        rcases mem_cons.mp inside with rfl | nested
        · exact mem_singleton.mpr rfl
        · exact mem_singleton.mpr (alone message nested content).2
    · rw [if_neg outer]
      refine ⟨nodup_nil, fun id => ⟨fun listed => (by cases listed), ?_⟩⟩
      rintro ⟨message, inside, content, rfl⟩
      rcases mem_cons.mp inside with rfl | nested
      · exact absurd content outer
      · exact absurd (alone message nested content).1 outer

end Acked

section Samples

theorem toOption_ok {ε α : Type} {x : Except ε α} {a : α} (done : x.toOption = some a) : x = .ok a := by
  cases x with
  | error => cases done
  | ok => exact congrArg Except.ok (Option.some.inj done)

def sampleSession : Session where
  key := sampleKey
  serverSalt := 1
  sessionId := 2
  timeOffset := 0

/-- What follows when the packet is opened. -/
theorem receivePacket_opened {cipher : Cipher} {state : Session} {payload : Bytes} {packet : EncryptedPacket}
    (opened : decodeEncryptedPacket cipher payload state.key .server (some state.sessionId) = .ok packet)
    (nowNs : BitVec 64) (paddingBytes : Bytes) : receivePacket cipher state payload nowNs paddingBytes = (do
      let h ← handleSessionMessage (packet.body.length + 1) packet.outer
        ({ state : Handling }.notify (.sessionMessageReceived packet.messageId packet.seqNo packet.body))
      let h ← if contentRelated packet.seqNo then sendSessionAck cipher h nowNs [packet.messageId] paddingBytes else pure h
      return { next := h.state, effects := h.effects }) := by
  unfold receivePacket
  rw [opened]
  rfl

def singlePacket : EncryptedPacket :=
  { salt := 1, sessionId := 2, messageId := 9, seqNo := 1, body := [0xde, 0xad, 0xbe, 0xef]
    padding := replicate 12 0 }

theorem singlePacket_opens :
    decodeEncryptedPacket Cipher.aes (sealedPacket singlePacket .server) sampleKey .server (some 2) = .ok singlePacket :=
  sealedPacket_opens .server rfl rfl (by decide)

theorem single_message_acked : ∃ result packet,
      receivePacket Cipher.aes sampleSession (sealedPacket singlePacket .server) 1000000000 (replicate 28 0) =
        .ok result ∧
      decodeEncryptedPacket Cipher.aes (sealedPacket singlePacket .server) sampleKey .server (some 2) = .ok packet ∧
      acked result.effects = [9] ∧ (((acked result.effects).Nodup ∧ ∀ id, id ∈ acked result.effects ↔
          ∃ message ∈ packet.outer :: packet.nested, contentRelated message.seqNo ∧ message.messageId = id) ↔
        ∀ message ∈ packet.nested, contentRelated message.seqNo →
          contentRelated packet.seqNo ∧ message.messageId = packet.messageId) := by
  obtain ⟨encrypted, made⟩ := @finalize_filled Cipher.aes Cipher.aes_lawful sampleSession
    (makeSessionPacket sampleSession 1000000000 (encodeMsgsAckBody [9]) false) _ (replicate 28 0) rfl rfl (by decide) rfl
  obtain ⟨result, accepted⟩ : ∃ result, receivePacket Cipher.aes sampleSession (sealedPacket singlePacket .server)
      1000000000 (replicate 28 0) = .ok result := by
    rw [@receivePacket_opened Cipher.aes sampleSession _ singlePacket singlePacket_opens]
    obtain ⟨h, handled, state⟩ : ∃ h, handleSessionMessage (singlePacket.body.length + 1) singlePacket.outer
        ({ state := sampleSession : Handling }.notify (.sessionMessageReceived singlePacket.messageId singlePacket.seqNo
          singlePacket.body)) = .ok h ∧ h.state = sampleSession := ⟨_, rfl, rfl⟩
    obtain ⟨after, acks⟩ : ∃ after, sendSessionAck Cipher.aes h 1000000000 [9] (replicate 28 0) = .ok after := by
      unfold sendSessionAck
      rw [state, made]
      exact ⟨_, rfl⟩
    rw [handled]
    refine ⟨{ next := after.state, effects := after.effects }, ?_⟩
    show (sendSessionAck Cipher.aes h 1000000000 [9] (replicate 28 0) >>= fun _ => _) = _
    rw [acks]
    rfl
  obtain ⟨packet, opened, _, right⟩ := acked_iff accepted
  obtain ⟨packet', opened', _, ids⟩ := receivePacket_acked accepted
  cases opened'.symm.trans singlePacket_opens
  exact ⟨result, packet, accepted, opened, ids, right⟩

/-- A container with a content-related message in it, from the server. -/
def containerPacket : EncryptedPacket :=
  { salt := 1, sessionId := 2, messageId := 9, seqNo := 2
    body :=
      [0xdc, 0xf8, 0xf1, 0x73, 1, 0, 0, 0, 5, 0, 0, 0, 0, 0, 0, 0, 1, 0, 0, 0, 4, 0, 0, 0, 0, 0, 0, 0]
    padding := replicate 20 0 }

theorem containerPacket_opens :
    decodeEncryptedPacket Cipher.aes (sealedPacket containerPacket .server) sampleKey .server (some 2) =
      .ok containerPacket := sealedPacket_opens .server rfl rfl (by decide)

theorem nested_message_not_acked : ∃ result packet,
      receivePacket Cipher.aes sampleSession (sealedPacket containerPacket .server) 1000000000 [] = .ok result ∧
      decodeEncryptedPacket Cipher.aes (sealedPacket containerPacket .server) sampleKey .server (some 2) = .ok packet ∧
      ¬ ((acked result.effects).Nodup ∧ ∀ id, id ∈ acked result.effects ↔
        ∃ message ∈ packet.outer :: packet.nested, contentRelated message.seqNo ∧ message.messageId = id) := by
  have seen : (receivePacket Cipher.aes sampleSession (sealedPacket containerPacket .server) 1000000000 []).toOption.map
      (fun result => (acked result.effects, (announced result.effects).map fun message => (message.messageId, message.seqNo))) =
        some ([], [(9, 2), (5, 1)]) := by
    rw [@receivePacket_opened Cipher.aes sampleSession _ containerPacket containerPacket_opens]
    decide +kernel
  obtain ⟨result, accepted, known⟩ := Option.map_eq_some_iff.mp seen
  have accepted := toOption_ok accepted
  obtain ⟨packet, opened, messages, _⟩ := receivePacket_acked accepted
  have none_ := congrArg Prod.fst known
  have listed := congrArg Prod.snd known
  dsimp only at none_ listed
  rw [messages] at listed
  refine ⟨result, packet, accepted, opened, ?_⟩
  rintro ⟨_, exact_⟩
  have five : (5, 1) ∈ (packet.outer :: packet.nested).map fun message => (message.messageId, message.seqNo) := by
    rw [listed]
    decide
  obtain ⟨message, inside, same⟩ := mem_map.mp five
  have id := congrArg Prod.fst same
  have seqNo := congrArg Prod.snd same
  dsimp only at id seqNo
  have acked' := (exact_ 5).mpr ⟨message, inside, by rw [seqNo]; decide, id⟩
  rw [none_] at acked'
  cases acked'

end Samples

end Nxt.Mt
