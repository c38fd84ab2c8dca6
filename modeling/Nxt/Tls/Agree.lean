import Nxt.Tls.Peer

/- The session and the server keep the same keys, and the reads give the data the server sent. -/
namespace Nxt.Tls
open Nxt.Lib List

section Sealing
variable {p : Primitives} {keys : ReadKeys}

theorem updated_fit (lawful : Lawful p) (keys : ReadKeys) : (updateKeys p keys).Fit := derived_fit lawful _

structure Readable (p : Primitives) (keys : ReadKeys) (bytes content : Bytes) (type : Nat) (record : Record) : Prop where
  bytes : bytes = recordBytes record
  typed : record.type = 23
  versioned : record.version = 0x0303
  short : record.payload.length < 2 ^ 16
  opens : openRecord p keys record = .ok ({ content, innerType := type }, keys.next)

theorem sealedBytes_readable (lawful : Lawful p) (fit : keys.Fit) {content : Bytes} {type : UInt8} {padding : Nat}
    (typed : type ≠ 0) (short : content.length + padding ≤ 16384) :
    ∃ record, Readable p keys (sealedBytes p keys (content ++ [type] ++ replicate padding 0)) content type.toNat record := by
  obtain ⟨record, same, type', version, length, opens⟩ := sealed_opens lawful fit content padding typed
  refine ⟨record, ?_, type', version, by omega, opens⟩
  unfold sealedBytes
  rw [same]

theorem Readable.read {bytes content : Bytes} {type : Nat} {record : Record} (readable : Readable p keys bytes content type record)
    (rest : Bytes) : readRecord (bytes ++ rest) = .ok (record, rest) := by
  rw [readable.bytes]
  exact readRecord_append (by rw [readable.typed]; decide) (by rw [readable.versioned]; decide) readable.short rest

theorem Readable.readSegments {bytes content more : Bytes} {type : Nat} {record : Record} {segments : List Bytes}
    (readable : Readable p keys bytes content type record) (same : segments.flatten = bytes ++ more) :
    ∃ rest, readRecordIntoStorage segments = .ok (record, rest) ∧ rest.flatten = more := by
  rw [readable.bytes] at same
  exact readRecordIntoStorage_recordBytes (by rw [readable.typed]; decide) (by rw [readable.versioned]; decide)
    readable.short same

theorem sealRecord_bytes (lawful : Lawful p) (fit : keys.Fit) (content : Bytes) (type : Nat) :
    sealRecord p keys type content = .ok (sealedBytes p keys (content ++ [UInt8.ofNat type]), keys.next) := by
  obtain ⟨nonce, same, length⟩ := recordNonce_ok fit.iv keys.sequence
  have size := lawful.tagged (recordAad 23 0x0303 ((content ++ [UInt8.ofNat type]).length + 16))
    (content ++ [UInt8.ofNat type]) fit.key length
  unfold sealRecord sealedBytes sealed
  rw [same]
  show Except.ok (recordAad 23 0x0303 ((content ++ [UInt8.ofNat type]).length + 16) ++ _, _) =
    Except.ok (recordAad 23 0x0303 (p.aes128gcmSeal keys.key nonce
      (recordAad 23 0x0303 ((content ++ [UInt8.ofNat type]).length + 16)) (content ++ [UInt8.ofNat type])).length ++ _, _)
  rw [size]
  rfl

end Sealing

section Messages
variable {p : Primitives}

variable {message input : Bytes} {n : Nat}

theorem isMessage_size (whole : IsMessage message) : 4 ≤ message.length ∧ messageSize message = message.length := by
  unfold IsMessage nextMessage at whole
  split at whole
  · cases whole
  · rename_i bounds
    exact ⟨by omega, (Prod.mk.inj (Option.some.inj whole)).2⟩

theorem PostHandshake.whole (valid : PostHandshake message) :
    IsMessage message ∧ message.length ≤ maxFlightSize - 16384 := by
  rcases valid with ⟨requested, _, rfl⟩ | ⟨whole, _, bound⟩
  · exact ⟨isMessage_of_size (by simp [keyUpdate]) rfl, show 5 ≤ maxFlightSize - 16384 by decide⟩
  · exact ⟨whole, bound⟩

theorem Fragment.header (fragment : Fragment input) (waits : nextMessage input = none)
    (header : 4 ≤ input.length) : messageSize input ≤ maxFlightSize ∧ input.length < messageSize input := by
  have drained := messages.drain_none waits
  have begins := fragment.begins
  rw [drained] at begins
  have some_ : input ≠ [] := by
    intro nothing
    rw [nothing] at header
    exact absurd header (by decide)
  obtain ⟨more, valid⟩ := begins some_
  obtain ⟨whole, bound⟩ := valid.whole
  have size := (isMessage_size whole).2
  rw [messageSize_append more header] at size
  have record : maxFlightSize - 16384 ≤ maxFlightSize := Nat.sub_le ..
  refine ⟨by omega, ?_⟩
  unfold nextMessage at waits
  split at waits
  · omega
  · cases waits

theorem Fragment.rest (fragment : Fragment input) (found : nextMessage input = some (message, n)) :
    PostHandshake message ∧ Fragment (input.drop n) := by
  have drained := messages.drain_some found
  obtain ⟨valid, begins, ends⟩ := fragment
  rw [drained] at valid begins ends
  obtain ⟨first, later⟩ := forall_mem_cons.mp valid
  refine ⟨first, later, begins, ?_⟩
  intro front back requested same
  exact @ends (message :: front) back requested (congrArg (message :: ·) same)

/-- What the messages change. -/
def processed (p : Primitives) (s : Processed) (ms : List Bytes) (rest : Bytes) : Processed where
  keys :=
    { server := if updates ms then updateKeys p s.keys.server else s.keys.server
      client := if requests ms = 0 then s.keys.client else s.keys.client.next }
  rest := rest
  reply := if requests ms = 0 then s.reply else some (sealedBytes p s.keys.client (keyUpdate 0 ++ [22]))
  updated := s.updated || updates ms

theorem processed_none (s : Processed) : processed p s [] s.rest = s := by
  cases s
  simp [processed, updates, requests]

theorem processed_skip {s : Processed} (other : message.getD 0 0 ≠ 24) (ms : List Bytes)
    (rest rest' : Bytes) : processed p s (message :: ms) rest = processed p { s with rest := rest' } ms rest := by
  have different : message ≠ keyUpdate 1 := by
    intro same
    rw [same] at other
    exact other rfl
  have updates_ : updates (message :: ms) = updates ms := by
    unfold updates
    rw [any_cons, decide_eq_false other, Bool.false_or]
  have requests_ : requests (message :: ms) = requests ms := count_cons_of_ne different
  simp only [processed, updates_, requests_]

theorem processMessages_waits (fuel : Nat) (s : Processed) (fragment : Fragment s.rest)
    (waits : nextMessage s.rest = none) : processMessages p fuel s = .ok s := by
  cases fuel with
  | zero => rfl
  | succ fuel =>
    rw [processMessages]
    by_cases short : s.rest.length < 4
    · rw [if_pos short]
    · obtain ⟨bound, more⟩ := fragment.header waits (by omega)
      rw [if_neg short, require_pass (by simpa using bound)]
      show (if s.rest.length < messageSize s.rest then Except.ok s else _) = _
      rw [if_pos more]

theorem nextMessage_inv (found : nextMessage input = some (message, n)) : 4 ≤ input.length ∧
    messageSize input ≤ input.length ∧ message = input.take (messageSize input) ∧ n = messageSize input := by
  unfold nextMessage at found
  split at found
  · cases found
  · cases found
    exact ⟨by omega, by omega, rfl, rfl⟩

theorem first_getD (input : Bytes) : (input.take (messageSize input)).getD 0 0 = input.getD 0 0 := by
  have within : 0 < messageSize input := Nat.lt_of_lt_of_le (by decide : 0 < 4) (Nat.le_add_right ..)
  simp only [getD_eq_getElem?_getD, getElem?_take, if_pos within]

theorem processMessages_skip (fuel : Nat) (s : Processed)
    (found : nextMessage s.rest = some (message, n)) (bound : message.length ≤ maxFlightSize)
    (other : message.getD 0 0 ≠ 24) :
    processMessages p (fuel + 1) s = processMessages p fuel { s with rest := s.rest.drop n } := by
  obtain ⟨header, whole, taken, size⟩ := nextMessage_inv found
  have length : message.length = messageSize s.rest := by
    rw [taken, length_take]
    omega
  have type : s.rest.getD 0 0 ≠ 24 := by
    rwa [taken, first_getD] at other
  rw [processMessages, if_neg (by omega), require_pass (by simpa [← length] using bound), size]
  show (if s.rest.length < messageSize s.rest then Except.ok s else _) = _
  rw [if_neg (by omega), if_pos type]

theorem processMessages_update (lawful : Lawful p) (fuel : Nat) (s : Processed) (fit : s.keys.client.Fit)
    {requested : UInt8} (binary : requested = 0 ∨ requested = 1) (rest : s.rest = keyUpdate requested) :
    processMessages p (fuel + 1) s = .ok (processed p s [keyUpdate requested] []) := by
  have length : s.rest.length = 5 := by rw [rest]; rfl
  have size : messageSize s.rest = 5 := by rw [rest]; rfl
  have type : ¬ s.rest.getD 0 0 ≠ 24 := by rw [rest]; exact not_not.mpr rfl
  have value : s.rest.getD 4 0 = requested := by rw [rest]; rfl
  have nothing : s.rest.drop 5 = [] := drop_eq_nil_of_le (by omega)
  have valid : (decide (5 = 5) && decide (5 = 5) && (decide (requested = 0) || decide (requested = 1))) = true := by
    rcases binary with rfl | rfl <;> rfl
  rw [processMessages, if_neg (by omega), size, length, require_pass (by decide)]
  dsimp only [bind, Except.bind]
  rw [if_neg (by decide), if_neg type, value, require_pass valid, nothing]
  dsimp only
  rcases binary with rfl | rfl
  · have kinds : updates [keyUpdate 0] = true ∧ requests [keyUpdate 0] = 0 := by decide
    have ends (t : Processed) (nothing : t.rest = []) : processMessages p fuel t = .ok t := by
      cases fuel with
      | zero => rfl
      | succ fuel => rw [processMessages, if_pos (by rw [nothing]; decide)]
    rw [if_neg (by decide), ends _ rfl, processed, kinds.1, kinds.2, Bool.or_true]
    rfl
  · have kinds : updates [keyUpdate 1] = true ∧ requests [keyUpdate 1] = 1 := by decide
    rw [if_pos rfl, sealRecord_bytes lawful fit, processed, kinds.1, kinds.2, Bool.or_true]
    rfl

theorem processMessages_fragment (lawful : Lawful p) (fuel : Nat) (s : Processed) (enough : s.rest.length ≤ fuel)
    (fragment : Fragment s.rest) (fit : s.keys.client.Fit) :
    processMessages p fuel s = .ok (processed p s (messages.drain s.rest).1 (messages.drain s.rest).2) := by
  induction fuel generalizing s with
  | zero =>
    have nothing : s.rest = [] := length_eq_zero_iff.mp (by omega)
    rw [processMessages_waits 0 s fragment (by rw [nothing]; rfl), nothing, messages.drain_none rfl, ← nothing,
      processed_none]
  | succ fuel ih =>
    cases found : nextMessage s.rest with
    | none => rw [processMessages_waits _ s fragment found, messages.drain_none found, processed_none]
    | some next =>
      obtain ⟨message, n⟩ := next
      obtain ⟨valid, later⟩ := fragment.rest found
      have drained := messages.drain_some found
      rcases valid with ⟨requested, binary, same⟩ | ⟨whole, other, bound⟩
      · have last := @Fragment.ends _ fragment [] (messages.drain (s.rest.drop n)).1 requested (by rw [drained, same]; rfl)
        have covered := drained_flatten s.rest
        rw [last.2, drained, last.1, same] at covered
        rw [last.2, drained, last.1, same]
        exact processMessages_update lawful fuel s fit binary (by rw [← covered]; simp)
      · have bounds := messages.progress found
        have shorter : (s.rest.drop n).length ≤ fuel := by
          rw [length_drop]
          omega
        have rest := ih { s with rest := s.rest.drop n } shorter later fit
        rw [processMessages_skip fuel s found (bound.trans (Nat.sub_le ..)) other, rest, drained]
        dsimp only
        rw [processed_skip other]

end Messages

section Turns
variable {p : Primitives}

def Session.serverSide (s : Session) : ServerState := { keys := s.keys.server, begun := s.postHandshake }

def replyBytes (p : Primitives) (s : Session) (sent : Sent) : Option Bytes :=
  if requests (completed s.serverSide sent) = 0 then none else some (sealedBytes p s.keys.client (keyUpdate 0 ++ [22]))

def clientAfter (p : Primitives) (s : Session) (sent : Sent) : ReadKeys :=
  if requests (completed s.serverSide sent) = 0 then s.keys.client else updateKeys p s.keys.client

/-- The session when its reply, if there is one, has been written. -/
def sessionAfter (p : Primitives) (s : Session) (sent : Sent) : Session :=
  { s with
    keys := { server := ((server p).after s.serverSide sent).keys, client := clientAfter p s sent }
    postHandshake := ((server p).after s.serverSide sent).begun
    closeNotifyReceived := s.closeNotifyReceived || sent.closes }

/-- The session while its reply, if there is one, is being written. -/
def sessionHeld (p : Primitives) (s : Session) (sent : Sent) : Session :=
  if requests (completed s.serverSide sent) = 0 then sessionAfter p s sent
  else
    { s with
      keys := { server := ((server p).after s.serverSide sent).keys, client := s.keys.client.next }
      postHandshake := s.postHandshake ++ sent.content }

def Tells : Sent → Option Event → Prop
  | .data content _, event => event = some { kind := .applicationData, contentType := 23, content }
  | .closeNotify _, event => event = some { kind := .alert, contentType := 21, content := [1, 0] }
  | .handshake _ _, event => ∀ e, event = some e → e.kind = .handshake

structure Takes (p : Primitives) (s : Session) (sent : Sent) (turn : Turn) : Prop where
  session : turn.session = sessionHeld p s sent
  reply : turn.reply = replyBytes p s sent
  event : Tells sent turn.event

variable {s : Session} {record : Record} {content : Bytes} {padding : Nat}

theorem nextEventTurn_data (typed : record.type = 23)
    (opens : openRecord p s.keys.server record = .ok ({ content, innerType := 23 }, s.keys.server.next))
    (apart : s.postHandshake = []) : ∃ turn, nextEventTurn p s record = .ok turn ∧ Takes p s (.data content padding) turn := by
  unfold nextEventTurn
  rw [if_neg (by omega), opens]
  dsimp only [bind, Except.bind]
  rw [require_pass (by rw [apart]; rfl)]
  exact ⟨_, rfl, by simp [sessionHeld, sessionAfter, server, clientAfter, completed, requests, Session.serverSide, Sent.closes], rfl, rfl⟩

theorem nextEventTurn_close (typed : record.type = 23)
    (opens : openRecord p s.keys.server record = .ok ({ content := [1, 0], innerType := 21 }, s.keys.server.next))
    (apart : s.postHandshake = []) : ∃ turn, nextEventTurn p s record = .ok turn ∧ Takes p s (.closeNotify padding) turn := by
  unfold nextEventTurn
  rw [if_neg (by omega), opens]
  dsimp only [bind, Except.bind]
  rw [require_pass (by rw [apart]; rfl)]
  exact ⟨_, rfl, by simp [sessionHeld, sessionAfter, server, clientAfter, completed, requests, Session.serverSide, Sent.closes], rfl, rfl⟩

theorem Fragment.room {begun : Bytes} (fragment : Fragment (begun ++ content)) (waits : nextMessage begun = none)
    (short : content.length ≤ 16384) : content.length ≤ maxFlightSize - begun.length := by
  have record : 16384 ≤ maxFlightSize := by decide
  cases found : nextMessage (begun ++ content) with
  | none =>
    by_cases nothing : begun ++ content = []
    · rw [(append_eq_nil_iff.mp nothing).2]
      exact Nat.zero_le _
    · have begins := fragment.begins
      rw [messages.drain_none found] at begins
      obtain ⟨more, valid⟩ := begins nothing
      have bound := valid.whole.2
      rw [length_append, length_append] at bound
      omega
  | some next =>
    obtain ⟨message, n⟩ := next
    have bound := (fragment.rest found).1.whole.2
    obtain ⟨_, whole, taken, _⟩ := nextMessage_inv found
    have length : message.length = messageSize (begun ++ content) := by
      rw [taken, length_take]
      omega
    -- what was begun is shorter than the message it begins
    have part : begun.length < 4 ∨ begun.length < messageSize (begun ++ content) := by
      by_contra complete
      have header : 4 ≤ begun.length := by omega
      rw [messageSize_append content header] at complete
      unfold nextMessage at waits
      rw [if_neg complete] at waits
      cases waits
    have least : 4 ≤ messageSize (begun ++ content) := Nat.le_add_right ..
    omega

theorem nextEventTurn_handshake (lawful : Lawful p) (fit : s.keys.client.Fit) (typed : record.type = 23)
    (opens : openRecord p s.keys.server record = .ok ({ content, innerType := 22 }, s.keys.server.next))
    (some_ : content ≠ []) (fragment : Fragment (s.postHandshake ++ content))
    (room : content.length ≤ maxFlightSize - s.postHandshake.length) :
    ∃ turn, nextEventTurn p s record = .ok turn ∧ Takes p s (.handshake content padding) turn := by
  have run := processMessages_fragment lawful (s.postHandshake ++ content).length
    { keys := { s.keys with server := s.keys.server.next }, rest := s.postHandshake ++ content } le_rfl fragment fit
  have size : (!content.isEmpty && decide (content.length ≤ maxFlightSize - s.postHandshake.length)) = true := by
    simpa using ⟨some_, room⟩
  unfold nextEventTurn
  rw [if_neg (by omega), opens]
  dsimp only [bind, Except.bind]
  rw [require_pass (by rw [Bool.or_eq_true]; exact .inr rfl)]
  dsimp only
  rw [if_neg (by decide), if_pos rfl, require_pass size]
  dsimp only
  rw [run]
  by_cases none_ : requests (messages.drain (s.postHandshake ++ content)).1 = 0
  · have reply : replyBytes p s (.handshake content padding) = none := if_pos none_
    have session : ({ s with
        keys :=
          { client := s.keys.client
            server :=
              if updates (messages.drain (s.postHandshake ++ content)).1 then updateKeys p s.keys.server.next
              else s.keys.server.next }
        postHandshake := (messages.drain (s.postHandshake ++ content)).2 } : Session) =
        sessionHeld p s (.handshake content padding) := by
      have held : sessionHeld p s (.handshake content padding) = sessionAfter p s (.handshake content padding) := if_pos none_
      have after : clientAfter p s (.handshake content padding) = s.keys.client := if_pos none_
      rw [held, sessionAfter, after, show (Sent.handshake content padding).closes = false from rfl, Bool.or_false]
      rfl
    dsimp only [processed]
    rw [if_pos none_, if_pos none_, if_neg (by simp)]
    split
    · exact ⟨_, rfl, session, reply.symm, (fun _ never => by cases never)⟩
    · refine ⟨_, rfl, session, reply.symm, ?_⟩
      intro e same
      cases same
      rfl
  · have reply : replyBytes p s (.handshake content padding) =
        some (sealedBytes p s.keys.client (keyUpdate 0 ++ [22])) := if_neg none_
    have held : sessionHeld p s (.handshake content padding) = _ := if_neg none_
    dsimp only [processed]
    rw [if_neg none_, if_neg none_]
    exact ⟨_, rfl, held.symm, reply.symm, (fun _ never => by cases never)⟩

theorem Sent.type_ne_zero (sent : Sent) : sent.type ≠ 0 := by
  cases sent <;> simp [Sent.type]

theorem takes_allowed (lawful : Lawful p) {sent : Sent} (serverFit : s.keys.server.Fit)
    (clientFit : s.keys.client.Fit) (waits : nextMessage s.postHandshake = none)
    (allowed : Allowed s.serverSide s.closeNotifyReceived sent) :
    ∃ record turn, Readable p s.keys.server ((server p).emit s.serverSide sent) sent.content sent.type.toNat record ∧
      nextEventTurn p s record = .ok turn ∧ Takes p s sent turn := by
  obtain ⟨_, short, shape⟩ := allowed
  obtain ⟨record, readable⟩ := sealedBytes_readable lawful serverFit sent.type_ne_zero short
  cases sent with
  | data content padding =>
    obtain ⟨turn, done, takes⟩ := nextEventTurn_data readable.typed readable.opens shape
    exact ⟨record, turn, readable, done, takes⟩
  | closeNotify padding =>
    obtain ⟨turn, done, takes⟩ := nextEventTurn_close readable.typed readable.opens shape
    exact ⟨record, turn, readable, done, takes⟩
  | handshake content padding =>
    have length : content.length ≤ 16384 := (Nat.le_add_right ..).trans short
    have room := shape.2.room waits length
    obtain ⟨turn, done, takes⟩ := nextEventTurn_handshake lawful clientFit readable.typed readable.opens shape.1 shape.2 room
    exact ⟨record, turn, readable, done, takes⟩

theorem mem_of_requests {ms : List Bytes} (some_ : requests ms ≠ 0) : keyUpdate 1 ∈ ms :=
  count_pos_iff.mp (Nat.pos_of_ne_zero some_)

/-- The session goes on when its reply has been written. -/
theorem sessionHeld_replied {closed : Bool} {sent : Sent} (allowed : Allowed s.serverSide closed sent)
    (some_ : requests (completed s.serverSide sent) ≠ 0) : (sessionHeld p s sent).replied p = sessionAfter p s sent := by
  have held : sessionHeld p s sent = _ := if_neg some_
  have after : clientAfter p s sent = updateKeys p s.keys.client := if_neg some_
  obtain ⟨_, _, shape⟩ := allowed
  cases sent with
  | data content padding => exact absurd rfl some_
  | closeNotify padding => exact absurd rfl some_
  | handshake content padding =>
    obtain ⟨front, back, same, _⟩ := eq_append_cons_of_mem (mem_of_requests some_)
    have rest : ((server p).after s.serverSide (.handshake content padding)).begun = [] := (shape.2.ends same).2
    rw [held, sessionAfter, after, rest, show (Sent.handshake content padding).closes = false from rfl, Bool.or_false]
    rfl

theorem requests_completed {s : ServerState} {closed : Bool} {sent : Sent} (allowed : Allowed s closed sent) :
    requests (completed s sent) ≤ 1 := by
  obtain ⟨_, _, shape⟩ := allowed
  cases sent with
  | data content padding => exact Nat.zero_le _
  | closeNotify padding => exact Nat.zero_le _
  | handshake content padding =>
    by_cases held : keyUpdate 1 ∈ (messages.drain (s.begun ++ content)).1
    · obtain ⟨front, back, same, before⟩ := eq_append_cons_of_mem held
      have last := (shape.2.ends same).1
      show requests (messages.drain (s.begun ++ content)).1 ≤ 1
      rw [same, last, requests, count_append, count_eq_zero.mpr before]
      decide
    · show requests (messages.drain (s.begun ++ content)).1 ≤ 1
      rw [requests, count_eq_zero.mpr held]
      exact Nat.zero_le _

end Turns

section Sequences
variable {p : Primitives}

def AllAllowed (p : Primitives) : ServerState → Bool → List Sent → Prop
  | _, _, [] => True
  | s, closed, sent :: rest => Allowed s closed sent ∧ AllAllowed p ((server p).after s sent) sent.closes rest

/-- Whether the last record closes. -/
def closedAfter (closed : Bool) (sents : List Sent) : Bool := sents.foldl (fun _ sent => sent.closes) closed

theorem closedAfter_append (closed : Bool) (sents : List Sent) (sent : Sent) :
    closedAfter closed (sents ++ [sent]) = sent.closes := by
  simp [closedAfter]

theorem allAllowed_append {s : ServerState} {closed : Bool} {sents : List Sent} {sent : Sent}
    (all : AllAllowed p s closed sents) (allowed : Allowed ((server p).run s sents) (closedAfter closed sents) sent) :
    AllAllowed p s closed (sents ++ [sent]) := by
  induction sents generalizing s closed with
  | nil => exact ⟨allowed, trivial⟩
  | cons first sents ih => exact ⟨all.1, ih all.2 allowed⟩

theorem allAllowed_closed {s : ServerState} {sents : List Sent} (all : AllAllowed p s true sents) : sents = [] := by
  cases sents with
  | nil => rfl
  | cons sent sents => exact absurd all.1.1 Bool.noConfusion

theorem asked_append (s : ServerState) (sents : List Sent) (sent : Sent) :
    asked p s (sents ++ [sent]) = asked p s sents + requests (completed ((server p).run s sents) sent) := by
  induction sents generalizing s with
  | nil => simp [asked]
  | cons first sents ih =>
    rw [cons_append, asked, asked, ih, Nat.add_assoc]
    rfl

theorem server_waits (s : ServerState) (sent : Sent) (waits : nextMessage s.begun = none) :
    nextMessage ((server p).after s sent).begun = none := by
  cases sent with
  | data content padding => exact waits
  | closeNotify padding => exact waits
  | handshake content padding => exact messages.drain_waits _

theorem server_fit (lawful : Lawful p) (s : ServerState) (sent : Sent) (fit : s.keys.Fit) :
    ((server p).after s sent).keys.Fit := by
  cases sent with
  | data content padding => exact fit.next
  | closeNotify padding => exact fit.next
  | handshake content padding =>
    show (if updates _ then updateKeys p s.keys else s.keys.next).Fit
    split
    · exact updated_fit lawful s.keys
    · exact fit.next

theorem client_fit (lawful : Lawful p) (keys : ReadKeys) (written : Written) (fit : keys.Fit) :
    ((client p).after keys written).Fit := by
  cases written with
  | data content => exact fit.next
  | reply => exact updated_fit lawful keys

end Sequences

end Nxt.Tls
