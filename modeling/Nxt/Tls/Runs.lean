import Nxt.Tls.Agree

/- Runs of the session and the server. -/
namespace Nxt.Tls
open Nxt.Lib List

section Reads
variable {p : Primitives}

def streamedAfter (s : Session) (call : Call) : Sent → Session × Reading
  | .data content _ => copyPending { s with pending := content } call
  | .closeNotify _ => (s, .answered .eof [])
  | .handshake _ _ => (s, .waiting)

theorem streamTurn_takes {s : Session} {sent : Sent} {record : Record} {turn : Turn} (call : Call)
    (done : nextEventTurn p s record = .ok turn) (takes : Takes p s sent turn) :
    streamTurn p s call record = .ok ((streamedAfter (sessionHeld p s sent) call sent).1,
      (streamedAfter (sessionHeld p s sent) call sent).2, replyBytes p s sent) := by
  obtain ⟨session, reply, event⟩ := turn
  obtain ⟨rfl, rfl, tells⟩ := takes
  unfold streamTurn
  rw [done]
  dsimp only [bind, Except.bind]
  cases sent with
  | data content padding =>
    cases tells
    rfl
  | closeNotify padding =>
    cases tells
    rfl
  | handshake content padding =>
    cases event with
    | none => rfl
    | some e =>
      have kind := tells e rfl
      show Except.ok ((streamEvent _ call e).1, (streamEvent _ call e).2, _) = _
      unfold streamEvent
      rw [kind]
      rfl

theorem copyPending_given (s : Session) (call : Call) :
    ∃ n given, copyPending s call = ({ s with pendingOffset := s.pendingOffset + n }, .answered (.count n) given) ∧
      s.pending.drop s.pendingOffset = given ++ s.pending.drop (s.pendingOffset + n) ∧
      (0 < call.limit → s.pendingOffset < s.pending.length → 0 < n) := by
  refine ⟨_, _, rfl, ?_, ?_⟩
  · rw [← drop_drop, take_append_drop]
  · intro positive more
    rw [length_drop]
    split
    · omega
    · omega

theorem serverReceive_opens (lawful : Lawful p) {keys : ReadKeys} (fit : keys.Fit) (item : Written)
    (short : item.payload.length ≤ 16384) :
    ∃ content type record, Readable p keys ((client p).emit keys item) content type record ∧
      serverReceive p keys record = .ok ((client p).after keys item, item) := by
  cases item with
  | data content =>
    obtain ⟨record, readable⟩ := @sealedBytes_readable p keys lawful fit content 23 0 (by decide) short
    rw [replicate_zero, append_nil] at readable
    refine ⟨content, 23, record, readable, ?_⟩
    unfold serverReceive
    rw [readable.opens]
    rfl
  | reply =>
    obtain ⟨record, readable⟩ := @sealedBytes_readable p keys lawful fit (keyUpdate 0) 22 0 (by decide) (by decide)
    rw [replicate_zero, append_nil] at readable
    refine ⟨keyUpdate 0, 22, record, readable, ?_⟩
    unfold serverReceive
    rw [readable.opens]
    rfl

end Reads

section Runs
variable {p : Primitives}

/-- What holds between the session and the server whenever nothing is being written: `heard` of what the server
    sealed has been read, and `unopened` of what the client sealed is on its way. -/
structure Agrees (p : Primitives) (keys : ApplicationKeys) (w : World) (heard unheard : List Sent)
    (unopened : List Written) : Prop where
  incoming : (server p).Follows { keys := keys.server } w.sent w.toClient.flatten w.session.serverSide heard unheard
  serverState : w.serverState = (server p).run { keys := keys.server } w.sent
  allowed : AllAllowed p w.session.serverSide w.session.closeNotifyReceived unheard
  closed : w.closed = closedAfter w.session.closeNotifyReceived unheard
  given : w.delivered ++ w.session.pending.drop w.session.pendingOffset = heard.flatMap Sent.payload
  waiting : w.call ≠ none →
    w.session.pending = [] ∧ w.session.pendingOffset = 0 ∧ w.session.closeNotifyReceived = false
  ended : w.ended = true →
    w.session.closeNotifyReceived = true ∧ w.session.pending.drop w.session.pendingOffset = []
  begun : nextMessage w.session.postHandshake = none
  serverFit : w.session.keys.server.Fit
  clientFit : w.session.keys.client.Fit
  outgoing : (client p).Follows keys.client w.written w.toServer w.serverRead w.opened unopened
  clientKeys : w.session.keys.client = (client p).run keys.client w.written
  readFit : w.serverRead.Fit
  short : ∀ item ∈ unopened, item.payload.length ≤ 16384
  replies : w.written.count .reply = asked p { keys := keys.server } heard
  fine : w.failed = none

variable {keys : ApplicationKeys} {w : World} {heard unheard : List Sent} {unopened : List Written}

theorem agrees_start (serverFit : keys.server.Fit) (clientFit : keys.client.Fit) :
    Agrees p keys (worldStart keys) [] [] [] where
  incoming := Speaker.follows_start _
  serverState := rfl
  allowed := trivial
  closed := rfl
  given := rfl
  waiting := fun never => absurd rfl never
  ended := fun never => absurd never Bool.false_ne_true
  begun := rfl
  serverFit := serverFit
  clientFit := clientFit
  outgoing := Speaker.follows_start _
  clientKeys := rfl
  readFit := clientFit
  short := fun _ never => by cases never
  replies := rfl
  fine := rfl

section
variable (agrees : Agrees p keys w heard unheard unopened)
include agrees

theorem Agrees.send {sent : Sent} {segments : List Bytes}
    (allowed : Allowed w.serverState w.closed sent) (cut : segments.flatten = (server p).emit w.serverState sent) :
    Agrees p keys
      { w with
        serverState := (server p).after w.serverState sent, closed := sent.closes,
        toClient := w.toClient ++ segments, sent := w.sent ++ [sent] } heard (unheard ++ [sent]) unopened := by
  have said := agrees.incoming.say sent
  rw [← agrees.serverState, ← cut, ← flatten_append] at said
  have position : w.serverState = (server p).run w.session.serverSide unheard := by
    rw [agrees.serverState, agrees.incoming.split, Speaker.run_append, ← agrees.incoming.followed]
  refine { agrees with incoming := said, serverState := ?_, allowed := ?_, closed := (closedAfter_append ..).symm }
  · rw [Speaker.run_append, ← agrees.serverState]
    rfl
  · refine allAllowed_append agrees.allowed ?_
    rw [← position, ← agrees.closed]
    exact allowed

theorem Agrees.copies (call : Call) :
    Agrees p keys (w.reads (copyPending w.session call).1 call (copyPending w.session call).2) heard unheard unopened := by
  obtain ⟨n, given, copied, split, _⟩ := copyPending_given w.session call
  rw [copied]
  refine { agrees with given := ?_, waiting := fun never => absurd rfl never, ended := ?_ }
  · rw [← agrees.given, split, ← append_assoc]
    rfl
  · intro ended
    obtain ⟨closed, nothing⟩ := agrees.ended ended
    rw [split] at nothing
    exact ⟨closed, (append_eq_nil_iff.mp nothing).2⟩

theorem Agrees.read (call : Call) :
    Agrees p keys (w.reads (streamMore w.session call).1 call (streamMore w.session call).2) heard unheard unopened := by
  unfold streamMore
  split
  · refine { agrees with given := ?_, waiting := fun never => absurd rfl never }
    show w.delivered ++ [] ++ _ = _
    rw [append_nil]
    exact agrees.given
  · split
    · exact agrees.copies call
    · rename_i rest
      have nothing : w.session.pending.drop w.session.pendingOffset = [] := drop_eq_nil_of_le (by omega)
      have given := agrees.given
      rw [nothing, append_nil] at given
      dsimp only
      split
      · rename_i closed
        refine { agrees with
          given := ?_, waiting := fun never => absurd rfl never, ended := fun _ => ⟨closed, rfl⟩ }
        show w.delivered ++ [] ++ [] = _
        rw [append_nil, append_nil]
        exact given
      · rename_i closed
        refine { agrees with
          given := ?_, waiting := fun _ => ⟨rfl, rfl, Bool.eq_false_iff.mpr closed⟩, ended := ?_ }
        · show w.delivered ++ [] = _
          rw [append_nil]
          exact given
        · intro ended
          exact absurd (agrees.ended ended).1 closed

end

theorem Agrees.write (lawful : Lawful p) (agrees : Agrees p keys w heard unheard unopened) (bytes : Bytes) :
    ∃ s record, writeRecord p w.session bytes = .ok (s, record, bytes.drop (min bytes.length 16384)) ∧
      Agrees p keys
        { w with
          session := s, toServer := w.toServer ++ record, written := w.written ++ [.data (bytes.take 16384)] }
        heard unheard (unopened ++ [.data (bytes.take 16384)]) := by
  have same : bytes.take (min bytes.length 16384) = bytes.take 16384 := by
    rw [Nat.min_comm, ← take_eq_take_min]
  have bytes_ := sealRecord_bytes lawful agrees.clientFit (bytes.take 16384) 23
  refine ⟨{ w.session with keys := { w.session.keys with client := w.session.keys.client.next } },
    (client p).emit w.session.keys.client (.data (bytes.take 16384)), ?_, ?_⟩
  · unfold writeRecord
    dsimp only
    rw [same, bytes_]
    rfl
  · have said := agrees.outgoing.say (.data (bytes.take 16384))
    rw [← agrees.clientKeys] at said
    refine { agrees with
      clientFit := agrees.clientFit.next, outgoing := said, clientKeys := ?_, short := ?_, replies := ?_ }
    · rw [Speaker.run_append, ← agrees.clientKeys]
      rfl
    · refine forall_mem_append.mpr ⟨agrees.short, forall_mem_singleton.mpr ?_⟩
      show (bytes.take 16384).length ≤ 16384
      rw [length_take]
      exact Nat.min_le_left ..
    · rw [count_append, agrees.replies]
      rfl

theorem Agrees.receive (lawful : Lawful p) {item : Written} (agrees : Agrees p keys w heard unheard (item :: unopened)) :
    ∃ record rest, readRecord w.toServer = .ok (record, rest) ∧
      serverReceive p w.serverRead record = .ok ((client p).after w.serverRead item, item) ∧
      Agrees p keys
        { w with serverRead := (client p).after w.serverRead item, toServer := rest, opened := w.opened ++ [item] }
        heard unheard unopened := by
  obtain ⟨here, later⟩ := forall_mem_cons.mp agrees.short
  obtain ⟨content, type, record, readable, received⟩ := serverReceive_opens lawful agrees.readFit item here
  obtain ⟨carried, follows⟩ := agrees.outgoing.hear
  refine ⟨record, _, by rw [carried]; exact readable.read _, received, ?_⟩
  exact { agrees with outgoing := follows, readFit := client_fit lawful _ item agrees.readFit, short := later }

structure Replies (p : Primitives) (s : Session) (sent : Sent) : Prop where
  sealing : (replyBytes p s sent).getD [] = (client p).wire s.keys.client (replyOf (replyBytes p s sent))
  keys : clientAfter p s sent = (client p).run s.keys.client (replyOf (replyBytes p s sent))
  counted : (replyOf (replyBytes p s sent)).count .reply = requests (completed s.serverSide sent)
  short : ∀ item ∈ replyOf (replyBytes p s sent), item.payload.length ≤ 16384

theorem client_replies {s : Session} {sent : Sent} (single : requests (completed s.serverSide sent) ≤ 1) :
    Replies p s sent := by
  by_cases none_ : requests (completed s.serverSide sent) = 0
  · have nothing : replyBytes p s sent = none := if_pos none_
    have same : clientAfter p s sent = s.keys.client := if_pos none_
    refine ⟨?_, ?_, ?_, ?_⟩
    · rw [nothing]; rfl
    · rw [nothing, same]; rfl
    · rw [nothing, none_]; rfl
    · rw [nothing]
      intro item held
      cases held
  · have reply : replyBytes p s sent = some ((client p).emit s.keys.client .reply) := if_neg none_
    have same : clientAfter p s sent = updateKeys p s.keys.client := if_neg none_
    have one : replyOf (replyBytes p s sent) = [.reply] := by rw [reply]; rfl
    refine ⟨?_, ?_, ?_, ?_⟩
    · rw [one, reply, Speaker.wire, Speaker.wire, append_nil]
      rfl
    · rw [one, same]; rfl
    · rw [one, count_singleton_self]
      omega
    · rw [one]
      exact forall_mem_singleton.mpr (by decide)

theorem Agrees.takes (lawful : Lawful p) {sent : Sent} (agrees : Agrees p keys w heard (sent :: unheard) unopened)
    {call : Call} (waiting : w.call = some call) {rest : List Bytes}
    (left : rest.flatten = (server p).wire ((server p).after w.session.serverSide sent) unheard) :
    Agrees p keys
      { w with
        session := { sessionAfter p w.session sent with pending := sent.payload }, call := none, toClient := rest,
        toServer := w.toServer ++ (replyBytes p w.session sent).getD [],
        written := w.written ++ replyOf (replyBytes p w.session sent) }
      (heard ++ [sent]) unheard (unopened ++ replyOf (replyBytes p w.session sent)) := by
  obtain ⟨allowed, later⟩ := agrees.allowed
  obtain ⟨carried, follows⟩ := agrees.incoming.hear
  obtain ⟨nothing, offset, more⟩ := agrees.waiting (by rw [waiting]; exact Option.some_ne_none _)
  have reply := client_replies (p := p) (requests_completed allowed)
  have closes : (sessionAfter p w.session sent).closeNotifyReceived = sent.closes := by
    show (w.session.closeNotifyReceived || sent.closes) = _
    rw [more, Bool.false_or]
  refine { agrees with
    incoming := ?_, allowed := ?_, closed := ?_, given := ?_, waiting := fun never => absurd rfl never,
    ended := ?_, begun := server_waits _ sent agrees.begun, serverFit := server_fit lawful _ sent agrees.serverFit,
    clientFit := ?_, outgoing := ?_, clientKeys := ?_, short := forall_mem_append.mpr ⟨agrees.short, reply.short⟩,
    replies := ?_ }
  · rw [left]
    exact follows
  · show AllAllowed p _ (sessionAfter p w.session sent).closeNotifyReceived unheard
    rw [closes]
    exact later
  · show w.closed = closedAfter (sessionAfter p w.session sent).closeNotifyReceived unheard
    rw [closes]
    exact agrees.closed
  · have given := agrees.given
    rw [nothing, drop_nil, append_nil] at given
    show w.delivered ++ sent.payload.drop w.session.pendingOffset = _
    rw [offset, given, flatMap_append, flatMap_singleton]
    rfl
  · intro ended
    exact absurd ((agrees.ended ended).1.symm.trans more) Bool.noConfusion
  · show (clientAfter p w.session sent).Fit
    unfold clientAfter
    split
    · exact agrees.clientFit
    · exact updated_fit lawful _
  · have said := agrees.outgoing.speak (replyOf (replyBytes p w.session sent))
    rwa [← agrees.clientKeys, ← reply.sealing] at said
  · show clientAfter p w.session sent = _
    rw [Speaker.run_append, ← agrees.clientKeys]
    exact reply.keys
  · rw [count_append, agrees.replies, asked_append, ← agrees.incoming.followed, reply.counted]

theorem Agrees.record (lawful : Lawful p) {sent : Sent} (agrees : Agrees p keys w heard (sent :: unheard) unopened)
    {call : Call} (waiting : w.call = some call) :
    ∃ record rest, readRecordIntoStorage w.toClient = .ok (record, rest) ∧
      streamTurn p w.session call record = .ok ((streamedAfter (sessionHeld p w.session sent) call sent).1,
        (streamedAfter (sessionHeld p w.session sent) call sent).2, replyBytes p w.session sent) ∧
      (requests (completed w.session.serverSide sent) ≠ 0 → w.Requesting p) ∧
      Agrees p keys
        { w.reads (streamedAfter (sessionAfter p w.session sent) call sent).1 call
            (streamedAfter (sessionAfter p w.session sent) call sent).2 with
          toClient := rest, toServer := w.toServer ++ (replyBytes p w.session sent).getD [],
          written := w.written ++ replyOf (replyBytes p w.session sent) }
        (heard ++ [sent]) unheard (unopened ++ replyOf (replyBytes p w.session sent)) := by
  obtain ⟨allowed, later⟩ := agrees.allowed
  obtain ⟨record, turn, readable, done, takes⟩ :=
    takes_allowed lawful agrees.serverFit agrees.clientFit agrees.begun allowed
  obtain ⟨rest, read, left⟩ := readable.readSegments agrees.incoming.hear.1
  obtain ⟨nothing, offset, more⟩ := agrees.waiting (by rw [waiting]; exact Option.some_ne_none _)
  refine ⟨record, rest, read, streamTurn_takes call done takes, ?_, ?_⟩
  · intro some_
    cases sent with
    | data content padding => exact absurd rfl some_
    | closeNotify padding => exact absurd rfl some_
    | handshake content padding => exact ⟨record, rest, _, _, read, readable.opens, rfl, mem_of_requests some_⟩
  have taken := agrees.takes lawful waiting left
  have pending : (sessionAfter p w.session sent).pending = [] := nothing
  cases sent with
  | data content padding => exact taken.copies call
  | closeNotify padding =>
    refine { taken with given := ?_, waiting := fun never => absurd rfl never, ended := ?_ }
    · have given := taken.given
      show w.delivered ++ [] ++ (sessionAfter p w.session (.closeNotify padding)).pending.drop _ = _
      rw [pending, append_nil]
      exact given
    · intro _
      refine ⟨Bool.or_true _, ?_⟩
      show (sessionAfter p w.session (.closeNotify padding)).pending.drop _ = []
      rw [pending, drop_nil]
  | handshake content padding =>
    refine { taken with given := ?_, waiting := fun _ => ⟨pending, offset, ?_⟩, ended := ?_ }
    · have given := taken.given
      show w.delivered ++ (sessionAfter p w.session (.handshake content padding)).pending.drop _ = _
      rw [pending]
      exact given
    · show (w.session.closeNotifyReceived || false) = false
      rw [more, Bool.or_false]
    · intro ended
      exact absurd ((agrees.ended ended).1.symm.trans more) Bool.noConfusion

end Runs

section Writes
variable {p : Primitives} {w : World}

/-- The world when the sink has taken all that is being written, and the read has gone on that waits for this. -/
def World.settled (p : Primitives) (w : World) : World :=
  { w with
    session := if w.replying.isSome then w.session.replied p else w.session
    replying := none
    writing := none
    toServer := w.toServer ++ w.replying.getD [] ++ w.writing.getD [] }

theorem settled_session (quiet : w.replying = none) : (w.settled p).session = w.session := by
  simp [World.settled, quiet]

theorem reads_kept (w : World) (s : Session) (call : Call) (reading : Reading) :
    (w.reads s call reading).sent = w.sent ∧ (w.reads s call reading).closed = w.closed ∧
      (w.reads s call reading).session = s ∧ (w.reads s call reading).replying = w.replying ∧
      (w.reads s call reading).writing = w.writing := by
  cases reading with
  | waiting => exact ⟨rfl, rfl, rfl, rfl, rfl⟩
  | answered fare given => cases fare <;> exact ⟨rfl, rfl, rfl, rfl, rfl⟩

theorem reads_settled (quiet : w.replying = none) (s : Session) (call : Call) (reading : Reading) :
    (w.reads s call reading).settled p = (w.settled p).reads s call reading := by
  cases reading with
  | waiting => simp [World.settled, World.reads, quiet]
  | answered fare given => cases fare <;> simp [World.settled, World.reads, quiet]

/-- What holds at any time of a run that keeps the reply and the records of the application apart. -/
structure Holds (p : Primitives) (keys : ApplicationKeys) (w : World) (heard unheard : List Sent)
    (unopened : List Written) : Prop where
  agrees : Agrees p keys (w.settled p) heard unheard unopened
  apart : w.replying = none ∨ w.writing = none
  waits : w.replying ≠ none → w.call ≠ none

variable {keys : ApplicationKeys} {heard unheard : List Sent} {unopened : List Written}

theorem Holds.quiet (holds : Holds p keys w heard unheard unopened) (free : w.call = none) : w.replying = none := by
  by_contra busy
  exact holds.waits busy free

theorem Holds.read (holds : Holds p keys w heard unheard unopened) (call : Call) (free : w.call = none) :
    Holds p keys (w.reads (streamMore w.session call).1 call (streamMore w.session call).2) heard unheard unopened := by
  have quiet := holds.quiet free
  have kept := reads_kept w (streamMore w.session call).1 call (streamMore w.session call).2
  refine ⟨?_, .inl (kept.2.2.2.1.trans quiet), fun busy => absurd (kept.2.2.2.1.trans quiet) busy⟩
  rw [reads_settled quiet]
  have after := holds.agrees.read call
  rwa [settled_session quiet] at after

theorem Holds.record (lawful : Lawful p) {sent : Sent} (holds : Holds p keys w heard (sent :: unheard) unopened)
    {call : Call} (waiting : w.call = some call) (quiet : w.replying = none) (apart : w.Requesting p → w.writing = none) :
    ∃ record rest, readRecordIntoStorage w.toClient = .ok (record, rest) ∧
      streamTurn p w.session call record = .ok ((streamedAfter (sessionHeld p w.session sent) call sent).1,
        (streamedAfter (sessionHeld p w.session sent) call sent).2, replyBytes p w.session sent) ∧
      Holds p keys
        { w.reads (streamedAfter (sessionHeld p w.session sent) call sent).1 call
            (streamedAfter (sessionHeld p w.session sent) call sent).2 with
          toClient := rest, replying := replyBytes p w.session sent,
          written := w.written ++ replyOf (replyBytes p w.session sent) }
        (heard ++ [sent]) unheard (unopened ++ replyOf (replyBytes p w.session sent)) := by
  have allowed := holds.agrees.allowed.1
  obtain ⟨record, rest, read, turn, requesting, after⟩ := holds.agrees.record lawful waiting
  rw [settled_session quiet] at allowed turn requesting after
  refine ⟨record, rest, read, turn, ?_⟩
  by_cases none_ : requests (completed w.session.serverSide sent) = 0
  · have reply : replyBytes p w.session sent = none := if_pos none_
    have held : sessionHeld p w.session sent = sessionAfter p w.session sent := if_pos none_
    rw [reply] at after ⊢
    rw [held]
    refine ⟨?_, .inl rfl, fun busy => absurd rfl busy⟩
    -- nothing is added to what is being written
    generalize streamedAfter (sessionAfter p w.session sent) call sent = streamed at after ⊢
    obtain ⟨s, reading⟩ := streamed
    rw [World.settled, Option.getD_none, append_nil] at after
    cases reading with
    | waiting => simpa [World.settled, World.reads, quiet] using after
    | answered fare given => cases fare <;> simpa [World.settled, World.reads, quiet] using after
  · have reply : replyBytes p w.session sent = some (sealedBytes p w.session.keys.client (keyUpdate 0 ++ [22])) :=
      if_neg none_
    have replied := sessionHeld_replied (p := p) allowed none_
    have idle : w.writing = none := by
      refine apart ?_
      obtain ⟨record, rest, plaintext, keys, read, opens, typed, member⟩ := requesting none_
      rw [settled_session quiet] at opens member
      exact ⟨record, rest, plaintext, keys, read, opens, typed, member⟩
    cases sent with
    | data content padding => exact absurd rfl none_
    | closeNotify padding => exact absurd rfl none_
    | handshake content padding =>
      rw [reply] at after ⊢
      refine ⟨?_, .inr idle, fun _ => Option.some_ne_none _⟩
      have settled := after
      simpa [World.settled, World.reads, streamedAfter, quiet, idle, replied] using settled

theorem Holds.write (lawful : Lawful p) (holds : Holds p keys w heard unheard unopened) (quiet : w.replying = none)
    (idle : w.writing = none) (bytes : Bytes) :
    ∃ s record, writeRecord p w.session bytes = .ok (s, record, bytes.drop (min bytes.length 16384)) ∧
      Holds p keys
        { w with session := s, writing := some record, written := w.written ++ [.data (bytes.take 16384)] }
        heard unheard (unopened ++ [.data (bytes.take 16384)]) := by
  obtain ⟨s, record, done, after⟩ := holds.agrees.write lawful bytes
  rw [settled_session quiet] at done
  refine ⟨s, record, done, ?_, .inl quiet, fun busy => absurd quiet busy⟩
  simpa [World.settled, quiet, idle] using after

theorem Holds.receive (lawful : Lawful p) {item : Written} (holds : Holds p keys w heard unheard (item :: unopened))
    {record : Record} {rest : Bytes} (read : readRecord w.toServer = .ok (record, rest)) :
    serverReceive p w.serverRead record = .ok ((client p).after w.serverRead item, item) ∧
      Holds p keys
        { w with serverRead := (client p).after w.serverRead item, toServer := rest, opened := w.opened ++ [item] }
        heard unheard unopened := by
  obtain ⟨record', rest', read', received, after⟩ := holds.agrees.receive lawful
  have whole := extends_readRecord _ _ _ (extends_readRecord _ _ _ read (w.replying.getD [])) (w.writing.getD [])
  cases whole.symm.trans read'
  exact ⟨received, after, holds.apart, holds.waits⟩

theorem holds_start (serverFit : keys.server.Fit) (clientFit : keys.client.Fit) :
    Holds p keys (worldStart keys) [] [] [] :=
  ⟨agrees_start serverFit clientFit, .inl rfl, fun busy => absurd rfl busy⟩

theorem Holds.step (lawful : Lawful p) (holds : Holds p keys w heard unheard unopened) {w' : World}
    (step : ApartStep p w w') : ∃ heard' unheard' unopened', Holds p keys w' heard' unheard' unopened' := by
  have listens {record : Record} {rest : List Bytes} (read : readRecordIntoStorage w.toClient = .ok (record, rest)) :
      ∃ sent later, unheard = sent :: later := by
    cases unheard with
    | nil => exact absurd holds.agrees.incoming.caught_up.1 (readRecordIntoStorage_some read)
    | cons sent later => exact ⟨sent, later, rfl⟩
  have opens {record : Record} {rest : Bytes} (read : readRecord w.toServer = .ok (record, rest)) :
      ∃ item later, unopened = item :: later := by
    cases unopened with
    | nil =>
      have nothing : w.toServer = [] := by
        have none_ := holds.agrees.outgoing.caught_up.1
        exact (append_eq_nil_iff.mp (append_eq_nil_iff.mp none_).1).1
      rw [nothing] at read
      cases read
    | cons item later => exact ⟨item, later, rfl⟩
  obtain ⟨act, step, apart⟩ := step
  cases step with
  | send allowed cut => exact ⟨_, _, _, holds.agrees.send allowed cut, holds.apart, holds.waits⟩
  | read call free => exact ⟨_, _, _, holds.read call free⟩
  | record waiting quiet read turn =>
    obtain ⟨sent, later, rfl⟩ := listens read
    obtain ⟨record, rest, read', turn', after⟩ := holds.record lawful waiting quiet apart
    cases read.symm.trans read'
    cases turn.symm.trans turn'
    exact ⟨_, _, _, after⟩
  | fail waiting quiet read turn =>
    obtain ⟨sent, later, rfl⟩ := listens read
    obtain ⟨record, rest, read', turn', _⟩ := holds.record lawful waiting quiet apart
    cases read.symm.trans read'
    cases turn.symm.trans turn'
  | reply held =>
    have idle := holds.apart.resolve_left (by rw [held]; exact Option.some_ne_none _)
    have agrees := holds.agrees
    refine ⟨heard, unheard, unopened, ?_, .inr idle, fun _ => holds.waits (by rw [held]; exact Option.some_ne_none _)⟩
    simpa [World.settled, held, idle] using agrees
  | replied held =>
    have agrees := holds.agrees
    refine ⟨heard, unheard, unopened, ?_, .inl rfl, fun busy => absurd rfl busy⟩
    simpa [World.settled, held] using agrees
  | write idle some_ done =>
    obtain ⟨s, record, done', after⟩ := holds.write lawful apart idle _
    cases done.symm.trans done'
    exact ⟨_, _, _, after⟩
  | writeFail idle done =>
    obtain ⟨s, record, done', _⟩ := holds.write lawful apart idle _
    cases done.symm.trans done'
  | put held =>
    have quiet := holds.apart.resolve_right (by rw [held]; exact Option.some_ne_none _)
    have agrees := holds.agrees
    refine ⟨heard, unheard, unopened, ?_, .inl quiet, holds.waits⟩
    simpa [World.settled, held, quiet] using agrees
  | wrote held =>
    have agrees := holds.agrees
    refine ⟨heard, unheard, unopened, ?_, .inr rfl, holds.waits⟩
    simpa [World.settled, held] using agrees
  | receive read received =>
    obtain ⟨item, later, rfl⟩ := opens read
    obtain ⟨received', after⟩ := holds.receive lawful read
    cases received.symm.trans received'
    exact ⟨_, _, _, after⟩
  | receiveFail read received =>
    obtain ⟨item, later, rfl⟩ := opens read
    cases received.symm.trans (holds.receive lawful read).1

theorem holds_run (lawful : Lawful p) (serverFit : keys.server.Fit) (clientFit : keys.client.Fit)
    (run : Relation.ReflTransGen (ApartStep p) (worldStart keys) w) :
    ∃ heard unheard unopened, Holds p keys w heard unheard unopened := by
  induction run with
  | refl => exact ⟨_, _, _, holds_start serverFit clientFit⟩
  | tail _ step ih =>
    obtain ⟨_, _, _, holds⟩ := ih
    exact holds.step lawful step

end Writes

section Progress
variable {p : Primitives} {keys : ApplicationKeys} {w : World} {heard unheard : List Sent} {unopened : List Written}

def distance (w : World) (unheard : List Sent) : Nat :=
  (w.session.pending.length - w.session.pendingOffset) + (unheard.flatMap Sent.payload).length + 3 * unheard.length +
    (if w.call = none then 1 else 0) + w.replying.toList.length + w.writing.toList.length

theorem Agrees.complete (agrees : Agrees p keys w heard unheard unopened) (ended : w.ended = true) :
    w.closed = true ∧ w.delivered = w.sent.flatMap Sent.payload := by
  obtain ⟨closed, nothing⟩ := agrees.ended ended
  have allowed := agrees.allowed
  rw [closed] at allowed
  have last := allAllowed_closed allowed
  have whole := agrees.closed
  have given := agrees.given
  rw [last, closed] at whole
  rw [nothing, append_nil] at given
  rw [given, agrees.incoming.split, last, append_nil]
  exact ⟨whole, rfl⟩

theorem Agrees.more (agrees : Agrees p keys w heard unheard unopened) (closed : w.closed = true)
    (open_ : w.session.closeNotifyReceived = false) : ∃ sent later, unheard = sent :: later := by
  cases unheard with
  | nil =>
    have same := agrees.closed
    rw [closed, open_] at same
    cases same
  | cons sent later => exact ⟨sent, later, rfl⟩

theorem read_nearer {call : Call} (positive : 0 < call.limit) (free : w.call = none) :
    (w.reads (streamMore w.session call).1 call (streamMore w.session call).2).ended = true ∨
      distance (w.reads (streamMore w.session call).1 call (streamMore w.session call).2) unheard < distance w unheard := by
  unfold streamMore
  rw [if_neg (by omega)]
  split
  · rename_i more
    obtain ⟨n, given, copied, _, some_⟩ := copyPending_given w.session call
    have taken := some_ positive more
    rw [copied]
    right
    show (w.session.pending.length - (w.session.pendingOffset + n)) + _ + _ + 1 + w.replying.toList.length +
      w.writing.toList.length < _
    unfold distance
    rw [if_pos free]
    omega
  · dsimp only
    split
    · exact .inl rfl
    · right
      unfold distance
      rw [if_pos free, if_neg (by exact Option.some_ne_none _)]
      show 0 - 0 + _ + _ + 0 + w.replying.toList.length + w.writing.toList.length < _
      omega

theorem sessionHeld_pending (s : Session) (sent : Sent) :
    (sessionHeld p s sent).pending = s.pending ∧ (sessionHeld p s sent).pendingOffset = s.pendingOffset := by
  unfold sessionHeld
  split <;> exact ⟨rfl, rfl⟩

theorem streamed_distance (s : Session) (call : Call) (sent : Sent) (nothing : s.pending = []) :
    (streamedAfter s call sent).1.pending.length - (streamedAfter s call sent).1.pendingOffset ≤ sent.payload.length := by
  cases sent with
  | data content padding =>
    obtain ⟨n, given, copied, _⟩ := copyPending_given { s with pending := content } call
    show (copyPending _ call).1.pending.length - (copyPending _ call).1.pendingOffset ≤ content.length
    rw [copied]
    exact Nat.sub_le ..
  | closeNotify padding =>
    show s.pending.length - s.pendingOffset ≤ 0
    rw [nothing]
    exact (Nat.zero_sub _).le
  | handshake content padding =>
    show s.pending.length - s.pendingOffset ≤ 0
    rw [nothing]
    exact (Nat.zero_sub _).le

structure Nearer (p : Primitives) (keys : ApplicationKeys) (w w' : World) (unheard : List Sent) : Prop where
  sent : w'.sent = w.sent
  closed : w'.closed = w.closed
  holds : ∃ heard' unheard' unopened', Holds p keys w' heard' unheard' unopened' ∧
    (w'.ended = true ∨ distance w' unheard' < distance w unheard)

theorem Holds.advance (lawful : Lawful p) (holds : Holds p keys w heard unheard unopened) {call : Call}
    (positive : 0 < call.limit) (closed : w.closed = true) : Nearer p keys w (w.advance p call) unheard := by
  unfold World.advance
  cases replying : w.replying with
  | some bytes =>
    have idle := holds.apart.resolve_left (by rw [replying]; exact Option.some_ne_none _)
    have agrees := holds.agrees
    refine ⟨rfl, rfl, heard, unheard, unopened, ⟨?_, .inl rfl, fun busy => absurd rfl busy⟩, .inr ?_⟩
    · simpa [World.settled, replying, idle] using agrees
    · unfold distance
      rw [replying]
      exact Nat.add_lt_add_right (Nat.lt_succ_self _) _
  | none =>
    cases writing : w.writing with
    | some bytes =>
      have agrees := holds.agrees
      dsimp only
      refine ⟨rfl, rfl, heard, unheard, unopened, ⟨?_, .inr rfl, fun busy => absurd rfl busy⟩, .inr ?_⟩
      · simpa [World.settled, replying, writing] using agrees
      · unfold distance
        rw [replying, writing]
        exact Nat.lt_succ_self _
    | none =>
      cases state : w.call with
      | none =>
        have kept := reads_kept w (streamMore w.session call).1 call (streamMore w.session call).2
        dsimp only
        exact ⟨kept.1, kept.2.1, heard, unheard, unopened, holds.read call state, read_nearer positive state⟩
      | some waiting =>
        obtain ⟨nothing, offset, more⟩ := holds.agrees.waiting (by show w.call ≠ none; rw [state]; exact Option.some_ne_none _)
        obtain ⟨sent, later, rfl⟩ := holds.agrees.more closed more
        obtain ⟨record, rest, read, turn, after⟩ := holds.record lawful state replying (fun _ => writing)
        have kept := reads_kept w (streamedAfter (sessionHeld p w.session sent) waiting sent).1 waiting
          (streamedAfter (sessionHeld p w.session sent) waiting sent).2
        dsimp only
        rw [read]
        dsimp only
        rw [turn]
        refine ⟨kept.1, kept.2.1, _, _, _, after, .inr ?_⟩
        rw [settled_session replying] at nothing
        have size := streamed_distance (sessionHeld p w.session sent) waiting sent
          ((sessionHeld_pending w.session sent).1.trans nothing)
        have replies : (replyBytes p w.session sent).toList.length ≤ 1 := by
          cases replyBytes p w.session sent with
          | none => exact Nat.zero_le 1
          | some bytes => exact le_rfl
        unfold distance
        dsimp only
        rw [kept.2.2.1, kept.2.2.2.2, state, nothing, replying, writing, flatMap_cons, length_append, length_cons]
        split <;> simp only [length_nil, Option.toList_none, reduceCtorEq, if_false] <;> omega

theorem reads_ended {w : World} (ended : w.ended = true) (s : Session) (call : Call) (reading : Reading) :
    (w.reads s call reading).ended = true := by
  cases reading with
  | waiting => exact ended
  | answered fare given =>
    cases fare with
    | count n => exact ended
    | eof => rfl

theorem advance_ended {w : World} (ended : w.ended = true) (call : Call) : (w.advance p call).ended = true := by
  unfold World.advance
  split
  · exact ended
  · split
    · exact ended
    · split
      · exact reads_ended ended ..
      · split
        · exact ended
        · split
          · exact ended
          · exact reads_ended ended ..

def World.advances (p : Primitives) (w : World) (calls : List Call) : World := calls.foldl (fun w call => w.advance p call) w

theorem advance_step (w : World) (call : Call) : Relation.ReflTransGen (ApartStep p) w (w.advance p call) := by
  unfold World.advance
  split
  · rename_i bytes held
    have taken : ApartStep p w { w with replying := some [], toServer := w.toServer ++ bytes } :=
      ⟨.other, .reply (by rw [append_nil]; exact held), trivial⟩
    exact .tail (.single taken) ⟨.other, .replied rfl, trivial⟩
  · rename_i quiet
    split
    · rename_i bytes held
      have taken : ApartStep p w { w with writing := some [], toServer := w.toServer ++ bytes } :=
        ⟨.other, .put (by rw [append_nil]; exact held), trivial⟩
      exact .tail (.single taken) ⟨.other, .wrote rfl, trivial⟩
    · rename_i idle
      split
      · rename_i free
        exact .single ⟨.other, .read call free, trivial⟩
      · rename_i waiting held
        split
        · exact .refl
        · rename_i record rest read
          split
          · rename_i e failed
            exact .single ⟨.record, .fail held quiet read failed, fun _ => idle⟩
          · rename_i s reading reply turn
            exact .single ⟨.record, .record held quiet read turn, fun _ => idle⟩

theorem advances_run (calls : List Call) (w : World) : Relation.ReflTransGen (ApartStep p) w (w.advances p calls) := by
  induction calls generalizing w with
  | nil => exact .refl
  | cons call calls ih => exact (advance_step w call).trans (ih _)

theorem Holds.finishes (lawful : Lawful p) (calls : List Call) (holds : Holds p keys w heard unheard unopened)
    (closed : w.closed = true) (positive : ∀ call ∈ calls, 0 < call.limit)
    (enough : w.ended = true ∨ distance w unheard ≤ calls.length) :
    (w.advances p calls).ended = true ∧ (w.advances p calls).delivered = w.sent.flatMap Sent.payload := by
  induction calls generalizing w heard unheard unopened with
  | nil =>
    rcases enough with ended | enough
    · exact ⟨ended, (holds.agrees.complete ended).2⟩
    · -- a call waits for a record, and the server has none left to read
      exfalso
      unfold distance at enough
      rw [length_nil] at enough
      by_cases free : w.call = none
      · rw [if_pos free] at enough
        omega
      · obtain ⟨sent, later, rfl⟩ := holds.agrees.more closed (holds.agrees.waiting free).2.2
        rw [length_cons] at enough
        omega
  | cons call calls ih =>
    obtain ⟨first, rest⟩ := forall_mem_cons.mp positive
    obtain ⟨sent, closed', heard', unheard', unopened', after, nearer⟩ := holds.advance lawful first closed
    have later : (w.advance p call).ended = true ∨ distance (w.advance p call) unheard' ≤ calls.length := by
      rcases nearer with ended | nearer
      · exact .inl ended
      · rcases enough with ended | enough
        · exact .inl (advance_ended ended call)
        · rw [length_cons] at enough
          exact .inr (by omega)
    have result := ih after (closed'.trans closed) rest later
    rwa [sent] at result

end Progress

section Faithful
variable {p : Primitives}

/-- What holds of a session and a server at any time, `heard` being the records the session has read and
    `unopened` those of its own that the server has not. -/
structure Faithful (p : Primitives) (keys : ApplicationKeys) (w : World) (heard unheard : List Sent)
    (unopened : List Written) : Prop where
  fine : w.failed = none
  sent : w.sent = heard ++ unheard
  written : w.written = w.opened ++ unopened
  /-- The reads have given the data of the records that were read. -/
  delivered : w.delivered ++ w.session.pending.drop w.session.pendingOffset = heard.flatMap Sent.payload
  ended : w.ended = true → w.closed = true ∧ w.delivered = w.sent.flatMap Sent.payload
  /-- Once the server has closed, enough calls of any sizes give the rest and the end. -/
  finishes : w.closed = true → ∃ enough, ∀ calls : List Call, (∀ call ∈ calls, 0 < call.limit) →
    enough ≤ calls.length →
    (w.advances p calls).ended = true ∧ (w.advances p calls).delivered = w.sent.flatMap Sent.payload
  /-- The keys of either direction are those of the other side after the same records. -/
  serverSide : w.replying = none → w.session.serverSide = (server p).run { keys := keys.server } heard
  clientKeys : w.replying = none → w.session.keys.client = (client p).run keys.client w.written
  /-- While a reply is being written they are to be so when it has been. -/
  replied : w.replying ≠ none → (w.session.replied p).serverSide = (server p).run { keys := keys.server } heard ∧
    (w.session.replied p).keys.client = (client p).run keys.client w.written
  serverState : w.serverState = (server p).run { keys := keys.server } w.sent
  serverRead : w.serverRead = (client p).run keys.client w.opened
  /-- One reply for each request that was read. -/
  replies : w.written.count .reply = asked p { keys := keys.server } heard
  /-- The server opens what the client has sealed, when the sink has taken it. -/
  opens : ∀ item later, unopened = item :: later → ∃ record rest,
    readRecord (w.toServer ++ w.replying.getD [] ++ w.writing.getD []) = .ok (record, rest) ∧
    serverReceive p w.serverRead record = .ok ((client p).after w.serverRead item, item)
  /-- A read that waits goes on with the next record. -/
  continues : ∀ call, w.call = some call → w.replying = none → (w.Requesting p → w.writing = none) → unheard ≠ [] →
    ∃ record rest s reading reply, readRecordIntoStorage w.toClient = .ok (record, rest) ∧
      streamTurn p w.session call record = .ok (s, reading, reply)

/-- In every run that keeps replies and the application's records apart, the session and the server agree, and the
    reads give exactly the data that was sent. -/
theorem session_faithful (p : Primitives) (lawful : Lawful p) (handshakeSecret transcript : Bytes) (w : World)
    (run : Relation.ReflTransGen (ApartStep p) (worldStart (deriveApplicationKeys p handshakeSecret transcript)) w) :
    ∃ heard unheard unopened,
      Faithful p (deriveApplicationKeys p handshakeSecret transcript) w heard unheard unopened := by
  obtain ⟨heard, unheard, unopened, holds⟩ := holds_run lawful (derived_fit lawful _) (derived_fit lawful _) run
  have agrees := holds.agrees
  have side := agrees.incoming.followed
  have clientKeys := agrees.clientKeys
  have given := agrees.given
  have pending : (w.settled p).session.pending = w.session.pending ∧
      (w.settled p).session.pendingOffset = w.session.pendingOffset := by
    unfold World.settled
    dsimp only
    split <;> exact ⟨rfl, rfl⟩
  rw [pending.1, pending.2] at given
  refine ⟨heard, unheard, unopened, ?_⟩
  exact
    { fine := agrees.fine
      sent := agrees.incoming.split
      written := agrees.outgoing.split
      delivered := given
      ended := agrees.complete
      finishes := fun closed => ⟨distance w unheard, fun calls positive enough =>
        holds.finishes lawful calls closed positive (.inr enough)⟩
      serverSide := by
        intro quiet
        rwa [settled_session quiet] at side
      clientKeys := by
        intro quiet
        rwa [settled_session quiet] at clientKeys
      replied := by
        intro busy
        have session : (w.settled p).session = w.session.replied p := if_pos (Option.isSome_iff_ne_none.mpr busy)
        rw [session] at side clientKeys
        exact ⟨side, clientKeys⟩
      serverState := agrees.serverState
      serverRead := agrees.outgoing.followed
      replies := agrees.replies
      opens := by
        rintro item later rfl
        obtain ⟨record, rest, read, received, _⟩ := agrees.receive lawful
        exact ⟨record, rest, read, received⟩
      continues := by
        intro call waiting quiet apart more
        obtain ⟨sent, later, rfl⟩ := exists_cons_of_ne_nil more
        obtain ⟨record, rest, read, turn, _⟩ := holds.record lawful waiting quiet apart
        exact ⟨record, rest, _, _, _, read, turn⟩ }

end Faithful

section Samples
variable {p : Primitives}

def World.sends (p : Primitives) (w : World) (sent : Sent) : World :=
  { w with
    serverState := (server p).after w.serverState sent, closed := sent.closes,
    toClient := w.toClient ++ [(server p).emit w.serverState sent], sent := w.sent ++ [sent] }

theorem sends_run (sents : List Sent) (w : World) (allowed : AllAllowed p w.serverState w.closed sents) :
    Relation.ReflTransGen (ApartStep p) w (sents.foldl (fun w sent => w.sends p sent) w) := by
  induction sents generalizing w with
  | nil => exact .refl
  | cons sent sents ih =>
    have step : ApartStep p w (w.sends p sent) := ⟨.other, .send allowed.1 (by simp), trivial⟩
    exact (Relation.ReflTransGen.single step).trans (ih (w.sends p sent) allowed.2)

def World.writes (p : Primitives) (w : World) (bytes : Bytes) : World :=
  match writeRecord p w.session bytes with
  | .error e => { w with failed := some e }
  | .ok (s, record, _) =>
      { w with session := s, writing := some record, written := w.written ++ [.data (bytes.take 16384)] }

theorem writes_step (w : World) {bytes : Bytes} (idle : w.writing = none) (some_ : bytes ≠ []) :
    Step p .write w (w.writes p bytes) := by
  unfold World.writes
  split
  · rename_i e failed
    exact .writeFail idle failed
  · rename_i s record left done
    exact .write idle some_ done

def World.receives (p : Primitives) (w : World) : World :=
  match readRecord w.toServer with
  | .error _ => w
  | .ok (record, rest) =>
      match serverReceive p w.serverRead record with
      | .error e => { w with failed := some e }
      | .ok (keys, got) => { w with serverRead := keys, toServer := rest, opened := w.opened ++ [got] }

theorem receives_run (w : World) : Relation.ReflTransGen (ApartStep p) w (w.receives p) := by
  unfold World.receives
  split
  · exact .refl
  · rename_i record rest read
    split
    · rename_i e failed
      exact .single ⟨.other, .receiveFail read failed, trivial⟩
    · rename_i keys got received
      exact .single ⟨.other, .receive read received, trivial⟩

theorem drain_keyUpdate : messages.drain (keyUpdate 1) = ([keyUpdate 1], []) := by
  have drained := drain_whole [keyUpdate 1] (forall_mem_singleton.mpr (by unfold IsMessage; decide))
  rwa [flatten_cons, flatten_nil, append_nil] at drained

theorem fragment_keyUpdate : Fragment (keyUpdate 1) := by
  have drained := drain_keyUpdate
  refine ⟨?_, ?_, ?_⟩
  · rw [drained]
    exact forall_mem_singleton.mpr (.inl ⟨1, .inr rfl, rfl⟩)
  · rw [drained]
    exact fun never => absurd rfl never
  · rw [drained]
    intro front back requested same
    cases front with
    | nil => exact ⟨(cons.inj same).2.symm, rfl⟩
    | cons first front => exact absurd (cons.inj same).2.symm (by simp)

/-- The tag is the key, and the next key another one. -/
def keyed : Primitives :=
  { plain with
    hkdfExpandSha256 := fun secret _ length => replicate length (secret.getD 0 0 + 1)
    aes128gcmSeal := fun key _ _ plaintext => plaintext ++ key
    aes128gcmOpen := fun key _ _ ciphertext =>
      if ciphertext.drop (ciphertext.length - 16) = key then some (ciphertext.take (ciphertext.length - 16)) else none }

theorem keyed_lawful : Lawful keyed where
  expanded _ := length_replicate
  tagged aad plaintext key _ := by
    show (plaintext ++ _).length = _
    rw [length_append, key]
  opened := by
    intro key nonce aad plaintext length _
    show (if (plaintext ++ key).drop ((plaintext ++ key).length - 16) = key then
      some ((plaintext ++ key).take ((plaintext ++ key).length - 16)) else none) = _
    rw [length_append, length, Nat.add_sub_cancel, drop_left, if_pos rfl, take_left]

/-- A server that sends data, asks for new keys, sends more data and closes. -/
def sampleSent : List Sent := [.data [104, 105] 3, .handshake (keyUpdate 1) 0, .data [33] 0, .closeNotify 0]

def sampleStart : World := sampleSent.foldl (fun w sent => w.sends keyed sent) (worldStart (deriveApplicationKeys keyed [] []))

def sampleEnd : World := (((sampleStart.writes keyed [65]).advances keyed (replicate 14 { limit := 1, room := 0 })).receives
  keyed).receives keyed

theorem sample_allowed : AllAllowed keyed (worldStart (deriveApplicationKeys keyed [] [])).serverState false sampleSent := by
  have begun : (messages.drain (keyUpdate 1)).2 = [] := by rw [drain_keyUpdate]
  exact ⟨⟨rfl, by decide, rfl⟩, ⟨rfl, by decide, by decide, fragment_keyUpdate⟩, ⟨rfl, by decide, begun⟩,
    ⟨rfl, by decide, begun⟩, trivial⟩

/-- All of it is read, one byte at a time, the request is answered, and the server opens the answer after a record
    of the application. -/
theorem sample_session : sampleEnd.ended = true ∧ sampleEnd.delivered = [104, 105, 33] ∧
    sampleEnd.opened = [.data [65], .reply] ∧
    ∃ heard unheard unopened, Faithful keyed (deriveApplicationKeys keyed [] []) sampleEnd heard unheard unopened := by
  refine ⟨by decide +kernel, by decide +kernel, by decide +kernel, ?_⟩
  refine session_faithful keyed keyed_lawful [] [] sampleEnd ?_
  refine Relation.ReflTransGen.trans ?_ (receives_run _)
  refine Relation.ReflTransGen.trans ?_ (receives_run _)
  refine Relation.ReflTransGen.trans ?_ (advances_run _ _)
  exact (sends_run sampleSent _ sample_allowed).tail ⟨.write, writes_step sampleStart rfl (by decide), rfl⟩

/-- The server asks for new keys, and the reply to it is being written. -/
def replyingWorld : World :=
  ((worldStart (deriveApplicationKeys keyed [] [])).sends keyed (.handshake (keyUpdate 1) 0)).advances keyed
    (replicate 2 { limit := 1, room := 0 })

def racedWorld : World :=
  (((replyingWorld.writes keyed [65]).advances keyed (replicate 2 { limit := 1, room := 0 })).receives keyed).receives keyed

/-- A record that is written in between is sealed under the old key, and the server, which has changed its own,
    cannot open it. -/
theorem raced_write : Lawful keyed ∧
    Relation.ReflTransGen (AnyStep keyed) (worldStart (deriveApplicationKeys keyed [] [])) racedWorld ∧
    racedWorld.failed = some "failed to decrypt TLS record" ∧
    ¬ ∃ heard unheard unopened, Faithful keyed (deriveApplicationKeys keyed [] []) racedWorld heard unheard unopened := by
  have failed : racedWorld.failed = some "failed to decrypt TLS record" := by decide +kernel
  have any {w w' : World} (run : Relation.ReflTransGen (ApartStep keyed) w w') : Relation.ReflTransGen (AnyStep keyed) w w' :=
    Relation.ReflTransGen.mono (fun _ _ step => Exists.imp (fun _ both => both.1) step) _ _ run
  have allowed : AllAllowed keyed (worldStart (deriveApplicationKeys keyed [] [])).serverState false
      [.handshake (keyUpdate 1) 0] := ⟨⟨rfl, by decide, by decide, fragment_keyUpdate⟩, trivial⟩
  refine ⟨keyed_lawful, ?_, failed, ?_⟩
  · refine Relation.ReflTransGen.trans ?_ (any (receives_run _))
    refine Relation.ReflTransGen.trans ?_ (any (receives_run _))
    refine Relation.ReflTransGen.trans ?_ (any (advances_run _ _))
    have began := (any (sends_run _ _ allowed)).trans (any (advances_run (replicate 2 { limit := 1, room := 0 }) _))
    exact began.tail ⟨.write, writes_step replyingWorld (by decide +kernel) (by decide)⟩
  · rintro ⟨heard, unheard, unopened, faithful⟩
    exact Option.some_ne_none _ (failed.symm.trans faithful.fine)

end Samples

end Nxt.Tls
