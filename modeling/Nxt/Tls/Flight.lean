import Nxt.Tls.Handshake
import Nxt.Tls.Seal

/- The server's flight: what an accepted one contains, and that the cuts between its records do not
   matter. -/
namespace Nxt.Tls
open Nxt.Lib List

section Accept
variable {p : Primitives} {host caFile : String} {trafficSecret : Bytes}

theorem accept_ok {f g : Flight} {message : Bytes} (done : f.accept p host caFile trafficSecret message = .ok g) :
    expectedTypes[f.nextMessage]? = some (message.getD 0 0).toNat ∧
      authenticate p host caFile trafficSecret f message = .ok g.leafPublicKey ∧
      g.transcript = f.transcript ++ message ∧ g.nextMessage = f.nextMessage + 1 ∧ g.retained = f.retained := by
  obtain ⟨_, expected, done⟩ := bind_ok done
  obtain ⟨leaf, checked, done⟩ := bind_ok done
  cases done
  exact ⟨by simpa using require_ok expected, checked, rfl, rfl, rfl⟩

theorem acceptAll_ok {f g : Flight} {ms : List Bytes} (done : f.acceptAll p host caFile trafficSecret ms = .ok g) :
    g.nextMessage = f.nextMessage + ms.length ∧ g.retained = f.retained ∧ (ms = [] ∨ g.nextMessage ≤ 4) := by
  induction ms generalizing f with
  | nil =>
    cases done
    exact ⟨rfl, rfl, .inl rfl⟩
  | cons message rest ih =>
    obtain ⟨h, first, done⟩ := bind_ok done
    obtain ⟨expected, _, _, next, retained⟩ := accept_ok first
    obtain ⟨count, kept, bound⟩ := ih done
    have within : f.nextMessage < expectedTypes.length := (List.getElem?_eq_some_iff.mp expected).1
    have four : expectedTypes.length = 4 := rfl
    refine ⟨by rw [count, next, length_cons]; omega, kept.trans retained, .inr ?_⟩
    rcases bound with nothing | bound
    · rw [nothing, length_nil] at count
      omega
    · exact bound

theorem acceptAll_complete {f g : Flight} {ms : List Bytes} (complete : f.complete = true)
    (done : f.acceptAll p host caFile trafficSecret ms = .ok g) : ms = [] := by
  obtain ⟨count, _, bound⟩ := acceptAll_ok done
  have four : 4 ≤ f.nextMessage := by simpa [Flight.complete, expectedTypes] using complete
  rcases bound with nothing | bound
  · exact nothing
  · exact length_eq_zero_iff.mp (by omega)

theorem cleared_eq {f : Flight} (nothing : f.retained = []) : f.cleared = f := by
  rw [Flight.cleared, ← nothing]

end Accept

section Drain

def IsMessage (message : Bytes) : Prop := nextMessage message = some (message, message.length)

theorem isMessage_of_size {message : Bytes} (header : 4 ≤ message.length) (size : messageSize message = message.length) :
    IsMessage message := by
  unfold IsMessage nextMessage
  rw [size, if_neg (by omega), take_length]

theorem drained_messages (input : Bytes) : ∀ message ∈ (messages.drain input).1, IsMessage message := by
  induction input using messages.drain_induct with
  | waits input none_ =>
    rw [messages.drain_none none_]
    intro message held
    cases held
  | takes input item n found ih =>
    rw [messages.drain_some found]
    refine forall_mem_cons.mpr ⟨?_, ih⟩
    have found' : nextMessage input = some (item, n) := found
    unfold nextMessage at found'
    split at found'
    · cases found'
    · rename_i whole
      cases found'
      have length : (input.take (messageSize input)).length = messageSize input := by
        rw [length_take]
        omega
      have same : messageSize (input.take (messageSize input)) = messageSize input := by
        have header : 4 ≤ (input.take (messageSize input)).length := by
          rw [length]
          exact Nat.le_add_right ..
        have grown := messageSize_append (input.drop (messageSize input)) header
        rwa [take_append_drop, eq_comm] at grown
      have positive : 4 ≤ messageSize input := Nat.le_add_right ..
      exact isMessage_of_size (by omega) (same.trans length.symm)

theorem drained_flatten (input : Bytes) : (messages.drain input).1.flatten ++ (messages.drain input).2 = input := by
  have whole := messages.drain_covers id (fun {input item n} found => by
    have found' : nextMessage input = some (item, n) := found
    unfold nextMessage at found'
    split at found'
    · cases found'
    · cases found'
      rfl) input
  rwa [flatMap_id] at whole

theorem drained_length {input message : Bytes} (held : message ∈ (messages.drain input).1) :
    message.length ≤ input.length := by
  have whole := congrArg List.length (drained_flatten input)
  have part := (sublist_flatten_of_mem held).length_le
  rw [length_append] at whole
  omega

/-- No record takes the bytes kept for later over the bound. -/
def Bounded : Bytes → List Bytes → Prop
  | _, [] => True
  | retained, content :: contents =>
      retained.length + content.length ≤ maxFlightSize ∧ Bounded (messages.drain (retained ++ content)).2 contents

theorem oversize_waits (contents : List Bytes) (retained : Bytes) (header : 4 ≤ retained.length)
    (large : maxFlightSize < messageSize retained) (waits : nextMessage retained = none)
    (bounded : Bounded retained contents) : nextMessage (retained ++ contents.flatten) = none := by
  induction contents generalizing retained with
  | nil => rwa [flatten_nil, append_nil]
  | cons content contents ih =>
    obtain ⟨bound, later⟩ := bounded
    have grown := messageSize_append content header
    have waits' : nextMessage (retained ++ content) = none := by
      unfold nextMessage
      rw [grown, length_append, if_pos (.inr (by omega))]
    rw [messages.drain_none waits'] at later
    rw [flatten_cons, ← append_assoc]
    exact ih (retained ++ content) (by rw [length_append]; omega) (by rw [grown]; exact large) waits' later

theorem drain_whole (ms : List Bytes) (whole : ∀ message ∈ ms, IsMessage message) :
    messages.drain ms.flatten = (ms, []) := by
  induction ms with
  | nil => exact messages.drain_none rfl
  | cons message ms ih =>
    obtain ⟨first, later⟩ := forall_mem_cons.mp whole
    have found : messages.next (message ++ ms.flatten) = some (message, message.length) :=
      messages.stable ms.flatten first
    rw [flatten_cons, messages.drain_some found, drop_left, ih later]

theorem bounded_total (contents : List Bytes) (retained : Bytes)
    (total : retained.length + contents.flatten.length ≤ maxFlightSize) : Bounded retained contents := by
  induction contents generalizing retained with
  | nil => trivial
  | cons content contents ih =>
    rw [flatten_cons, length_append] at total
    refine ⟨by omega, ih _ ?_⟩
    have shorter := messages.drain_shorter (retained ++ content)
    rw [length_append] at shorter
    omega

theorem bounded_append (some_ more : List Bytes) (retained : Bytes) (first : Bounded retained some_)
    (second : Bounded (messages.drain (retained ++ some_.flatten)).2 more)
    (waits : nextMessage retained = none) : Bounded retained (some_ ++ more) := by
  induction some_ generalizing retained with
  | nil =>
    rw [flatten_nil, append_nil, messages.drain_none waits] at second
    exact second
  | cons content contents ih =>
    refine ⟨first.1, ih _ first.2 ?_ (messages.drain_waits _)⟩
    rw [flatten_cons, ← append_assoc, messages.drain_append] at second
    exact second

end Drain

section Runs
variable {p : Primitives} {host caFile : String} {trafficSecret : Bytes}

structure Adds (p : Primitives) (host caFile : String) (trafficSecret : Bytes) (f : Flight) (content : Bytes)
    (f' : Flight) : Prop where
  bound : content.length ≤ maxFlightSize - f.retained.length
  small : Small (messages.drain (f.retained ++ content)).1 (messages.drain (f.retained ++ content)).2
  accepted : f.cleared.acceptAll p host caFile trafficSecret (messages.drain (f.retained ++ content)).1 = .ok f'.cleared
  retained : f'.retained = (messages.drain (f.retained ++ content)).2
  ended : f'.complete = true → f'.retained = []

theorem add_iff (f f' : Flight) (content : Bytes) :
    f.add p host caFile trafficSecret content = .ok f' ↔ Adds p host caFile trafficSecret f content f' := by
  have processed := @process_iff p host caFile trafficSecret (f.retained ++ content).length
    { f with retained := f.retained ++ content } f' le_rfl
  constructor
  · intro done
    obtain ⟨_, bound, done⟩ := bind_ok done
    obtain ⟨g, loop, done⟩ := bind_ok done
    obtain ⟨_, ended, done⟩ := bind_ok done
    cases done
    obtain ⟨small, accepted, retained⟩ := processed.mp loop
    refine ⟨by simpa using require_ok bound, small, accepted, retained, ?_⟩
    intro complete
    simpa [complete] using require_ok ended
  · intro adds
    have loop := processed.mpr ⟨adds.small, adds.accepted, adds.retained⟩
    have ended : (!f'.complete || f'.retained.isEmpty) = true := by
      cases complete : f'.complete with
      | false => rfl
      | true => rw [adds.ended complete]; rfl
    unfold Flight.add
    rw [require_pass (by simpa using adds.bound)]
    show (Flight.process p host caFile trafficSecret (f.retained ++ content).length
      { f with retained := f.retained ++ content } >>= fun f => _) = _
    rw [loop]
    show (require (!f'.complete || f'.retained.isEmpty) _ >>= fun _ => Except.ok f') = _
    rw [require_pass ended]
    rfl

variable (p host caFile trafficSecret) in
structure Whole (f : Flight) (stream : Bytes) (f' : Flight) : Prop where
  nothing : (messages.drain (f.retained ++ stream)).2 = []
  accepted : f.cleared.acceptAll p host caFile trafficSecret (messages.drain (f.retained ++ stream)).1 = .ok f'
  complete : f'.complete = true

/-- The flight between two records: what is kept waits for more, and nothing once it is complete. -/
structure Between (f : Flight) : Prop where
  waits : nextMessage f.retained = none
  ended : f.complete = true → f.retained = []

variable {f f' : Flight}

theorem Adds.between {content : Bytes} (adds : Adds p host caFile trafficSecret f content f') : Between f' := by
  refine ⟨?_, adds.ended⟩
  rw [adds.retained]
  exact messages.drain_waits _

theorem whole_nil (between : Between f) (complete : f.complete = true) : Whole p host caFile trafficSecret f [] f := by
  have nothing := between.ended complete
  have drained : messages.drain (f.retained ++ []) = ([], []) := by
    rw [nothing]
    exact messages.drain_none rfl
  refine ⟨by rw [drained], ?_, complete⟩
  rw [drained, cleared_eq nothing]
  rfl

theorem run_whole (contents : List Bytes) {left : List Bytes} (between : Between f)
    (done : f.run p host caFile trafficSecret contents = .ok (f', left)) :
    ∃ consumed, contents = consumed ++ left ∧ Whole p host caFile trafficSecret f consumed.flatten f' := by
  induction contents generalizing f with
  | nil =>
    unfold Flight.run at done
    split at done
    · rename_i complete
      cases done
      exact ⟨[], rfl, whole_nil between complete⟩
    · cases done
  | cons content contents ih =>
    unfold Flight.run at done
    split at done
    · rename_i complete
      cases done
      exact ⟨[], rfl, whole_nil between complete⟩
    · obtain ⟨g, added, done⟩ := bind_ok done
      have adds := (add_iff f g content).mp added
      obtain ⟨consumed, shape, whole⟩ := ih adds.between done
      have joined := messages.drain_append (f.retained ++ content) consumed.flatten
      rw [append_assoc, ← adds.retained] at joined
      refine ⟨content :: consumed, by rw [shape]; rfl, ?_, ?_, whole.complete⟩
      · rw [flatten_cons, joined]
        exact whole.nothing
      · rw [flatten_cons, joined]
        dsimp only
        rw [acceptAll_append, adds.accepted]
        exact whole.accepted

theorem Whole.finished {stream : Bytes} (between : Between f) (complete : f.complete = true)
    (whole : Whole p host caFile trafficSecret f stream f') : stream = [] ∧ f' = f := by
  have none_ := acceptAll_complete (by exact complete) whole.accepted
  have covered := drained_flatten (f.retained ++ stream)
  rw [none_, whole.nothing, between.ended complete] at covered
  have accepted := whole.accepted
  rw [none_, cleared_eq (between.ended complete)] at accepted
  exact ⟨covered.symm, (Except.ok.inj accepted).symm⟩

theorem Whole.empty (between : Between f) (whole : Whole p host caFile trafficSecret f [] f') : f' = f := by
  have drained : messages.drain (f.retained ++ []) = ([], f.retained) := by
    rw [append_nil]
    exact messages.drain_none between.waits
  have nothing := whole.nothing
  have accepted := whole.accepted
  rw [drained] at nothing accepted
  rw [cleared_eq nothing] at accepted
  exact (Except.ok.inj accepted).symm

theorem Whole.adds {content : Bytes} {contents : List Bytes} (bounded : Bounded f.retained (content :: contents))
    (whole : Whole p host caFile trafficSecret f (content :: contents).flatten f') :
    ∃ g, Adds p host caFile trafficSecret f content g ∧ Whole p host caFile trafficSecret g contents.flatten f' := by
  obtain ⟨bound, later⟩ := bounded
  have joined := messages.drain_append (f.retained ++ content) contents.flatten
  rw [append_assoc, ← flatten_cons] at joined
  have nothing := whole.nothing
  have accepted := whole.accepted
  rw [joined] at nothing accepted
  dsimp only at nothing accepted
  rw [acceptAll_append] at accepted
  obtain ⟨g, first, second⟩ := bind_ok accepted
  have kept : g.retained = [] := (acceptAll_ok first).2.1
  have between : nextMessage (messages.drain (f.retained ++ content)).2 = none := messages.drain_waits _
  refine ⟨{ g with retained := (messages.drain (f.retained ++ content)).2 }, ⟨by omega, ⟨?_, ?_⟩, ?_, rfl, ?_⟩,
    nothing, ?_, whole.complete⟩
  · intro message held
    have length := drained_length held
    rw [length_append] at length
    omega
  · intro header
    by_contra large
    -- a message that is too large is never completed, and the stream ends with a whole one
    have waits := oversize_waits contents _ header (by omega) between later
    rw [messages.drain_none waits] at nothing
    rw [(append_eq_nil_iff.mp nothing).1] at header
    exact absurd header (by decide)
  · rw [first, ← cleared_eq kept]
    rfl
  · intro complete
    have ended : g.complete = true := complete
    have none_ := acceptAll_complete ended second
    have covered := drained_flatten ((messages.drain (f.retained ++ content)).2 ++ contents.flatten)
    rw [none_, nothing] at covered
    exact (append_eq_nil_iff.mp covered.symm).1
  · rw [← second, ← cleared_eq kept]
    rfl

theorem whole_run (contents : List Bytes) (between : Between f)
    (bounded : Bounded f.retained contents) (whole : Whole p host caFile trafficSecret f contents.flatten f') :
    ∃ left, f.run p host caFile trafficSecret contents = .ok (f', left) ∧ left.flatten = [] := by
  induction contents generalizing f with
  | nil =>
    have same := Whole.empty between whole
    have complete := whole.complete
    rw [same] at complete ⊢
    exact ⟨[], by rw [Flight.run, if_pos complete], rfl⟩
  | cons content contents ih =>
    unfold Flight.run
    by_cases complete : f.complete = true
    · obtain ⟨nothing, same⟩ := Whole.finished between complete whole
      exact ⟨content :: contents, by rw [if_pos complete, same], nothing⟩
    · obtain ⟨g, adds, rest⟩ := Whole.adds bounded whole
      have later := bounded.2
      rw [← adds.retained] at later
      obtain ⟨left, done, nothing⟩ := ih adds.between later rest
      refine ⟨left, ?_, nothing⟩
      rw [if_neg complete, (add_iff f g content).mpr adds]
      exact done

theorem run_waits (contents more : List Bytes) (begun : f.complete = false)
    (waits : nextMessage (f.retained ++ contents.flatten) = none)
    (size : 4 ≤ (f.retained ++ contents.flatten).length → messageSize (f.retained ++ contents.flatten) ≤ maxFlightSize)
    (fits : (f.retained ++ contents.flatten).length ≤ maxFlightSize) :
    f.run p host caFile trafficSecret (contents ++ more) =
      Flight.run p host caFile trafficSecret { f with retained := f.retained ++ contents.flatten } more := by
  induction contents generalizing f with
  | nil => rw [flatten_nil, append_nil, nil_append]
  | cons content contents ih =>
    rw [flatten_cons, ← append_assoc] at waits size fits ⊢
    have waits' : nextMessage (f.retained ++ content) = none := by
      cases found : nextMessage (f.retained ++ content) with
      | none => rfl
      | some next =>
        have found' : messages.next (f.retained ++ content) = some (next.1, next.2) := found
        have later := messages.stable contents.flatten found'
        exact absurd (later.symm.trans waits) (by simp)
    have length : (f.retained ++ content ++ contents.flatten).length =
        f.retained.length + content.length + contents.flatten.length := by
      simp only [length_append]
    have adds : Adds p host caFile trafficSecret f content { f with retained := f.retained ++ content } := by
      have drained := messages.drain_none waits'
      refine ⟨?_, ⟨?_, ?_⟩, ?_, by rw [drained], ?_⟩
      · omega
      · intro message held
        rw [drained] at held
        cases held
      · rw [drained]
        dsimp only
        intro header
        rw [length_append] at header
        rw [← messageSize_append contents.flatten (by rw [length_append]; exact header)]
        exact size (by omega)
      · rw [drained]
        rfl
      · intro complete
        exact absurd (begun.symm.trans complete) Bool.false_ne_true
    rw [cons_append, Flight.run, if_neg (by rw [begun]; exact Bool.false_ne_true), (add_iff f _ content).mpr adds]
    exact ih begun waits size fits

theorem run_overflows (content : Bytes) (more : List Bytes) (begun : f.complete = false)
    (large : maxFlightSize - f.retained.length < content.length) :
    f.run p host caFile trafficSecret (content :: more) = .error "TLS handshake is too large" := by
  have fails : require (decide (content.length ≤ maxFlightSize - f.retained.length)) "TLS handshake is too large" =
      .error "TLS handshake is too large" := if_neg (by simpa using large)
  rw [Flight.run, if_neg (by rw [begun]; exact Bool.false_ne_true), Flight.add, fails]
  rfl

end Runs

section Records
variable {p : Primitives} {host caFile : String} {trafficSecret : Bytes}

variable {α : Type} {m : Except String α} {a : α} {ok : Bool} {f' : Flight} {unread : Bytes}

theorem lift_ok {input : Bytes} (done : m = .ok a) : (liftM m : Reader String α) input = .ok (a, input) := by
  rw [done]
  rfl

theorem requireTls_pass (holds : ok = true) (message : String) (input : Bytes) :
    requireTls ok message input = .ok ((), input) := by
  unfold requireTls
  rw [if_pos holds]
  rfl

theorem lift_inv {input rest : Bytes}
    (done : (liftM m : Reader String α) input = .ok (a, rest)) : m = .ok a ∧ input = rest := by
  cases m with
  | error e => cases done
  | ok b =>
    cases done
    exact ⟨rfl, rfl⟩

theorem requireTls_inv {message : String} {input rest : Bytes}
    (done : requireTls ok message input = .ok ((), rest)) : ok = true ∧ input = rest := by
  unfold requireTls at done
  split at done
  · rename_i holds
    cases done
    exact ⟨holds, rfl⟩
  · cases done

theorem run_done {f : Flight} (complete : f.complete = true) (contents : List Bytes) :
    f.run p host caFile trafficSecret contents = .ok (f, contents) := by
  cases contents with
  | nil => rw [Flight.run, if_pos complete]
  | cons content contents => rw [Flight.run, if_pos complete]

variable {fuel : Nat} {keys keys' : ReadKeys} {f : Flight} {input rest : Bytes} {record : Record}

theorem readFlight_complete (complete : f.complete = true) :
    readFlight p host caFile trafficSecret (fuel + 1) keys f input = .ok (f, input) := by
  unfold readFlight
  rw [if_pos complete]
  rfl

theorem readFlight_skip (more : f.complete = false) (read : readRecord input = .ok (record, rest))
    (typed : record.type = 20) (valid : (record.version = 0x0303 && record.payload = [1]) = true) :
    readFlight p host caFile trafficSecret (fuel + 1) keys f input =
      readFlight p host caFile trafficSecret fuel keys f rest := by
  rw [readFlight, if_neg (by rw [more]; exact Bool.false_ne_true), step_ok read]
  dsimp only
  rw [if_pos typed, step_ok (requireTls_pass valid _ rest)]

theorem readFlight_content {plaintext : Plaintext} (more : f.complete = false)
    (read : readRecord input = .ok (record, rest)) (typed : record.type ≠ 20)
    (opened : openRecord p keys record = .ok (plaintext, keys')) (inner : plaintext.innerType = 22) :
    readFlight p host caFile trafficSecret (fuel + 1) keys f input =
      (f.add p host caFile trafficSecret plaintext.content >>= fun g =>
        readFlight p host caFile trafficSecret fuel keys' g rest) := by
  rw [readFlight, if_neg (by rw [more]; exact Bool.false_ne_true), step_ok read]
  dsimp only
  rw [if_neg typed, step_ok (lift_ok opened)]
  dsimp only
  rw [step_ok (requireTls_pass (by simpa using inner) _ rest)]
  cases f.add p host caFile trafficSecret plaintext.content with
  | error e => rfl
  | ok g => rfl

theorem readFlight_opens (done : readFlight p host caFile trafficSecret fuel keys f input = .ok (f', unread)) :
    ∃ contents, Opens p keys input contents unread ∧ f.run p host caFile trafficSecret contents = .ok (f', []) := by
  induction fuel generalizing keys f input with
  | zero => cases done
  | succ fuel ih =>
    cases complete : f.complete with
    | true =>
      rw [readFlight_complete complete] at done
      cases done
      exact ⟨[], .done keys _, by rw [Flight.run, if_pos complete]⟩
    | false =>
      rw [readFlight, if_neg (by rw [complete]; exact Bool.false_ne_true)] at done
      obtain ⟨record, rest, read, done⟩ := step_inv done
      split at done
      · rename_i typed
        obtain ⟨_, _, valid, done⟩ := step_inv done
        obtain ⟨holds, rfl⟩ := requireTls_inv valid
        obtain ⟨contents, opens, run⟩ := ih done
        exact ⟨contents, .skip read typed holds opens, run⟩
      · rename_i typed
        obtain ⟨⟨plaintext, keys'⟩, _, lifted, done⟩ := step_inv done
        obtain ⟨opened, rfl⟩ := lift_inv lifted
        obtain ⟨_, _, checked, done⟩ := step_inv done
        obtain ⟨inner, rfl⟩ := requireTls_inv checked
        obtain ⟨g, _, lifted, done⟩ := step_inv done
        obtain ⟨added, rfl⟩ := lift_inv lifted
        obtain ⟨contents, opens, run⟩ := ih done
        refine ⟨plaintext.content :: contents, .content read typed opened (by simpa using inner) opens, ?_⟩
        rw [Flight.run, if_neg (by rw [complete]; exact Bool.false_ne_true), added]
        exact run

theorem Opens.readFlight {contents left : List Bytes} (opens : Opens p keys input contents unread)
    (enough : input.length < fuel) (done : f.run p host caFile trafficSecret contents = .ok (f', left)) :
    ∃ unread', readFlight p host caFile trafficSecret fuel keys f input = .ok (f', unread') := by
  induction opens generalizing fuel f with
  | done keys input =>
    obtain _ | fuel := fuel
    · omega
    · unfold Flight.run at done
      split at done
      · rename_i complete
        cases done
        exact ⟨_, readFlight_complete complete⟩
      · cases done
  | skip read typed valid opens ih =>
    obtain _ | fuel := fuel
    · omega
    · have shorter := readRecord_shorter read
      cases complete : f.complete with
      | true =>
        rw [run_done complete] at done
        cases done
        exact ⟨_, readFlight_complete complete⟩
      | false =>
        rw [readFlight_skip complete read typed valid]
        exact ih (by omega) done
  | content read typed opened inner opens ih =>
    obtain _ | fuel := fuel
    · omega
    · have shorter := readRecord_shorter read
      unfold Flight.run at done
      split at done
      · rename_i complete
        cases done
        exact ⟨_, readFlight_complete complete⟩
      · rename_i more
        obtain ⟨g, added, done⟩ := bind_ok done
        rw [readFlight_content (by simpa using more) read typed opened inner, added]
        exact ih (by omega) done

theorem Opens.readFlight_error {contents : List Bytes} {e : String} (opens : Opens p keys input contents unread)
    (enough : input.length < fuel) (refused : f.run p host caFile trafficSecret contents = .error e)
    (told : e ≠ "end of input") : Tls.readFlight p host caFile trafficSecret fuel keys f input = .error e := by
  induction opens generalizing fuel f with
  | done keys input =>
    unfold Flight.run at refused
    split at refused
    · cases refused
    · cases refused
      exact absurd rfl told
  | skip read typed valid opens ih =>
    obtain _ | fuel := fuel
    · omega
    · have shorter := readRecord_shorter read
      cases complete : f.complete with
      | true =>
        rw [run_done complete] at refused
        cases refused
      | false =>
        rw [readFlight_skip complete read typed valid]
        exact ih (by omega) refused
  | content read typed opened inner opens ih =>
    obtain _ | fuel := fuel
    · omega
    · have shorter := readRecord_shorter read
      unfold Flight.run at refused
      split at refused
      · cases refused
      · rename_i more
        rw [readFlight_content (by simpa using more) read typed opened inner]
        cases added : f.add p host caFile trafficSecret _ with
        | error e' =>
          rw [added] at refused
          cases refused
          rfl
        | ok g =>
          rw [added] at refused
          exact ih (by omega) refused

end Records

end Nxt.Tls
