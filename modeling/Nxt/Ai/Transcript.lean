import Nxt.Ai.Agent

/- What the requests of an agent carry, over every run: the items that were sent are a function of
   the answered turns, each call is run at most once, and nothing runs in a turn that is refused. -/
namespace Nxt.Ai
open Nxt.Lib List

def Run.key (run : Run) : Nat × Nat := (run.turn, run.index)

namespace Turn

def outputs (t : Turn) : List Bytes := t.results.map (·.outputItem)

def items (t : Turn) : List Bytes := t.response.outputItems ++ t.outputs

end Turn

def Setup.requestAfter (c : Setup) (turns : List Turn) : Request :=
  match turns.getLast? with
  | none => c.first
  | some t =>
    if c.continuation then
      { c.first with input := [], previousResponseId := t.response.id, inputItems := t.outputs }
    else { c.first with input := [], inputItems := inputItemsFromRequest c.first ++ turns.flatMap Turn.items }

namespace Agent
variable {c : Setup} {s s' : Agent} {r : Response} {calls : List FunctionCall} {batch : Batch}

def endKey (e : Nat × Nat × ToolEnd) : Nat × Nat := (e.1, e.2.1)

def RunSound (c : Setup) (s : Agent) (run : Run) : Prop :=
  ∃ response calls call, s.replies[run.turn]? = some response ∧
    readCalls [] response.outputItems = .ok calls ∧ calls[run.index]? = some call ∧
    run.tool = toolOf c.registry call ∧ run.arguments = call.arguments ∧ run.turn + 1 < c.options.maxTurns

def ResultSound (s : Agent) (turn i : Nat) (result : FunctionCallResult) : Prop :=
  (turn, i, ToolEnd.result result.result) ∈ s.ends ∧ (∃ run ∈ s.runs, run.key = (turn, i)) ∧
    result.outputItem = functionCallOutput result.call.callId (toolResultJson result.result)

/-- Every call of the turn was run. -/
def AllRan (s : Agent) (turn : Nat) : Prop :=
  ∃ response calls, s.replies[turn]? = some response ∧ readCalls [] response.outputItems = .ok calls ∧
    ∀ i < calls.length, ∃ run ∈ s.runs, run.key = (turn, i)

structure Asked (c : Setup) (s : Agent) (response : Response) (calls : List FunctionCall) : Prop where
  sent : s.sent.length = s.turn + 1
  replies : s.replies.length = s.turn + 1
  reply : s.replies[s.turn]? = some response
  calls : readCalls [] response.outputItems = .ok calls
  turns : s.turn + 1 < c.options.maxTurns
  known : c.continuation = true → response.id ≠ []

structure Before (s : Agent) : Prop where
  runs : ∀ run ∈ s.runs, run.turn < s.turn
  ends : ∀ e ∈ s.ends, e.1 < s.turn

structure BatchSound (s : Agent) (batch : Batch) : Prop where
  runs : ∀ run ∈ s.runs, run.turn < s.turn ∨ (run.turn = s.turn ∧ run.index < batch.next)
  started : ∀ i, i < batch.next → ∃ run ∈ s.runs, run.key = (s.turn, i)
  ends : ∀ e ∈ s.ends, e.1 < s.turn ∨ (e.1 = s.turn ∧ e.2.1 < batch.next ∧ e.2.1 ∉ batch.running)
  running : ∀ i ∈ batch.running, i < batch.next
  length : batch.outcomes.length = batch.calls.length
  filled : ∀ (i : Nat) (outcome : Except Error FunctionCallResult),
    batch.outcomes[i]? = some (some outcome) → i < batch.next
  outcomes : ∀ (i : Nat) (result : FunctionCallResult), batch.outcomes[i]? = some (some (.ok result)) →
    batch.calls[i]? = some result.call ∧ ResultSound s s.turn i result

structure Reported (s : Agent) (results : List FunctionCallResult) : Prop where
  runs : ∀ run ∈ s.runs, run.turn ≤ s.turn
  ends : ∀ e ∈ s.ends, e.1 ≤ s.turn
  results : ∀ (i : Nat) (result : FunctionCallResult), results[i]? = some result → ResultSound s s.turn i result

def PhaseSound (c : Setup) (s : Agent) : Prop :=
  match s.phase with
  | .top => s.sent.length = s.turn ∧ s.replies.length = s.turn ∧ s.turn ≤ c.options.maxTurns ∧ Before s
  | .requesting => s.sent.length = s.turn + 1 ∧ s.replies.length = s.turn ∧ s.turn < c.options.maxTurns ∧ Before s
  | .announcing response calls _ => Asked c s response calls ∧ Before s
  | .running response batch => Asked c s response batch.calls ∧ BatchSound s batch
  | .reporting response results _ => Asked c s response (results.map (·.call)) ∧ Reported s results
  | .returned | .threw _ => True

structure Answered (c : Setup) (s : Agent) (k : Nat) (t : Turn) : Prop where
  response : s.replies[k]? = some t.response
  calls : readCalls [] t.response.outputItems = .ok (t.results.map (·.call))
  results : ∀ (i : Nat) (result : FunctionCallResult), t.results[i]? = some result → ResultSound s k i result
  known : c.continuation = true → t.response.id ≠ []

structure Kept (c : Setup) (s : Agent) : Prop where
  turns : s.turns.length = s.turn
  request : s.request = c.requestAfter s.turns
  history : c.continuation = false →
    s.history = inputItemsFromRequest c.first ++ s.turns.flatMap Turn.items
  limit : s.sent.length ≤ c.options.maxTurns
  sent : ∀ (k : Nat) (request : Request), s.sent[k]? = some request →
    k ≤ s.turn ∧ request = c.requestAfter (s.turns.take k)
  answered : ∀ (k : Nat) (t : Turn), s.turns[k]? = some t → Answered c s k t
  runs : ∀ run ∈ s.runs, RunSound c s run
  once : (s.runs.map Run.key).Nodup
  ended : (s.ends.map endKey).Nodup
  settled : ∀ k ∈ s.settled, AllRan s k
  phase : PhaseSound c s

structure Grows (s s' : Agent) : Prop where
  replies : ∀ (k : Nat) (response : Response), s.replies[k]? = some response → s'.replies[k]? = some response
  runs : ∀ run ∈ s.runs, run ∈ s'.runs
  ends : ∀ e ∈ s.ends, e ∈ s'.ends

variable {k i : Nat} {α : Type} {how : ToolEnd} {l' : List α}

theorem ResultSound.grows {result : FunctionCallResult} (sound : ResultSound s k i result)
    (grows : Grows s s') : ResultSound s' k i result := by
  obtain ⟨ended, ⟨run, mem, key⟩, output⟩ := sound
  exact ⟨grows.ends _ ended, ⟨run, grows.runs run mem, key⟩, output⟩

theorem AllRan.grows (ran : AllRan s k) (grows : Grows s s') : AllRan s' k := by
  obtain ⟨response, calls, reply, read, ran⟩ := ran
  refine ⟨response, calls, grows.replies _ _ reply, read, ?_⟩
  intro i low
  obtain ⟨run, mem, key⟩ := ran i low
  exact ⟨run, grows.runs run mem, key⟩

theorem Answered.grows {t : Turn} (answered : Answered c s k t) (grows : Grows s s') : Answered c s' k t where
  response := grows.replies k _ answered.response
  calls := answered.calls
  results i result at_ := (answered.results i result at_).grows grows
  known := answered.known

theorem RunSound.grows {run : Run} (sound : RunSound c s run) (grows : Grows s s') : RunSound c s' run := by
  obtain ⟨response, calls, call, reply, rest⟩ := sound
  exact ⟨response, calls, call, grows.replies _ _ reply, rest⟩

theorem Kept.grow (kept : Kept c s) (grows : Grows s s') (turn : s'.turn = s.turn) (turns : s'.turns = s.turns)
    (request : s'.request = s.request) (history : s'.history = s.history) (sent : s'.sent = s.sent)
    (runs : ∀ run ∈ s'.runs, RunSound c s' run) (once : (s'.runs.map Run.key).Nodup)
    (ended : (s'.ends.map endKey).Nodup) (settled : ∀ k ∈ s'.settled, AllRan s' k) (phase : PhaseSound c s') :
    Kept c s' where
  turns := by rw [turns, turn]; exact kept.turns
  request := by rw [request, turns]; exact kept.request
  history := by rw [history, turns]; exact kept.history
  limit := by rw [sent]; exact kept.limit
  sent := by rw [sent, turn, turns]; exact kept.sent
  answered k t at_ := by
    rw [turns] at at_
    exact (kept.answered k t at_).grows grows
  runs := runs
  once := once
  ended := ended
  settled := settled
  phase := phase

theorem Kept.quiet (kept : Kept c s) {phase : Phase} (sound : PhaseSound c { s with phase := phase }) :
    Kept c { s with phase := phase } :=
  kept.grow ⟨fun _ _ h => h, fun _ h => h, fun _ h => h⟩ rfl rfl rfl rfl rfl kept.runs kept.once kept.ended
    kept.settled sound

theorem Kept.throw_ (kept : Kept c s) (e : Error) : Kept c (s.throw_ e) := kept.quiet trivial

theorem Kept.head (kept : Kept c s) (top : s.phase = .top) (stop : Bool) : Kept c (s.head c stop) := by
  have sound := kept.phase
  simp only [PhaseSound, top] at sound
  obtain ⟨sent, replies, limit, before⟩ := sound
  unfold Agent.head
  split
  · next more =>
    split
    · exact kept.throw_ _
    · refine ⟨kept.turns, kept.request, kept.history, ?_, ?_, ?_, kept.runs, kept.once, kept.ended,
        kept.settled, ?_⟩
      · show (s.sent ++ [s.request]).length ≤ c.options.maxTurns
        rw [length_append, sent]
        exact more
      · intro k request at_
        have at_ : (s.sent ++ [s.request])[k]? = some request := at_
        rw [getElem?_append] at at_
        split at at_
        · exact kept.sent k request at_
        · next late =>
          obtain ⟨last, same⟩ := List.getElem?_eq_some_iff.mp at_
          rw [length_singleton] at last
          have here : k = s.turn := by omega
          have next : request = s.request := by simpa using same.symm
          refine ⟨here.le, ?_⟩
          rw [next, here, kept.request]
          exact congrArg c.requestAfter (take_of_length_le kept.turns.le).symm
      · intro k t at_
        exact (kept.answered k t at_).grows ⟨fun _ _ h => h, fun _ h => h, fun _ h => h⟩
      · show PhaseSound c { s with phase := .requesting, sent := s.sent ++ [s.request] }
        refine ⟨?_, replies, more, before.1, before.2⟩
        show (s.sent ++ [s.request]).length = s.turn + 1
        rw [length_append, sent]
        rfl
  · exact kept.quiet trivial

theorem Kept.respond (kept : Kept c s) (requesting : s.phase = .requesting) (response : Response) :
    Kept c (s.respond c response) := by
  have sound := kept.phase
  simp only [PhaseSound, requesting] at sound
  obtain ⟨sent, replies, limit, before⟩ := sound
  have grows : Grows s { s with replies := s.replies ++ [response] } := by
    refine ⟨?_, fun _ h => h, fun _ h => h⟩
    intro k reply at_
    obtain ⟨inside, _⟩ := List.getElem?_eq_some_iff.mp at_
    show (s.replies ++ [response])[k]? = some reply
    rw [getElem?_append_left inside]
    exact at_
  have kept' : Kept c { s with replies := s.replies ++ [response], phase := .returned } :=
    kept.grow ⟨grows.1, grows.2, grows.3⟩ rfl rfl rfl rfl rfl
      (fun run mem => (kept.runs run mem).grows ⟨grows.1, grows.2, grows.3⟩) kept.once kept.ended
      (fun k mem => (kept.settled k mem).grows ⟨grows.1, grows.2, grows.3⟩) trivial
  unfold Agent.respond
  simp only
  split
  · exact kept'.quiet trivial
  · next calls read =>
    split
    · exact kept'
    · split
      · exact kept'.quiet trivial
      · next more =>
        split
        · exact kept'.quiet trivial
        · next known =>
          refine kept'.quiet ⟨⟨sent, ?_, ?_, read, ?_, ?_⟩, before.1, before.2⟩
          · show (s.replies ++ [response]).length = s.turn + 1
            rw [length_append, replies]
            rfl
          · show (s.replies ++ [response])[s.turn]? = some response
            rw [← replies, getElem?_concat_length]
          · exact Nat.lt_of_le_of_ne limit more
          · intro continues none
            simp [continues, none] at known

theorem requestAfter_base (turns : List Turn) (input : Bytes) (items : List Bytes) (previous : Bytes) :
    { c.requestAfter turns with input := input, previousResponseId := previous, inputItems := items } =
      { c.first with input := input, previousResponseId := previous, inputItems := items } := by
  unfold Setup.requestAfter
  split
  · rfl
  · split
    · rfl
    · rfl

theorem requestAfter_previous (full : c.continuation = false) (turns : List Turn) :
    (c.requestAfter turns).previousResponseId = c.first.previousResponseId := by
  unfold Setup.requestAfter
  split
  · rfl
  · rw [full]
    rfl

theorem requestAfter_full (full : c.continuation = false) (turns : List Turn) (t : Turn) :
    c.requestAfter (turns ++ [t]) = { c.first with
      input := [], previousResponseId := c.first.previousResponseId
      inputItems := inputItemsFromRequest c.first ++ (turns ++ [t]).flatMap Turn.items } := by
  unfold Setup.requestAfter
  rw [getLast?_concat, full]
  rfl

theorem Kept.continue_ {results : List FunctionCallResult} (kept : Kept c s)
    (asked : Asked c s r (results.map (·.call))) (reported : Reported s results) :
    Kept c (s.continue_ c r results) := by
  have after (k : Nat) (request : Request) (at_ : s.sent[k]? = some request) :
      k ≤ s.turn + 1 ∧ request = c.requestAfter ((s.turns ++ [(⟨r, results⟩ : Turn)]).take k) := by
    obtain ⟨low, same⟩ := kept.sent k request at_
    refine ⟨low.trans (Nat.le_succ _), ?_⟩
    rw [take_append_of_le_length (low.trans kept.turns.ge)]
    exact same
  have answered (s' : Agent) (grows : Grows s s') (k : Nat) (t : Turn)
      (at_ : (s.turns ++ [⟨r, results⟩])[k]? = some t) : Answered c s' k t := by
    rw [getElem?_append] at at_
    split at at_
    · exact (kept.answered k t at_).grows grows
    · next late =>
      obtain ⟨last, same⟩ := List.getElem?_eq_some_iff.mp at_
      rw [length_singleton] at last
      have turns := kept.turns
      have here : k = s.turn := by omega
      have turn : t = ⟨r, results⟩ := by simpa using same.symm
      rw [turn, here]
      exact ⟨grows.replies _ _ asked.reply, asked.calls, fun i result at_ => (reported.results i result at_).grows grows,
        asked.known⟩
  have before : s.sent.length = s.turn + 1 ∧ s.replies.length = s.turn + 1 ∧ s.turn + 1 ≤ c.options.maxTurns :=
    ⟨asked.sent, asked.replies, asked.turns.le⟩
  have runs (run : Run) (mem : run ∈ s.runs) : run.turn < s.turn + 1 := Nat.lt_succ_of_le (reported.runs run mem)
  have ends (e : Nat × Nat × ToolEnd) (mem : e ∈ s.ends) : e.1 < s.turn + 1 := Nat.lt_succ_of_le (reported.ends e mem)
  have turns : (s.turns ++ [(⟨r, results⟩ : Turn)]).length = s.turn + 1 := by
    rw [length_append, kept.turns]
    rfl
  unfold Agent.continue_
  simp only
  split
  · next continues =>
    refine ⟨turns, ?_, ?_, kept.limit, after, answered _ ⟨fun _ _ h => h, fun _ h => h, fun _ h => h⟩, kept.runs,
      kept.once, kept.ended, kept.settled, ⟨before.1, before.2.1, before.2.2, runs, ends⟩⟩
    · rw [kept.request, requestAfter_base]
      simp only [Setup.requestAfter, getLast?_concat, continues, if_true]
      rfl
    · intro full
      rw [continues] at full
      cases full
  · next full =>
    have full : c.continuation = false := by simpa using full
    have history := kept.history full
    have grown : s.history ++ r.outputItems ++ results.map (·.outputItem) =
        inputItemsFromRequest c.first ++ (s.turns ++ [(⟨r, results⟩ : Turn)]).flatMap Turn.items := by
      rw [history, flatMap_append, flatMap_singleton, append_assoc, append_assoc]
      rfl
    refine ⟨turns, ?_, fun _ => grown, kept.limit, after,
      answered _ ⟨fun _ _ h => h, fun _ h => h, fun _ h => h⟩, kept.runs, kept.once, kept.ended,
      kept.settled, ⟨before.1, before.2.1, before.2.2, runs, ends⟩⟩
    have previous := requestAfter_previous full s.turns
    have base := requestAfter_base (c := c) s.turns [] (s.history ++ r.outputItems ++ results.map (·.outputItem))
      (c.requestAfter s.turns).previousResponseId
    rw [requestAfter_full full, ← grown, kept.request]
    rw [previous] at base
    rw [← base, ← previous]

theorem Kept.observe (kept : Kept c s) (ran : s.observe c = some s') : Kept c s' := by
  have sound := kept.phase
  unfold Agent.observe at ran
  split at ran
  · next response calls i phase =>
    simp only [PhaseSound, phase] at sound
    obtain ⟨asked, before⟩ := sound
    split at ran
    · cases ran
      exact kept.quiet ⟨⟨asked.1, asked.2, asked.3, asked.4, asked.5, asked.6⟩, before.1, before.2⟩
    · cases ran
      refine kept.quiet ⟨⟨asked.1, asked.2, asked.3, asked.4, asked.5, asked.6⟩, ?_⟩
      constructor
      · exact fun run mem => .inl (before.1 run mem)
      · intro i none
        exact absurd none (Nat.not_lt_zero i)
      · exact fun e mem => .inl (before.2 e mem)
      · intro i none
        cases none
      · show (calls.map fun _ => none).length = calls.length
        exact length_map _
      · intro i outcome at_
        have at_ : (calls.map fun _ => (none : Option (Except Error FunctionCallResult)))[i]? =
            some (some outcome) := at_
        rw [getElem?_map] at at_
        obtain ⟨_, _, never⟩ := Option.map_eq_some_iff.mp at_
        cases never
      · intro i result at_
        have at_ : (calls.map fun _ => (none : Option (Except Error FunctionCallResult)))[i]? =
            some (some (.ok result)) := at_
        rw [getElem?_map] at at_
        obtain ⟨_, _, never⟩ := Option.map_eq_some_iff.mp at_
        cases never
  · next response results i phase =>
    simp only [PhaseSound, phase] at sound
    obtain ⟨asked, reported⟩ := sound
    split at ran
    · cases ran
      exact kept.quiet ⟨⟨asked.1, asked.2, asked.3, asked.4, asked.5, asked.6⟩, reported.1, reported.2, reported.3⟩
    · cases ran
      exact kept.continue_ asked reported
  · cases ran

theorem Asked.phase {phase : Phase} {runs : List Run} {ends : List (Nat × Nat × ToolEnd)} {settled : List Nat}
    (asked : Asked c s r calls) :
    Asked c { s with phase := phase, runs := runs, ends := ends, settled := settled } r calls :=
  ⟨asked.1, asked.2, asked.3, asked.4, asked.5, asked.6⟩

theorem Kept.startCall (kept : Kept c s) (asked : Asked c s r batch.calls) (sound : BatchSound s batch)
    (ran : s.startCall c r batch = some s') : Kept c s' := by
  obtain ⟨⟨call, next⟩, started, rfl⟩ := Option.map_eq_some_iff.mp ran
  have opened : batch.calls[batch.next]? = some call ∧
      next = { batch with next := batch.next + 1, running := batch.running ++ [batch.next] } := by
    unfold Batch.start at started
    split at started
    · cases started
    split at started
    · obtain ⟨call', at_, same⟩ := Option.map_eq_some_iff.mp started
      cases same
      exact ⟨at_, rfl⟩
    · cases started
  obtain ⟨at_, rfl⟩ := opened
  set run : Run := ⟨s.turn, batch.next, toolOf c.registry call, call.arguments⟩
  have grows : Grows s { s with
      phase := .running r { batch with next := batch.next + 1, running := batch.running ++ [batch.next] }
      runs := s.runs ++ [run] } :=
    ⟨fun _ _ h => h, fun _ h => mem_append_left _ h, fun _ h => h⟩
  refine kept.grow grows rfl rfl rfl rfl rfl ?_ ?_ kept.ended
    (fun k mem => (kept.settled k mem).grows grows) ⟨asked.phase, ?_⟩
  · intro other mem
    obtain old | new := mem_append.mp mem
    · exact (kept.runs other old).grows grows
    · rw [mem_singleton.mp new]
      exact ⟨r, batch.calls, call, asked.reply, asked.calls, at_, rfl, rfl, asked.turns⟩
  · show ((s.runs ++ [run]).map Run.key).Nodup
    rw [map_append, nodup_append]
    refine ⟨kept.once, nodup_singleton _, ?_⟩
    intro key mem key' mem' same
    rw [map_singleton, mem_singleton] at mem'
    obtain ⟨other, old, rfl⟩ := mem_map.mp mem
    rw [mem'] at same
    obtain ⟨turn, index⟩ := Prod.mk.inj same
    have turn : other.turn = s.turn := turn
    have index : other.index = batch.next := index
    obtain early | ⟨_, low⟩ := sound.runs other old <;> omega
  · constructor
    · intro other mem
      obtain old | new := mem_append.mp mem
      · obtain early | ⟨turn, low⟩ := sound.runs other old
        · exact .inl early
        · exact .inr ⟨turn, Nat.lt_succ_of_lt low⟩
      · rw [mem_singleton.mp new]
        exact .inr ⟨rfl, Nat.lt_succ_self _⟩
    · intro i low
      by_cases here : i = batch.next
      · exact ⟨run, mem_append_right _ (mem_singleton_self _), by rw [here]; rfl⟩
      · obtain ⟨other, mem, key⟩ := sound.started i (Nat.lt_of_le_of_ne (Nat.le_of_lt_succ low) here)
        exact ⟨other, mem_append_left _ mem, key⟩
    · intro e mem
      obtain early | ⟨turn, low, idle⟩ := sound.ends e mem
      · exact .inl early
      · refine .inr ⟨turn, Nat.lt_succ_of_lt low, ?_⟩
        simp only [mem_append, mem_singleton, not_or]
        exact ⟨idle, low.ne⟩
    · intro i mem
      obtain old | new := mem_append.mp mem
      · exact Nat.lt_succ_of_lt (sound.running i old)
      · rw [mem_singleton.mp new]
        exact Nat.lt_succ_self _
    · exact sound.length
    · exact fun i outcome here => Nat.lt_succ_of_lt (sound.filled i outcome here)
    · intro i result here
      obtain ⟨call', made⟩ := sound.outcomes i result here
      exact ⟨call', made.grows grows⟩

theorem finish_fields (batch : Batch) (i : Nat) (call : FunctionCall) (how : ToolEnd) :
    (batch.finish i call how).calls = batch.calls ∧ (batch.finish i call how).next = batch.next ∧
      (batch.finish i call how).running = batch.running.filter (· ≠ i) ∧
      (batch.finish i call how).outcomes.length = batch.outcomes.length := by
  unfold Batch.finish
  simp only
  split <;> simp

theorem finish_filled {j : Nat} {call : FunctionCall} {outcome : Except Error FunctionCallResult}
    (at_ : (batch.finish i call how).outcomes[j]? = some (some outcome)) :
    batch.outcomes[j]? = some (some outcome) ∨ j = i := by
  have set_ {made : Except Error FunctionCallResult}
      (at_ : (batch.outcomes.set i (some made))[j]? = some (some outcome)) :
      batch.outcomes[j]? = some (some outcome) ∨ j = i := by
    rw [getElem?_set] at at_
    split at at_
    · next same => exact .inr same.symm
    · exact .inl at_
  unfold Batch.finish at at_
  simp only at at_
  split at at_
  · exact set_ at_
  · exact .inl at_
  · exact set_ at_

theorem finish_outcome {j : Nat} {call : FunctionCall} {result : FunctionCallResult}
    (at_ : (batch.finish i call how).outcomes[j]? = some (some (.ok result))) :
    batch.outcomes[j]? = some (some (.ok result)) ∨ (j = i ∧ how = .result result.result ∧ result.call = call ∧
        result.outputItem = functionCallOutput call.callId (toolResultJson result.result)) := by
  have set_ {outcome : Except Error FunctionCallResult}
      (at_ : (batch.outcomes.set i (some outcome))[j]? = some (some (.ok result))) :
      batch.outcomes[j]? = some (some (.ok result)) ∨ (j = i ∧ outcome = .ok result) := by
    rw [getElem?_set] at at_
    split at at_
    · next same =>
      split at at_
      · cases at_
        exact .inr ⟨same.symm, rfl⟩
      · cases at_
    · exact .inl at_
  unfold Batch.finish at at_
  simp only at at_
  split at at_
  · obtain old | ⟨same, made⟩ := set_ at_
    · exact .inl old
    · cases made
      exact .inr ⟨same, rfl, rfl, rfl⟩
  · exact .inl at_
  · obtain old | ⟨_, made⟩ := set_ at_
    · exact .inl old
    · cases made

theorem Kept.finishCall (kept : Kept c s) (asked : Asked c s r batch.calls)
    (sound : BatchSound s batch) (ran : s.finishCall c r batch i how = some s') : Kept c s' := by
  unfold Agent.finishCall at ran
  split at ran
  · next active =>
    obtain ⟨call, at_, ran⟩ := Option.bind_eq_some_iff.mp ran
    split at ran
    · cases ran
    · cases ran
      obtain ⟨fields, next, running, length⟩ := finish_fields batch i call how
      have grows : Grows s { s with
          phase := .running r (batch.finish i call how), ends := s.ends ++ [(s.turn, i, how)] } :=
        ⟨fun _ _ h => h, fun _ h => h, fun _ h => mem_append_left _ h⟩
      refine kept.grow grows rfl rfl rfl rfl rfl (fun run mem => (kept.runs run mem).grows grows) kept.once ?_
        (fun k mem => (kept.settled k mem).grows grows) ⟨?_, ?_⟩
      · show ((s.ends ++ [(s.turn, i, how)]).map endKey).Nodup
        rw [map_append, nodup_append]
        refine ⟨kept.ended, nodup_singleton _, ?_⟩
        intro key mem key' mem' same
        rw [map_singleton, mem_singleton] at mem'
        obtain ⟨other, old, rfl⟩ := mem_map.mp mem
        rw [mem'] at same
        obtain ⟨turn, index⟩ := Prod.mk.inj same
        have turn : other.1 = s.turn := turn
        have index : other.2.1 = i := index
        obtain early | ⟨_, _, idle⟩ := sound.ends other old
        · omega
        · exact idle (index ▸ active)
      · rw [fields]
        exact asked.phase
      · constructor
        · rw [next]
          exact sound.runs
        · rw [next]
          exact sound.started
        · rw [next, running]
          intro e mem
          obtain old | new := mem_append.mp mem
          · obtain early | ⟨turn, low, idle⟩ := sound.ends e old
            · exact .inl early
            · exact .inr ⟨turn, low, fun mem => idle (mem_of_mem_filter mem)⟩
          · rw [mem_singleton.mp new]
            exact .inr ⟨rfl, sound.running i active, by simp⟩
        · rw [next, running]
          exact fun j mem => sound.running j (mem_of_mem_filter mem)
        · rw [fields, length]
          exact sound.length
        · rw [next]
          intro j outcome here
          obtain old | rfl := finish_filled here
          · exact sound.filled j outcome old
          · exact sound.running j active
        · rw [fields]
          intro j result here
          obtain old | ⟨rfl, rfl, same, output⟩ := finish_outcome here
          · obtain ⟨call', made⟩ := sound.outcomes j result old
            exact ⟨call', made.grows grows⟩
          · rw [same]
            refine ⟨at_, mem_append_right _ (mem_singleton_self _), sound.started j (sound.running j active), ?_⟩
            rw [output, same]
  · cases ran

theorem mapM_some {l : List (Option α)} (all : l.mapM id = some l') : l = l'.map some := by
  induction l generalizing l' with
  | nil =>
    cases all
    rfl
  | cons a rest ih =>
    rw [mapM_cons] at all
    obtain ⟨b, here, all⟩ := Option.bind_eq_some_iff.mp all
    obtain ⟨bs, there, all⟩ := Option.bind_eq_some_iff.mp all
    cases all
    rw [map_cons, ih there]
    exact congrArg (· :: _) here

theorem mapM_ok {ε : Type} {l : List (Except ε α)} (all : l.mapM id = .ok l') : l = l'.map .ok := by
  induction l generalizing l' with
  | nil =>
    cases all
    rfl
  | cons a rest ih =>
    rw [mapM_cons] at all
    obtain ⟨b, here, all⟩ := bind_ok all
    obtain ⟨bs, there, all⟩ := bind_ok all
    cases all
    rw [map_cons, ih there]
    exact congrArg (· :: _) here

theorem Kept.settle (kept : Kept c s) (asked : Asked c s r batch.calls) (sound : BatchSound s batch)
    (ran : s.settle r batch = some s') : Kept c s' := by
  unfold Agent.settle at ran
  split at ran
  · obtain ⟨how, returned, same⟩ := Option.map_eq_some_iff.mp ran
    obtain ⟨outcomes, all, rfl⟩ := Option.map_eq_some_iff.mp returned
    -- an outcome is there for every call, so every call was started
    have ran : AllRan s s.turn := by
      refine ⟨r, batch.calls, asked.reply, asked.calls, ?_⟩
      intro i low
      have shape := mapM_some all
      have there : i < batch.outcomes.length := sound.length ▸ low
      have here : batch.outcomes[i]? = outcomes[i]?.map some := by rw [shape, getElem?_map]
      rw [getElem?_eq_getElem there] at here
      obtain ⟨outcome, _, same⟩ := Option.map_eq_some_iff.mp here.symm
      exact sound.started i (sound.filled i outcome (by rw [getElem?_eq_getElem there, same]))
    have grows (phase : Phase) : Grows s { s with settled := s.settled ++ [s.turn], phase := phase } :=
      ⟨fun _ _ h => h, fun _ h => h, fun _ h => h⟩
    have note (phase : Phase) (sound : PhaseSound c { s with settled := s.settled ++ [s.turn], phase := phase }) :
        Kept c { s with settled := s.settled ++ [s.turn], phase := phase } := by
      refine kept.grow (grows phase) rfl rfl rfl rfl rfl kept.runs kept.once kept.ended ?_ sound
      intro k mem
      obtain old | new := mem_append.mp mem
      · exact (kept.settled k old).grows (grows phase)
      · rw [mem_singleton.mp new]
        exact ran.grows (grows phase)
    cases every : outcomes.mapM id with
    | error e =>
      rw [every] at same
      cases same
      exact note (.threw e) trivial
    | ok results =>
      rw [every] at same
      cases same
      have shape : batch.outcomes = results.map fun result => some (.ok result) := by
        rw [mapM_some all, mapM_ok every, map_map]
        rfl
      have at_ (i : Nat) (result : FunctionCallResult) (here : results[i]? = some result) :
          batch.outcomes[i]? = some (some (.ok result)) := by
        rw [shape, getElem?_map, here]
        rfl
      have calls : batch.calls = results.map (·.call) := by
        apply ext_getElem?
        intro i
        have length := sound.length
        rw [shape, length_map] at length
        rw [getElem?_map]
        cases here : results[i]? with
        | none =>
          rw [getElem?_eq_none_iff] at here
          exact getElem?_eq_none (by omega)
        | some result => exact (sound.outcomes i result (at_ i result here)).1
      refine note (.reporting r results 0) ⟨calls ▸ asked.phase, ?_⟩
      constructor
      · intro run mem
        obtain early | ⟨turn, _⟩ := sound.runs run mem
        · exact early.le
        · exact turn.le
      · intro e mem
        obtain early | ⟨turn, _⟩ := sound.ends e mem
        · exact early.le
        · exact turn.le
      · exact fun i result here => (sound.outcomes i result (at_ i result here)).2
  · cases ran

theorem Kept.step {act : Action} (kept : Kept c s) (ran : s.step c act = some s') : Kept c s' := by
  have sound := kept.phase
  cases act with
  | head stop =>
    simp only [Agent.step] at ran
    split at ran
    · next top =>
      cases ran
      exact kept.head top stop
    · cases ran
  | respond response =>
    simp only [Agent.step] at ran
    split at ran
    · next requesting =>
      cases ran
      exact kept.respond requesting response
    · cases ran
  | observed => exact kept.observe ran
  | threw e =>
    simp only [Agent.step] at ran
    split at ran
    · cases ran
      exact kept.throw_ e
    · cases ran
      exact kept.throw_ e
    · cases ran
      exact kept.throw_ e
    · cases ran
  | start =>
    simp only [Agent.step] at ran
    split at ran
    · next response batch running =>
      simp only [PhaseSound, running] at sound
      exact kept.startCall sound.1 sound.2 ran
    · cases ran
  | finish i how =>
    simp only [Agent.step] at ran
    split at ran
    · next response batch running =>
      simp only [PhaseSound, running] at sound
      exact kept.finishCall sound.1 sound.2 ran
    · cases ran
  | stop =>
    simp only [Agent.step] at ran
    split at ran
    · next response batch running =>
      simp only [PhaseSound, running] at sound
      cases ran
      obtain ⟨asked, batch⟩ := sound
      exact kept.quiet ⟨asked.phase, batch.1, batch.2, batch.3, batch.4, batch.5, batch.6, batch.7⟩
    · cases ran
  | settled =>
    simp only [Agent.step] at ran
    split at ran
    · next response batch running =>
      simp only [PhaseSound, running] at sound
      exact kept.settle sound.1 sound.2 ran
    · cases ran
  | cancelled =>
    simp only [Agent.step] at ran
    split at ran
    · split at ran
      · cases ran
        exact kept.throw_ _
      · cases ran
    · cases ran

theorem kept_start : Kept c (start c) where
  turns := rfl
  request := rfl
  history _ := (append_nil _).symm
  limit := Nat.zero_le _
  sent k request at_ := by cases at_
  answered k t at_ := by cases at_
  runs run mem := by cases mem
  once := nodup_nil
  ended := nodup_nil
  settled k mem := by cases mem
  phase := by
    by_cases zero : c.options.maxTurns = 0 ∨ c.options.toolConcurrency = 0
    · simp only [PhaseSound, start, if_pos zero]
    · simp only [PhaseSound, start, if_neg zero]
      refine ⟨rfl, rfl, Nat.zero_le _, ?_, ?_⟩
      · intro run mem
        cases mem
      · intro e mem
        cases mem

theorem Kept.run {acts : List Action} (kept : Kept c s) (ran : s.run c acts = some s') : Kept c s' := by
  induction acts generalizing s with
  | nil =>
    cases ran
    exact kept
  | cons act rest ih =>
    obtain ⟨next, first, ran⟩ := Option.bind_eq_some_iff.mp ran
    exact ih (kept.step first) ran

end Agent

/-- The call that a well formed `function_call` item holds. -/
def callOf (item : Bytes) : Option FunctionCall :=
  if jsonStringMember item typeKey = some (lit "function_call") then
    match readFunctionCallFromItem item with
    | .ok call => call
    | .error _ => none
  else none

def Malformed (item : Bytes) : Prop :=
  jsonStringMember item typeKey = none ∨
    (jsonStringMember item typeKey = some (lit "function_call") ∧
      ∀ call, readFunctionCallFromItem item = .ok (some call) → call.arguments = [])

theorem readCalls_sound {calls found : List FunctionCall} {items : List Bytes}
    (read : readCalls calls items = .ok found) (distinct : (calls.map (·.callId)).Nodup) :
    found = calls ++ items.filterMap callOf ∧ (∀ item ∈ items, ¬Malformed item) ∧ (found.map (·.callId)).Nodup := by
  induction items generalizing calls with
  | nil =>
    cases read
    exact ⟨(append_nil _).symm, by simp, distinct⟩
  | cons item rest ih =>
    unfold readCalls at read
    split at read
    · cases read
    · next type typed =>
      split at read
      · next other =>
        obtain ⟨all, formed, nodup⟩ := ih read distinct
        have none : callOf item = none := by
          unfold callOf
          rw [typed, if_neg (by simpa using other)]
        have well : ¬Malformed item := by
          simp [Malformed, typed, other]
        refine ⟨?_, ?_, nodup⟩
        · rw [all, filterMap_cons_none none]
        · simpa using ⟨well, formed⟩
      · next same =>
        have typed : jsonStringMember item typeKey = some (lit "function_call") := by
          rw [typed]
          exact congrArg some (not_not.mp same)
        obtain ⟨call, item_read, read⟩ := bind_ok read
        cases call with
        | none => cases read
        | some call =>
          simp only at read
          split at read
          · cases read
          · next arguments =>
            split at read
            · cases read
            · next fresh =>
              have distinct' : ((calls ++ [call]).map (·.callId)).Nodup := by
                rw [map_append, nodup_append]
                refine ⟨distinct, nodup_singleton _, ?_⟩
                intro id mem id' mem' same
                obtain ⟨other, old, rfl⟩ := mem_map.mp mem
                rw [map_singleton, mem_singleton] at mem'
                exact fresh (any_eq_true.mpr ⟨other, old, by simp [same, mem']⟩)
              obtain ⟨all, formed, nodup⟩ := ih read distinct'
              have some_ : callOf item = some call := by
                unfold callOf
                rw [if_pos typed, item_read]
              have well : ¬Malformed item := by
                rintro (untyped | ⟨_, empty⟩)
                · rw [typed] at untyped
                  cases untyped
                · exact arguments (empty call item_read)
              refine ⟨?_, ?_, nodup⟩
              · rw [all, filterMap_cons_some some_, append_assoc]
                rfl
              · simpa using ⟨well, formed⟩

theorem first_input (c : Setup) : inputItemsFromRequest c.first = inputItemsFromRequest c.request := by
  unfold Setup.first
  simp only
  split <;> rfl

def answer (result : FunctionCallResult) : Bytes :=
  functionCallOutput result.call.callId (toolResultJson result.result)

structure Complete (c : Setup) (s : Agent) : Prop where
  requests : s.sent.length ≤ c.options.maxTurns
  first : ∀ request, s.sent[0]? = some request → request = c.first
  full : c.continuation = false → ∀ (k : Nat) (request : Request), s.sent[k]? = some request →
    k ≤ s.turns.length ∧ inputItemsFromRequest request = inputItemsFromRequest c.request ++
      (s.turns.take k).flatMap fun t => t.response.outputItems ++ t.results.map answer
  continued : c.continuation = true → ∀ (k : Nat) (request : Request), s.sent[k + 1]? = some request →
    ∃ t, s.turns[k]? = some t ∧ request.input = [] ∧ request.inputItems = t.results.map answer ∧
      request.previousResponseId = t.response.id ∧ t.response.id ≠ []
  answered : ∀ (k : Nat) (t : Turn), s.turns[k]? = some t → s.replies[k]? = some t.response ∧
    t.results.map (·.call) = t.response.outputItems.filterMap callOf ∧
    ∀ (i : Nat) (result : FunctionCallResult), t.results[i]? = some result →
      (k, i, ToolEnd.result result.result) ∈ s.ends ∧ ∃ run ∈ s.runs, run.key = (k, i)
  settled : ∀ k ∈ s.settled, ∃ response, s.replies[k]? = some response ∧
    ∀ i < (response.outputItems.filterMap callOf).length, ∃ run ∈ s.runs, run.key = (k, i)
  once : (s.runs.map Run.key).Nodup
  ended : (s.ends.map Agent.endKey).Nodup
  runs : ∀ run ∈ s.runs, run.turn + 1 < c.options.maxTurns ∧
    ∃ response call, s.replies[run.turn]? = some response ∧ (∀ item ∈ response.outputItems, ¬Malformed item) ∧
      ((response.outputItems.filterMap callOf).map (·.callId)).Nodup ∧
      (response.outputItems.filterMap callOf)[run.index]? = some call ∧
      run.tool = toolOf c.registry call ∧ run.arguments = call.arguments

theorem Agent.Kept.complete {c : Setup} {s : Agent} (kept : Kept c s) : Complete c s := by
  have calls {response : Response} {found : List FunctionCall}
      (read : readCalls [] response.outputItems = .ok found) := readCalls_sound read nodup_nil
  have outputs {k : Nat} {t : Turn} (at_ : s.turns[k]? = some t) : t.outputs = t.results.map answer := by
    apply map_congr_left
    intro result mem
    obtain ⟨i, here⟩ := mem_iff_getElem?.mp mem
    exact ((kept.answered k t at_).results i result here).2.2
  constructor
  · exact kept.limit
  · intro request at_
    exact (kept.sent 0 request at_).2
  · intro full k request at_
    obtain ⟨low, same⟩ := kept.sent k request at_
    refine ⟨kept.turns ▸ low, ?_⟩
    have flat : (s.turns.take k).flatMap Turn.items =
        (s.turns.take k).flatMap fun t => t.response.outputItems ++ t.results.map answer := by
      apply flatMap_congr
      intro t mem
      obtain ⟨i, here⟩ := mem_iff_getElem?.mp (mem_of_mem_take mem)
      rw [Turn.items, outputs here]
    rw [same, ← first_input, ← flat, Setup.requestAfter]
    split
    · next none =>
      rw [getLast?_eq_none_iff.mp none]
      exact (append_nil _).symm
    · rw [full, inputItemsFromRequest]
      simp only [Bool.false_eq_true, if_false]
      split
      · rfl
      · next empty => exact (not_not.mp empty).symm
  · intro continues k request at_
    obtain ⟨low, same⟩ := kept.sent (k + 1) request at_
    have inside : k < s.turns.length := by
      rw [kept.turns]
      omega
    have here : s.turns[k]? = some s.turns[k] := getElem?_eq_getElem inside
    have last : (s.turns.take (k + 1)).getLast? = some s.turns[k] := by
      rw [take_add_one, here]
      exact getLast?_concat
    have known := (kept.answered k _ here).known continues
    refine ⟨s.turns[k], here, ?_⟩
    rw [same, Setup.requestAfter, last, continues]
    exact ⟨rfl, outputs here, rfl, known⟩
  · intro k t at_
    have answered := kept.answered k t at_
    refine ⟨answered.response, (calls answered.calls).1, ?_⟩
    intro i result here
    have sound := answered.results i result here
    exact ⟨sound.1, sound.2.1⟩
  · intro k mem
    obtain ⟨response, found, reply, read, ran⟩ := kept.settled k mem
    have all := (calls read).1
    rw [nil_append] at all
    exact ⟨response, reply, all ▸ ran⟩
  · exact kept.once
  · exact kept.ended
  · intro run mem
    obtain ⟨response, found, call, reply, read, at_, tool, arguments, turn⟩ := kept.runs run mem
    obtain ⟨all, formed, distinct⟩ := calls read
    rw [nil_append] at all
    rw [all] at at_ distinct
    exact ⟨turn, response, call, reply, formed, distinct, at_, tool, arguments⟩

theorem Agent.run_complete {c : Setup} {acts : List Action} {s : Agent} (ran : (start c).run c acts = some s) :
    Complete c s := (kept_start.run ran).complete

def callItem (id name : String) : Bytes :=
  lit "\x7b\"type\":\"function_call\",\"call_id\":\"" ++ lit id ++ lit "\",\"name\":\"" ++ lit name ++
    lit "\",\"arguments\":\"\x7b\x7d\"\x7d"

def sampleSetup (concurrency : Nat) : Setup where
  request := { input := lit "go" }
  registry := [{ name := lit "n", description := [], parameters := lit "\x7b\x7d" }]
  options := { maxTurns := 3, toolConcurrency := concurrency }

def twoCalls : Response := { id := lit "r", outputItems := [callItem "a" "n", callItem "b" "m"] }

/-- Two calls, of which the second ends first, and an answer without calls. -/
def sampleRun : List Agent.Action :=
  [.head false, .respond twoCalls, .observed, .observed, .observed, .start, .start, .finish 1 (.result unknownTool),
    .finish 0 (.result { output := lit "done" }), .settled, .observed, .observed, .observed, .head false,
    .respond { outputItems := [lit "\x7b\"type\":\"message\"\x7d"] }]

theorem sample_complete : ∃ s, (Agent.start (sampleSetup 2)).run (sampleSetup 2) sampleRun = some s ∧
    s.sent.length = 2 ∧ s.runs.length = 2 ∧ Complete (sampleSetup 2) s := by
  have counts : ((Agent.start (sampleSetup 2)).run (sampleSetup 2) sampleRun).map
      (fun s => (s.sent.length, s.runs.length)) = some (2, 2) := by decide +kernel
  obtain ⟨s, ran, same⟩ := Option.map_eq_some_iff.mp counts
  obtain ⟨sent, runs⟩ := Prod.mk.inj same
  exact ⟨s, ran, sent, runs, Agent.run_complete ran⟩

/-- The first of two calls is cancelled before the second is admitted. -/
def cutShort : List Agent.Action :=
  [.head false, .respond twoCalls, .observed, .observed, .observed, .start, .finish 0 (.threw .operationCancelled),
    .cancelled]

theorem call_never_run : ∃ s calls, (Agent.start (sampleSetup 1)).run (sampleSetup 1) cutShort = some s ∧
    s.replies = [twoCalls] ∧ readCalls [] twoCalls.outputItems = .ok calls ∧ calls.length = 2 ∧
    s.turn + 1 < (sampleSetup 1).options.maxTurns ∧ ∀ run ∈ s.runs, run.key ≠ (0, 1) := by
  have told : ((Agent.start (sampleSetup 1)).run (sampleSetup 1) cutShort).map
      (fun s => (s.replies, s.turn, s.runs.map Run.key)) = some ([twoCalls], 0, [(0, 0)]) := by decide +kernel
  have read : (readCalls [] twoCalls.outputItems).toOption.map List.length = some 2 := by decide +kernel
  obtain ⟨s, ran, same⟩ := Option.map_eq_some_iff.mp told
  obtain ⟨replies, same⟩ := Prod.mk.inj same
  obtain ⟨turn, runs⟩ := Prod.mk.inj same
  cases calls : readCalls [] twoCalls.outputItems with
  | error e =>
    rw [calls] at read
    cases read
  | ok calls' =>
    rw [calls] at read
    refine ⟨s, calls', ran, replies, rfl, Option.some.inj read, by rw [turn]; decide, ?_⟩
    intro run mem
    have key : run.key ∈ s.runs.map Run.key := mem_map_of_mem mem
    rw [runs, mem_singleton] at key
    rw [key]
    decide

end Nxt.Ai
