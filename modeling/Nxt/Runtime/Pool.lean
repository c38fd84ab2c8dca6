import Nxt.Runtime.Group

/- The worker pool (pool.hpp) with one consumer on one deck. What the input feed, the ideas and the
   deck do inside a pass of the pump is told by replies, one for each turn of its loop; between two
   suspensions of the reader jobs and the input read complete, results are consumed, and the pool can
   be stopped. Inputs are numbered in the order they are read. -/
namespace Nxt.Runtime

inductive Work (V E : Type) where
  | none
  | pending
  | done (result : Outcome V E)

/-- `pool_slot` while the pool owns it. -/
structure Held (V E : Type) where
  idea : Option Nat := none
  task : Work V E := .none
  ready : Option V := none
  started : Bool := false

/-- The pending read of the input; `true` is an idea and `false` the end. -/
inductive InputTask (E : Type) where
  | none
  | unstarted
  | running
  | done (result : Outcome Bool E)

inductive ReadEnd (E : Type) where
  | data
  /-- The end of the stream, with so many results still in the buffer. -/
  | eof (left : Nat)
  | threw (e : Exn E)
  | closed

inductive Reader where
  | idle
  /-- The first call of `stream_more` was pending and dropped; `read_more_slow` is to make another. -/
  | staged
  /-- `read_slow` is to start, with so many results in the buffer before. -/
  | begun (before : Nat)
  /-- At the `changed_awaiter`. -/
  | waiting (before : Nat)
  | closing
  deriving DecidableEq

structure Pool (V E : Type) where
  slots : List (Option (Held V E))
  /-- The results in the feed's buffer. -/
  ring : List V := []
  input : InputTask E := .none
  inputSlot : Option Nat := none
  prepared : Option Nat := none
  completed : List Nat := []
  buffered : List Nat := []
  failure : Option (Exn E) := none
  occupied : Nat := 0
  running : Nat := 0
  inputEnded : Bool := false
  changed : Bool := false
  /-- Whether a reader is registered as the waiter. -/
  waiter : Bool := false
  stopping : Bool := false
  reader : Reader := .idle
  /-- The inputs read, those begun, the completions and the publications so far, and how many results
  were consumed. -/
  reads : Nat := 0
  begun : List Nat := []
  completions : List (Nat × Outcome V E) := []
  published : List (Nat × V) := []
  consumed : Nat := 0
  /-- The exceptions that passes of the pump threw, and how the reads ended. -/
  observed : List (Exn E) := []
  ends : List (ReadEnd E) := []

inductive Take (E : Type) where
  | threw (e : Exn E)
  | ready (item : Bool)
  | pending

/-- What invoking an idea does: throw, a ready hope, a task that is done or pending, an empty task. -/
inductive Invoke (V E : Type) where
  | threw (e : Exn E)
  | ready (value : V)
  | done (result : Outcome V E)
  | pending
  | empty

structure Reply (V E : Type) where
  startJob : Option (Exn E) := none
  startInput : Option (Exn E) := none
  /-- The slot the farm hands out if it is free. -/
  pick : Nat := 0
  take : Take E := .pending
  takeStops : Bool := false
  moveStops : Bool := false
  invoke : Invoke V E := .pending

inductive Pass (E : Type) where
  | again
  | returned
  | threw (e : Exn E)

namespace Pool
variable {V E : Type}

def capacity (s : Pool V E) : Nat := s.slots.length

def held (s : Pool V E) (i : Nat) : Option (Held V E) := (s.slots[i]?).join

def signal (s : Pool V E) : Pool V E := { s with changed := true, waiter := false }

/-- Stop requests reach the input read and the jobs; they complete later. -/
def stop (s : Pool V E) : Pool V E := { s with stopping := true }.signal

def allocate (s : Pool V E) (pick : Nat) : Option Nat :=
  match s.slots[pick]? with
  | some none => some pick
  | _ => s.slots.findIdx? Option.isNone

def reserve (s : Pool V E) (pick : Nat) : Option Nat × Pool V E :=
  match s.allocate pick with
  | none => (none, s)
  | some i => (some i, { s with slots := s.slots.set i (some {}), occupied := s.occupied + 1 })

def release (s : Pool V E) (i : Nat) : Pool V E :=
  { s with slots := s.slots.set i none, occupied := s.occupied - 1 }

/-- `toss` and the notification of the pool: the slots of the consumed results go back. -/
def toss (s : Pool V E) (n : Nat) : Pool V E :=
  let released := (s.buffered.take n).foldl release s
  { released with ring := s.ring.drop n, buffered := s.buffered.drop n }

/-- A slot goes to the end of the completed ones. -/
def pushCompleted (s : Pool V E) (i : Nat) (id : Nat) (result : Outcome V E) : Pool V E :=
  { s with completed := s.completed ++ [i], completions := s.completions ++ [(id, result)] }

def setSlot (s : Pool V E) (i : Nat) (h : Held V E) : Pool V E :=
  { s with slots := s.slots.set i (some h) }

def acceptInput (s : Pool V E) (item : Bool) (r : Reply V E) : Option (Exn E) × Pool V E :=
  if s.stopping then (none, s)
  else
    match s.inputSlot with
    | none => (none, s)
    | some i =>
        let s := { s with inputSlot := none }
        if !item then (none, { s.release i with inputEnded := true })
        else
          let id := s.reads
          let s := { s.setSlot i { idea := some id } with reads := s.reads + 1 }
          if r.moveStops then (none, s.stop)
          else
            match r.invoke with
            | .threw e => (some e, s)
            | .ready value =>
                let s := s.setSlot i { idea := some id, ready := some value }
                (none, { s.pushCompleted i id (.ok value) with begun := s.begun ++ [id] })
            | .empty => (some (.runtimeError "nxtrt pool idea returned an empty task"), s)
            | .done result =>
                let s := s.setSlot i { idea := some id, task := .done result }
                (none, { s.pushCompleted i id result with begun := s.begun ++ [id] })
            | .pending =>
                (none, { s.setSlot i { idea := some id, task := .pending } with prepared := some i })

/-- The result that a completed slot gives. -/
def outcome (h : Held V E) : Outcome V E :=
  match h.ready, h.task with
  | some value, _ => .ok value
  | none, .done result => result
  | none, _ => .error (.runtimeError "nxtrt task result was never set")

def publish : List Nat → Pool V E → Option (Exn E) × Pool V E
  | [], s => (none, s)
  | i :: rest, s =>
      let h := (s.held i).getD {}
      match outcome h with
      | .error e => (some e, s)
      | .ok value =>
          if s.ring.length = s.capacity then (some (.runtimeError "value source buffer is full"), s)
          else
            publish rest { s.setSlot i { h with task := .none, ready := none } with
              ring := s.ring ++ [value]
              buffered := s.buffered ++ [i]
              completed := rest
              published := s.published ++ [(h.idea.getD 0, value)] }

def startPrepared (schedule : Bool) (r : Reply V E) (s : Pool V E) : Pass E × Pool V E :=
  match s.prepared with
  | none => (.again, s)
  | some i =>
      if !schedule then (.returned, s)
      else
        match r.startJob with
        | some e => (.threw e, s)
        | none =>
            let h := (s.held i).getD {}
            (.again, { s.setSlot i { h with started := true } with
              running := s.running + 1
              prepared := none
              begun := s.begun ++ h.idea.toList })

def pollInput (schedule : Bool) (r : Reply V E) (s : Pool V E) : Pass E × Pool V E :=
  let accepted (s : Pool V E) : Outcome Bool E → Pass E × Pool V E
    | .error e => (.threw e, s)
    | .ok item =>
        match { s with input := .none }.acceptInput item r with
        | (some e, s) => (.threw e, s)
        | (none, s) => (.again, s)
  match s.input with
  | .none => (.again, s)
  | .unstarted =>
      if !schedule then (.returned, s)
      else
        match r.startInput with
        | some e => (.threw e, s)
        | none => (.returned, { s with input := .running })
  | .running => (.returned, s)
  | .done result => accepted s result

def admitInput (r : Reply V E) (s : Pool V E) : Pass E × Pool V E :=
  if s.inputEnded then (.returned, s)
  else
    match s.reserve r.pick with
    | (none, s) => (.returned, { s with inputSlot := none })
    | (some i, s) =>
        let s := { s with inputSlot := some i }
        let s := if r.takeStops then s.stop else s
        match r.take with
        | .threw e => (.threw e, s)
        | .ready item =>
            if s.stopping then (.returned, s)
            else
              match s.acceptInput item r with
              | (some e, s) => (.threw e, s)
              | (none, s) => (.again, s)
        | .pending => if s.stopping then (.returned, s) else (.again, { s with input := .unstarted })

/-- One turn of the loop of `pump`. -/
def pumpTurn (schedule : Bool) (r : Reply V E) (s : Pool V E) : Pass E × Pool V E :=
  if s.stopping then (.returned, s)
  else
    match publish s.completed s with
    | (some e, s) => (.threw e, s)
    | (none, s) =>
        match startPrepared schedule r s with
        | (.again, s) =>
            match s.input with
            | .none => admitInput r s
            | _ => pollInput schedule r s
        | stopped => stopped

/-- `pump`, for the turns that the replies tell; none when they are too few. -/
def pump (schedule : Bool) : List (Reply V E) → Pool V E → Option (Option (Exn E) × Pool V E)
  | [], _ => none
  | r :: rest, s =>
      match pumpTurn schedule r s with
      | (.again, s) => pump schedule rest s
      | (.returned, s) => some (none, s)
      | (.threw e, s) => some (some e, s)

/-- A slot that `discard_settled` gives back. -/
def settled (s : Pool V E) (i : Nat) : Bool :=
  match s.held i with
  | none => false
  | some h =>
      s.inputSlot ≠ some i &&
        (!h.started || match h.task with
          | .pending => false
          | _ => true)

def inputRunning (s : Pool V E) : Bool :=
  match s.input with
  | .running => true
  | _ => false

/-- `discard_settled`: whether no slot is occupied after it. -/
def discardSettled (s : Pool V E) : Bool × Pool V E :=
  let s := { s.toss s.ring.length with completed := [], prepared := none }
  let s := if s.inputRunning then s else { s with input := .none, inputSlot := none }
  let s := (List.range s.capacity).foldl (fun s i => if s.settled i then s.release i else s) s
  (s.occupied == 0, s)

/-- What a call of `stream_more` gives. -/
inductive Call (E : Type) where
  | ended (r : ReadEnd E)
  | pending (before : Nat)

/-- The checks after a pass of the pump. -/
def progress (before : Nat) (s : Pool V E) : Option (ReadEnd E) :=
  if s.ring.length > before then some .data
  else if s.inputEnded && s.occupied == s.ring.length then some (.eof s.ring.length)
  else none

/-- A failure is kept, and the pool is stopped and drained. -/
def fail (e : Exn E) (s : Pool V E) : Pool V E := { s with failure := some e }.stop

/-- `stream_more` with a limit above zero. -/
def streamMore (replies : List (Reply V E)) (s : Pool V E) : Option (Call E × Pool V E) :=
  let before := s.ring.length
  let failed (e : Exn E) (s : Pool V E) : Call E × Pool V E :=
    match (s.fail e).discardSettled with
    | (true, s) => (.ended (.threw e), { s with failure := none })
    | (false, s) => (.pending before, s)
  if s.stopping then some (failed .operationCancelled s)
  else
    match pump false replies s with
    | none => none
    | some (some e, s) => some (failed e { s with observed := s.observed ++ [e] })
    | some (none, s) =>
        if s.stopping then some (failed .operationCancelled s)
        else
          match progress before s with
          | some r => some (.ended r, s)
          | none => some (.pending before, s)

/-- The end of a round of `read_slow`: what is settled is discarded, and the round ends or waits. -/
def drain (before : Nat) (s : Pool V E) : Pool V E :=
  let wait (s : Pool V E) : Pool V E :=
    if s.changed then { s with changed := false, reader := .begun before }
    else { s with waiter := true, reader := .waiting before }
  if s.stopping then
    match s.discardSettled with
    | (true, s) =>
        let e := s.failure.getD .operationCancelled
        { s with failure := none, reader := .idle, ends := s.ends ++ [.threw e] }
    | (false, s) => wait s
  else wait s

/-- A round of the loop of `read_slow`, up to the await at its end. -/
def readSlow (replies : List (Reply V E)) (before : Nat) (s : Pool V E) : Option (Pool V E) :=
  if s.stopping then some (s.drain before)
  else
    match pump true replies s with
    | none => none
    | some (some e, s) => some (({ s with observed := s.observed ++ [e] }.fail e).drain before)
    | some (none, s) =>
        if s.stopping then some (s.drain before)
        else
          match progress before s with
          | some r => some { s with reader := .idle, ends := s.ends ++ [r] }
          | none => some (s.drain before)

/-- A round of the loop of `close`. -/
def closeRound (s : Pool V E) : Pool V E :=
  match s.discardSettled with
  | (true, s) => { s with reader := .idle, ends := s.ends ++ [.closed] }
  | (false, s) =>
      if s.changed then { s with changed := false, reader := .closing }
      else { s with waiter := true, reader := .closing }

inductive Event (V E : Type) where
  /-- A verb that refills the buffer calls `stream_more`. -/
  | refill (replies : List (Reply V E))
  /-- The same, from a verb that awaits this call. -/
  | stream (replies : List (Reply V E))
  /-- `read_more_slow` makes its call. -/
  | retry (replies : List (Reply V E))
  /-- The staged read is dropped. -/
  | drop
  /-- A round of `read_slow`. -/
  | round (replies : List (Reply V E))
  | consume (n : Nat)
  | jobDone (i : Nat) (result : Outcome V E)
  | inputDone (result : Outcome Bool E)
  | stop
  | close
  | closeRound

def answered (pending : Nat → Reader) (r : Call E × Pool V E) : Pool V E :=
  match r with
  | (.ended e, s) => { s with reader := .idle, ends := s.ends ++ [e] }
  | (.pending before, s) => { s with reader := pending before }

/-- A job reaches its final suspension. -/
def jobDone (s : Pool V E) (i : Nat) (h : Held V E) (result : Outcome V E) : Pool V E :=
  let s := s.setSlot i { h with task := .done result }
  ({ s with running := s.running - 1 }.pushCompleted i (h.idea.getD 0) result).signal

inductive Step : Pool V E → Event V E → Pool V E → Prop where
  | refill (s : Pool V E) (replies : List (Reply V E)) (r : Call E × Pool V E) (free : s.reader = .idle)
      (called : s.streamMore replies = some r) :
      Step s (.refill replies) (answered (fun _ => .staged) r)
  | stream (s : Pool V E) (replies : List (Reply V E)) (r : Call E × Pool V E) (free : s.reader = .idle)
      (called : s.streamMore replies = some r) : Step s (.stream replies) (answered .begun r)
  | retry (s : Pool V E) (replies : List (Reply V E)) (r : Call E × Pool V E)
      (staged : s.reader = .staged) (called : s.streamMore replies = some r) :
      Step s (.retry replies) (answered .begun r)
  | drop (s : Pool V E) (staged : s.reader = .staged) : Step s .drop { s with reader := .idle }
  | begin (s s' : Pool V E) (replies : List (Reply V E)) (before : Nat)
      (begun : s.reader = .begun before) (ran : readSlow replies before s = some s') :
      Step s (.round replies) s'
  | resume (s s' : Pool V E) (replies : List (Reply V E)) (before : Nat)
      (waited : s.reader = .waiting before) (ready : s.waiter = false)
      (ran : readSlow replies before { s with changed := false } = some s') : Step s (.round replies) s'
  | consume (s : Pool V E) (n : Nat) (free : s.reader = .idle) (enough : n ≤ s.ring.length) :
      Step s (.consume n) { s.toss n with consumed := s.consumed + n }
  | jobDone (s : Pool V E) (i : Nat) (h : Held V E) (result : Outcome V E) (here : s.held i = some h)
      (started : h.started = true) (pending : h.task = .pending) :
      Step s (.jobDone i result) (s.jobDone i h result)
  | inputDone (s : Pool V E) (result : Outcome Bool E) (running : s.input = .running) :
      Step s (.inputDone result) { s with input := .done result }.signal
  | stop (s : Pool V E) : Step s .stop s.stop
  | close (s : Pool V E) (free : s.reader = .idle) : Step s .close s.stop.closeRound
  | closeRound (s : Pool V E) (closing : s.reader = .closing) (ready : s.waiter = false) :
      Step s .closeRound { s with changed := false }.closeRound

inductive Run (allowed : Pool V E → Event V E → Prop) (capacity : Nat) : Pool V E → Prop where
  | start : Run allowed capacity { slots := List.replicate capacity none }
  | step {s s' : Pool V E} {e : Event V E} (run : Run allowed capacity s) (step : Step s e s')
      (may : allowed s e) : Run allowed capacity s'

end Pool

end Nxt.Runtime
