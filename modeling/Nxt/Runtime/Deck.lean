import Mathlib

/- The deck (deck.hpp, task/runtime.hpp, ids.hpp): a table of registered tasks, a queue of ready
   ids and rounds. Coroutine handles and promises are addresses; what a resumed task does to the
   deck is any sequence of operations. -/
namespace Nxt.Runtime

/-- An id packs a one-based row index and an era; zero is no task. -/
structure TaskId where
  value : Nat := 0
  deriving DecidableEq

namespace TaskId

def indexBits : Nat := 24
def maxIndex : Nat := 2 ^ indexBits - 1

def make (index era : Nat) : TaskId := ⟨era % 2 ^ 8 * 2 ^ indexBits + index % 2 ^ indexBits⟩

def index (id : TaskId) : Nat := id.value % 2 ^ indexBits

def era (id : TaskId) : Nat := id.value / 2 ^ indexBits % 2 ^ 8

end TaskId

/-- `deck_task_record`. -/
structure Row where
  id : TaskId := {}
  handle : Option Nat := none
  promise : Option Nat := none
  live : Bool := false
  era : Nat := 1
  deriving DecidableEq

inductive Registered where
  | nowhere
  | here
  | elsewhere
  deriving DecidableEq

structure Promise where
  id : TaskId := {}
  deck : Registered := .nowhere
  deriving DecidableEq

inductive DeckError where
  | differentDeck
  | idCollision
  | tableTooLarge
  | tableFull
  deriving DecidableEq

def DeckError.message : DeckError → String
  | .differentDeck => "nxtrt task scheduled on a different deck"
  | .idCollision => "nxtrt task id collision"
  | .tableTooLarge => "nxtrt deck task table is too large"
  | .tableFull => "nxtrt deck task table is full"

structure Deck where
  tasks : List Row := []
  ready : List TaskId := []
  /-- The promise at an address. -/
  promises : Nat → Promise := fun _ => {}
  /-- Whether the coroutine at an address is at its final suspension. -/
  done : Nat → Bool := fun _ => false

namespace Deck

def setRow (d : Deck) (i : Nat) (row : Row) : Deck := { d with tasks := d.tasks.set i row }

def setPromise (d : Deck) (p : Nat) (promise : Promise) : Deck :=
  { d with promises := Function.update d.promises p promise }

def resolve (d : Deck) (id : TaskId) : Option Nat :=
  if id.value = 0 then none
  else if id.index = 0 then none
  else
    match d.tasks[id.index - 1]? with
    | none => none
    | some row => if row.live ∧ row.id = id then some (id.index - 1) else none

def vacant (d : Deck) : Option Nat := d.tasks.findIdx? fun row => !row.live

def emplace (d : Deck) (handle promise : Nat) : Except DeckError TaskId × Deck :=
  match d.vacant with
  | none => (.error .tableFull, d)
  | some i =>
      if i + 1 > TaskId.maxIndex then (.error .tableTooLarge, d)
      else
        let era := (d.tasks.getD i {}).era
        let id := TaskId.make (i + 1) era
        let row : Row := { id, handle := some handle, promise := some promise, live := true, era }
        (.ok id, (d.setRow i row).setPromise promise { id, deck := .here })

def registerTask (d : Deck) (handle promise : Nat) : Except DeckError TaskId × Deck :=
  let held := d.promises promise
  if held.deck = .elsewhere then (.error .differentDeck, d)
  else if held.id.value ≠ 0 then
    match d.resolve held.id with
    | some i =>
        let row := d.tasks.getD i {}
        if row.promise ≠ some promise then (.error .idCollision, d)
        else (.ok held.id, d.setRow i { row with handle := some handle })
    | none => (d.setPromise promise { held with id := {} }).emplace handle promise
  else d.emplace handle promise

/-- The era after a row is vacated: eight bits, never zero. -/
def nextEra (era : Nat) : Nat := if (era + 1) % 2 ^ 8 = 0 then 1 else (era + 1) % 2 ^ 8

def unregisterTask (d : Deck) (id : TaskId) (promise : Nat) : Deck :=
  match d.resolve id with
  | none => d
  | some i =>
      let row := d.tasks.getD i {}
      if row.promise ≠ some promise then d
      else
        let d := d.setRow i { era := nextEra row.era }
        d.setPromise promise
          { id := {}, deck := if (d.promises promise).deck = .here then .nowhere
                              else (d.promises promise).deck }

def enqueue (d : Deck) (handle promise : Nat) : Except DeckError TaskId × Deck :=
  match d.registerTask handle promise with
  | (.ok id, d) => (.ok id, { d with ready := d.ready ++ [id] })
  | (.error e, d) => (.error e, d)

/-- A task's frame is destroyed; its address may hold another promise later. -/
def destroy (d : Deck) (promise : Nat) : Deck :=
  let held := d.promises promise
  let d := if held.deck = .here then d.unregisterTask held.id promise else d
  d.setPromise promise {}

def finish (d : Deck) (handle : Nat) : Deck := { d with done := Function.update d.done handle true }

/-- A new frame at an address. -/
def begin (d : Deck) (handle : Nat) : Deck := { d with done := Function.update d.done handle false }

/-- The task that `resume_if_ready` resumes. -/
def resumable (d : Deck) (id : TaskId) : Option (Nat × Nat) :=
  match d.resolve id with
  | none => none
  | some i =>
      let row := d.tasks.getD i {}
      match row.handle, row.promise with
      | some handle, some promise => if d.done handle then none else some (handle, promise)
      | _, _ => none

end Deck

inductive Act where
  | enqueue (handle promise : Nat)
  | destroy (promise : Nat)
  | finish (handle : Nat)
  | begin (handle : Nat)
  /-- Another deck registers the task. -/
  | depart (promise : Nat) (id : TaskId)
  deriving DecidableEq

def Deck.act (d : Deck) : Act → Deck
  | .enqueue handle promise => (d.enqueue handle promise).2
  | .destroy promise => d.destroy promise
  | .finish handle => d.finish handle
  | .begin handle => d.begin handle
  | .depart promise id =>
      if (d.promises promise).deck = .nowhere then d.setPromise promise { id, deck := .elsewhere }
      else d

/-- A successful enqueue: the id, how often its row had been vacated, the task, and how many
rounds had begun. -/
structure Entry where
  id : TaskId
  gen : Nat
  promise : Nat
  round : Nat
  deriving DecidableEq

/-- A place in a round: the id, the task it resumes if any, whether the registration that was
queued is still there and unfinished, and the number of the round. -/
structure Turn where
  id : TaskId
  resumed : Option (Nat × Nat)
  alive : Bool
  round : Nat
  deriving DecidableEq

/-- A deck that is being pumped: what is left of the round, whether a task is running, and what
has happened so far. -/
structure Pump where
  deck : Deck := {}
  round : List TaskId := []
  running : Bool := false
  /-- How often a row has been vacated. -/
  gens : Nat → Nat := fun _ => 0
  entries : List Entry := []
  turns : List Turn := []
  rounds : Nat := 0

namespace Pump

def entered (s : Pump) : Act → List Entry
  | .enqueue handle promise =>
      match (s.deck.enqueue handle promise).1 with
      | .ok id => [⟨id, s.gens (id.index - 1), promise, s.rounds⟩]
      | .error _ => []
  | _ => []

def act (s : Pump) (a : Act) : Pump :=
  let after := s.deck.act a
  { s with
    deck := after
    gens := fun i =>
      if (s.deck.tasks.getD i {}).live ∧ ¬ (after.tasks.getD i {}).live then s.gens i + 1 else s.gens i
    entries := s.entries ++ s.entered a }

/-- `run_ready_with` takes the queue as it is. -/
def beginRound (s : Pump) : Pump :=
  { s with round := s.deck.ready, deck := { s.deck with ready := [] }, rounds := s.rounds + 1 }

/-- The registration of an entry is still in its row, and its coroutine is not finished. -/
def alive (s : Pump) (e : Entry) : Bool :=
  let row := s.deck.tasks.getD (e.id.index - 1) {}
  row.live && s.gens (e.id.index - 1) = e.gen &&
    match row.handle with
    | some handle => !s.deck.done handle
    | none => false

def turn (s : Pump) (id : TaskId) (rest : List TaskId) : Pump :=
  let resumed := s.deck.resumable id
  let alive := (s.entries[s.turns.length]?).any s.alive
  { s with
    round := rest
    running := resumed.isSome
    turns := s.turns ++ [⟨id, resumed, alive, s.rounds⟩] }

inductive Step : Pump → Pump → Prop where
  | act (s : Pump) (a : Act) : Step s (s.act a)
  /-- The pump is not reentrant. -/
  | begin (s : Pump) (idle : s.running = false) (spent : s.round = []) : Step s s.beginRound
  | turn (s : Pump) (id : TaskId) (rest : List TaskId) (idle : s.running = false)
      (next : s.round = id :: rest) : Step s (s.turn id rest)
  /-- The resumed task suspends. -/
  | suspend (s : Pump) (busy : s.running = true) : Step s { s with running := false }

/-- No row is reused 255 times while an id of it is queued. -/
def Lasting (s : Pump) : Prop :=
  ∀ e ∈ s.entries.drop s.turns.length, s.gens (e.id.index - 1) < e.gen + 255

inductive Run : Pump → Prop where
  | start (capacity : Nat) : Run { deck := { tasks := List.replicate capacity {} } }
  | step {s s' : Pump} (run : Run s) (step : Step s s') (lasting : s'.Lasting) : Run s'

end Pump

end Nxt.Runtime
