import Nxt.Runtime.Calls

/- The blocking pool: its run tasks, the tasks that close it, the loop of `stop` and the
   workers, each taking one region at a time. What one deck turn does between two regions is
   part of the region before. A task destroyed while it is parked aborts the process and a
   failing poll is an error of the wand, so neither is a step here. -/
namespace Nxt.Runtime.Blocking
variable {V E : Type}

inductive Worker where
  | idle
  | taking (j : Nat)
  | calling (j : Nat)
  | finishing (j : Nat)
  | exited
  deriving DecidableEq

/-- Who runs on the deck. `stopping` is the loop of `stop`, with the calls it has yet to
    cancel and whether a `close` goes on after it. -/
inductive Turn where
  | idle
  | task (j : Nat)
  | stopping (rest : List Nat) (closes : Bool)
  | closing
  | joining
  deriving DecidableEq

/-- `admitted`, `taken` and `started` are the orders in which calls were admitted, left the
    queue and were started; `returned` has, for each `close` that returned, the number of run
    tasks that had begun by then. None of the code's steps reads these four. -/
structure Pool (V E : Type) where
  capacity : Nat
  occupied : Nat := 0
  closing : Bool := false
  changed : Bool := false
  jobs : List (Job V E) := []
  calls : List Nat := []
  queue : List Nat := []
  workerStop : Bool := false
  workers : List Worker
  turn : Turn := .idle
  closers : Nat := 0
  admitted : List Nat := []
  taken : List Nat := []
  started : List Nat := []
  returned : List Nat := []
  deriving DecidableEq

namespace Pool

def start (workers capacity : Nat) : Pool V E := { capacity, workers := List.replicate workers .idle }

def put (s : Pool V E) (j : Nat) (b : Job V E) : Pool V E := { s with jobs := s.jobs.set j b }

/-- A call of `run` up to its first drain. -/
def begin (s : Pool V E) : Pool V E :=
  { s with jobs := s.jobs ++ [{}], calls := s.calls ++ [s.jobs.length], turn := .task s.jobs.length }

def accept (s : Pool V E) (j : Nat) (b : Job V E) : Pool V E :=
  { s.put j b.accept with
    queue := s.queue ++ [j], occupied := s.occupied + 1, admitted := s.admitted ++ [j] }

def notifyAll (calls : List Nat) (jobs : List (Job V E)) : List (Job V E) :=
  jobs.mapIdx fun i b => if i ∈ calls then b.notify else b

def callGuard (s : Pool V E) (j : Nat) (b : Job V E) (r : Ending V E) : Pool V E :=
  { s with
    occupied := if b.submitted then s.occupied - 1 else s.occupied
    calls := s.calls.filter (· ≠ j)
    jobs := notifyAll (s.calls.filter (· ≠ j)) (s.jobs.set j (b.leave r))
    changed := true
    turn := .idle }

def runTask (s : Pool V E) (j : Nat) (b : Job V E) : Option (Pool V E) :=
  match b.phase with
  | .entering => some (s.put j (b.drain .checking))
  | .checking =>
    if s.closing || b.cancelled then some (s.put j (b.finish .operationCancelled))
    else if s.occupied < s.capacity then some (s.accept j b)
    else some { s.put j (b.park .asking) with turn := .idle }
  | .draining => some (s.put j (b.drain .collecting))
  | .collecting =>
    if b.done then some (s.put j (b.finish b.ending))
    else some { s.put j (b.park .awaiting) with turn := .idle }
  | .leaving r =>
    -- `join` would hold the deck until the worker is done
    if b.submitted && !b.done then none else some (s.callGuard j b r)
  | _ => none

/-- The next region of whoever runs on the deck. -/
def advance (s : Pool V E) : Option (Pool V E) :=
  match s.turn with
  | .idle => none
  | .task j => s.jobs[j]?.bind (s.runTask j)
  | .stopping [] closes => some { s with turn := if closes then .closing else .idle }
  | .stopping (j :: rest) closes =>
    s.jobs[j]?.map fun b => { s.put j b.cancel with turn := .stopping rest closes }
  | .closing =>
    if s.calls = [] then some { s with workerStop := true, turn := .joining }
    else some { s with changed := false, closers := s.closers + 1, turn := .idle }
  | .joining =>
    if ∀ w ∈ s.workers, w = .exited then some { s with returned := s.jobs.length :: s.returned, turn := .idle }
    else none

/-- `stop`, called by itself or at the head of `close`. -/
def stop (s : Pool V E) (closes : Bool) : Pool V E := { s with closing := true, turn := .stopping s.calls closes }

/-- The deck resumes a run task whose pipe is readable. -/
def wake (s : Pool V E) (j : Nat) (b : Job V E) : Option (Pool V E) :=
  if b.pending then
    match b.phase with
    | .asking => some { s.put j (b.park .entering) with turn := .task j }
    | .awaiting => some { s.put j (b.park .draining) with turn := .task j }
    | _ => none
  else none

def setWorker (s : Pool V E) (w : Nat) (x : Worker) : Pool V E := { s with workers := s.workers.set w x }

def execute (s : Pool V E) (w j : Nat) (b : Job V E) : Pool V E :=
  { (s.put j b.execute).setWorker w (if b.cancelled then .finishing j else .calling j) with
    started := if b.cancelled then s.started else s.started ++ [j] }

/-- The next region of a worker; one that waits for `available_` has none. -/
def work (s : Pool V E) (w : Nat) : Worker → Option (Pool V E)
  | .idle =>
    match s.queue with
    | [] => if s.workerStop then some (s.setWorker w .exited) else none
    | j :: rest =>
      s.jobs[j]?.map fun b =>
        { (s.put j b.take).setWorker w (.taking j) with queue := rest, taken := s.taken ++ [j] }
  | .taking j => s.jobs[j]?.map (s.execute w j)
  | .finishing j => s.jobs[j]?.map fun b => (s.put j b.publish).setWorker w .idle
  | _ => none

def invoke (s : Pool V E) (w : Nat) (o : Outcome V E) : Worker → Option (Pool V E)
  | .calling j => s.jobs[j]?.map fun b => (s.put j (b.invoke o)).setWorker w (.finishing j)
  | _ => none

inductive Action (V E : Type) where
  | begin
  | stop
  | close
  | advance
  | wake (j : Nat)
  | wakeClose
  | cancel (j : Nat)
  | work (w : Nat)
  | invoke (w : Nat) (o : Outcome V E)

def step (s : Pool V E) : Action V E → Option (Pool V E)
  | .begin => if s.turn = .idle then some s.begin else none
  | .stop => if s.turn = .idle then some (s.stop false) else none
  | .close => if s.turn = .idle then some (s.stop true) else none
  | .advance => s.advance
  | .wake j => if s.turn = .idle then s.jobs[j]?.bind (s.wake j) else none
  | .wakeClose =>
    if s.turn = .idle ∧ 0 < s.closers ∧ s.changed then
      some { s with closers := s.closers - 1, turn := .closing }
    else none
  | .cancel j => s.jobs[j]?.bind fun b => if b.phase.isLeft then none else some (s.put j b.cancel)
  | .work w => s.workers[w]?.bind (s.work w)
  | .invoke w o => s.workers[w]?.bind (s.invoke w o)

def run (s : Pool V E) (acts : List (Action V E)) : Option (Pool V E) := acts.foldlM step s

inductive Move (s : Pool V E) : Pool V E → Prop
  | begin : s.turn = .idle → Move s s.begin
  | stop {closes} : s.turn = .idle → Move s (s.stop closes)
  | drain {j b phase} : s.turn = .task j → s.jobs[j]? = some b →
      (b.phase = .entering ∧ phase = .checking) ∨ (b.phase = .draining ∧ phase = .collecting) →
      Move s (s.put j (b.drain phase))
  | refuse {j b} : s.turn = .task j → s.jobs[j]? = some b → b.phase = .checking →
      s.closing = true ∨ b.cancelled = true → Move s (s.put j (b.finish .operationCancelled))
  | accept {j b} : s.turn = .task j → s.jobs[j]? = some b → b.phase = .checking → s.closing = false →
      b.cancelled = false → s.occupied < s.capacity → Move s (s.accept j b)
  | park {j b phase} : s.turn = .task j → s.jobs[j]? = some b →
      (b.phase = .checking ∧ phase = .asking ∧ ¬s.occupied < s.capacity) ∨
        (b.phase = .collecting ∧ phase = .awaiting ∧ b.done = false) →
      Move s { s.put j (b.park phase) with turn := .idle }
  | finish {j b} : s.turn = .task j → s.jobs[j]? = some b → b.phase = .collecting → b.done = true →
      Move s (s.put j (b.finish b.ending))
  | leave {j b r} : s.turn = .task j → s.jobs[j]? = some b → b.phase = .leaving r → Move s (s.callGuard j b r)
  | stopped {closes} : s.turn = .stopping [] closes →
      Move s { s with turn := if closes then .closing else .idle }
  | stopNext {j b rest closes} : s.turn = .stopping (j :: rest) closes → s.jobs[j]? = some b →
      Move s { s.put j b.cancel with turn := .stopping rest closes }
  | settled : s.turn = .closing → s.calls = [] → Move s { s with workerStop := true, turn := .joining }
  | parkClose : s.turn = .closing → Move s { s with changed := false, closers := s.closers + 1, turn := .idle }
  | joined : s.turn = .joining → (∀ w ∈ s.workers, w = .exited) →
      Move s { s with returned := s.jobs.length :: s.returned, turn := .idle }
  | wake {j b phase} : s.turn = .idle → s.jobs[j]? = some b →
      (b.phase = .asking ∧ phase = .entering) ∨ (b.phase = .awaiting ∧ phase = .draining) →
      Move s { s.put j (b.park phase) with turn := .task j }
  | wakeClose : s.turn = .idle → 0 < s.closers →
      Move s { s with closers := s.closers - 1, turn := .closing }
  | cancel {j b} : s.jobs[j]? = some b → b.phase.isLeft = false → Move s (s.put j b.cancel)
  | exit {w} : s.workers[w]? = some .idle → s.queue = [] → Move s (s.setWorker w .exited)
  | take {w j b rest} : s.workers[w]? = some .idle → s.queue = j :: rest → s.jobs[j]? = some b →
      Move s { (s.put j b.take).setWorker w (.taking j) with queue := rest, taken := s.taken ++ [j] }
  | execute {w j b} : s.workers[w]? = some (.taking j) → s.jobs[j]? = some b → Move s (s.execute w j b)
  | publish {w j b} : s.workers[w]? = some (.finishing j) → s.jobs[j]? = some b →
      Move s ((s.put j b.publish).setWorker w .idle)
  | invoke {w j b o} : s.workers[w]? = some (.calling j) → s.jobs[j]? = some b →
      Move s ((s.put j (b.invoke o)).setWorker w (.finishing j))

variable {s s' : Pool V E}

theorem runTask_move {j : Nat} {b : Job V E} (turn : s.turn = .task j) (at_ : s.jobs[j]? = some b)
    (ran : s.runTask j b = some s') : Move s s' := by
  unfold runTask at ran
  split at ran
  · next phase =>
    cases ran
    exact .drain turn at_ (.inl ⟨phase, rfl⟩)
  · next phase =>
    split at ran
    · next refused =>
      cases ran
      exact .refuse turn at_ phase (by simpa using refused)
    · next free =>
      simp only [Bool.or_eq_true, not_or, Bool.not_eq_true] at free
      split at ran
      · next credit =>
        cases ran
        exact .accept turn at_ phase free.1 free.2 credit
      · next full =>
        cases ran
        exact .park turn at_ (.inl ⟨phase, rfl, full⟩)
  · next phase =>
    cases ran
    exact .drain turn at_ (.inr ⟨phase, rfl⟩)
  · next phase =>
    split at ran
    · next done =>
      cases ran
      exact .finish turn at_ phase done
    · next undone =>
      cases ran
      exact .park turn at_ (.inr ⟨phase, rfl, by simpa using undone⟩)
  · next r phase =>
    split at ran
    · cases ran
    · cases ran
      exact .leave turn at_ phase
  · cases ran

theorem advance_move (ran : s.advance = some s') : Move s s' := by
  unfold advance at ran
  split at ran
  · cases ran
  · next j turn =>
    obtain ⟨b, at_, ran⟩ := Option.bind_eq_some_iff.mp ran
    exact runTask_move turn at_ ran
  · next closes turn =>
    cases ran
    exact .stopped turn
  · next j rest closes turn =>
    obtain ⟨b, at_, rfl⟩ := Option.map_eq_some_iff.mp ran
    exact .stopNext turn at_
  · next turn =>
    split at ran
    · next none =>
      cases ran
      exact .settled turn none
    · cases ran
      exact .parkClose turn
  · next turn =>
    split at ran
    · next exited =>
      cases ran
      exact .joined turn exited
    · cases ran

theorem wake_move {j : Nat} {b : Job V E} (turn : s.turn = .idle) (at_ : s.jobs[j]? = some b)
    (ran : s.wake j b = some s') : Move s s' := by
  unfold wake at ran
  split at ran
  · split at ran
    · next phase =>
      cases ran
      exact .wake turn at_ (.inl ⟨phase, rfl⟩)
    · next phase =>
      cases ran
      exact .wake turn at_ (.inr ⟨phase, rfl⟩)
    · cases ran
  · cases ran

theorem work_move {w : Nat} {x : Worker} (at_ : s.workers[w]? = some x) (ran : s.work w x = some s') : Move s s' := by
  cases x with
  | idle =>
    simp only [work] at ran
    split at ran
    · next empty =>
      split at ran
      · cases ran
        exact .exit at_ empty
      · cases ran
    · next j rest queue =>
      obtain ⟨b, job, rfl⟩ := Option.map_eq_some_iff.mp ran
      exact .take at_ queue job
  | taking j =>
    obtain ⟨b, job, rfl⟩ := Option.map_eq_some_iff.mp ran
    exact .execute at_ job
  | calling j => cases ran
  | finishing j =>
    obtain ⟨b, job, rfl⟩ := Option.map_eq_some_iff.mp ran
    exact .publish at_ job
  | exited => cases ran

theorem step_move {a : Action V E} (ran : s.step a = some s') : Move s s' := by
  cases a with
  | begin =>
    obtain ⟨turn, rfl⟩ := by simpa [step] using ran
    exact .begin turn
  | stop =>
    obtain ⟨turn, rfl⟩ := by simpa [step] using ran
    exact .stop turn
  | close =>
    obtain ⟨turn, rfl⟩ := by simpa [step] using ran
    exact .stop turn
  | advance => exact advance_move ran
  | wake j =>
    simp only [step] at ran
    split at ran
    · next turn =>
      obtain ⟨b, at_, ran⟩ := Option.bind_eq_some_iff.mp ran
      exact wake_move turn at_ ran
    · cases ran
  | wakeClose =>
    obtain ⟨⟨turn, some_, _⟩, rfl⟩ := by simpa [step] using ran
    exact .wakeClose turn some_
  | cancel j =>
    obtain ⟨b, at_, ran⟩ := Option.bind_eq_some_iff.mp ran
    split at ran
    · cases ran
    · next here =>
      cases ran
      exact .cancel at_ (by simpa using here)
  | work w =>
    obtain ⟨x, at_, ran⟩ := Option.bind_eq_some_iff.mp ran
    exact work_move at_ ran
  | invoke w o =>
    obtain ⟨x, at_, ran⟩ := Option.bind_eq_some_iff.mp ran
    cases x with
    | calling j =>
      obtain ⟨b, job, rfl⟩ := Option.map_eq_some_iff.mp ran
      exact .invoke at_ job
    | _ => cases ran

theorem run_keeps {P : Pool V E → Prop} (keeps : ∀ {s s'}, P s → Move s s' → P s') {acts : List (Action V E)}
    (ran : s.run acts = some s') (holds : P s) : P s' := by
  induction acts generalizing s with
  | nil =>
    cases ran
    exact holds
  | cons a rest ih =>
    obtain ⟨next, first, ran⟩ := Option.bind_eq_some_iff.mp ran
    exact ih ran (keeps holds (step_move first))

end Pool
end Nxt.Runtime.Blocking
