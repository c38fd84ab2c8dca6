import Mathlib

/- Groups of tasks (task/concurrent.hpp): `run_group` starts its jobs in order, consults its policy
   at each completion, drains, and then returns outcomes or throws. Jobs are resumed by the deck only
   while the group is suspended; the parent can be stopped at any moment before the return. -/
namespace Nxt.Runtime

inductive Exn (E : Type) where
  | operationCancelled
  | runtimeError (message : String)
  | logicError (message : String)
  | thrown (e : E)
  | exceptionGroup (message : String) (all : List (Exn E))

abbrev Outcome (T E : Type) := Except (Exn E) T

/-- A task as it is handed to a group. -/
inductive Job (T E : Type) where
  | empty
  | fresh (observed : Bool)
  | done (result : Outcome T E)

inductive Stage (T E : Type) where
  | fresh (observed : Bool)
  | started
  | done (result : Outcome T E)

structure Child (T E : Type) where
  stage : Stage T E
  /-- How often the deck was asked to start it. -/
  starts : Nat := 0
  stopRequested : Bool := false

structure Completion where
  index : Nat
  failed : Bool
  deriving DecidableEq

inductive Phase (T E : Type) where
  /-- The position that is visited next. -/
  | starting (next : Nat)
  | draining
  | returned (result : Except (Exn E) (List (Outcome T E)))

structure Group (T E P : Type) where
  children : List (Child T E)
  /-- What the policy keeps between its calls. -/
  policy : P
  phase : Phase T E
  pending : Nat := 0
  stopping : Bool := false
  parentStopped : Bool := false
  setupFailure : Option (Exn E) := none
  /-- The completions so far, and those the policy was asked about with its answers. -/
  completions : List Completion := []
  consulted : List (Completion × Bool) := []

def Outcome.failed {T E : Type} : Outcome T E → Bool
  | .ok _ => false
  | .error _ => true

namespace Child
variable {T E : Type}

def ofJob : Job T E → Option (Child T E)
  | .empty => none
  | .fresh observed => some { stage := .fresh observed }
  | .done result => some { stage := .done result }

/-- `request_stop` on a job that was queued and is not done. -/
def stop (child : Child T E) : Child T E :=
  match child.stage with
  | .started => { child with stopRequested := true }
  | _ => child

def extractOutcome (child : Child T E) : Outcome T E :=
  match child.stage with
  | .done result => result
  | _ => .error .operationCancelled

end Child

namespace Group
variable {T E P : Type}

def ofJobs (jobs : List (Job T E)) (policy : P) : Group T E P :=
  match jobs.mapM Child.ofJob with
  | some children => { children, policy, phase := .starting 0 }
  | none =>
      let e := .runtimeError "nxtrt group received an empty task"
      { children := [], policy, phase := .returned (.error e), setupFailure := some e }

def stop (g : Group T E P) : Group T E P :=
  { g with stopping := true, children := g.children.map Child.stop }

def arrive (g : Group T E P) : Group T E P := { g with pending := g.pending - 1 }

/-- The callback of a job's completion link. -/
def completed (ask : P → Completion → Bool × P) (g : Group T E P) (c : Completion) : Group T E P :=
  let g := { g with completions := g.completions ++ [c] }
  if g.stopping then g.arrive
  else
    let r := ask g.policy c
    let g := { g with policy := r.2, consulted := g.consulted ++ [(c, r.1)] }
    if r.1 then g.stop.arrive else g.arrive

def failSetup (g : Group T E P) (e : Exn E) : Group T E P :=
  { g with setupFailure := some e, phase := .draining }.stop

/-- The visit of the job at position `i`; starting it may fail. -/
def visit (ask : P → Completion → Bool × P) (g : Group T E P) (i : Nat) (child : Child T E)
    (failure : Option (Exn E)) : Group T E P :=
  let g := { g with phase := .starting (i + 1) }
  match child.stage with
  | .done result => completed ask { g with pending := g.pending + 1 } ⟨i, result.failed⟩
  | .fresh observed =>
      if g.stopping then g
      else if observed then
        g.failSetup (.runtimeError "nxtrt task already has a completion observer")
      else
        match failure with
        | some e => g.failSetup e
        | none =>
            { g with
              children := g.children.set i { child with stage := .started, starts := child.starts + 1 }
              pending := g.pending + 1 }
  | .started => g

def stopParent (g : Group T E P) : Group T E P := { g with parentStopped := true }.stop

/-- A started job reaches its final suspension. -/
def finish (ask : P → Completion → Bool × P) (g : Group T E P) (i : Nat) (child : Child T E)
    (result : Outcome T E) : Group T E P :=
  completed ask { g with children := g.children.set i { child with stage := .done result } }
    ⟨i, result.failed⟩

/-- What the group returns or throws when it is resumed: `run_group`, then `settle`. -/
def result (g : Group T E P) : Except (Exn E) (List (Outcome T E)) :=
  match g.setupFailure with
  | some e => .error e
  | none =>
      if g.parentStopped then .error .operationCancelled
      else .ok (g.children.map Child.extractOutcome)

inductive Step (ask : P → Completion → Bool × P) : Group T E P → Group T E P → Prop where
  | stopParent (g : Group T E P) (active : ∀ r, g.phase ≠ .returned r) : Step ask g g.stopParent
  | visit (g : Group T E P) (i : Nat) (child : Child T E) (failure : Option (Exn E))
      (setup : g.phase = .starting i) (here : g.children[i]? = some child) :
      Step ask g (g.visit ask i child failure)
  | await (g : Group T E P) (setup : g.phase = .starting g.children.length) :
      Step ask g { g with phase := .draining }
  | finish (g : Group T E P) (i : Nat) (child : Child T E) (result : Outcome T E)
      (waits : g.phase = .draining) (here : g.children[i]? = some child)
      (running : child.stage = .started) : Step ask g (g.finish ask i child result)
  | resume (g : Group T E P) (waits : g.phase = .draining) (arrived : g.pending = 0) :
      Step ask g { g with phase := .returned g.result }

inductive Run (ask : P → Completion → Bool × P) (jobs : List (Job T E)) (policy : P) :
    Group T E P → Prop where
  | start : Run ask jobs policy (ofJobs jobs policy)
  | step {g g' : Group T E P} (run : Run ask jobs policy g) (step : Step ask g g') : Run ask jobs policy g'

end Group

/-- `record_first`: remember the completion that asks for the stop. -/
def recordFirst (policy : Completion → Bool) (first : Option Nat) (c : Completion) : Bool × Option Nat :=
  if policy c then (true, some c.index) else (false, first)

def failFastGroup (c : Completion) : Bool := c.failed

def firstSuccessGroup (c : Completion) : Bool := !c.failed

def whenAll {T E : Type} (g : Group T E (Option Nat)) : Except (Exn E) (List T) :=
  match g.result with
  | .error e => .error e
  | .ok outcomes =>
      match g.policy.bind fun first => outcomes[first]? with
      | some (.error e) => .error e
      | _ => outcomes.mapM id

def waitAny {T E : Type} (g : Group T E (Option Nat)) : Except (Exn E) T :=
  match g.result with
  | .error e => .error e
  | .ok outcomes =>
      match g.policy.bind fun first => outcomes[first]? with
      | some outcome => outcome
      | none =>
          let errors := outcomes.filterMap fun
            | .error e => some e
            | .ok _ => none
          match errors with
          | [] => .error (.logicError "nxtrt throw_exceptions called without exceptions")
          | [e] => .error e
          | errors => .error (.exceptionGroup "wait_any tasks failed" errors)

end Nxt.Runtime
