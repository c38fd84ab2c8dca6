import Nxt.Lib.Wire
import Nxt.Runtime.Deadline

/- A spawned child and `terminate_and_wait` (subprocess.hpp). The child writes to its pipe, closes it
   and exits when it likes. A wait reaps the child that has exited and delivers its status, or it is
   cancelled and leaves the child alone; a signal reaches every child that is not reaped. -/
namespace Nxt.Runtime
open Nxt.Lib Coroutine

inductive Fault where
  | timeoutError
  | errnoError (number : Int)
  | effectError (kind message : String)
  deriving DecidableEq

inductive Sig where
  | sigterm
  | sigkill
  deriving DecidableEq

structure ChildResult where
  exited : Bool := false
  exitCode : Int := 0
  signaled : Bool := false
  signal : Int := 0
  deriving DecidableEq

inductive Deed where
  | signal (sig : Sig)
  | wait
  | elapsed
  | reaped (status : ChildResult)
  deriving DecidableEq

structure PipedChild where
  /-- What it wrote so far, and how much of that was read. -/
  written : Bytes := []
  taken : Nat := 0
  /-- Nothing can write to the pipe any more. -/
  closed : Bool := false
  exit : Option ChildResult := none
  /-- What was done to it, the latest first. -/
  past : List Deed := []
  deriving DecidableEq

structure Frame (L : Type) where
  child : PipedChild
  locals : L

namespace PipedChild

inductive Lives : PipedChild → PipedChild → Prop where
  | write {c : PipedChild} (bytes : Bytes) : c.closed = false → Lives c { c with written := c.written ++ bytes }
  | close (c : PipedChild) : Lives c { c with closed := true }
  | exit {c : PipedChild} (status : ChildResult) : c.exit = none → Lives c { c with exit := some status }

def Unreaped (past : List Deed) : Prop := ∀ status, Deed.reaped status ∉ past

/-- It was reaped once, and after that nothing was done to it; only the timer may have run out. -/
def Reaped (past : List Deed) (status : ChildResult) : Prop :=
  ∃ later before, past = later ++ .reaped status :: before ∧ (∀ d ∈ later, d = .elapsed) ∧ Unreaped before

/-- SIGTERM was sent, and a grace period has passed since. -/
def Late (past : List Deed) : Prop := ∃ later before, past = later ++ .elapsed :: before ∧ .signal .sigterm ∈ before

/-- SIGKILL only after SIGTERM and the grace period. -/
def Graceful (past : List Deed) : Prop := ∀ later before, past = later ++ .signal .sigkill :: before → Late before

/-- Once reaped it is left alone. -/
def Lawful (past : List Deed) : Prop := Unreaped past ∨ ∃ status, Reaped past status

end PipedChild

namespace Frame
variable {L : Type}

inductive Lives : Frame L → Frame L → Prop where
  | child {c c' : PipedChild} {l : L} : c.Lives c' → Lives ⟨c, l⟩ ⟨c', l⟩

def did (f : Frame L) (d : Deed) : Frame L := { f with child := { f.child with past := d :: f.child.past } }

end Frame

section Wishes
variable {L A : Type}

def signalChild (sig : Sig) : Task (Frame L) Fault Unit := atomic fun stopped f o f' =>
  (o = .ok () ∧ PipedChild.Unreaped f.child.past ∧ f' = f.did (.signal sig)) ∨
  ((∃ number, o = .error (.thrown (.errnoError number))) ∧ ¬PipedChild.Unreaped f.child.past ∧ f' = f.did (.signal sig)) ∨
  (o = .error .operationCancelled ∧ stopped = true ∧ f' = f)

def waitChild : Task (Frame L) Fault ChildResult := do
  exec fun f => (.ok (), f.did .wait)
  atomic fun stopped f o f' =>
    (∃ status, o = .ok status ∧ f.child.exit = some status ∧ PipedChild.Unreaped f.child.past ∧ f' = f.did (.reaped status)) ∨
    ((∃ number, o = .error (.thrown (.errnoError number))) ∧ ¬PipedChild.Unreaped f.child.past ∧ f' = f) ∨
    (o = .error .operationCancelled ∧ stopped = true ∧ f' = f)

/-- `timeout_after`; that the timer fired is on record. -/
def timeoutAfter : Task (Frame L) Fault A := do
  (atomic fun stopped f o f' =>
    (o = .ok () ∧ f' = f.did .elapsed) ∨ (o = .error .operationCancelled ∧ stopped = true ∧ f' = f) :
    Task (Frame L) Fault Unit)
  Task.throw (.thrown .timeoutError)

/-- `take_some` on the output: some of what was written, the end, or a failure. -/
def takeSome : Task (Frame L) Fault (Option Bytes) := atomic fun stopped f o f' =>
  (∃ chunk, o = .ok (some chunk) ∧ chunk <+: f.child.written.drop f.child.taken ∧
    f' = { f with child := { f.child with taken := f.child.taken + chunk.length } }) ∨
  (o = .ok none ∧ f.child.written.length ≤ f.child.taken ∧ f.child.closed = true ∧ f' = f) ∨
  ((∃ number, o = .error (.thrown (.errnoError number))) ∧ f' = f) ∨
  (o = .error .operationCancelled ∧ stopped = true ∧ f' = f)

def terminateAndWaitImpl : Task (Frame L) Fault ChildResult := do
  signalChild .sigterm
  match ← Task.attempt (Task.withTimeout timeoutAfter waitChild) with
  | .ok status => pure status
  | .error (.thrown .timeoutError) =>
      signalChild .sigkill
      waitChild
  | .error e => Task.throw e

def terminateAndWait : Task (Frame L) Fault ChildResult := Task.shield terminateAndWaitImpl

end Wishes

end Nxt.Runtime
