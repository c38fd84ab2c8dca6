import Nxt.Lib.Exec

/- The epoll wand (wand/epoll.hpp): what a wish does when it is submitted and when an event of one of its descriptors
   comes. The answers of the kernel to the calls made for one wish are given. Closing a descriptor and taking it out of
   the epoll set answer nothing and are left out. -/
namespace Nxt.Runtime.Epoll
open Nxt.Lib

/-- A number that a failing call leaves in `errno`. -/
abbrev Errno := ℕ+

def eintr : Nat := 4
def ebadf : Nat := 9
def eagain : Nat := 11
def enotsup : Nat := 95
def einprogress : Nat := 115

def epollIn : BitVec 32 := 0x001
def epollPri : BitVec 32 := 0x002
def epollOut : BitVec 32 := 0x004
def epollErr : BitVec 32 := 0x008
def epollHup : BitVec 32 := 0x010
def epollOneshot : BitVec 32 := 0x40000000

structure Timespec where
  sec : Int
  nsec : Int
  deriving DecidableEq

/-- The part of `siginfo_t` that tells how a child ended. -/
structure Info where
  pid : Int := 0
  code : Int := 0
  status : Int := 0
  deriving DecidableEq

structure ChildResult where
  pid : Int
  code : Int
  exited : Bool
  exitCode : Int
  signaled : Bool
  signal : Int
  deriving DecidableEq

def childResultFrom (info : Info) : ChildResult :=
  let exited : Bool := info.code = 1
  let signaled : Bool := info.code = 2 ∨ info.code = 3
  { pid := info.pid, code := info.code, exited, exitCode := if exited then info.status else 0
    signaled, signal := if signaled then info.status else 0 }

inductive Result where
  | void
  | int
  | size
  | statx
  | pipedChild
  | ptyChild
  | childResult
  | pollUntil
  deriving DecidableEq

section Wishes
variable (D : Type)

/-- `wish_variant`, with the descriptors a wish waits for and what the kernel fills in; `D` is what `statx` and the
    spawns give. -/
inductive Wish where
  | manual
  | openat
  | openat2
  | statx (result : D)
  | getdents64
  | spawnPiped (child : D)
  | spawnPty (child : D)
  | waitChild (child : Int) (info : Info)
  | signalChild (child : Int)
  | readSome (fd : Int)
  | writeSome (fd : Int)
  | recvSome (fd : Int)
  | sendSome (fd : Int)
  | connect (fd : Int)
  | accept (fd : Int)
  | poll (fd : Int) (events : BitVec 16)
  | timeout (duration : Timespec)
  | pollUntil (fd : Int) (events : BitVec 16) (timeout : Timespec)
  deriving DecidableEq

inductive Value where
  | void
  | int (n : Int)
  | size (n : Nat)
  | statx (result : D)
  | pipedChild (child : D)
  | ptyChild (child : D)
  | childResult (child : ChildResult)
  | pollUntil (events : Int) (timedOut : Bool)
  deriving DecidableEq

end Wishes

inductive Failure where
  | errno (code : Nat)
  | interruptedSystemCall
  | operationCancelled
  | runtime (message : String)
  deriving DecidableEq

structure UrgeState (D : Type) where
  value : Option (Value D) := none
  exception : Option Failure := none
  deriving DecidableEq

/-- `take`, which is what the awaiting task receives. -/
def UrgeState.take {D : Type} (s : UrgeState D) : Except Failure (Value D) :=
  match s.exception, s.value with
  | some failure, _ => .error failure
  | none, some value => .ok value
  | none, none => .error (.runtime "nxtrt urge result was never set")

inductive EventKind where
  | op
  | timer
  deriving DecidableEq

structure Registration where
  fd : Int
  kind : EventKind
  ownsFd : Bool
  deriving DecidableEq

inductive Phase where
  | queued
  | submitted
  | cancelQueued
  deriving DecidableEq

/-- `exec_state`; a settled record is ready to retire. -/
inductive State where
  | prepared
  | parked (continuation : Nat) (phase : Phase)
  | settled
  | retired
  deriving DecidableEq

structure Exec (D : Type) where
  request : Wish D
  finished : Bool := false
  urge : UrgeState D := {}
  state : State := .prepared
  registrations : List Registration := []
  deriving DecidableEq

structure Answers (D : Type) where
  /-- The call that is the wish itself. -/
  call : Except Errno Nat
  /-- `fcntl(F_GETFL)`: whether `O_NONBLOCK` is set. -/
  getfl : Except Errno Bool
  setfl : Except Errno Unit
  /-- `fcntl(F_DUPFD_CLOEXEC)`. -/
  dup : Int → Except Errno Int
  timerfdCreate : Except Errno Int
  timerfdSettime : Timespec → Except Errno Unit
  /-- `epoll_ctl(EPOLL_CTL_ADD)`. -/
  add : Int → BitVec 32 → Except Errno Unit
  /-- `getsockopt(SO_ERROR)`, with no error as zero. -/
  getsockopt : Int → Except Errno Nat
  waitid : Except Errno Info
  filled : D

/-- `std::runtime_error` as thrown to the caller of the wand. -/
structure Thrown where
  message : String
  deriving DecidableEq

section Completions
variable {D : Type}

def Wish.result : Wish D → Result
  | .manual | .signalChild _ | .connect _ | .timeout _ => .void
  | .openat | .openat2 | .accept _ | .poll .. => .int
  | .getdents64 | .readSome _ | .writeSome _ | .recvSome _ | .sendSome _ => .size
  | .statx _ => .statx
  | .spawnPiped _ => .pipedChild
  | .spawnPty _ => .ptyChild
  | .waitChild .. => .childResult
  | .pollUntil .. => .pollUntil

/-- The result of a call that returns -1 and leaves `errno`, with `-errno` for an error. -/
def signed : Except Errno Nat → Int
  | .error e => -(e : Nat)
  | .ok n => n

def wouldBlock (err : Nat) : Bool := err = eagain

def pollToEpoll (events : BitVec 16) : BitVec 32 :=
  (if events &&& 0x01 ≠ 0 then epollIn else 0) ||| (if events &&& 0x04 ≠ 0 then epollOut else 0) |||
    (if events &&& 0x02 ≠ 0 then epollPri else 0)

def epollToPoll (events : BitVec 32) : Int :=
  ((if events &&& epollIn ≠ 0 then 0x01 else 0) ||| (if events &&& epollOut ≠ 0 then 0x04 else 0) |||
    (if events &&& epollPri ≠ 0 then 0x02 else 0) ||| (if events &&& epollErr ≠ 0 then 0x08 else 0) |||
    (if events &&& epollHup ≠ 0 then 0x10 else 0) : Nat)

namespace Exec
variable (x : Exec D)

def setValue (value : Value D) : Exec D := { x with urge := { x.urge with value := some value } }

def setException (failure : Failure) : Exec D := { x with urge := { x.urge with exception := some failure } }

def finish : Exec D := { x with finished := true }

def finishError (err : Nat) : Exec D :=
  x.finish.setException (if err = eintr then .interruptedSystemCall else .errno err)

def finishResult (result : Int) : Exec D :=
  if result < 0 then x.finishError (-result).toNat
  else match x.request.result with
    | .void => x.finish.setValue .void
    | .int => x.finish.setValue (.int result)
    | .size => x.finish.setValue (.size result.toNat)
    | .statx | .pipedChild | .ptyChild | .childResult => x.finish
    | .pollUntil => x.finish.setException (.runtime "epoll delivered unsupported result")

def finishPollUntil (events : Int) (timedOut : Bool) : Exec D :=
  match x.request.result with
  | .pollUntil => x.finish.setValue (.pollUntil events timedOut)
  | _ => x.finish.setException (.runtime "epoll delivered poll_until result to wrong urge")

def finishCancelled : Exec D := x.finish.setException .operationCancelled

def filledValue : Option (Value D) :=
  match x.request with
  | .statx result => some (.statx result)
  | .spawnPiped child => some (.pipedChild child)
  | .spawnPty child => some (.ptyChild child)
  | .waitChild _ info => some (.childResult (childResultFrom info))
  | _ => none

def complete (result : Int) (cancelled : Bool) : Exec D :=
  if cancelled then x.finishCancelled
  else match x.request.result with
    | .pollUntil => x.finishPollUntil result (decide (result = 0))
    | _ =>
      let done := x.finishResult result
      if 0 ≤ result then (done.filledValue.map done.setValue).getD done else done

def cleanup : Exec D := { x with registrations := [] }

def eventFd (kind : EventKind) : Int :=
  ((x.registrations.find? fun reg => reg.kind = kind).map Registration.fd).getD (-1)

end Exec

/-- `nonblocking_call`: the call is made once the flags are read and changed. -/
def nonblockingCall (a : Answers D) : Except Errno Nat :=
  match a.getfl with
  | .error e => .error e
  | .ok true => a.call
  | .ok false =>
    match a.setfl with
    | .error e => .error e
    | .ok _ => a.call

def socketError (a : Answers D) (fd : Int) : Nat :=
  match a.getsockopt fd with
  | .error e => e
  | .ok err => err

section Registering
variable (a : Answers D)

/-- Submitting and retrying change the execution; what they throw goes to the caller of the wand. -/
abbrev Doing (D : Type) := EStateM Thrown (Exec D)

def addFd (fd : Int) (events : BitVec 32) (kind : EventKind) (ownsFd : Bool) : Doing D Unit :=
  match a.add fd (events ||| epollErr ||| epollHup) with
  | .error e => modify fun x => x.complete (-(e : Nat)) false
  | .ok _ => modify fun x => { x with registrations := x.registrations ++ [{ fd, kind, ownsFd }] }

def add (fd : Int) (events : BitVec 32) (kind : EventKind) : Doing D Unit :=
  match a.dup fd with
  | .error e => throw ⟨"fcntl(F_DUPFD_CLOEXEC) failed: " ++ toString (e : Nat)⟩
  | .ok watchFd => addFd a watchFd events kind true

def addOwned (fd : Int) (events : BitVec 32) (kind : EventKind) : Doing D Unit := addFd a fd events kind true

def makeTimerfd (duration : Timespec) : Doing D Int :=
  match a.timerfdCreate with
  | .error e => throw ⟨"timerfd_create failed: " ++ toString (e : Nat)⟩
  | .ok fd =>
    let duration := if duration.sec = 0 ∧ duration.nsec = 0 then { duration with nsec := 1 } else duration
    match a.timerfdSettime duration with
    | .error e => throw ⟨"timerfd_settime failed: " ++ toString (e : Nat)⟩
    | .ok _ => pure fd

def finishOrWait (result : Except Errno Nat) (fd : Int) (events : BitVec 32) : Doing D Bool :=
  match result with
  | .ok n => do
    modify fun x => x.finishResult n
    return false
  | .error e => do
    if wouldBlock e then
      add a fd (events ||| epollOneshot) .op
      return true
    modify fun x => x.finishResult (-(e : Nat))
    return false

def finishOrRearm (result : Except Errno Nat) (fd : Int) (events : BitVec 32) : Doing D Bool :=
  match result with
  | .ok n => do
    modify fun x => x.finishResult n
    return true
  | .error e => do
    if wouldBlock e then
      add a fd (events ||| epollOneshot) .op
      return false
    modify fun x => x.finishResult (-(e : Nat))
    return true

def finishNow (result : Int) : Doing D Bool := do
  modify fun x => x.finishResult result
  return false

def finishFilled (result : Except Errno Nat) (filled : Wish D) (value : Value D) : Doing D Bool :=
  match result with
  | .error e => do
    modify fun x => x.finishError e
    return false
  | .ok _ => do
    modify fun x => ({ x with request := filled } : Exec D).finish.setValue value
    return false

/-- `submit_op`: whether the wish waits. -/
def submitOp : Wish D → Doing D Bool
  | .manual => finishNow 0
  | .openat => finishNow (signed a.call)
  | .openat2 => finishNow (signed a.call)
  | .statx _ => finishFilled a.call (.statx a.filled) (.statx a.filled)
  | .getdents64 => finishNow (signed a.call)
  | .spawnPiped _ => finishFilled a.call (.spawnPiped a.filled) (.pipedChild a.filled)
  | .spawnPty _ => finishFilled a.call (.spawnPty a.filled) (.ptyChild a.filled)
  | .waitChild child _ => do
    if child < 0 then finishNow (-(ebadf : Nat))
    else
      add a child (epollIn ||| epollOneshot) .op
      return true
  | .signalChild child =>
    if child < 0 then finishNow (-(ebadf : Nat))
    else finishNow (match a.call with | .error e => -(e : Nat) | .ok _ => 0)
  | .readSome fd => finishOrWait a (nonblockingCall a) fd epollIn
  | .writeSome fd => finishOrWait a (nonblockingCall a) fd epollOut
  | .recvSome fd => finishOrWait a a.call fd epollIn
  | .sendSome fd => finishOrWait a a.call fd epollOut
  | .connect fd =>
    match nonblockingCall a with
    | .ok _ => finishNow 0
    | .error e => do
      if (e : Nat) ≠ einprogress ∧ wouldBlock e = false then finishNow (-(e : Nat))
      else
        add a fd (epollOut ||| epollOneshot) .op
        return true
  | .accept fd => finishOrWait a (nonblockingCall a) fd epollIn
  | .poll fd events => do
    add a fd (pollToEpoll events ||| epollOneshot) .op
    return true
  | .timeout duration => do
    let timer ← makeTimerfd a duration
    addOwned a timer (epollIn ||| epollOneshot) .timer
    return true
  | .pollUntil fd events timeout => do
    add a fd (pollToEpoll events ||| epollOneshot) .op
    let timer ← makeTimerfd a timeout
    addOwned a timer (epollIn ||| epollOneshot) .timer
    return true

/-- `event_op`: whether the wish is done. -/
def eventOp (events : BitVec 32) (kind : EventKind) : Wish D → Doing D Bool
  | .readSome fd => finishOrRearm a (nonblockingCall a) fd epollIn
  | .writeSome fd => finishOrRearm a (nonblockingCall a) fd epollOut
  | .recvSome fd => finishOrRearm a a.call fd epollIn
  | .sendSome fd => finishOrRearm a a.call fd epollOut
  | .connect fd => do
    let error := socketError a fd
    modify fun x => x.finishResult (if error = 0 then 0 else -(error : Nat))
    return true
  | .accept fd => finishOrRearm a (nonblockingCall a) fd epollIn
  | .poll .. => do
    modify fun x => x.finishResult (epollToPoll events)
    return true
  | .timeout _ => do
    modify fun x => x.finishResult 0
    return true
  | .pollUntil .. => do
    modify fun x => x.finishPollUntil (if kind = .timer then 0 else epollToPoll events) (decide (kind = .timer))
    return true
  | .waitChild child _ =>
    match a.waitid with
    | .error e => do
      modify fun x => x.finishError e
      return true
    | .ok info => do
      modify fun x =>
        ({ x with request := .waitChild child info } : Exec D).finish.setValue (.childResult (childResultFrom info))
      return true
  | _ => do
    modify fun x => x.finishResult (-(enotsup : Nat))
    return true

def onEvent (events : BitVec 32) (kind : EventKind) : Doing D Bool := do
  let x ← get
  let error := socketError a (x.eventFd kind)
  if events &&& epollErr ≠ 0 ∧ error ≠ 0 then
    modify fun x => x.finishResult (-(error : Nat))
    return true
  eventOp a events kind x.request

/-- `settle`: the continuation that goes back to the deck. -/
def settle : Doing D (Option Nat) := do
  let x ← get
  match x.state with
  | .parked continuation _ =>
    set { x with state := .settled }
    return some continuation
  | _ => return none

/-- `handle_event` for an execution, with what its completion does on the event. -/
def handleWith (body : Doing D Bool) : Doing D (Option Nat) := do
  let x ← get
  match x.state with
  | .parked .. =>
    set x.cleanup
    let done ← body
    let x ← get
    if done = false ∧ x.finished = false then return none
    settle
  | _ => return none

def handleEvent (events : BitVec 32) (kind : EventKind) : Doing D (Option Nat) := handleWith (onEvent a events kind)

/-- What `stage_submissions` does with one execution. -/
def stage : Doing D (Option Nat) := do
  let x ← get
  match x.state with
  | .parked _ .cancelQueued =>
    set (x.complete (-125) true)
    settle
  | .parked continuation .queued =>
    let didSubmit ← submitOp a x.request
    let x ← get
    if x.finished then
      set x.cleanup
      settle
    else
      if didSubmit then set { x with state := .parked continuation .submitted }
      return none
  | _ => return none

def cancel : Doing D (Option Nat) := do
  let x ← get
  match x.state with
  | .parked continuation .queued =>
    set { x with state := .parked continuation .cancelQueued }
    return none
  | .parked continuation .submitted =>
    set { (x.cleanup.complete (-125) true) with state := .settled }
    return some continuation
  | _ => return none

end Registering
end Completions
end Nxt.Runtime.Epoll
