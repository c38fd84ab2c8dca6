import Nxt.Runtime.EpollWave

/- What the task of a wish of the epoll wand is given (wand/epoll.hpp), against the outcome of the wish's own
   descriptor. -/
namespace Nxt.Runtime.Epoll
open Nxt.Lib List
variable {D : Type} {a : Answers D} {x : Exec D}

def delivered : EStateM.Result Thrown (Exec D) (Option Nat) → Option (Except Failure (Value D))
  | .ok _ x => if x.state = .settled then some x.urge.take else none
  | .error _ _ => none

def pendingError (a : Answers D) (fd : Int) : Nat :=
  match a.getsockopt fd with
  | .ok err => err
  | .error _ => 0

/-- What an event of a registration is to do: its descriptor's pending error is told if there is one, and otherwise what
    the retried operation gives or what is reported. -/
def ownEvent (a : Answers D) (events : BitVec 32) (reg : Registration) : Doing D Bool := do
  let x ← get
  let error := pendingError a reg.fd
  if events &&& epollErr ≠ 0 ∧ error ≠ 0 then
    modify fun x => x.finishResult (-(error : Nat))
    return true
  eventOp a events reg.kind x.request

/-- An operation that is retried fails with `EBADF`, or it is to wait again and that is refused so. -/
def callBadf (a : Answers D) (result : Except Errno Nat) (fd : Int) (events : BitVec 32) : Prop :=
  ∃ e : Errno, result = .error e ∧ ((e : Nat) = ebadf ∨ wouldBlock e = true ∧ ∃ watchFd, a.dup fd = .ok watchFd ∧
    ∃ e' : Errno, (e' : Nat) = ebadf ∧ a.add watchFd (events ||| epollOneshot ||| epollErr ||| epollHup) = .error e')

/-- The retried operation fails with `EBADF`. -/
def Wish.failsBadf (a : Answers D) : Wish D → Prop
  | .readSome fd => callBadf a (nonblockingCall a) fd epollIn
  | .writeSome fd => callBadf a (nonblockingCall a) fd epollOut
  | .recvSome fd => callBadf a a.call fd epollIn
  | .sendSome fd => callBadf a a.call fd epollOut
  | .accept fd => callBadf a (nonblockingCall a) fd epollIn
  | .connect fd => socketError a fd = ebadf
  | .waitChild .. => ∃ e : Errno, (e : Nat) = ebadf ∧ a.waitid = .error e
  | _ => False

/-- The descriptor's own outcome is `EBADF`. -/
def OwnBadf (a : Answers D) (reg : Registration) (request : Wish D) : Prop :=
  pendingError a reg.fd = ebadf ∨ pendingError a reg.fd = 0 ∧ request.failsBadf a

def failureOf (err : Nat) : Failure := if err = eintr then .interruptedSystemCall else .errno err

theorem failureOf_errno (err : Nat) : failureOf err = .errno err ↔ err ≠ eintr := by
  unfold failureOf
  by_cases same : err = eintr
  · simp [same]
  · simp [same]

theorem failureOf_badf (err : Nat) : failureOf err = .errno ebadf ↔ err = ebadf := by
  unfold failureOf
  by_cases same : err = eintr
  · simp [same, eintr, ebadf]
  · simp [same]

theorem finishError_take (x : Exec D) (err : Nat) : (x.finishError err).urge.take = .error (failureOf err) := rfl

theorem finishResult_error (x : Exec D) {err : Nat} (some_ : 0 < err) :
    (x.finishResult (-(err : Int))).urge.take = .error (failureOf err) := by
  have negative : -(err : Int) < 0 := by omega
  unfold Exec.finishResult
  rw [if_pos negative]
  have back : (-(-(err : Int))).toNat = err := by omega
  rw [back, finishError_take]

theorem complete_error (x : Exec D) (e : Errno) (other : x.request.result ≠ .pollUntil) :
    (x.complete (-(e : Nat)) false).urge.take = .error (failureOf e) := by
  have negative : ¬(0 : Int) ≤ -(e : Nat) := by
    have positive := e.pos
    omega
  unfold Exec.complete
  rw [if_neg (by decide)]
  split
  · rename_i same
    exact absurd same other
  · dsimp only
    rw [if_neg negative]
    exact finishResult_error x e.pos

def heard : EStateM.Result Thrown (Exec D) Bool → Option (Except Failure (Value D))
  | .ok done y => if done = false ∧ y.finished = false then none else some y.urge.take
  | .error _ _ => none

def KeepsState (body : Doing D Bool) (x : Exec D) : Prop :=
  wp body (fun _ y => y.state = x.state) (fun _ _ => True) x

variable {σ ε α : Type} {m : EStateM ε σ α} {s : σ} {task : Nat} {phase : Phase} {events : BitVec 32} {fd : Int}

theorem wp_result (P : EStateM.Result ε σ α → Prop) :
    wp m (fun a s' => P (.ok a s')) (fun e s' => P (.error e s')) s ↔ P (m s) := by
  unfold wp
  cases m s <;> exact Iff.rfl

variable {s' : σ} {Q : α → σ → Prop} {E : ε → σ → Prop} {body : Doing D Bool} {y : Exec D} {duration : Timespec}

theorem wp_ok {v : α} (run : m s = .ok v s') : wp m Q E s ↔ Q v s' := by
  unfold wp
  rw [run]

theorem wp_error {e : ε} (run : m s = .error e s') : wp m Q E s ↔ E e s' := by
  unfold wp
  rw [run]

theorem handleWith_delivered (parked : x.state = .parked task phase)
    (keeps : KeepsState body x.cleanup) : delivered (handleWith body x) = heard (body x.cleanup) := by
  refine (wp_result fun r => delivered r = heard (body x.cleanup)).mp ?_
  unfold handleWith
  rw [wp_bind, wp_get, parked]
  dsimp only
  rw [wp_bind, wp_set, wp_bind]
  unfold KeepsState at keeps
  cases run : body x.cleanup with
  | error e y =>
    rw [wp_error run]
    rfl
  | ok done y =>
    rw [wp_ok run] at keeps ⊢
    have state : y.state = .parked task phase := keeps.trans parked
    rw [wp_bind, wp_get, wp_ite]
    refine ⟨fun waits => ?_, fun over_ => ?_⟩
    · rw [wp_pure, heard, if_pos waits, delivered, state]
      rfl
    · unfold settle
      rw [wp_bind, wp_get, state]
      dsimp only
      rw [wp_bind, wp_set, wp_pure, heard, if_neg over_]
      rfl

/-! ### What is heard of each body -/

theorem heard_finished {done : Bool} (run : body x = .ok done y)
    (finished : y.finished = true) : heard (body x) = some y.urge.take := by
  rw [run, heard, if_neg]
  exact fun both => by rw [finished] at both; exact absurd both.2 (by decide)

theorem setValue_take (x : Exec D) (v : Value D) (quiet : x.urge.exception = none) :
    (x.setValue v).urge.take = .ok v := by
  unfold Exec.setValue UrgeState.take
  dsimp only
  rw [quiet]

theorem finishResult_value (x : Exec D) (result : Int) (good : 0 ≤ result) (quiet : x.urge.exception = none)
    (plain : x.request.result = .void ∨ x.request.result = .int ∨ x.request.result = .size) :
    ∃ v, (x.finishResult result).urge.take = .ok v := by
  unfold Exec.finishResult
  rw [if_neg (by omega)]
  rcases plain with same | same | same <;> rw [same]
  · exact ⟨.void, setValue_take x.finish _ quiet⟩
  · exact ⟨.int result, setValue_take x.finish _ quiet⟩
  · exact ⟨.size result.toNat, setValue_take x.finish _ quiet⟩

theorem rearm_heard (fd : Int) (events : BitVec 32) (x : Exec D) (unfinished : x.finished = false)
    (other : x.request.result ≠ .pollUntil) (told : Except Failure (Value D)) :
    heard ((do add a fd events .op; return false : Doing D Bool) x) = some told ↔
      ∃ watchFd, a.dup fd = .ok watchFd ∧
        ∃ e : Errno, told = .error (failureOf e) ∧ a.add watchFd (events ||| epollErr ||| epollHup) = .error e := by
  refine (wp_result fun r => heard r = some told ↔ _).mp ?_
  rw [wp_bind]
  unfold add
  cases duplicated : a.dup fd with
  | error e =>
    rw [wp_throw, heard]
    exact ⟨nofun, fun ⟨watchFd, never, _⟩ => by cases never⟩
  | ok watchFd =>
    dsimp only
    unfold addFd
    cases added : a.add watchFd (events ||| epollErr ||| epollHup) with
    | ok u =>
      rw [wp_modify, wp_pure, heard, if_pos ⟨rfl, unfinished⟩]
      refine ⟨nofun, ?_⟩
      rintro ⟨watchFd', same, e, -, never⟩
      cases same
      rw [added] at never
      cases never
    | error e =>
      have finished := (complete_refused x e).2.1
      rw [wp_modify, wp_pure, heard, if_neg fun both => by rw [finished] at both; exact absurd both.2 (by decide),
        complete_error x e other, Option.some.injEq]
      constructor
      · rintro rfl
        exact ⟨watchFd, rfl, e, rfl, added⟩
      · rintro ⟨watchFd', same, e', rfl, refused⟩
        cases same
        rw [added] at refused
        cases refused
        rfl

theorem finishOrRearm_badf (result : Except Errno Nat) (fd : Int) (events : BitVec 32) (x : Exec D) (fresh : Fresh x)
    (plain : x.request.result = .int ∨ x.request.result = .size) :
    heard (finishOrRearm a result fd events x) = some (.error (.errno ebadf)) ↔ callBadf a result fd events := by
  have other : x.request.result ≠ .pollUntil := by
    rcases plain with same | same <;> rw [same] <;> decide
  have quiet : x.urge.exception = none := by rw [fresh.urge]
  unfold callBadf
  cases result with
  | ok n =>
    obtain ⟨v, took⟩ := finishResult_value x n (by omega) quiet (.inr plain)
    have told : heard (finishOrRearm a (.ok n) fd events x) = some (.ok v) := by
      rw [← took]
      rfl
    rw [told]
    exact ⟨nofun, fun ⟨e, never, _⟩ => by cases never⟩
  | error e =>
    by_cases block : wouldBlock e = true
    · have apart : (e : Nat) ≠ ebadf := by
        intro same
        rw [same] at block
        exact absurd block (by decide)
      have again : finishOrRearm a (.error e) fd events = (do add a fd (events ||| epollOneshot) .op; return false) := by
        rw [finishOrRearm, if_pos block]
      rw [again, rearm_heard fd _ x fresh.finished other]
      constructor
      · rintro ⟨watchFd, duplicated, e', told, refused⟩
        rw [Except.error.injEq, eq_comm, failureOf_badf] at told
        exact ⟨e, rfl, .inr ⟨block, watchFd, duplicated, e', told, refused⟩⟩
      · rintro ⟨e', same, bad | ⟨-, watchFd, duplicated, e'', bad, refused⟩⟩
        · cases same
          exact absurd bad apart
        · exact ⟨watchFd, duplicated, e'', by rw [(failureOf_badf _).mpr bad], refused⟩
    · have told : heard (finishOrRearm a (.error e) fd events x) = some (.error (failureOf e)) := by
        rw [finishOrRearm, if_neg block, ← finishResult_error x e.pos]
        rfl
      rw [told, Option.some.injEq, Except.error.injEq, failureOf_badf]
      constructor
      · exact fun same => ⟨e, rfl, .inl same⟩
      · rintro ⟨e', same, bad | ⟨block', -⟩⟩
        · cases same
          exact bad
        · cases same
          exact absurd block' block

theorem eventOp_badf (events : BitVec 32) (kind : EventKind) (x : Exec D) (fresh : Fresh x) :
    heard (eventOp a events kind x.request x) = some (.error (.errno ebadf)) ↔ x.request.failsBadf a := by
  have quiet : x.urge.exception = none := by rw [fresh.urge]
  have value {run : EStateM.Result Thrown (Exec D) Bool} {v : Value D} (told : heard run = some (.ok v)) :
      heard run = some (.error (.errno ebadf)) ↔ False := by
    rw [told]
    exact ⟨nofun, False.elim⟩
  have unsupported {run : EStateM.Result Thrown (Exec D) Bool}
      (told : heard run = some (x.finishResult (-(enotsup : Nat))).urge.take) :
      heard run = some (.error (.errno ebadf)) ↔ False := by
    rw [told, finishResult_error x (by decide)]
    exact ⟨fun same => absurd same (by simp [failureOf, enotsup, eintr, ebadf]), False.elim⟩
  cases request : x.request with
  | manual => exact unsupported rfl
  | openat => exact unsupported rfl
  | openat2 => exact unsupported rfl
  | statx result => exact unsupported rfl
  | getdents64 => exact unsupported rfl
  | spawnPiped child => exact unsupported rfl
  | spawnPty child => exact unsupported rfl
  | signalChild child => exact unsupported rfl
  | readSome fd => exact finishOrRearm_badf _ fd _ x fresh (.inr (by rw [request]; rfl))
  | writeSome fd => exact finishOrRearm_badf _ fd _ x fresh (.inr (by rw [request]; rfl))
  | recvSome fd => exact finishOrRearm_badf _ fd _ x fresh (.inr (by rw [request]; rfl))
  | sendSome fd => exact finishOrRearm_badf _ fd _ x fresh (.inr (by rw [request]; rfl))
  | accept fd => exact finishOrRearm_badf _ fd _ x fresh (.inl (by rw [request]; rfl))
  | connect fd =>
    have plain : x.request.result = .void := by rw [request]; rfl
    have told : heard (eventOp a events kind (.connect fd) x) =
        some (x.finishResult (if socketError a fd = 0 then 0 else -(socketError a fd : Nat))).urge.take := rfl
    rw [Wish.failsBadf]
    by_cases good : socketError a fd = 0
    · obtain ⟨v, took⟩ := finishResult_value x 0 le_rfl quiet (.inl plain)
      rw [if_pos good, took] at told
      rw [value told, good]
      exact ⟨False.elim, fun same => absurd same (by decide)⟩
    · rw [if_neg good, finishResult_error x (Nat.pos_of_ne_zero good)] at told
      rw [told, Option.some.injEq, Except.error.injEq, failureOf_badf]
  | poll fd interest =>
    have plain : x.request.result = .int := by rw [request]; rfl
    obtain ⟨v, took⟩ := finishResult_value x (epollToPoll events) (Int.natCast_nonneg _) quiet
      (.inr (.inl plain))
    refine value (v := v) ?_
    rw [← took]
    rfl
  | timeout duration =>
    have plain : x.request.result = .void := by rw [request]; rfl
    obtain ⟨v, took⟩ := finishResult_value x 0 le_rfl quiet (.inl plain)
    refine value (v := v) ?_
    rw [← took]
    rfl
  | pollUntil fd interest limit =>
    have same : x.request.result = .pollUntil := by rw [request]; rfl
    refine value (v := .pollUntil (if kind = .timer then 0 else epollToPoll events) (decide (kind = .timer))) ?_
    rw [← setValue_take x.finish _ quiet]
    have told : heard (eventOp a events kind (.pollUntil fd interest limit) x) =
        some (x.finishPollUntil (if kind = .timer then 0 else epollToPoll events) (decide (kind = .timer))).urge.take := rfl
    rw [told]
    unfold Exec.finishPollUntil
    rw [same]
  | waitChild child info =>
    rw [Wish.failsBadf, eventOp]
    cases waited : a.waitid with
    | error e =>
      have told : heard ((do modify fun x : Exec D => x.finishError e; return true : Doing D Bool) x) =
          some (.error (failureOf e)) := rfl
      dsimp only
      rw [told, Option.some.injEq, Except.error.injEq, failureOf_badf]
      exact ⟨fun same => ⟨e, same, rfl⟩, fun ⟨e', same, at_⟩ => by cases at_; exact same⟩
    | ok info' =>
      refine (value (v := .childResult (childResultFrom info')) ?_).trans ?_
      · rw [← setValue_take ({ x with request := .waitChild child info' } : Exec D).finish _ quiet]
        rfl
      · exact ⟨False.elim, fun ⟨e, _, never⟩ => by cases never⟩

/-! ### Events -/

/-- An event's work on a record: it stays parked, and is told nothing unless it is finished. -/
structure Worked (x y : Exec D) : Prop where
  state : y.state = x.state
  open_ : y.finished = false → y.urge = x.urge

theorem finished_worked (state : y.state = x.state) (finished : y.finished = true) : Worked x y := by
  refine ⟨state, fun unfinished => ?_⟩
  rw [finished] at unfinished
  cases unfinished

theorem finishOrRearm_worked (result : Except Errno Nat) (fd : Int) (events : BitVec 32) (x : Exec D) :
    wp (finishOrRearm a result fd events) (fun _ y => Worked x y) (fun _ y => y = x) x := by
  cases result with
  | ok n => exact finished_worked (finishResult_state x n) (finishResult_finished x n)
  | error e =>
    rw [finishOrRearm]
    by_cases block : wouldBlock e = true
    · rw [if_pos block, wp_bind]
      refine wp_mono (add_spec fd (events ||| epollOneshot) .op x) ?_ fun _ y threw => threw.2
      rintro _ y ⟨-, state, done⟩
      refine ⟨state, fun unfinished => ?_⟩
      rcases done with ⟨finished, -⟩ | ⟨-, urge, -⟩
      · rw [finished] at unfinished
        cases unfinished
      · exact urge
    · rw [if_neg block]
      exact finished_worked (finishResult_state x _) (finishResult_finished x _)

theorem eventOp_worked (events : BitVec 32) (kind : EventKind) (request : Wish D) (x : Exec D) :
    wp (eventOp a events kind request) (fun _ y => Worked x y) (fun _ y => y = x) x := by
  have told (result : Int) : Worked x (x.finishResult result) :=
    finished_worked (finishResult_state x result) (finishResult_finished x result)
  cases request with
  | manual => exact told _
  | openat => exact told _
  | openat2 => exact told _
  | statx result => exact told _
  | getdents64 => exact told _
  | spawnPiped child => exact told _
  | spawnPty child => exact told _
  | signalChild child => exact told _
  | readSome fd => exact finishOrRearm_worked _ fd _ x
  | writeSome fd => exact finishOrRearm_worked _ fd _ x
  | recvSome fd => exact finishOrRearm_worked _ fd _ x
  | sendSome fd => exact finishOrRearm_worked _ fd _ x
  | accept fd => exact finishOrRearm_worked _ fd _ x
  | connect fd => exact told _
  | poll fd interest => exact told _
  | timeout duration => exact told _
  | pollUntil fd interest limit =>
    exact finished_worked (finishPollUntil_state x _ _) (finishPollUntil_finished x _ _)
  | waitChild child info =>
    rw [eventOp]
    cases a.waitid with
    | error e => exact finished_worked rfl rfl
    | ok info' => exact finished_worked rfl rfl

theorem onEvent_worked (events : BitVec 32) (kind : EventKind) (x : Exec D) :
    wp (onEvent a events kind) (fun _ y => Worked x y) (fun _ y => y = x) x := by
  unfold onEvent
  rw [wp_bind, wp_get]
  dsimp only
  split
  · exact finished_worked (finishResult_state x _) (finishResult_finished x _)
  · exact eventOp_worked events kind x.request x

theorem ownEvent_worked (events : BitVec 32) (reg : Registration) (x : Exec D) :
    wp (ownEvent a events reg) (fun _ y => Worked x y) (fun _ y => y = x) x := by
  unfold ownEvent
  rw [wp_bind, wp_get]
  dsimp only
  split
  · exact finished_worked (finishResult_state x _) (finishResult_finished x _)
  · exact eventOp_worked events reg.kind x.request x

theorem Fresh.cleanup (fresh : Fresh x) : Fresh x.cleanup := ⟨fresh.urge, fresh.finished⟩

theorem onEvent_quiet (quiet : events &&& epollErr = 0) (reg : Registration) (x : Exec D) :
    onEvent a events reg.kind x = ownEvent a events reg x := by
  have none_ (error : Nat) : ¬(events &&& epollErr ≠ 0 ∧ error ≠ 0) := fun both => both.1 quiet
  have left : onEvent a events reg.kind x = eventOp a events reg.kind x.request x := by
    change (ite _ _ _ : Doing D Bool) x = _
    rw [if_neg (none_ _)]
  have right : ownEvent a events reg x = eventOp a events reg.kind x.request x := by
    change (ite _ _ _ : Doing D Bool) x = _
    rw [if_neg (none_ _)]
  rw [left, right]

theorem onEvent_error (error : events &&& epollErr ≠ 0) (kind : EventKind) (closed : socketError a (-1) = ebadf)
    (x : Exec D) : heard (onEvent a events kind x.cleanup) = some (.error (.errno ebadf)) := by
  have told : onEvent a events kind x.cleanup = .ok true (x.cleanup.finishResult (-(ebadf : Nat))) := by
    have bad : socketError a (x.cleanup.eventFd kind) = ebadf := closed
    change (ite _ _ _ : Doing D Bool) x.cleanup = _
    rw [bad, if_pos ⟨error, by decide⟩]
    rfl
  rw [heard_finished told (finishResult_finished _ _), finishResult_error _ (by decide), (failureOf_badf _).mpr rfl]

theorem ownEvent_badf (error : events &&& epollErr ≠ 0) (reg : Registration) (fresh : Fresh x) :
    heard (ownEvent a events reg x) = some (.error (.errno ebadf)) ↔ OwnBadf a reg x.request := by
  unfold OwnBadf
  by_cases none_ : pendingError a reg.fd = 0
  · have told : ownEvent a events reg x = eventOp a events reg.kind x.request x := by
      change (ite _ _ _ : Doing D Bool) x = _
      rw [if_neg fun both => both.2 none_]
    rw [told, eventOp_badf events reg.kind x fresh, none_]
    constructor
    · exact fun bad => .inr ⟨rfl, bad⟩
    · rintro (bad | ⟨-, bad⟩)
      · exact absurd bad (by decide)
      · exact bad
  · have told : ownEvent a events reg x = .ok true (x.finishResult (-(pendingError a reg.fd : Nat))) := by
      change (ite _ _ _ : Doing D Bool) x = _
      rw [if_pos ⟨error, none_⟩]
      rfl
    rw [heard_finished told (finishResult_finished _ _), finishResult_error _ (Nat.pos_of_ne_zero none_),
      Option.some.injEq, Except.error.injEq, failureOf_badf]
    constructor
    · exact .inl
    · rintro (bad | ⟨bad, -⟩)
      · exact bad
      · exact absurd bad none_

theorem handleEvent_own (parked : x.state = .parked task phase) (fresh : Fresh x) (events : BitVec 32)
    (reg : Registration) (closed : socketError a (-1) = ebadf) : delivered (handleEvent a events reg.kind x) = delivered
    (handleWith (ownEvent a events reg) x) ↔ events &&& epollErr = 0 ∨ OwnBadf a reg x.request := by
  have keeps {body : Doing D Bool} (worked : wp body (fun _ y => Worked x.cleanup y) (fun _ y => y = x.cleanup) x.cleanup) :
      KeepsState body x.cleanup := wp_mono worked (fun _ _ done => done.state) fun _ _ _ => trivial
  have own := handleWith_delivered parked (keeps (ownEvent_worked (a := a) events reg x.cleanup))
  have done := handleWith_delivered parked (keeps (onEvent_worked (a := a) events reg.kind x.cleanup))
  rw [handleEvent, done, own]
  by_cases quiet : events &&& epollErr = 0
  · rw [onEvent_quiet quiet]
    exact ⟨fun _ => .inl quiet, fun _ => rfl⟩
  · have badf := ownEvent_badf (a := a) quiet reg fresh.cleanup
    rw [onEvent_error quiet reg.kind closed, eq_comm, badf]
    constructor
    · exact .inr
    · rintro (none_ | bad)
      · exact absurd none_ quiet
      · exact bad

/-! ### Refused registrations -/

/-- A descriptor that is duplicated to be watched. -/
def watched (a : Answers D) (fd : Int) (events : BitVec 32) : List (Int × BitVec 32) :=
  match a.dup fd with
  | .ok watchFd => [(watchFd, events ||| epollOneshot ||| epollErr ||| epollHup)]
  | .error _ => []

def timed (a : Answers D) (duration : Timespec) : List (Int × BitVec 32) :=
  match a.timerfdCreate with
  | .ok fd => if timerFails a duration then [] else [(fd, epollIn ||| epollOneshot ||| epollErr ||| epollHup)]
  | .error _ => []

def Wish.registers (a : Answers D) : Wish D → List (Int × BitVec 32)
  | .waitChild child _ => if child < 0 then [] else watched a child epollIn
  | .readSome fd => if blocks (nonblockingCall a) then watched a fd epollIn else []
  | .writeSome fd => if blocks (nonblockingCall a) then watched a fd epollOut else []
  | .recvSome fd => if blocks a.call then watched a fd epollIn else []
  | .sendSome fd => if blocks a.call then watched a fd epollOut else []
  | .accept fd => if blocks (nonblockingCall a) then watched a fd epollIn else []
  | .connect fd => if connecting (nonblockingCall a) then watched a fd epollOut else []
  | .poll fd events => watched a fd (pollToEpoll events)
  | .timeout duration => timed a duration
  | .pollUntil fd events limit => if dupFails a fd then [] else watched a fd (pollToEpoll events) ++ timed a limit
  | _ => []

/-- The registration that a retried operation asks for when it would block again. -/
def Wish.rearms (a : Answers D) : Wish D → List (Int × BitVec 32)
  | .readSome fd => if blocks (nonblockingCall a) then watched a fd epollIn else []
  | .writeSome fd => if blocks (nonblockingCall a) then watched a fd epollOut else []
  | .recvSome fd => if blocks a.call then watched a fd epollIn else []
  | .sendSome fd => if blocks a.call then watched a fd epollOut else []
  | .accept fd => if blocks (nonblockingCall a) then watched a fd epollIn else []
  | _ => []

def Refuses (a : Answers D) (registrations : List (Int × BitVec 32)) (e : Errno) : Prop :=
  ∃ p ∈ registrations, a.add p.1 p.2 = .error e

variable {e : Errno}

theorem refuses_watched : Refuses a (watched a fd events) e ↔
    ∃ watchFd, a.dup fd = .ok watchFd ∧ a.add watchFd (events ||| epollOneshot ||| epollErr ||| epollHup) = .error e := by
  unfold Refuses watched
  cases a.dup fd with
  | error err => simp
  | ok watchFd => simp

theorem refuses_timed : Refuses a (timed a duration) e ↔
    ∃ fd, a.timerfdCreate = .ok fd ∧ timerFails a duration = false ∧
      a.add fd (epollIn ||| epollOneshot ||| epollErr ||| epollHup) = .error e := by
  unfold Refuses timed
  cases a.timerfdCreate with
  | error err => simp
  | ok fd => cases timerFails a duration <;> simp

theorem refuses_if {c : Prop} [Decidable c] {registrations : List (Int × BitVec 32)}
    (refused : Refuses a (if c then registrations else []) e) : c ∧ Refuses a registrations e := by
  by_cases here : c
  · rw [if_pos here] at refused
    exact ⟨here, refused⟩
  · rw [if_neg here] at refused
    obtain ⟨p, mem, -⟩ := refused
    exact absurd mem not_mem_nil

theorem makeTimerfd_made (created : a.timerfdCreate = .ok fd)
    (good : timerFails a duration = false) : makeTimerfd a duration = pure fd := by
  unfold timerFails at good
  unfold makeTimerfd
  rw [created] at good ⊢
  dsimp only
  cases set_ : a.timerfdSettime
      (if duration.sec = 0 ∧ duration.nsec = 0 then { duration with nsec := 1 } else duration) with
  | error err =>
    rw [set_] at good
    cases good
  | ok u => rfl

def FailedWith (e : Errno) (y : Exec D) : Prop := y.finished = true ∧ y.urge.take = .error (failureOf e)

theorem addFd_refused (refused : a.add fd (events ||| epollErr ||| epollHup) = .error e)
    (other : x.request.result ≠ .pollUntil) (kind : EventKind) :
    wp (addFd a fd events kind true) (fun _ y => FailedWith e y) (fun _ _ => False) x := by
  unfold addFd
  rw [refused]
  exact ⟨(complete_refused x e).2.1, complete_error x e other⟩

theorem addWaiting_refused (refused : Refuses a (watched a fd events) e) (other : x.request.result ≠ .pollUntil) :
    wp (do add a fd (events ||| epollOneshot) .op; return true) (fun _ y => FailedWith e y) (fun _ _ => False) x := by
  obtain ⟨watchFd, duplicated, refused⟩ := refuses_watched.mp refused
  rw [wp_bind]
  unfold add
  rw [duplicated]
  exact addFd_refused refused other .op

theorem finishOrWait_refused {result : Except Errno Nat}
    (refused : Refuses a (if blocks result then watched a fd events else []) e) (other : x.request.result ≠ .pollUntil) :
    wp (finishOrWait a result fd events) (fun _ y => FailedWith e y) (fun _ _ => False) x := by
  obtain ⟨block, watch⟩ := refuses_if refused
  cases result with
  | ok n => cases block
  | error err =>
    have block' : wouldBlock err = true := block
    rw [finishOrWait, if_pos block']
    exact addWaiting_refused watch other

theorem submitOp_refused (refused : Refuses a (x.request.registers a) e) (other : x.request.result ≠ .pollUntil) :
    wp (submitOp a x.request) (fun _ y => FailedWith e y) (fun _ _ => False) x := by
  have nothing {P : Prop} (none_ : x.request.registers a = []) : P := by
    rw [none_] at refused
    obtain ⟨p, mem, -⟩ := refused
    exact absurd mem not_mem_nil
  cases request : x.request with
  | manual => exact nothing (by rw [request]; rfl)
  | openat => exact nothing (by rw [request]; rfl)
  | openat2 => exact nothing (by rw [request]; rfl)
  | statx result => exact nothing (by rw [request]; rfl)
  | getdents64 => exact nothing (by rw [request]; rfl)
  | spawnPiped child => exact nothing (by rw [request]; rfl)
  | spawnPty child => exact nothing (by rw [request]; rfl)
  | signalChild child => exact nothing (by rw [request]; rfl)
  | readSome fd =>
    rw [request] at refused
    exact finishOrWait_refused refused other
  | writeSome fd =>
    rw [request] at refused
    exact finishOrWait_refused refused other
  | recvSome fd =>
    rw [request] at refused
    exact finishOrWait_refused refused other
  | sendSome fd =>
    rw [request] at refused
    exact finishOrWait_refused refused other
  | accept fd =>
    rw [request] at refused
    exact finishOrWait_refused refused other
  | poll fd events =>
    rw [request] at refused
    exact addWaiting_refused refused other
  | waitChild child info =>
    rw [request, Wish.registers] at refused
    by_cases bad : child < 0
    · rw [if_pos bad] at refused
      obtain ⟨p, mem, -⟩ := refused
      exact absurd mem not_mem_nil
    · rw [if_neg bad] at refused
      rw [submitOp, if_neg bad]
      exact addWaiting_refused refused other
  | connect fd =>
    rw [request] at refused
    obtain ⟨waits, refused⟩ := refuses_if refused
    rw [submitOp]
    cases connected : nonblockingCall a with
    | ok n =>
      rw [connected] at waits
      cases waits
    | error err =>
      rw [connected, connecting, Bool.or_eq_true, decide_eq_true_iff] at waits
      dsimp only
      rw [if_neg]
      · exact addWaiting_refused refused other
      · rintro ⟨apart, block⟩
        rcases waits with block' | same
        · rw [block] at block'
          cases block'
        · exact apart same
  | timeout duration =>
    rw [request] at refused
    obtain ⟨fd, created, good, refused⟩ := refuses_timed.mp refused
    rw [submitOp, makeTimerfd_made created good, pure_bind, wp_bind]
    exact addFd_refused refused other .timer
  | pollUntil fd events limit => exact absurd (by rw [request]; rfl) other

theorem stage_finished {P : UrgeState D → Prop} (queued : x.state = .parked task .queued)
    (done : wp (submitOp a x.request) (fun _ y => y.finished = true ∧ P y.urge) (fun _ _ => False) x) :
    ∃ s, P s ∧ delivered (stage a x) = some s.take := by
  refine (wp_result fun r => ∃ s, P s ∧ delivered r = some s.take).mp ?_
  unfold stage
  rw [wp_bind, wp_get, queued]
  dsimp only
  rw [wp_bind]
  have spec := submitOp_spec (a := a) x.request x
  cases run : submitOp a x.request x with
  | error err y =>
    rw [wp_error run] at done
    exact done.elim
  | ok waits y =>
    rw [wp_ok run] at done spec ⊢
    have state : y.state = .parked task .queued := spec.state.trans queued
    rw [wp_bind, wp_get, if_pos done.1, wp_bind, wp_set]
    unfold settle
    rw [wp_bind, wp_get]
    dsimp only [Exec.cleanup]
    rw [state]
    exact ⟨y.urge, done.2, rfl⟩

structure Valued (y : Exec D) : Prop where
  result : y.request.result = .pollUntil
  quiet : y.urge.exception = none
  value : y.finished = true → ∃ v, y.urge.value = some v

theorem complete_valued (valued : Valued x) (result : Int) : Valued (x.complete result false) := by
  unfold Exec.complete
  rw [if_neg (by decide), valued.result]
  dsimp only
  unfold Exec.finishPollUntil
  rw [valued.result]
  exact ⟨valued.result, valued.quiet, fun _ => ⟨_, rfl⟩⟩

theorem addFd_valued (valued : Valued x) (fd : Int) (events : BitVec 32) (kind : EventKind) :
    wp (addFd a fd events kind true) (fun _ y => Valued y) (fun _ _ => True) x := by
  unfold addFd
  cases a.add fd (events ||| epollErr ||| epollHup) with
  | error err => exact complete_valued valued _
  | ok u => exact ⟨valued.result, valued.quiet, valued.value⟩

theorem pollUntil_valued (valued : Valued x) (fd : Int) (events : BitVec 16) (limit : Timespec) :
    wp (submitOp a (.pollUntil fd events limit)) (fun _ y => Valued y) (fun _ _ => True) x := by
  rw [submitOp, wp_bind]
  unfold add
  cases a.dup fd with
  | error err => trivial
  | ok watchFd =>
    refine wp_mono (addFd_valued valued watchFd _ .op) ?_ fun _ _ _ => trivial
    intro _ y valued'
    rw [wp_bind]
    refine wp_mono (makeTimerfd_spec limit y) ?_ fun _ _ _ => trivial
    rintro timer _ ⟨-, rfl⟩
    rw [wp_bind]
    refine wp_mono (addFd_valued valued' timer _ .timer) ?_ fun _ _ _ => trivial
    intro _ z valued''
    exact valued''

theorem stage_valued (queued : x.state = .parked task .queued) (valued : Valued x) (failure : Failure) :
    delivered (stage a x) ≠ some (.error failure) := by
  obtain ⟨fd, events, limit, request⟩ : ∃ fd events limit, x.request = .pollUntil fd events limit := by
    have same := valued.result
    cases request : x.request with
    | pollUntil fd events limit => exact ⟨fd, events, limit, rfl⟩
    | _ =>
      rw [request] at same
      cases same
  refine (wp_result fun r => delivered r ≠ some (.error failure)).mp ?_
  unfold stage
  rw [wp_bind, wp_get, queued]
  dsimp only
  rw [wp_bind]
  have spec := submitOp_spec (a := a) x.request x
  have done := pollUntil_valued (a := a) valued fd events limit
  rw [← request] at done
  cases run : submitOp a x.request x with
  | error err y =>
    rw [wp_error run]
    nofun
  | ok waits y =>
    rw [wp_ok run] at done spec ⊢
    have state : y.state = .parked task .queued := spec.state.trans queued
    rw [wp_bind, wp_get]
    by_cases finished : y.finished = true
    · rw [if_pos finished, wp_bind, wp_set]
      unfold settle
      rw [wp_bind, wp_get]
      dsimp only [Exec.cleanup]
      rw [state]
      obtain ⟨v, told⟩ := done.value finished
      have took : y.urge.take = .ok v := by
        unfold UrgeState.take
        rw [done.quiet, told]
      change some y.urge.take ≠ _
      rw [took]
      nofun
    · obtain ⟨rfl, -⟩ := spec.open_ (Bool.eq_false_iff.mpr finished)
      rw [if_neg finished]
      nofun

/-- A refused registration is told as its error unless the wish is a `poll_until`, which is told a value, or the error is
    `EINTR`, which has an exception of its own. -/
theorem stage_refused (queued : x.state = .parked task .queued) (fresh : Fresh x)
    (refused : Refuses a (x.request.registers a) e) :
    delivered (stage a x) = some (.error (.errno e)) ↔ x.request.result ≠ .pollUntil ∧ (e : Nat) ≠ eintr := by
  by_cases same : x.request.result = .pollUntil
  · have valued : Valued x := ⟨same, by rw [fresh.urge], fun finished => by rw [fresh.finished] at finished; cases finished⟩
    exact ⟨fun told => absurd told (stage_valued queued valued _), fun both => absurd same both.1⟩
  · obtain ⟨s, took, told⟩ := stage_finished (P := fun s => s.take = .error (failureOf e)) queued
      (submitOp_refused refused same)
    rw [told, took, Option.some.injEq, Except.error.injEq, failureOf_errno]
    exact (and_iff_right same).symm

theorem eventOp_refused (events : BitVec 32) (kind : EventKind) (fresh : Fresh x)
    (refused : Refuses a (x.request.rearms a) e) :
    heard (eventOp a events kind x.request x) = some (.error (.errno e)) ↔ (e : Nat) ≠ eintr := by
  have again {result : Except Errno Nat} {fd : Int} {interest : BitVec 32}
      (refused : Refuses a (if blocks result then watched a fd interest else []) e)
      (other : x.request.result ≠ .pollUntil) :
      heard (finishOrRearm a result fd interest x) = some (.error (.errno e)) ↔ (e : Nat) ≠ eintr := by
    obtain ⟨block, watch⟩ := refuses_if refused
    obtain ⟨watchFd, duplicated, added⟩ := refuses_watched.mp watch
    cases result with
    | ok n => cases block
    | error err =>
      have block' : wouldBlock err = true := block
      have same : finishOrRearm a (.error err) fd interest = (do add a fd (interest ||| epollOneshot) .op; return false) := by
        rw [finishOrRearm, if_pos block']
      rw [same, (rearm_heard fd _ x fresh.finished other _).mpr ⟨watchFd, duplicated, e, rfl, added⟩, Option.some.injEq,
        Except.error.injEq, failureOf_errno]
  have nothing {P : Prop} (none_ : x.request.rearms a = []) : P := by
    rw [none_] at refused
    obtain ⟨p, mem, -⟩ := refused
    exact absurd mem not_mem_nil
  cases request : x.request with
  | readSome fd =>
    rw [request] at refused
    have result : x.request.result = .size := by rw [request]; rfl
    exact again refused (by rw [result]; decide)
  | writeSome fd =>
    rw [request] at refused
    have result : x.request.result = .size := by rw [request]; rfl
    exact again refused (by rw [result]; decide)
  | recvSome fd =>
    rw [request] at refused
    have result : x.request.result = .size := by rw [request]; rfl
    exact again refused (by rw [result]; decide)
  | sendSome fd =>
    rw [request] at refused
    have result : x.request.result = .size := by rw [request]; rfl
    exact again refused (by rw [result]; decide)
  | accept fd =>
    rw [request] at refused
    have result : x.request.result = .int := by rw [request]; rfl
    exact again refused (by rw [result]; decide)
  | _ => exact nothing (by rw [request]; rfl)

theorem handleEvent_refused (parked : x.state = .parked task phase) (fresh : Fresh x)
    (quiet : events &&& epollErr = 0) (kind : EventKind) (refused : Refuses a (x.request.rearms a) e) :
    delivered (handleEvent a events kind x) = some (.error (.errno e)) ↔ (e : Nat) ≠ eintr := by
  have keeps : KeepsState (onEvent a events kind) x.cleanup :=
    wp_mono (onEvent_worked (a := a) events kind x.cleanup) (fun _ _ done => done.state) fun _ _ _ => trivial
  have plain : onEvent a events kind x.cleanup = eventOp a events kind x.request x.cleanup := by
    change (ite _ _ _ : Doing D Bool) x.cleanup = _
    rw [if_neg fun both => both.1 quiet]
    rfl
  rw [handleEvent, handleWith_delivered parked keeps, plain]
  exact eventOp_refused events kind fresh.cleanup refused

/-! ### Every run -/

structure Told (w : Wand D) (ids : List Nat) : Prop where
  prepared : ∀ id x, w.execs id = some x → x.state = .prepared → Fresh x ∧ x.registrations = []
  listed : ∀ id ∈ ids, ∀ x, QueuedAt w id x → Fresh x ∧ x.registrations = []
  watched : ∀ id x, w.execs id = some x → ∀ task phase, x.state = .parked task phase → x.registrations ≠ [] → Fresh x
  numbered : ∀ id, w.next ≤ id → w.execs id = none

section Runs
variable {w w' : Wand D} {ids : List Nat} {id : Nat} {x' : Exec D}

theorem Told.put (told : Told w ids) (here : w.execs id = some x) (put : Put w id x' w') {later : List Nat}
    (fewer : ∀ id ∈ later, id ∈ ids) (prepared : x'.state ≠ .prepared)
    (listed : id ∈ later → ∀ task, x'.state = .parked task .queued → Fresh x' ∧ x'.registrations = [])
    (watched : ∀ task phase, x'.state = .parked task phase → x'.registrations ≠ [] → Fresh x') : Told w' later where
  prepared := by
    intro other y there state
    rw [put.execs] at there
    by_cases same : other = id
    · rw [same, Function.update_self] at there
      cases there
      exact absurd state prepared
    · rw [Function.update_of_ne same] at there
      exact told.prepared other y there state
  listed := by
    rintro other mem y ⟨there, task, state⟩
    rw [put.execs] at there
    by_cases same : other = id
    · rw [same, Function.update_self] at there
      cases there
      exact listed (same ▸ mem) task state
    · rw [Function.update_of_ne same] at there
      exact told.listed other (fewer other mem) y ⟨there, task, state⟩
  watched := by
    intro other y there task phase state
    rw [put.execs] at there
    by_cases same : other = id
    · rw [same, Function.update_self] at there
      cases there
      exact watched task phase state
    · rw [Function.update_of_ne same] at there
      exact told.watched other y there task phase state
  numbered := by
    intro other new
    have apart : other ≠ id := by
      rintro rfl
      rw [put.next] at new
      rw [told.numbered other new] at here
      cases here
    rw [put.execs, Function.update_of_ne apart]
    exact told.numbered other (put.next ▸ new)

theorem Told.same (told : Told w ids) (execs : w'.execs = w.execs) (next : w'.next = w.next) {later : List Nat}
    (fewer : ∀ id ∈ later, id ∈ ids) : Told w' later where
  prepared := by
    rw [execs]
    exact told.prepared
  listed := fun id mem x at_ => told.listed id (fewer id mem) x ⟨execs ▸ at_.here, at_.queued⟩
  watched := by
    rw [execs]
    exact told.watched
  numbered := by
    rw [execs, next]
    exact told.numbered

theorem Told.kept (told : Told w ids) (here : w.execs id = some x) (put : Put w id x w') {later : List Nat}
    (fewer : ∀ id ∈ later, id ∈ ids) : Told w' later := by
  refine told.same ?_ put.next fewer
  rw [put.execs, ← here, Function.update_eq_self]

theorem Told.settled (told : Told w ids) (here : w.execs id = some x) (put : Put w id x' w') (settled : x'.state = .settled)
    {later : List Nat} (fewer : ∀ id ∈ later, id ∈ ids) : Told w' later := by
  refine told.put here put fewer ?_ ?_ ?_
  · rw [settled]
    nofun
  · intro _ task state
    rw [settled] at state
    cases state
  · intro task phase state
    rw [settled] at state
    cases state

theorem Told.stage (told : Told w (id :: ids)) (a : Answers D) :
    ((w.apply id (Epoll.stage a)).2 = none → Told (w.apply id (Epoll.stage a)).1 ids) ∧
      Told (w.apply id (Epoll.stage a)).1 [] := by
  have fewer : ∀ other ∈ ids, other ∈ id :: ids := fun _ => mem_cons_of_mem _
  have none_ : ∀ other ∈ ([] : List Nat), other ∈ id :: ids := fun _ => nofun
  cases here : w.execs id with
  | none =>
    rw [apply_none here]
    exact ⟨fun _ => told.same rfl rfl fewer, told.same rfl rfl none_⟩
  | some x =>
    by_cases queued : ∃ task, x.state = .parked task .queued
    · obtain ⟨task, state⟩ := queued
      obtain ⟨fresh, unwatched⟩ := told.listed id mem_cons_self x ⟨here, task, state⟩
      rcases apply_spec here (stage_queued (a := a) x state) with
        ⟨c, x', ⟨-, settled | ⟨waits, unfinished, urge⟩⟩, -, put⟩ | ⟨e, x', threw, thrown, put⟩
      · exact ⟨fun _ => told.settled here put settled fewer, told.settled here put settled none_⟩
      · have go {later : List Nat} (fewer : ∀ other ∈ later, other ∈ id :: ids) :
            Told (w.apply id (Epoll.stage a)).1 later := by
          refine told.put here put fewer ?_ ?_ fun _ _ _ _ => ⟨urge.trans fresh.urge, unfinished⟩
          · rw [waits]
            nofun
          · intro _ task' state'
            rw [waits] at state'
            cases state'
        exact ⟨fun _ => go fewer, go none_⟩
      · have loud : (w.apply id (Epoll.stage a)).2 ≠ none := by
          rw [thrown]
          nofun
        refine ⟨fun quiet => absurd quiet loud, told.put here put none_ ?_ nofun ?_⟩
        · rw [threw.state, state]
          nofun
        · intro task' phase state' watched
          obtain ⟨finished, urge⟩ := threw.kept unwatched watched
          exact ⟨urge.trans fresh.urge, finished.trans fresh.finished⟩
    · push Not at queued
      rcases apply_spec here (stage_other (a := a) x queued) with ⟨c, x', after, -, put⟩ | ⟨e, x', never, -⟩
      · rcases after with settled | rfl
        · exact ⟨fun _ => told.settled here put settled fewer, told.settled here put settled none_⟩
        · exact ⟨fun _ => told.kept here put fewer, told.kept here put none_⟩
      · exact never.elim

theorem Told.stageFrom (a : Nat → Answers D) (ids : List Nat) (told : Told w ids) :
    Told (Wand.stageFrom a ids w).1 [] := by
  induction ids generalizing w with
  | nil => exact told
  | cons first rest ih =>
    obtain ⟨go, stop⟩ := told.stage (a first)
    rw [Wand.stageFrom]
    cases thrown : (w.apply first (Epoll.stage (a first))).2 with
    | none => exact ih (go thrown)
    | some e => exact stop

theorem Told.compact (told : Told w w.pendingSubmissions) : Told w.compactExecs w.compactExecs.pendingSubmissions where
  prepared := fun id x here => told.prepared id x (Option.filter_eq_some_iff.mp here).1
  listed := fun id mem x at_ => told.listed id (mem_filter.mp mem).1 x (compact_queued.mp at_)
  watched := fun id x here => told.watched id x (Option.filter_eq_some_iff.mp here).1
  numbered := by
    intro id new
    have gone := told.numbered id new
    unfold Wand.compactExecs
    dsimp only
    rw [gone]
    rfl

theorem apply_pending (w : Wand D) (id : Nat) (step : Doing D (Option Nat)) :
    (w.apply id step).1.pendingSubmissions = w.pendingSubmissions := by
  unfold Wand.apply
  split
  · rfl
  · split <;> rfl

theorem stageFrom_pending (a : Nat → Answers D) (ids : List Nat) (w : Wand D) :
    (Wand.stageFrom a ids w).1.pendingSubmissions = w.pendingSubmissions := by
  induction ids generalizing w with
  | nil => rfl
  | cons first rest ih =>
    rw [Wand.stageFrom]
    cases thrown : (w.apply first (Epoll.stage (a first))).2 with
    | none => exact (ih _).trans (apply_pending w first _)
    | some e => exact apply_pending w first _

theorem Told.wave (told : Told w w.pendingSubmissions) (a : Nat → Answers D) :
    Told (w.wave a).1 (w.wave a).1.pendingSubmissions := by
  have none_ : (w.wave a).1.pendingSubmissions = [] := stageFrom_pending a _ _
  rw [none_]
  refine Told.stageFrom a w.compactExecs.pendingSubmissions ?_
  refine Told.same told.compact ?_ ?_ fun _ mem => mem
  · rfl
  · rfl

theorem handleEvent_left {a : Answers D} {task : Nat} {phase : Phase} (parked : x.state = .parked task phase)
    (fresh : Fresh x) (events : BitVec 32) (kind : EventKind) :
    wp (handleEvent a events kind) (fun _ y => y.state = .settled ∨ y.state = x.state ∧ Fresh y)
      (fun _ y => y.state = x.state ∧ y.registrations = []) x := by
  unfold handleEvent handleWith
  rw [wp_bind, wp_get, parked]
  dsimp only
  rw [wp_bind, wp_set, wp_bind]
  refine wp_mono (onEvent_worked events kind x.cleanup) ?_ ?_
  · rintro done y ⟨state, open_⟩
    have still : y.state = .parked task phase := state.trans parked
    rw [wp_bind, wp_get, wp_ite]
    refine ⟨fun waits => .inr ⟨still, (open_ waits.2).trans fresh.urge, waits.2⟩, fun _ => ?_⟩
    unfold settle
    rw [wp_bind, wp_get, still]
    exact .inl rfl
  · rintro _ y rfl
    exact ⟨parked, rfl⟩

section
variable (told : Told w w.pendingSubmissions)
include told

theorem Told.event (here : w.execs id = some x) {reg : Registration} (mem : reg ∈ x.registrations) (a : Answers D)
    (events : BitVec 32) : Told (w.apply id (handleEvent a events reg.kind)).1 w.pendingSubmissions := by
  have watched : x.registrations ≠ [] := ne_nil_of_mem mem
  by_cases parked : ∃ task phase, x.state = .parked task phase
  · obtain ⟨task, phase, state⟩ := parked
    have fresh := told.watched id x here task phase state watched
    have other {y : Exec D} (same : y.state = x.state) : y.state ≠ .prepared := by
      rw [same, state]
      nofun
    have unlisted {y : Exec D} (same : y.state = x.state) (mem : id ∈ w.pendingSubmissions) (task' : Nat)
        (queued : y.state = .parked task' .queued) : Fresh y ∧ y.registrations = [] :=
      absurd (told.listed id mem x ⟨here, task', same ▸ queued⟩).2 watched
    rcases apply_spec here (handleEvent_left (a := a) state fresh events reg.kind) with
      ⟨c, y, settled | ⟨same, fresh'⟩, -, put⟩ | ⟨e, y, ⟨same, unwatched⟩, -, put⟩
    · exact told.settled here put settled fun _ mem => mem
    · exact told.put here put (fun _ mem => mem) (other same) (unlisted same) fun _ _ _ _ => fresh'
    · exact told.put here put (fun _ mem => mem) (other same) (unlisted same) fun _ _ _ some_ => absurd unwatched some_
  · push Not at parked
    have idle : wp (handleEvent a events reg.kind) (fun _ y => y = x) (fun _ _ => False) x := by
      unfold handleEvent handleWith
      rw [wp_bind, wp_get]
      cases state : x.state with
      | parked task phase => exact absurd state (parked task phase)
      | prepared => exact rfl
      | settled => exact rfl
      | retired => exact rfl
    rcases apply_spec here idle with ⟨c, _, rfl, -, put⟩ | ⟨e, y, never, -⟩
    · exact told.kept here put fun _ mem => mem
    · exact never.elim

theorem Told.cancel (id : Nat) : Told (w.apply id Epoll.cancel).1 w.pendingSubmissions := by
  cases here : w.execs id with
  | none =>
    rw [apply_none here]
    exact told
  | some x =>
    have spec : wp (Epoll.cancel (D := D))
        (fun _ y => y.state = .settled ∨ (∃ task, x.state = .parked task .queued ∧
          y = { x with state := .parked task .cancelQueued }) ∨ y = x) (fun _ _ => False) x := by
      unfold Epoll.cancel
      rw [wp_bind, wp_get]
      cases state : x.state with
      | parked task phase =>
        cases phase with
        | queued => exact .inr (.inl ⟨task, rfl, rfl⟩)
        | submitted => exact .inl rfl
        | cancelQueued => exact .inr (.inr rfl)
      | prepared => exact .inr (.inr rfl)
      | settled => exact .inr (.inr rfl)
      | retired => exact .inr (.inr rfl)
    rcases apply_spec here spec with ⟨c, y, settled | ⟨task, queued, rfl⟩ | rfl, -, put⟩ | ⟨e, y, never, -⟩
    · exact told.settled here put settled fun _ mem => mem
    · refine told.put here put (fun _ mem => mem) nofun (fun _ task' state => by cases state) fun _ _ _ watched => ?_
      have fresh := told.watched id x here task .queued queued watched
      exact ⟨fresh.urge, fresh.finished⟩
    · exact told.kept here put fun _ mem => mem
    · exact never.elim

theorem Told.suspend (id task : Nat) : Told (w.suspend id task) (w.suspend id task).pendingSubmissions := by
  unfold Wand.suspend
  cases here : w.execs id with
  | none => exact told
  | some x =>
    dsimp only
    by_cases prepared : x.state = .prepared
    · obtain ⟨fresh, unwatched⟩ := told.prepared id x here prepared
      rw [if_pos prepared]
      have put : Put w id { x with state := .parked task .queued } (w.put id { x with state := .parked task .queued }) :=
        ⟨rfl, rfl, rfl⟩
      exact told.put here put (fun _ mem => mem) nofun (fun _ _ _ => ⟨⟨fresh.urge, fresh.finished⟩, unwatched⟩)
        fun _ _ _ watched => absurd unwatched watched
    · rw [if_neg prepared]
      exact told

theorem Told.prep (request : Wish D) :
    Told (w.prep request) (w.prep request).pendingSubmissions where
  prepared := by
    intro id x here state
    by_cases same : id = w.next
    · rw [same] at here
      cases (Function.update_self w.next _ w.execs).symm.trans here
      exact ⟨⟨rfl, rfl⟩, rfl⟩
    · exact told.prepared id x ((Function.update_of_ne same _ w.execs).symm.trans here) state
  listed := by
    rintro id mem x ⟨here, task, state⟩
    by_cases same : id = w.next
    · rw [same] at here
      cases (Function.update_self w.next _ w.execs).symm.trans here
      cases state
    · rcases mem_append.mp mem with old | new
      · exact told.listed id old x ⟨(Function.update_of_ne same _ w.execs).symm.trans here, task, state⟩
      · exact absurd (mem_singleton.mp new) same
  watched := by
    intro id x here task phase state
    by_cases same : id = w.next
    · rw [same] at here
      cases (Function.update_self w.next _ w.execs).symm.trans here
      cases state
    · exact told.watched id x ((Function.update_of_ne same _ w.execs).symm.trans here) task phase state
  numbered := by
    intro id new
    have later : w.next + 1 ≤ id := new
    exact (Function.update_of_ne (show id ≠ w.next by omega) _ w.execs).trans (told.numbered id (by omega))

end

theorem Reached.told (reached : Reached w) : Told w w.pendingSubmissions := by
  induction reached with
  | start =>
    have blank (id : Nat) : ({} : Wand D).execs id = none := rfl
    refine ⟨?_, fun _ mem => absurd mem not_mem_nil, ?_, fun _ _ => rfl⟩
    · intro id x here
      rw [blank] at here
      cases here
    · intro id x here
      rw [blank] at here
      cases here
  | step before step ih =>
    cases step with
    | prep request => exact ih.prep request
    | suspend id task => exact ih.suspend id task
    | cancel id =>
      rw [apply_pending]
      exact ih.cancel id
    | wave a => exact ih.wave a
    | event a events here mem =>
      rw [apply_pending]
      exact ih.event here mem a events
    | compact => exact ih.compact

end Runs

/-- In every state that a wand comes to, an event of a registration is told as its own descriptor's outcome, unless it
    carries `EPOLLERR` and that outcome is not `EBADF`; and a registration that is refused, when a wish is submitted or
    retried, is told as that error, unless the wish is a `poll_until` or the error is `EINTR`. -/
theorem outcomes_told_iff {w : Wand D} (reached : Reached w) {id : Nat} (here : w.execs id = some x)
    {task : Nat} {phase : Phase} (parked : x.state = .parked task phase) (a : Answers D) :
    (∀ (events : BitVec 32), ∀ reg ∈ x.registrations, socketError a (-1) = ebadf →
        (delivered (handleEvent a events reg.kind x) = delivered (handleWith (ownEvent a events reg) x) ↔
          events &&& epollErr = 0 ∨ OwnBadf a reg x.request)) ∧
      (∀ e : Errno, phase = .queued → id ∈ w.pendingSubmissions → Refuses a (x.request.registers a) e →
        (delivered (stage a x) = some (.error (.errno e)) ↔ x.request.result ≠ .pollUntil ∧ (e : Nat) ≠ eintr)) ∧
      ∀ (events : BitVec 32), ∀ reg ∈ x.registrations, ∀ e : Errno, events &&& epollErr = 0 →
        Refuses a (x.request.rearms a) e →
        (delivered (handleEvent a events reg.kind x) = some (.error (.errno e)) ↔ (e : Nat) ≠ eintr) := by
  have told := reached.told
  refine ⟨fun events reg mem closed => ?_, fun e queued listed refused => ?_, fun events reg mem e quiet refused => ?_⟩
  · exact handleEvent_own parked (told.watched id x here task phase parked (ne_nil_of_mem mem)) events reg closed
  · subst queued
    exact stage_refused parked (told.listed id listed x ⟨here, task, parked⟩).1 refused
  · exact handleEvent_refused parked (told.watched id x here task phase parked (ne_nil_of_mem mem)) quiet reg.kind refused

/-- A kernel that is still connecting when it is asked, and says later that the connection is refused. -/
def refusedConnect : Answers Unit where
  call := .error 115
  getfl := .ok true
  setfl := .ok ()
  dup fd := .ok (fd + 2)
  timerfdCreate := .ok 9
  timerfdSettime _ := .ok ()
  add _ _ := .ok ()
  getsockopt fd := if fd < 0 then .error 9 else .ok 111
  waitid := .ok {}
  filled := ()

def connectWaiting : Exec Unit where
  request := .connect 5
  state := .parked 1 .submitted
  registrations := [{ fd := 7, kind := .op, ownsFd := true }]

def connectWand : Wand Unit := ((({} : Wand Unit).prep (.connect 5)).suspend 0 1)

theorem connectWand_waved : ((connectWand.wave fun _ => refusedConnect).1).execs 0 = some connectWaiting := rfl

theorem connectWand_reached : Reached (connectWand.wave fun _ => refusedConnect).1 :=
  .step (.step (.step .start (.prep (.connect 5))) (.suspend 0 1)) (.wave _)

theorem outcomes_told_connect : delivered (handleEvent refusedConnect 0x04 .op connectWaiting) =
      delivered (handleWith (ownEvent refusedConnect 0x04 { fd := 7, kind := .op, ownsFd := true }) connectWaiting) :=
  ((outcomes_told_iff connectWand_reached connectWand_waved rfl refusedConnect).1 0x04
    { fd := 7, kind := .op, ownsFd := true } mem_cons_self rfl).mpr (.inl rfl)

/-- A kernel that takes no registration of a regular file. -/
def regularFile : Answers Unit := { refusedConnect with add := fun _ _ => .error 1 }

/-- A refused connection is told as `EBADF`, and a `poll_until` of a regular file as a value. -/
theorem told_otherwise :
    ¬(∀ w : Wand Unit, Reached w → ∀ id x, w.execs id = some x → ∀ task phase, x.state = .parked task phase →
        ∀ (a : Answers Unit) (events : BitVec 32), ∀ reg ∈ x.registrations, socketError a (-1) = ebadf →
        delivered (handleEvent a events reg.kind x) = delivered (handleWith (ownEvent a events reg) x)) ∧
      ¬∀ w : Wand Unit, Reached w → ∀ id ∈ w.pendingSubmissions, ∀ x task, w.execs id = some x →
        x.state = .parked task .queued → ∀ (a : Answers Unit) (e : Errno), (e : Nat) ≠ eintr →
        Refuses a (x.request.registers a) e → delivered (stage a x) = some (.error (.errno e)) := by
  constructor
  · intro every
    have same := every _ connectWand_reached 0 connectWaiting connectWand_waved 1 .submitted rfl refusedConnect 0x1c
      { fd := 7, kind := .op, ownsFd := true } mem_cons_self rfl
    have code : delivered (handleEvent refusedConnect 0x1c .op connectWaiting) = some (.error (.errno 9)) := rfl
    have own : delivered (handleWith (ownEvent refusedConnect 0x1c { fd := 7, kind := .op, ownsFd := true })
        connectWaiting) = some (.error (.errno 111)) := rfl
    rw [code, own] at same
    cases same
  · intro every
    have reached : Reached ((({} : Wand Unit).prep (.pollUntil 3 1 ⟨1, 0⟩)).suspend 0 1) :=
      .step (.step .start (.prep _)) (.suspend 0 1)
    have told := every _ reached 0 (by decide) { request := .pollUntil 3 1 ⟨1, 0⟩, state := .parked 1 .queued } 1 rfl rfl
      regularFile 1 (by decide) ⟨(5, 0x40000019), by decide, rfl⟩
    have code : delivered (stage regularFile { request := .pollUntil 3 1 ⟨1, 0⟩, state := .parked 1 .queued }) =
        some (.ok (.pollUntil (-1) false)) := rfl
    rw [code] at told
    cases told

end Nxt.Runtime.Epoll
