import Nxt.Runtime.Epoll

/- The records of the epoll wand (wand/epoll.hpp) and what its entry points do with them: wishes are prepared, parked,
   submitted by a wave that may throw, and settled by events or by cancelling. Records are told apart by numbers that
   are not used again. -/
namespace Nxt.Runtime.Epoll
open Nxt.Lib

structure Wand (D : Type) where
  execs : Nat → Option (Exec D) := fun _ => none
  next : Nat := 0
  pendingSubmissions : List Nat := []
  /-- The continuations that went back to the deck. -/
  resumed : List Nat := []

section Steps
variable {D : Type}

namespace Wand
variable (w : Wand D)

def put (id : Nat) (x : Exec D) : Wand D := { w with execs := Function.update w.execs id (some x) }

def requeue (continuation : Option Nat) : Wand D := { w with resumed := w.resumed ++ continuation.toList }

def prep (request : Wish D) : Wand D :=
  { w.put w.next { request } with next := w.next + 1, pendingSubmissions := w.pendingSubmissions ++ [w.next] }

def suspend (id task : Nat) : Wand D :=
  match w.execs id with
  | some x => if x.state = .prepared then w.put id { x with state := .parked task .queued } else w
  | none => w

def apply (id : Nat) (step : Doing D (Option Nat)) : Wand D × Option Thrown :=
  match w.execs id with
  | none => (w, none)
  | some x =>
    match step x with
    | .ok continuation x' => ((w.put id x').requeue continuation, none)
    | .error e x' => (w.put id x', some e)

def isParked (id : Nat) : Bool := (w.execs id).any fun x => match x.state with | .parked .. => true | _ => false

def isRetirable (x : Exec D) : Bool := x.state = .settled || x.state = .retired

def compactExecs : Wand D :=
  { w with pendingSubmissions := w.pendingSubmissions.filter w.isParked
           execs := fun id => (w.execs id).filter fun x => !isRetirable x }

/-- The loop of `stage_submissions`: what it throws ends it. -/
def stageFrom (a : Nat → Answers D) : List Nat → Wand D → Wand D × Option Thrown
  | [], w => (w, none)
  | id :: rest, w =>
    let turn := w.apply id (stage (a id))
    if turn.2.isNone then stageFrom a rest turn.1 else turn

def stageSubmissions (a : Nat → Answers D) : Wand D × Option Thrown :=
  stageFrom a w.pendingSubmissions { w with pendingSubmissions := [] }

def wave (a : Nat → Answers D) : Wand D × Option Thrown := w.compactExecs.stageSubmissions a

end Wand

/-- One call on a wand, or one event of a descriptor that is registered. -/
inductive Step : Wand D → Wand D → Prop
  | prep {w} (request : Wish D) : Step w (w.prep request)
  | suspend {w} (id task : Nat) : Step w (w.suspend id task)
  | cancel {w} (id : Nat) : Step w (w.apply id cancel).1
  | wave {w} (a : Nat → Answers D) : Step w (w.wave a).1
  | event {w : Wand D} {id : Nat} {x : Exec D} {reg : Registration} (a : Answers D) (events : BitVec 32) :
      w.execs id = some x → reg ∈ x.registrations → Step w (w.apply id (handleEvent a events reg.kind)).1
  | compact {w} : Step w w.compactExecs

inductive Reached : Wand D → Prop
  | start : Reached {}
  | step {w w'} : Reached w → Step w w' → Reached w'

end Steps

/-! ### What the calls on one record do -/

section Records
variable {D : Type} {a : Answers D} {x x' : Exec D}

structure Fresh (x : Exec D) : Prop where
  urge : x.urge = {}
  finished : x.finished = false

/-- Submitting throws: a descriptor that is to be watched cannot be duplicated, or a timer is not made. -/
def dupFails (a : Answers D) (fd : Int) : Bool := !(a.dup fd).isOk

def timerFails (a : Answers D) (duration : Timespec) : Bool :=
  !a.timerfdCreate.isOk ||
    !(a.timerfdSettime (if duration.sec = 0 ∧ duration.nsec = 0 then { duration with nsec := 1 } else duration)).isOk

def blocks : Except Errno Nat → Bool
  | .ok _ => false
  | .error e => wouldBlock e

def connecting : Except Errno Nat → Bool
  | .ok _ => false
  | .error e => wouldBlock e || (e : Nat) = einprogress

def Wish.refused (a : Answers D) : Wish D → Bool
  | .waitChild child _ => decide (0 ≤ child) && dupFails a child
  | .readSome fd | .writeSome fd | .accept fd => blocks (nonblockingCall a) && dupFails a fd
  | .recvSome fd | .sendSome fd => blocks a.call && dupFails a fd
  | .connect fd => connecting (nonblockingCall a) && dupFails a fd
  | .poll fd _ => dupFails a fd
  | .timeout duration => timerFails a duration
  | .pollUntil fd _ limit => dupFails a fd || timerFails a limit
  | _ => false

@[simp] theorem finishResult_state (x : Exec D) (result : Int) : (x.finishResult result).state = x.state := by
  unfold Exec.finishResult
  split
  · rfl
  · split <;> rfl

@[simp] theorem finishResult_finished (x : Exec D) (result : Int) : (x.finishResult result).finished = true := by
  unfold Exec.finishResult
  split
  · rfl
  · split <;> rfl

@[simp] theorem finishPollUntil_state (x : Exec D) (events : Int) (out : Bool) :
    (x.finishPollUntil events out).state = x.state := by
  unfold Exec.finishPollUntil
  split <;> rfl

@[simp] theorem finishPollUntil_finished (x : Exec D) (events : Int) (out : Bool) :
    (x.finishPollUntil events out).finished = true := by
  unfold Exec.finishPollUntil
  split <;> rfl

theorem complete_refused (x : Exec D) (e : Errno) :
    (x.complete (-(e : Nat)) false).state = x.state ∧ (x.complete (-(e : Nat)) false).finished = true ∧
      (x.complete (-(e : Nat)) false).registrations = x.registrations := by
  have negative : ¬(0 : Int) ≤ -(e : Nat) := by
    have positive := e.pos
    omega
  have less : -((e : Nat) : Int) < 0 := by omega
  unfold Exec.complete
  rw [if_neg (by decide)]
  split
  · refine ⟨by simp, by simp, ?_⟩
    unfold Exec.finishPollUntil
    split <;> rfl
  · dsimp only
    rw [if_neg negative]
    refine ⟨by simp, by simp, ?_⟩
    unfold Exec.finishResult
    rw [if_pos less]
    rfl

theorem addFd_spec (fd : Int) (events : BitVec 32) (kind : EventKind) (owns : Bool) (x : Exec D) :
    wp (addFd a fd events kind owns)
      (fun _ x' => x'.state = x.state ∧ (x'.finished = true ∧ x'.registrations = x.registrations ∨
          x'.finished = x.finished ∧ x'.urge = x.urge ∧
            x'.registrations = x.registrations ++ [{ fd, kind, ownsFd := owns }]))
      (fun _ _ => False) x := by
  unfold addFd
  split
  · rename_i e refused
    obtain ⟨state, finished, kept⟩ := complete_refused x e
    exact ⟨state, .inl ⟨finished, kept⟩⟩
  · exact ⟨rfl, .inr ⟨rfl, rfl, rfl⟩⟩

theorem add_spec (fd : Int) (events : BitVec 32) (kind : EventKind) (x : Exec D) : wp (add a fd events kind)
      (fun _ x' => dupFails a fd = false ∧ x'.state = x.state ∧
        (x'.finished = true ∧ x'.registrations = x.registrations ∨
          x'.finished = x.finished ∧ x'.urge = x.urge ∧ x'.registrations ≠ []))
      (fun _ x' => dupFails a fd = true ∧ x' = x) x := by
  unfold add dupFails
  cases duplicated : a.dup fd with
  | error e => exact ⟨rfl, rfl⟩
  | ok watchFd =>
    refine wp_mono (addFd_spec watchFd events kind true x) ?_ fun _ _ never => never.elim
    rintro _ x' ⟨state, done⟩
    refine ⟨rfl, state, done.imp id ?_⟩
    rintro ⟨finished, urge, registered⟩
    exact ⟨finished, urge, by rw [registered]; exact List.append_ne_nil_of_right_ne_nil _ (List.cons_ne_nil _ _)⟩

theorem makeTimerfd_spec (duration : Timespec) (x : Exec D) : wp (makeTimerfd a duration)
    (fun _ x' => timerFails a duration = false ∧ x' = x) (fun _ x' => timerFails a duration = true ∧ x' = x) x := by
  unfold makeTimerfd timerFails
  cases created : a.timerfdCreate with
  | error e => exact ⟨rfl, rfl⟩
  | ok fd =>
    dsimp only
    cases set_ : a.timerfdSettime
        (if duration.sec = 0 ∧ duration.nsec = 0 then { duration with nsec := 1 } else duration) with
    | error e => exact ⟨rfl, rfl⟩
    | ok u => exact ⟨rfl, rfl⟩

structure Submitted (refused : Bool) (x : Exec D) (waits : Bool) (x' : Exec D) : Prop where
  willing : refused = false
  state : x'.state = x.state
  open_ : x'.finished = false → waits = true ∧ x'.urge = x.urge

/-- A submission that threw: the record waits as before, perhaps with a registration. -/
structure Threw (refused : Bool) (x : Exec D) (_ : Thrown) (x' : Exec D) : Prop where
  refused : refused = true
  state : x'.state = x.state
  kept : x.registrations = [] → x'.registrations ≠ [] → x'.finished = x.finished ∧ x'.urge = x.urge

theorem Threw.refl {refused : Bool} {e : Thrown} (failed : refused = true) (x : Exec D) : Threw refused x e x :=
  ⟨failed, rfl, fun _ _ => ⟨rfl, rfl⟩⟩

theorem finishNow_spec (result : Int) (x : Exec D) : wp (finishNow result) (Submitted false x) (Threw false x) x := by
  refine ⟨rfl, finishResult_state x result, ?_⟩
  intro unfinished
  rw [finishResult_finished] at unfinished
  cases unfinished

theorem finishFilled_spec (result : Except Errno Nat) (filled : Wish D) (value : Value D) (x : Exec D) :
    wp (finishFilled result filled value) (Submitted false x) (Threw false x) x := by
  cases result with
  | error e => exact ⟨rfl, rfl, nofun⟩
  | ok n => exact ⟨rfl, rfl, nofun⟩

theorem addWaiting_spec (fd : Int) (events : BitVec 32) (x : Exec D) :
    wp (do add a fd events .op; return true) (Submitted (dupFails a fd) x) (Threw (dupFails a fd) x) x := by
  rw [wp_bind]
  refine wp_mono (add_spec fd events .op x) ?_ ?_
  · rintro _ x' ⟨duplicated, state, done⟩
    refine ⟨duplicated, state, fun unfinished => ?_⟩
    rcases done with ⟨finished, -⟩ | ⟨-, urge, -⟩
    · rw [finished] at unfinished
      cases unfinished
    · exact ⟨rfl, urge⟩
  · rintro _ x' ⟨failed, rfl⟩
    exact .refl failed x'

theorem finishOrWait_spec (result : Except Errno Nat) (fd : Int) (events : BitVec 32) (x : Exec D) :
    wp (finishOrWait a result fd events) (Submitted (blocks result && dupFails a fd) x)
      (Threw (blocks result && dupFails a fd) x) x := by
  cases result with
  | ok n => exact finishNow_spec n x
  | error e =>
    rw [finishOrWait, blocks]
    by_cases block : wouldBlock e = true
    · rw [if_pos block, block]
      exact addWaiting_spec fd (events ||| epollOneshot) x
    · rw [if_neg block, Bool.eq_false_iff.mpr block]
      exact finishNow_spec (-(e : Nat)) x

theorem addTimer_spec (duration : Timespec) {x : Exec D} (y : Exec D) (state : y.state = x.state)
    (told : y.finished = false → y.urge = x.urge) 
    (kept : x.registrations = [] → y.registrations ≠ [] → y.finished = x.finished ∧ y.urge = x.urge) :
    wp (do let timer ← makeTimerfd a duration; addOwned a timer (epollIn ||| epollOneshot) .timer; return true)
      (Submitted (timerFails a duration) x) (Threw (timerFails a duration) x) y := by
  rw [wp_bind]
  refine wp_mono (makeTimerfd_spec duration y) ?_ ?_
  · rintro timer y' ⟨made, rfl⟩
    rw [wp_bind]
    refine wp_mono (addFd_spec timer (epollIn ||| epollOneshot) .timer true y') ?_ fun _ _ never => never.elim
    rintro _ z ⟨state', done⟩
    refine ⟨made, state'.trans state, fun unfinished => ?_⟩
    rcases done with ⟨finished, -⟩ | ⟨same, urge, -⟩
    · rw [finished] at unfinished
      cases unfinished
    · exact ⟨rfl, urge.trans (told (same ▸ unfinished))⟩
  · rintro _ y' ⟨failed, rfl⟩
    exact ⟨failed, state, kept⟩

theorem submitOp_spec (request : Wish D) (x : Exec D) :
    wp (submitOp a request) (Submitted (request.refused a) x) (Threw (request.refused a) x) x := by
  cases request with
  | manual => exact finishNow_spec 0 x
  | openat => exact finishNow_spec _ x
  | openat2 => exact finishNow_spec _ x
  | getdents64 => exact finishNow_spec _ x
  | statx result => exact finishFilled_spec a.call _ _ x
  | spawnPiped child => exact finishFilled_spec a.call _ _ x
  | spawnPty child => exact finishFilled_spec a.call _ _ x
  | signalChild child =>
    have never : (Wish.signalChild child : Wish D).refused a = false := rfl
    rw [submitOp, never]
    by_cases bad : child < 0
    · rw [if_pos bad]
      exact finishNow_spec _ x
    · rw [if_neg bad]
      exact finishNow_spec _ x
  | waitChild child info =>
    rw [submitOp, Wish.refused]
    by_cases bad : child < 0
    · rw [if_pos bad, decide_eq_false (by omega)]
      exact finishNow_spec _ x
    · rw [if_neg bad, decide_eq_true (by omega)]
      exact addWaiting_spec child _ x
  | readSome fd => exact finishOrWait_spec (nonblockingCall a) fd _ x
  | writeSome fd => exact finishOrWait_spec (nonblockingCall a) fd _ x
  | recvSome fd => exact finishOrWait_spec a.call fd _ x
  | sendSome fd => exact finishOrWait_spec a.call fd _ x
  | accept fd => exact finishOrWait_spec (nonblockingCall a) fd _ x
  | connect fd =>
    rw [submitOp, Wish.refused]
    cases connected : nonblockingCall a with
    | ok n => exact finishNow_spec 0 x
    | error e =>
      dsimp only [connecting]
      by_cases failed : (e : Nat) ≠ einprogress ∧ wouldBlock e = false
      · rw [if_pos failed, failed.2, decide_eq_false failed.1]
        exact finishNow_spec _ x
      · have waits : (wouldBlock e || decide ((e : Nat) = einprogress)) = true := by
          rw [Bool.or_eq_true, decide_eq_true_iff]
          by_contra neither
          push Not at neither
          exact failed ⟨neither.2, Bool.eq_false_iff.mpr neither.1⟩
        rw [if_neg failed, waits]
        exact addWaiting_spec fd _ x
  | poll fd events => exact addWaiting_spec fd _ x
  | timeout duration =>
    exact addTimer_spec duration x rfl (fun _ => rfl) fun _ _ => ⟨rfl, rfl⟩
  | pollUntil fd events limit =>
    rw [submitOp, Wish.refused, wp_bind]
    refine wp_mono (add_spec fd _ .op x) ?_ ?_
    · rintro _ y ⟨duplicated, state, done⟩
      rw [duplicated, Bool.false_or]
      refine addTimer_spec limit y state ?_ ?_
      · intro unfinished
        rcases done with ⟨finished, -⟩ | ⟨-, urge, -⟩
        · rw [finished] at unfinished
          cases unfinished
        · exact urge
      · intro unwatched watched
        rcases done with ⟨-, none_⟩ | ⟨finished, urge, -⟩
        · exact absurd (none_.trans unwatched) watched
        · exact ⟨finished, urge⟩
    · rintro _ y ⟨failed, rfl⟩
      rw [failed, Bool.true_or]
      exact .refl rfl y

theorem stage_queued {task : Nat} (x : Exec D) (queued : x.state = .parked task .queued) : wp (stage a)
      (fun _ x' => x.request.refused a = false ∧
        (x'.state = .settled ∨ x'.state = .parked task .submitted ∧ x'.finished = false ∧ x'.urge = x.urge))
      (Threw (x.request.refused a) x) x := by
  unfold stage
  rw [wp_bind, wp_get, queued]
  dsimp only
  rw [wp_bind]
  refine wp_mono (submitOp_spec x.request x) ?_ fun _ _ threw => threw
  rintro waits y ⟨willing, state, open_⟩
  rw [wp_bind, wp_get]
  have parked : y.state = .parked task .queued := state.trans queued
  by_cases finished : y.finished = true
  · rw [if_pos finished, wp_bind, wp_set]
    unfold settle
    rw [wp_bind, wp_get]
    dsimp only [Exec.cleanup]
    rw [parked]
    exact ⟨willing, .inl rfl⟩
  · obtain ⟨rfl, urge⟩ := open_ (Bool.eq_false_iff.mpr finished)
    rw [if_neg finished]
    exact ⟨willing, .inr ⟨rfl, Bool.eq_false_iff.mpr finished, urge⟩⟩

theorem stage_other (x : Exec D) (other : ∀ task, x.state ≠ .parked task .queued) :
    wp (stage a) (fun _ x' => x'.state = .settled ∨ x' = x) (fun _ _ => False) x := by
  unfold stage
  rw [wp_bind, wp_get]
  split
  · rename_i task cancelled
    rw [wp_bind, wp_set]
    unfold settle
    rw [wp_bind, wp_get]
    have state : (x.complete (-125) true).state = .parked task .cancelQueued := cancelled
    rw [state]
    exact .inl rfl
  · rename_i task queued
    exact absurd queued (other task)
  · exact .inr rfl

end Records
end Nxt.Runtime.Epoll
