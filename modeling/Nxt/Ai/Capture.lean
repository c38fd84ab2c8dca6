import Nxt.Runtime.Reaping

/- `tool_process::capture` (nxtai/tool_process.hpp) from the moment its child is spawned: the output is
   drained and its first part kept, the child is waited for, and `finally` finishes what is left, all
   in one job of a group whose other job is the monitor. -/
namespace Nxt.Ai
open List
open Nxt.Lib Nxt.Runtime Coroutine PipedChild

/-- `result`, without the observation of the scope. -/
structure Captured where
  status : ChildResult := {}
  failed : Bool := false
  outputTooLarge : Bool := false
  failureReason : String := ""
  output : Bytes := []
  deriving DecidableEq

structure CaptureState where
  captured : Captured := {}
  waited : Bool := false
  done : Bool := false

def Captured.keep (captured : Captured) (maxCaptureBytes : Nat) (text : Bytes) : Captured :=
  if captured.output.length < maxCaptureBytes then
    let copied := min (maxCaptureBytes - captured.output.length) text.length
    { captured with
      output := captured.output ++ text.take copied
      outputTooLarge := captured.outputTooLarge || copied != text.length }
  else { captured with outputTooLarge := true }

/-- A chunk in the loop of `capture_output`. -/
def keepChunk (maxCaptureBytes : Nat) (text : Bytes) (s : CaptureState) : CaptureState :=
  if text.isEmpty then s else { s with captured := s.captured.keep maxCaptureBytes text }

def finished (status : ChildResult) (s : CaptureState) : CaptureState :=
  { s with captured := { s.captured with status := status }, waited := true, done := true }

def update (g : CaptureState → CaptureState) : Task (Frame CaptureState) Fault Unit :=
  exec fun f => (.ok (), { f with locals := g f.locals })

def finishChild : Task (Frame CaptureState) Fault Unit := do
  if ← exec fun f => (.ok f.locals.waited, f) then
    pure ()
  else
    let status ← terminateAndWait
    update (finished status)

/-- One round of the loop: whether to go on. -/
def captureRound (maxCaptureBytes : Nat) : Task (Frame CaptureState) Fault Bool := do
  match ← takeSome with
  | none => pure false
  | some text =>
      update (keepChunk maxCaptureBytes text)
      pure true

def leaves : Outcome Bool Fault → Option (Outcome Unit Fault)
  | .ok true => none
  | .ok false => some (.ok ())
  | .error e => some (.error e)

def drainOutput (maxCaptureBytes : Nat) : Task (Frame CaptureState) Fault Unit :=
  iterate (captureRound maxCaptureBytes) leaves

def captureOutput (maxCaptureBytes : Nat) : Task (Frame CaptureState) Fault Unit := do
  drainOutput maxCaptureBytes
  let status ← waitChild
  update (finished status)

/-- `monitor_until_done`, which does nothing to the child: it ends at some time, in some way. -/
def monitorUntilDone : Task (Frame CaptureState) Fault Unit := atomic fun _ f _ f' => f' = f

def failureReason (maxBytes : Nat) : String := "tool output exceeded capture limit (" ++ toString maxBytes ++ " bytes)"

def markOutputTooLargeFailed (captured : Captured) (maxBytes : Nat) : Captured :=
  if captured.outputTooLarge then
    { captured with
      failed := true
      failureReason := failureReason maxBytes
      output := (failureReason maxBytes ++ "; captured prefix follows:\n").toUTF8.toList ++ captured.output }
  else captured

def captureGroup (maxCaptureBytes : Nat) : Task (Frame CaptureState) Fault (List (Outcome Unit Fault)) :=
  Task.settle (asking primaryGroup) () ![Task.finally_ (captureOutput maxCaptureBytes) finishChild, monitorUntilDone]

/-- `capture` after its group: the failure of either job is rethrown. -/
def reportCapture (maxCaptureBytes : Nat) : List (Outcome Unit Fault) → Task (Frame CaptureState) Fault Captured
  | [captureDone, monitorDone] => do
      (ret captureDone : Task (Frame CaptureState) Fault Unit)
      (ret monitorDone : Task (Frame CaptureState) Fault Unit)
      exec fun f => (.ok (markOutputTooLargeFailed f.locals.captured maxCaptureBytes), f)
  | _ => Task.throw (.logicError "a tuple of two")

def capture (maxCaptureBytes : Nat) : Task (Frame CaptureState) Fault Captured := do
  let outcomes ← captureGroup maxCaptureBytes
  reportCapture maxCaptureBytes outcomes

def Spawned (f : Frame CaptureState) : Prop :=
  f.child.past = [] ∧ f.child.taken = 0 ∧ f.locals = {}

section Output
variable {written text : Bytes} {n limit : Nat} {captured : Captured}

structure Captured.Kept (captured : Captured) (limit : Nat) (written : Bytes) (n : Nat) : Prop where
  unfailed : captured.failed = false
  output : captured.output = written.take (min limit n)
  tooLarge : captured.outputTooLarge = true ↔ limit < n

theorem Captured.Kept.keep (kept : captured.Kept limit written n) (inside : n + text.length ≤ written.length)
    (part : text = (written.drop n).take text.length) (some_ : text ≠ []) :
    (captured.keep limit text).Kept limit written (n + text.length) := by
  have positive := length_pos_of_ne_nil some_
  have length : captured.output.length = min limit n := by
    rw [kept.output, length_take]
    omega
  unfold Captured.keep
  split
  · next room =>
    have room : n < limit := by omega
    refine ⟨kept.unfailed, ?_, ?_⟩
    · have short : min limit n = n := by omega
      have whole : n + min (limit - n) text.length = min limit (n + text.length) := by omega
      have copied : text.take (min (limit - n) text.length) =
          (written.drop n).take (min (limit - n) text.length) := by
        rw [part, take_take, ← part]
        congr 1
        omega
      show captured.output ++ text.take (min (limit - captured.output.length) text.length) = _
      rw [length, short, copied, kept.output, short, ← take_add, whole]
    · simp only [length, Bool.or_eq_true, kept.tooLarge, bne_iff_ne, ne_eq]
      omega
  · next full =>
    have full : limit ≤ n := by omega
    refine ⟨kept.unfailed, ?_, ?_⟩
    · rw [kept.output]
      congr 1
      omega
    · simp only [true_iff]
      omega

end Output

section Assertions
variable {limit : Nat}

def Unmarked (f : Frame CaptureState) : Prop := f.locals.waited = false

structure Draining (limit : Nat) (f : Frame CaptureState) : Prop where
  waited : f.locals.waited = false
  inside : f.child.taken ≤ f.child.written.length
  kept : f.locals.captured.Kept limit f.child.written f.child.taken

structure Took (limit : Nat) (text : Bytes) (f : Frame CaptureState) : Prop where
  waited : f.locals.waited = false
  inside : f.child.taken ≤ f.child.written.length
  kept : ∃ n, n + text.length = f.child.taken ∧ text = (f.child.written.drop n).take text.length ∧
    f.locals.captured.Kept limit f.child.written n

structure Drained (limit : Nat) (f : Frame CaptureState) : Prop where
  closed : f.child.closed = true
  kept : f.locals.captured.Kept limit f.child.written f.child.written.length

structure Finished (limit : Nat) (status : ChildResult) (f : Frame CaptureState) : Prop where
  waited : f.locals.waited = true
  status : f.locals.captured.status = status
  drained : Drained limit f

theorem Captured.Kept.write {captured : Captured} {written : Bytes} {n : Nat} (kept : captured.Kept limit written n)
    (inside : n ≤ written.length) (more : Bytes) : captured.Kept limit (written ++ more) n :=
  ⟨kept.unfailed, by rw [kept.output, take_append_of_le_length (by omega)], kept.tooLarge⟩

theorem slice_append {written : Bytes} {n length : Nat} (inside : n + length ≤ written.length) (more : Bytes) :
    ((written ++ more).drop n).take length = (written.drop n).take length := by
  rw [drop_append_of_le_length (by omega), take_append_of_le_length (by rw [length_drop]; omega)]

theorem steady_unmarked : Steady Unmarked where
  lives _ _ lives waited := by cases lives; exact waited
  did _ _ waited := waited

theorem steady_draining (limit : Nat) : Steady (Draining limit) where
  lives f f' lives draining := by
    cases lives with
    | child lives =>
      cases lives with
      | write bytes open_ =>
        exact ⟨draining.waited, draining.inside.trans (length_append ▸ Nat.le_add_right _ _),
          draining.kept.write draining.inside bytes⟩
      | close => exact ⟨draining.waited, draining.inside, draining.kept⟩
      | exit status running => exact ⟨draining.waited, draining.inside, draining.kept⟩
  did _ _ draining := ⟨draining.waited, draining.inside, draining.kept⟩

theorem steady_took (limit : Nat) (text : Bytes) : Steady (Took limit text) where
  lives f f' lives took := by
    obtain ⟨n, taken, part, kept⟩ := took.kept
    cases lives with
    | child lives =>
      cases lives with
      | write bytes open_ =>
        have inside := taken.le.trans took.inside
        exact ⟨took.waited, took.inside.trans (length_append ▸ Nat.le_add_right _ _), n, taken,
          part.trans (slice_append inside bytes).symm, kept.write ((Nat.le_add_right _ _).trans inside) bytes⟩
      | close => exact ⟨took.waited, took.inside, n, taken, part, kept⟩
      | exit status running => exact ⟨took.waited, took.inside, n, taken, part, kept⟩
  did _ _ took := ⟨took.waited, took.inside, took.kept⟩

theorem steady_drained (limit : Nat) : Steady (Drained limit) where
  lives f f' lives drained := by
    cases lives with
    | child lives =>
      cases lives with
      | write bytes open_ => cases drained.closed.symm.trans open_
      | close => exact ⟨rfl, drained.kept⟩
      | exit status running => exact ⟨drained.closed, drained.kept⟩
  did _ _ drained := ⟨drained.closed, drained.kept⟩

theorem steady_finished (limit : Nat) (status : ChildResult) : Steady (Finished limit status) where
  lives f f' lives finished := by
    have drained := (steady_drained limit).lives f f' lives finished.drained
    cases lives
    exact ⟨finished.waited, finished.status, drained⟩
  did f d finished := ⟨finished.waited, finished.status, (steady_drained limit).did f d finished.drained⟩

end Assertions

section Specs
variable {F : Bool → Prop} {limit : Nat}

def DrainedOr (limit : Nat) : Outcome Unit Fault → Frame CaptureState → Prop
  | .ok _, f => Live (fun f => Drained limit f ∧ Unmarked f) f
  | .error _, f => Live Unmarked f

theorem DrainedOr.unmarked {o : Outcome Unit Fault} {f : Frame CaptureState} (drained : DrainedOr limit o f) :
    Live Unmarked f := by
  cases o with
  | error e => exact drained
  | ok _ => exact ⟨drained.kept.2, drained.unreaped, drained.graceful⟩

theorem DrainedOr.stable (o : Outcome Unit Fault) : Stable Drift (DrainedOr limit o) := by
  cases o with
  | error e => exact Live.stable steady_unmarked
  | ok _ => exact Live.stable ((steady_drained limit).and steady_unmarked)

theorem spec_captureRound : Spec Drift F Frame.Sound (Live (Draining limit)) (captureRound limit) fun o f =>
    (leaves o = none → Live (Draining limit) f) ∧ ∀ b, leaves o = some b → DrainedOr limit b f := by
  have read := spec_takeSome (F := F) (steady_draining limit) (steady_took limit)
    ((steady_drained limit).and steady_unmarked) ?_ ?_
  · refine Task.spec_bind read ?_ ?_
    · rintro (_ | text) p kept holds
      · refine Spec.ret kept (fun f at_ => (holds f at_).2) fun f at_ => ⟨by rintro ⟨⟩, ?_⟩
        rintro b ⟨⟩
        exact (holds f at_).1
      · have keep : Spec Drift F Frame.Sound p (update (keepChunk limit text))
            fun o f => o = .ok () ∧ Live (Draining limit) f := by
          refine Spec.exec kept (fun o => Stable.and (.const _) (Live.stable (steady_draining limit))) (fun f at_ => (holds f at_).2)
            (fun _ _ done => done.2.sound) ?_
          intro f at_
          have live : Live (Took limit text) f := (holds f at_).1
          obtain ⟨n, taken, part, before⟩ := live.kept.kept
          refine ⟨rfl, ?_, live.unreaped, live.graceful⟩
          unfold keepChunk
          cases text with
          | nil => exact ⟨live.kept.waited, live.kept.inside, taken ▸ before⟩
          | cons byte text =>
            refine ⟨live.kept.waited, live.kept.inside, ?_⟩
            show (f.locals.captured.keep limit (byte :: text)).Kept limit f.child.written f.child.taken
            rw [← taken]
            exact before.keep (taken.le.trans live.kept.inside) part (cons_ne_nil _ _)
        refine Task.spec_bind keep ?_ (by rintro e f ⟨⟨⟩, _⟩)
        rintro ⟨⟩ p kept holds
        exact Spec.ret kept (fun f at_ => (holds f at_).2) fun f at_ => ⟨fun _ => (holds f at_).1.2, by rintro b ⟨⟩⟩
    · intro e f live
      refine ⟨by rintro ⟨⟩, ?_⟩
      rintro b ⟨⟩
      have live : Live (Draining limit) f := live
      exact ⟨live.kept.waited, live.unreaped, live.graceful⟩
  · intro f bytes draining part
    have inside := draining.inside
    have length := part.length_le
    rw [length_drop] at length
    refine ⟨draining.waited, ?_, f.child.taken, rfl, prefix_iff_eq_take.mp part, draining.kept⟩
    simp only
    omega
  · intro f draining all closed
    have whole : f.child.taken = f.child.written.length := Nat.le_antisymm draining.inside all
    exact ⟨⟨closed, whole ▸ draining.kept⟩, draining.waited⟩

theorem spec_drainOutput : Spec Drift F Frame.Sound (Live (Draining limit)) (drainOutput limit) (DrainedOr limit) :=
  Spec.iterate DrainedOr.stable (fun _ _ drained => drained.unmarked.sound) spec_captureRound

theorem spec_finished {K J : Frame CaptureState → Prop} (status : ChildResult) (steady : Steady K) (steady' : Steady J)
    (marks : ∀ f, K f → J { f with locals := finished status f.locals }) :
    Spec Drift F Frame.Sound (Gone K status) (update (finished status)) fun o f => o = .ok () ∧ Gone J status f := by
  refine Spec.exec (Gone.stable steady status) (fun o => Stable.and (.const _) (Gone.stable steady' status))
    (fun _ gone => gone.sound) (fun _ _ done => done.2.sound) ?_
  intro f gone
  exact ⟨rfl, marks f gone.kept, gone.reaped, gone.graceful, gone.own⟩

/-- What `capture_output` leaves to the cleanup. -/
def Held (limit : Nat) : Outcome Unit Fault → Frame CaptureState → Prop
  | .ok _, f => ∃ status, Gone (Finished limit status) status f
  | .error _, f => Live Unmarked f

theorem spec_captureOutput : Spec Drift F Frame.Sound (Live (Draining limit)) (captureOutput limit) (Held limit) := by
  have unmarked := (steady_drained limit).and steady_unmarked
  refine Task.spec_bind spec_drainOutput ?_ fun e f live => live
  rintro ⟨⟩ p _ holds
  refine Task.spec_bind ((spec_waitChild unmarked).consequence (fun f at_ => (holds f at_).1) fun _ _ post => post) ?_ ?_
  · intro status p _ holds
    refine (spec_finished status unmarked (steady_finished limit status) ?_).consequence ?_ ?_
    · rintro f ⟨drained, _⟩
      exact ⟨rfl, rfl, drained.closed, drained.kept.unfailed, drained.kept.output, drained.kept.tooLarge⟩
    · intro f at_
      obtain ⟨⟨_, ⟨⟩, gone⟩ | ⟨⟨⟩, _⟩, _⟩ := holds f at_
      exact gone
    · rintro o f ⟨rfl, gone⟩
      exact ⟨status, gone⟩
  · rintro e f (⟨_, ⟨⟩, _⟩ | ⟨_, _, live⟩)
    exact ⟨live.kept.2, live.unreaped, live.graceful⟩

def Ended (limit : Nat) : Outcome Unit Fault → Frame CaptureState → Prop
  | .ok _, f => ∃ status, Gone (Finished limit status) status f
  | .error _, f => ∃ status, Gone (fun _ => True) status f

theorem Ended.stable (o : Outcome Unit Fault) : Stable Drift (Ended limit o) := by
  cases o with
  | error e => exact Stable.exists (Gone.stable ⟨fun _ _ _ _ => .intro, fun _ _ _ => .intro⟩)
  | ok _ => exact Stable.exists fun status => Gone.stable (steady_finished limit status) status

theorem Ended.reaped {o : Outcome Unit Fault} {f : Frame CaptureState} (ended : Ended limit o f) :
    ∃ status, Gone (fun _ => True) status f := by
  cases o with
  | error e => exact ended
  | ok _ => exact ended.imp fun _ gone => gone.mono fun _ _ => .intro

theorem spec_finishChild (r : Outcome Unit Fault) : Spec Drift F Frame.Sound (Held limit r) finishChild
    fun c f => c = .ok () ∧ Ended limit r f := by
  cases r with
  | ok done =>
    have stable : Stable Drift fun f => ∃ status, Gone (Finished limit status) status f :=
      Stable.exists fun status => Gone.stable (steady_finished limit status) status
    have sound : ∀ f, (∃ status, Gone (Finished limit status) status f) → f.Sound := fun f ⟨_, gone⟩ => gone.sound
    refine Task.spec_bind (Q := fun o f => o = .ok true ∧ ∃ status, Gone (Finished limit status) status f) ?_ ?_
      (by rintro e f ⟨⟨⟩, _⟩)
    · refine Spec.exec stable (fun o => Stable.and (.const _) stable) sound (fun _ f done => sound f done.2) ?_
      rintro f ⟨status, gone⟩
      exact ⟨congrArg Except.ok gone.kept.waited, status, gone⟩
    · rintro (_ | _) p kept holds
      · refine Spec.never fun f at_ => ?_
        obtain ⟨⟨⟨⟩, _⟩, _⟩ := holds f at_
      · exact Spec.ret kept (fun f at_ => (holds f at_).2) fun f at_ => ⟨rfl, (holds f at_).1.2⟩
  | error e =>
    refine Task.spec_bind (Q := fun o f => o = .ok false ∧ Live Unmarked f) ?_ ?_ (by rintro e f ⟨⟨⟩, _⟩)
    · refine Spec.exec (Live.stable steady_unmarked) (fun o => Stable.and (.const _) (Live.stable steady_unmarked))
        (fun _ live => live.sound) (fun _ _ done => done.2.sound) ?_
      intro f live
      exact ⟨congrArg Except.ok live.kept, live⟩
    · rintro (_ | _) p kept holds
      · refine Task.spec_bind ((spec_terminateAndWait steady_unmarked).consequence (fun f at_ => (holds f at_).1.2)
          fun _ _ post => post) ?_ (by rintro e f ⟨_, ⟨⟩, _⟩)
        intro status p _ holds
        refine (spec_finished (J := fun _ => True) status steady_unmarked ⟨fun _ _ _ _ => .intro, fun _ _ _ => .intro⟩
          fun _ _ => .intro).consequence ?_ ?_
        · intro f at_
          obtain ⟨⟨_, ⟨⟩, gone⟩, _⟩ := holds f at_
          exact gone
        · rintro o f ⟨rfl, gone⟩
          exact ⟨rfl, status, gone⟩
      · refine Spec.never fun f at_ => ?_
        obtain ⟨⟨⟨⟩, _⟩, _⟩ := holds f at_

theorem spec_captureJob : Spec Drift F Frame.Sound Spawned (Task.finally_ (captureOutput limit) finishChild)
    (Ended limit) := by
  refine Task.spec_finally (spec_captureOutput.consequence ?_ fun _ _ post => post) spec_finishChild ?_
  · rintro f ⟨past, taken, locals⟩
    refine ⟨⟨?_, ?_, ?_, ?_, ?_⟩, ?_, ?_⟩
    · rw [locals]
    · rw [taken]
      exact Nat.zero_le _
    · rw [locals]
    · rw [locals, taken]
      simp
    · rw [locals, taken]
      simp
    · simp [Unreaped, past]
    · intro later before same
      simp [past] at same
  · rintro (e | done) c f ⟨rfl, ended⟩
    · exact ended
    · exact ended

theorem around_capture (f f' : Frame CaptureState)
    (moves : around Frame.Lives ![Task.finally_ (captureOutput limit) finishChild, monitorUntilDone] 0 f f') :
    Drift f f' := by
  obtain lives | ⟨j, other, moves⟩ := moves
  · exact .inl lives
  · obtain rfl := Fin.eq_one_of_ne_zero j other
    obtain ⟨_, _, rfl⟩ := moves_atomic moves
    exact .inr (.inr rfl)

end Specs

section Runs
variable {limit : Nat}

/-- No stop is pending when the group of the capture is about to start its first job. -/
def Calm (limit : Nat) (s : (capture limit).State) (stopped : Bool) : Prop :=
  ∀ x : (captureGroup limit).State, s = .inl x → x.group.phase = .starting 0 → stopped = false

/-- What `settle` gives to the capture. -/
def Gathered (limit : Nat) (r : Outcome (List (Outcome Unit Fault)) Fault) (f : Frame CaptureState) : Prop :=
  ∃ o, Ended limit o f ∧ ∀ os, r = .ok os → ∃ monitor, os = [o, monitor]

variable {f : Frame CaptureState} {x : (captureGroup limit).State} {F : Bool → Prop}
  {s : (capture limit).State}

theorem group_reaps {g : (captureGroup limit).State → Bool → Prop}
    (calm : ∀ s b, g s b → s.group.phase = .starting 0 → b = false)
    (reach : Reach Frame.Lives Spawned (captureGroup limit) g f x) :
    f.Sound ∧ ∀ r, (captureGroup limit).outcome x = some r → Gathered limit r f := by
  have settled := reach_settle reach
  obtain ⟨child, here⟩ := settled.child 0
  have job : Spec Drift (fun _ => True) Frame.Sound Spawned _ (Ended limit) := spec_captureJob
  have run := (settled.job 0 child here).mono around_capture (fun _ _ _ => (trivial : (fun _ => True) _)) (fun _ spawned => spawned)
  refine ⟨job.always f _ run, fun r ended => ?_⟩
  have returned := settle_outcome ended
  have started := reach_started 0 (fun s b k flag at_ le => calm s b flag (by obtain rfl : k = 0 := Nat.le_zero.mp le; exact at_)) reach
  obtain ⟨k, _, at_, _⟩ | started := started
  · cases returned.symm.trans at_
  · obtain ⟨o, stage, done⟩ := settled.drained returned here (started child here)
    refine ⟨o, job.ended f _ o run done, ?_⟩
    rintro os rfl
    have result := (Group.run_answered settled.run returned).1
    unfold Group.result at result
    rw [settled.clean] at result
    simp only at result
    split at result
    · cases result
    · cases result
      obtain ⟨a, b, children⟩ := length_eq_two.mp settled.length
      rw [children] at here
      cases here
      refine ⟨b.extractOutcome, ?_⟩
      rw [children]
      simp [Child.extractOutcome, stage]

theorem Gathered.stable (r : Outcome (List (Outcome Unit Fault)) Fault) : Stable Drift (Gathered limit r) :=
  Stable.exists fun o => Stable.and (Ended.stable o) (.const _)

def cutMessage (maxBytes : Nat) : Bytes := (failureReason maxBytes ++ "; captured prefix follows:\n").toUTF8.toList

/-- A result with the child's own status and the first bytes of its output, failed exactly when there
    was more. -/
structure Faithful (limit : Nat) (result : Captured) (status : ChildResult) (child : PipedChild) : Prop where
  status : result.status = status
  whole : child.closed = true
  failed : result.failed = true ↔ limit < child.written.length
  output : result.output = (if result.failed then cutMessage limit else []) ++ child.written.take limit

theorem Finished.faithful {status : ChildResult} (finished : Finished limit status f) :
    Faithful limit (markOutputTooLargeFailed f.locals.captured limit) status f.child := by
  have kept := finished.drained.kept
  have output : f.locals.captured.output = f.child.written.take limit := by
    rw [kept.output]
    by_cases large : limit ≤ f.child.written.length
    · rw [Nat.min_eq_left large]
    · rw [take_of_length_le (by omega), take_of_length_le (by omega)]
  unfold markOutputTooLargeFailed
  split
  · next large =>
    refine ⟨finished.status, finished.drained.closed, ?_, ?_⟩
    · simpa using kept.tooLarge.mp large
    · simp [output, cutMessage]
  · next small =>
    refine ⟨finished.status, finished.drained.closed, ?_, ?_⟩
    · rw [← kept.tooLarge, kept.unfailed]
      simpa using small
    · simp [output, kept.unfailed]

def Reported (limit : Nat) (o : Outcome Captured Fault) (f : Frame CaptureState) : Prop :=
  ∃ status, Reaped f.child.past status ∧ f.child.exit = some status ∧
    ∀ result, o = .ok result → Faithful limit result status f.child

theorem Gathered.failed {r : Outcome (List (Outcome Unit Fault)) Fault} {e : Exn Fault}
    (gathered : Gathered limit r f) : Reported limit (.error e) f := by
  obtain ⟨o, ended, _⟩ := gathered
  obtain ⟨status, gone⟩ := ended.reaped
  exact ⟨status, gone.reaped, gone.own, by rintro result ⟨⟩⟩

theorem spec_report (os : List (Outcome Unit Fault)) :
    Spec Drift F Frame.Sound (Gathered limit (.ok os)) (reportCapture limit os) (Reported limit) := by
  have sound : ∀ f, Gathered limit (.ok os) f → f.Sound := by
    rintro f ⟨o, ended, _⟩
    obtain ⟨status, gone⟩ := ended.reaped
    exact gone.sound
  match os with
  | [captureDone, monitorDone] =>
    refine Task.spec_bind (Q := fun o f => o = captureDone ∧ Gathered limit (.ok [captureDone, monitorDone]) f)
      (Spec.ret (Gathered.stable _) sound fun f gathered => ⟨rfl, gathered⟩) ?_ fun e f failed => failed.2.failed
    rintro ⟨⟩ p stable holds
    refine Task.spec_bind (Q := fun o f => p f) (Spec.ret stable (fun f at_ => (holds f at_).2) fun f at_ => at_) ?_
      fun e f at_ => (holds f at_).1.2.failed
    rintro ⟨⟩ p' stable' holds'
    have finished : ∀ f, p' f → ∃ status, Gone (Finished limit status) status f := by
      intro f at_
      obtain ⟨⟨rfl, o, ended, same⟩, _⟩ := holds f (holds' f at_).1
      obtain ⟨monitor, outcomes⟩ := same _ rfl
      cases outcomes
      exact ended
    have report : Spec Drift F Frame.Sound p'
        (exec fun f => (.ok (markOutputTooLargeFailed f.locals.captured limit), f))
        fun (o : Outcome Captured Fault) f => o = .ok (markOutputTooLargeFailed f.locals.captured limit) ∧
          ∃ status, Gone (Finished limit status) status f := by
      refine Spec.exec stable' ?_ (fun f at_ => (holds' f at_).2) ?_ fun f at_ => ⟨rfl, finished f at_⟩
      · rintro o f f' drift ⟨rfl, status, gone⟩
        exact ⟨by rw [drift.locals], status, Gone.stable (steady_finished limit status) status f f' drift gone⟩
      · rintro o f ⟨_, status, gone⟩
        exact gone.sound
    refine report.consequence (fun _ at_ => at_) ?_
    rintro o f ⟨rfl, status, gone⟩
    refine ⟨status, gone.reaped, gone.own, ?_⟩
    rintro result ⟨⟩
    exact gone.kept.faithful
  | [] | [_] | _ :: _ :: _ :: _ =>
    refine Spec.ret (Gathered.stable _) sound fun f gathered => gathered.failed

theorem spec_rethrow (e : Exn Fault) :
    Spec Drift F Frame.Sound (Gathered limit (.error e)) (ret (.error e)) (Reported limit) := by
  refine Spec.ret (Gathered.stable _) ?_ fun f gathered => gathered.failed
  rintro f ⟨o, ended, _⟩
  obtain ⟨status, gone⟩ := ended.reaped
  exact gone.sound

theorem capture_reaps_calm (reach : Reach Frame.Lives Spawned (capture limit) (Calm limit) f s) :
    f.Sound ∧ ∀ o, (capture limit).outcome s = some o → Reported limit o f := by
  have calm : ∀ (x : (captureGroup limit).State) (b : Bool), Calm limit (.inl x) b →
      x.group.phase = .starting 0 → b = false := fun x b calm at_ => calm x rfl at_
  have parts := reach_andThen (Q := Gathered limit) (fun w x r reach ended => (group_reaps calm reach).2 r ended) reach
  cases s with
  | inl x =>
    refine ⟨(group_reaps calm (parts.1 x rfl)).1, ?_⟩
    rintro o ⟨⟩
  | inr t =>
    obtain ⟨r, t⟩ := t
    have run := (parts.2 r t rfl).mono (fun _ _ lives => (.inl lives : Drift _ _)) (fun _ _ _ => (trivial : (fun _ => True) _))
      (fun _ gathered => gathered)
    cases r with
    | ok os =>
      have spec : Spec Drift (fun _ => True) _ (Gathered limit _) _ _ := spec_report os
      exact ⟨spec.always f t run, fun o ended => spec.ended f t o run ended⟩
    | error e =>
      have spec : Spec Drift (fun _ => True) _ (Gathered limit _) _ _ := spec_rethrow e
      exact ⟨spec.always f t run, fun o ended => spec.ended f t o run ended⟩

/-- A stop is pending when the group of the capture is about to start its first job. -/
def Hurried (limit : Nat) (s : (capture limit).State) (stopped : Bool) : Prop :=
  ∀ x : (captureGroup limit).State, s = .inl x → x.group.phase = .starting 0 → stopped = true

def Untouched (f : Frame CaptureState) : Prop := f.child.past = []

theorem group_skips {g : (captureGroup limit).State → Bool → Prop}
    (hurried : ∀ s b, g s b → s.group.phase = .starting 0 → b = true)
    (reach : Reach Frame.Lives Spawned (captureGroup limit) g f x) :
    Untouched f ∧ ∀ r, (captureGroup limit).outcome x = some r → r = .error .operationCancelled := by
  obtain ⟨untouched, _, at_⟩ := reach_skipped (K := Untouched) hurried
    (fun f f' lives untouched => lives.past.trans untouched) (fun f spawned => spawned.1) reach
  refine ⟨untouched, fun r ended => ?_⟩
  have settled := reach_settle reach
  have returned := settle_outcome ended
  obtain ⟨first, _⟩ | ⟨parent, _⟩ := at_
  · cases returned.symm.trans first
  · rw [← (Group.run_answered settled.run returned).1]
    simp [Group.result, settled.clean, parent]

theorem capture_skips (reach : Reach Frame.Lives Spawned (capture limit) (Hurried limit) f s) :
    Untouched f ∧ ∀ o, (capture limit).outcome s = some o → o = .error .operationCancelled := by
  have hurried : ∀ (x : (captureGroup limit).State) (b : Bool), Hurried limit (.inl x) b →
      x.group.phase = .starting 0 → b = true := fun x b hurried at_ => hurried x rfl at_
  have parts := reach_andThen (Q := fun r f => Untouched f ∧ r = .error .operationCancelled)
    (fun w x r reach ended => ⟨(group_skips hurried reach).1, (group_skips hurried reach).2 r ended⟩) reach
  cases s with
  | inl x =>
    refine ⟨(group_skips hurried (parts.1 x rfl)).1, ?_⟩
    rintro o ⟨⟩
  | inr t =>
    obtain ⟨r, t⟩ := t
    have run := (parts.2 r t rfl).mono (fun _ _ lives => lives) (fun _ _ _ => (trivial : (fun _ => True) _)) (fun _ holds => holds)
    cases r with
    | ok os =>
      have none_ : Spec Frame.Lives (fun _ => True) (fun _ => False) (fun f => Untouched f ∧ (.ok os : Outcome _ Fault) = .error .operationCancelled)
          (reportCapture limit os) (fun _ _ => False) := Spec.never fun f holds => by cases holds.2
      exact absurd run (none_.always f t)
    | error e =>
      have rethrow : Spec Frame.Lives (fun _ => True) Untouched (fun f => Untouched f ∧ (.error e : Outcome (List (Outcome Unit Fault)) Fault) = .error .operationCancelled)
          (ret (.error e)) (fun (o : Outcome Captured Fault) f => o = .error .operationCancelled) := by
        refine Spec.ret ?_ (fun f holds => holds.1) ?_
        · exact Stable.and (fun f f' lives untouched => lives.past.trans untouched) (.const _)
        · rintro f ⟨_, same⟩
          cases same
          rfl
      exact ⟨rethrow.always f t run, fun o ended => rethrow.ended f t o run ended⟩

/-- The capture returns or throws with its child reaped, and a result tells the truth, in every run in
    which no stop is pending when its group starts; where one is, it throws and the child is left. -/
theorem capture_reaps_iff (limit : Nat) : (∀ f s, Reach Frame.Lives Spawned (capture limit) (Calm limit) f s →
      Lawful f.child.past ∧ ∀ o, (capture limit).outcome s = some o → Reported limit o f) ∧
    ∀ f s, Reach Frame.Lives Spawned (capture limit) (Hurried limit) f s →
      f.child.past = [] ∧ ∀ o, (capture limit).outcome s = some o → o = .error .operationCancelled :=
  ⟨fun _ _ reach => ⟨(capture_reaps_calm reach).1.2, (capture_reaps_calm reach).2⟩, fun _ _ reach => capture_skips reach⟩

end Runs

section Leak

/-- The group when a stop is pending at its start: its state after each of its steps. -/
def leak (phase : Runtime.Phase Unit Fault) : Group Unit Fault Unit where
  children := [{ stage := .fresh false }, { stage := .fresh false }]
  policy := ()
  phase := phase
  stopping := true
  parentStopped := true

theorem leak_runs (limit : Nat) : Gives (fun stopped => stopped = true) (captureGroup limit) ⟨{}, {}⟩
    (.error .operationCancelled) ⟨{}, {}⟩ := by
  let jobs : Fin 2 → Task (Frame CaptureState) Fault Unit :=
    ![Task.finally_ (captureOutput limit) finishChild, monitorUntilDone]
  let ss : (i : Fin 2) → (jobs i).State := fun i => (jobs i).start
  have first : Settle (asking primaryGroup) jobs true (⟨{}, {}⟩ : Frame CaptureState) ⟨Group.ofJobs (replicate 2 (.fresh false)) (), ss⟩ ⟨{}, {}⟩
      ⟨leak (.starting 1), ss⟩ := @Settle.visit _ _ _ _ _ _ _ _ _ _ _ _ { stage := .fresh false } rfl rfl
  have second : Settle (asking primaryGroup) jobs true (⟨{}, {}⟩ : Frame CaptureState) ⟨leak (.starting 1), ss⟩ ⟨{}, {}⟩
      ⟨leak (.starting 2), ss⟩ := @Settle.visit _ _ _ _ _ _ _ _ _ _ _ _ { stage := .fresh false } rfl rfl
  have third : Settle (asking primaryGroup) jobs true (⟨{}, {}⟩ : Frame CaptureState) ⟨leak (.starting 2), ss⟩ ⟨{}, {}⟩
      ⟨leak .draining, ss⟩ := .await rfl
  have last : Settle (asking primaryGroup) jobs true (⟨{}, {}⟩ : Frame CaptureState) ⟨leak .draining, ss⟩ ⟨{}, {}⟩
      ⟨leak (.returned (.error .operationCancelled)), ss⟩ := .resume rfl rfl
  exact ⟨_, .tail (.tail (.tail (.tail .refl rfl rfl first) rfl rfl second) rfl rfl third) rfl rfl last, rfl⟩

/-- A stop that arrives after the spawn and before the group starts: the capture throws and leaves the
    child running. -/
theorem capture_leaks : ¬∀ limit f s o, Reach Frame.Lives Spawned (capture limit) (fun _ _ => True) f s →
    (capture limit).outcome s = some o → ∃ status, Reaped f.child.past status := by
  intro claimed
  have run : Gives (fun stopped => stopped = true) (capture (8 * 1024 * 1024)) ⟨{}, {}⟩ (.error .operationCancelled) ⟨{}, {}⟩ :=
    Gives.andThen (leak_runs _) ⟨true, rfl⟩ gives_ret
  obtain ⟨s, reach, ended⟩ : ∃ s, Reach Frame.Lives Spawned _ (fun _ stopped => stopped = true) _ s ∧ _ := run.reach ⟨rfl, rfl, rfl⟩
  have reach := reach.mono (fun _ _ lives => lives) (fun _ _ _ => (trivial : (fun _ _ => True) _ _)) (fun _ spawned => spawned)
  obtain ⟨status, later, before, past, _⟩ := claimed _ _ s _ reach ended
  simp at past

end Leak

section Quick

/-- A child that closed its output and exited before it was waited for, and what becomes of it. -/
def quickChild : Frame CaptureState := ⟨{ closed := true, exit := some { exited := true } }, {}⟩

def quickReaped : Frame CaptureState := (quickChild.did .wait).did (.reaped { exited := true })

def quickEnd : Frame CaptureState := ⟨quickReaped.child, finished { exited := true } {}⟩

theorem quickChild_job : Gives (· = false) (Task.finally_ (captureOutput 4096) finishChild) quickChild (.ok ()) quickEnd := by
  have flag : ∃ stopped, (· = false) stopped := ⟨false, rfl⟩
  have take : Gives (· = false) takeSome quickChild (.ok none) quickChild :=
    gives_atomic false rfl (.inr (.inl ⟨rfl, Nat.le_refl 0, rfl, rfl⟩))
  have drain : Gives (· = false) (drainOutput 4096) quickChild (.ok ()) quickChild :=
    Gives.iterate (a := .ok false) (Gives.andThen take flag gives_ret) rfl rfl
  have wait : Gives (· = false) waitChild quickChild (.ok { exited := true }) quickReaped := by
    have ask : Gives (· = false) (exec fun f : Frame CaptureState => ((.ok () : Outcome Unit Fault), f.did .wait)) quickChild
        (.ok ()) (quickChild.did .wait) := gives_exec rfl rfl
    refine Gives.andThen ask flag (gives_atomic false rfl (.inl ⟨_, rfl, rfl, ?_, rfl⟩))
    simp [Unreaped, quickChild, Frame.did]
  have finish : Gives (· = false) (update (finished { exited := true })) quickReaped (.ok ()) quickEnd := gives_exec rfl rfl
  have output : Gives (· = false) (captureOutput 4096) quickChild (.ok ()) quickEnd :=
    Gives.andThen drain flag (Gives.andThen wait flag finish)
  have look : Gives (· = false) (exec fun f : Frame CaptureState => ((.ok f.locals.waited : Outcome Bool Fault), f)) quickEnd
      (.ok true) quickEnd := gives_exec rfl rfl
  have cleanup : Gives (· = false) finishChild quickEnd (.ok ()) quickEnd := Gives.andThen look flag gives_ret
  exact Gives.andThen output flag (Gives.andThen (cleanup.shield rfl) flag gives_ret)

theorem gives_captureGroup {f f' : Frame CaptureState} {o : Outcome Unit Fault}
    (job : Gives (· = false) (Task.finally_ (captureOutput 4096) finishChild) f o f') :
    Gives (· = false) (captureGroup 4096) f (.ok [o, .ok ()]) f' :=
  gives_settle (fun _ => rfl) job (gives_atomic true rfl rfl) fun i => by fin_cases i <;> rfl

/-- A child that wrote a byte and failed, and what becomes of it when its output cannot be read on. -/
def cutChild : Frame CaptureState := ⟨{ written := [104], exit := some { exited := true, exitCode := 1 } }, {}⟩

def cutRead : Frame CaptureState :=
  { cutChild with child := { cutChild.child with taken := 1 }, locals := keepChunk 4096 [104] cutChild.locals }

def cutEnd : Frame CaptureState :=
  let reaped := cutRead.terminated { exited := true, exitCode := 1 }
  { reaped with locals := finished { exited := true, exitCode := 1 } reaped.locals }

theorem cutChild_job : Gives (· = false) (Task.finally_ (captureOutput 4096) finishChild) cutChild
    (.error (.thrown (.errnoError 5))) cutEnd := by
  have flag : ∃ stopped, (· = false) stopped := ⟨false, rfl⟩
  have take : Gives (· = false) takeSome cutChild (.ok (some [104])) { cutChild with child := { cutChild.child with taken := 1 } } :=
    gives_atomic false rfl (.inl ⟨[104], rfl, prefix_rfl, rfl⟩)
  have keep : Gives (· = false) (update (keepChunk 4096 [104])) { cutChild with child := { cutChild.child with taken := 1 } }
      (.ok ()) cutRead := gives_exec rfl rfl
  have fail : Gives (· = false) takeSome cutRead (.error (.thrown (.errnoError 5))) cutRead :=
    gives_atomic false rfl (.inr (.inr (.inl ⟨⟨5, rfl⟩, rfl⟩)))
  have drain : Gives (· = false) (drainOutput 4096) cutChild (.error (.thrown (.errnoError 5))) cutRead :=
    Gives.again (a := .ok true) (Gives.andThen take flag (Gives.andThen keep flag gives_ret)) rfl rfl
      (Gives.iterate (a := .error _) (Gives.andThen fail flag gives_ret) rfl rfl)
  have output : Gives (· = false) (captureOutput 4096) cutChild (.error (.thrown (.errnoError 5))) cutRead :=
    Gives.andThen drain flag gives_ret
  have look : Gives (· = false) (exec fun f : Frame CaptureState => ((.ok f.locals.waited : Outcome Bool Fault), f)) cutRead
      (.ok false) cutRead := gives_exec rfl rfl
  have reap : Gives (· = false) terminateAndWait cutRead (.ok { exited := true, exitCode := 1 }) (cutRead.terminated _) :=
    gives_terminateAndWait rfl rfl fun _ => not_mem_nil
  have finish : Gives (· = false) (update (finished { exited := true, exitCode := 1 })) (cutRead.terminated _) (.ok ()) cutEnd :=
    gives_exec rfl rfl
  have cleanup : Gives (· = false) finishChild cutRead (.ok ()) cutEnd :=
    Gives.andThen look flag (Gives.andThen reap flag finish)
  exact Gives.andThen output flag (Gives.andThen (cleanup.shield rfl) flag gives_ret)

theorem capture_gives {f f' : Frame CaptureState} {o : Outcome Captured Fault} (spawned : Spawned f)
    (run : Gives (· = false) (capture 4096) f o f') :
    ∃ s, Reach Frame.Lives Spawned (capture 4096) (Calm 4096) f' s ∧ (capture 4096).outcome s = some o := by
  obtain ⟨s, reach, ended⟩ : ∃ s, Reach Frame.Lives Spawned (capture 4096) (fun _ stopped => stopped = false) f' s ∧
      (capture 4096).outcome s = some o := run.reach spawned
  exact ⟨s, reach.mono (fun _ _ lives => lives) (fun _ _ flag _ _ _ => flag) (fun _ spawned => spawned), ended⟩

/-- Two calm runs, as the theorem sees them: a quick child is waited for, and one whose output fails is
    terminated. -/
theorem capture_reaps_quick :
    (∃ s, Reach Frame.Lives Spawned (capture 4096) (Calm 4096) quickEnd s ∧
      (capture 4096).outcome s = some (.ok { status := { exited := true } }) ∧
      Reported 4096 (.ok { status := { exited := true } }) quickEnd) ∧
    ∃ s, Reach Frame.Lives Spawned (capture 4096) (Calm 4096) cutEnd s ∧
      (capture 4096).outcome s = some (.error (.thrown (.errnoError 5))) ∧
      .signal .sigterm ∈ cutEnd.child.past ∧ ∃ status, Reaped cutEnd.child.past status := by
  have flag : ∃ stopped, (· = false) stopped := ⟨false, rfl⟩
  constructor
  · have quiet : Gives (· = false) (ret (.ok ()) : Task (Frame CaptureState) Fault Unit) quickEnd (.ok ()) quickEnd := gives_ret
    have result : Gives (· = false)
        (exec fun f : Frame CaptureState => ((.ok (markOutputTooLargeFailed f.locals.captured 4096) : Outcome Captured Fault), f))
        quickEnd (.ok { status := { exited := true } }) quickEnd := gives_exec rfl rfl
    have report : Gives (· = false) (reportCapture 4096 [.ok (), .ok ()]) quickEnd (.ok { status := { exited := true } }) quickEnd :=
      Gives.andThen quiet flag (Gives.andThen quiet flag result)
    obtain ⟨s, reach, ended⟩ := capture_gives ⟨rfl, rfl, rfl⟩ (Gives.andThen (gives_captureGroup quickChild_job) flag report)
    exact ⟨s, reach, ended, ((capture_reaps_iff 4096).1 quickEnd s reach).2 _ ended⟩
  · have failed : Gives (· = false) (ret (.error (.thrown (.errnoError 5))) : Task (Frame CaptureState) Fault Unit) cutEnd
        (.error (.thrown (.errnoError 5))) cutEnd := gives_ret
    have report : Gives (· = false) (reportCapture 4096 [.error (.thrown (.errnoError 5)), .ok ()]) cutEnd
        (.error (.thrown (.errnoError 5))) cutEnd := Gives.andThen failed flag gives_ret
    obtain ⟨s, reach, ended⟩ := capture_gives ⟨rfl, rfl, rfl⟩ (Gives.andThen (gives_captureGroup cutChild_job) flag report)
    obtain ⟨status, reaped, _⟩ := ((capture_reaps_iff 4096).1 cutEnd s reach).2 _ ended
    exact ⟨s, reach, ended, by decide, status, reaped⟩

end Quick

end Nxt.Ai
