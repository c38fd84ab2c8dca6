import Nxt.Runtime.Reaping

/- The effect `run-command` (wisp/main.cpp) from the moment its child is spawned: the merged output is
   read to its end or beyond the limit, the child is waited for, and `finally` settles what is left. -/
namespace Nxt.Host
open List
open Nxt.Lib Nxt.Runtime Coroutine PipedChild

/-- What `run_command` shares with the tasks it awaits. -/
structure Command where
  output : Bytes := []
  waited : Bool := false

structure ProcessResult where
  exitCode : Option Int
  signal : Option Int
  output : Bytes
  deriving DecidableEq

def maxCommandOutput : Nat := 8 * 1024 * 1024

def appendOutput (chunk : Bytes) (f : Frame Command) : Outcome (Option Bool) Fault × Frame Command :=
  if f.locals.output.length + chunk.length > maxCommandOutput then (.ok (some false), f)
  else (.ok none, { f with locals := { f.locals with output := f.locals.output ++ chunk } })

/-- One round of the loop: `none` to go on, else what the function returns. -/
def readRound : Task (Frame Command) Fault (Option Bool) := do
  match ← takeSome with
  | none => pure (some true)
  | some chunk => exec (appendOutput chunk)

def leaves : Outcome (Option Bool) Fault → Option (Outcome Bool Fault)
  | .ok none => none
  | .ok (some complete) => some (.ok complete)
  | .error e => some (.error e)

def readCommandOutput : Task (Frame Command) Fault Bool := iterate readRound leaves

def setWaited : Task (Frame Command) Fault Unit :=
  exec fun f => (.ok (), { f with locals := { f.locals with waited := true } })

def collectCommand : Task (Frame Command) Fault ChildResult := do
  if ← readCommandOutput then
    let status ← waitChild
    setWaited
    pure status
  else
    let _ ← terminateAndWait
    setWaited
    Task.throw (.thrown (.effectError "TOO-LARGE" "command output exceeds 8 MiB"))

def settleCommand : Task (Frame Command) Fault Unit := do
  if ← exec fun f => (.ok f.locals.waited, f) then
    setWaited
  else
    let _ ← terminateAndWait
    setWaited

def processResult (status : ChildResult) (output : Bytes) : ProcessResult where
  exitCode := if status.exited then some status.exitCode else none
  signal := if status.signaled then some status.signal else none
  output := output

def runCommand : Task (Frame Command) Fault ProcessResult := do
  let status ← Task.finally_ collectCommand settleCommand
  exec fun f => (.ok (processResult status f.locals.output), f)

def Spawned (f : Frame Command) : Prop :=
  f.child.past = [] ∧ f.child.taken = 0 ∧ f.locals.output = [] ∧ f.locals.waited = false

section Assertions

structure Reading (f : Frame Command) : Prop where
  waited : f.locals.waited = false
  inside : f.child.taken ≤ f.child.written.length
  output : f.locals.output = f.child.written.take f.child.taken
  limit : f.locals.output.length ≤ maxCommandOutput

structure Took (chunk : Bytes) (f : Frame Command) : Prop where
  waited : f.locals.waited = false
  inside : f.child.taken ≤ f.child.written.length
  output : f.locals.output ++ chunk = f.child.written.take f.child.taken
  limit : f.locals.output.length ≤ maxCommandOutput

def Unmarked (f : Frame Command) : Prop := f.locals.waited = false

def Marked (f : Frame Command) : Prop := f.locals.waited = true

structure Complete (f : Frame Command) : Prop where
  closed : f.child.closed = true
  output : f.locals.output = f.child.written
  limit : f.locals.output.length ≤ maxCommandOutput

theorem take_append {written : Bytes} (more : Bytes) {n : Nat} (inside : n ≤ written.length) :
    (written ++ more).take n = written.take n := by
  rw [take_append_of_le_length inside]

theorem steady_unmarked : Steady Unmarked where
  lives f f' lives waited := by cases lives; exact waited
  did f d waited := waited

theorem steady_marked : Steady Marked where
  lives f f' lives waited := by cases lives; exact waited
  did f d waited := waited

theorem steady_complete : Steady Complete where
  lives f f' lives complete := by
    cases lives with
    | child lives =>
      cases lives with
      | write bytes open_ => cases complete.closed.symm.trans open_
      | close => exact ⟨rfl, complete.output, complete.limit⟩
      | exit status running => exact ⟨complete.closed, complete.output, complete.limit⟩
  did f d complete := ⟨complete.closed, complete.output, complete.limit⟩

theorem steady_took (chunk : Bytes) : Steady (Took chunk) where
  lives f f' lives took := by
    cases lives with
    | child lives =>
      cases lives with
      | write bytes open_ =>
        refine ⟨took.waited, ?_, ?_, took.limit⟩
        · exact took.inside.trans (length_append ▸ Nat.le_add_right _ _)
        · exact took.output.trans (take_append bytes took.inside).symm
      | close => exact ⟨took.waited, took.inside, took.output, took.limit⟩
      | exit status running => exact ⟨took.waited, took.inside, took.output, took.limit⟩
  did f d took := ⟨took.waited, took.inside, took.output, took.limit⟩

theorem reading_iff (f : Frame Command) : Reading f ↔ Took [] f := by
  constructor
  · intro reading
    exact ⟨reading.waited, reading.inside, (append_nil _).trans reading.output, reading.limit⟩
  · intro took
    exact ⟨took.waited, took.inside, (append_nil _).symm.trans took.output, took.limit⟩

theorem steady_reading : Steady Reading where
  lives f f' lives reading := (reading_iff f').mpr ((steady_took []).lives f f' lives ((reading_iff f).mp reading))
  did _ _ reading := ⟨reading.waited, reading.inside, reading.output, reading.limit⟩

end Assertions

section Specs
variable {F : Bool → Prop}

def Collected : Outcome Bool Fault → Frame Command → Prop
  | .ok true, f => Live (fun f => Complete f ∧ Unmarked f) f
  | _, f => Live Unmarked f

theorem Collected.unmarked {o : Outcome Bool Fault} {f : Frame Command} (collected : Collected o f) : Live Unmarked f := by
  rcases o with _ | (_ | _)
  · exact collected
  · exact collected
  · exact ⟨collected.kept.2, collected.unreaped, collected.graceful⟩

theorem Collected.stable (o : Outcome Bool Fault) : Stable Drift (Collected o) := by
  rcases o with _ | (_ | _)
  · exact Live.stable steady_unmarked
  · exact Live.stable steady_unmarked
  · exact Live.stable (steady_complete.and steady_unmarked)

theorem spec_readRound : Spec Drift F Frame.Sound (Live Reading) readRound fun o f =>
    (leaves o = none → Live Reading f) ∧ ∀ b, leaves o = some b → Collected b f := by
  have stable : ∀ o, Stable Drift fun f => (leaves o = none → Live Reading f) ∧ ∀ b, leaves o = some b → Collected b f := by
    intro o f f' drift holds
    exact ⟨fun more => Live.stable steady_reading f f' drift (holds.1 more), fun b left => Collected.stable b f f' drift (holds.2 b left)⟩
  have sound : ∀ o f, ((leaves o = none → Live Reading f) ∧ ∀ b, leaves o = some b → Collected b f) → f.Sound := by
    intro o f holds
    cases next : leaves o with
    | none => exact (holds.1 next).sound
    | some b => exact (holds.2 b next).unmarked.sound
  have read := spec_takeSome (F := F) steady_reading steady_took (steady_complete.and steady_unmarked) ?_ ?_
  · refine Task.spec_bind read ?_ ?_
    · rintro (_ | chunk) p kept holds
      · refine Spec.ret kept (fun f at_ => (holds f at_).2) fun f at_ => ⟨by rintro ⟨⟩, ?_⟩
        rintro b ⟨⟩
        exact (holds f at_).1
      · refine Spec.exec kept stable (fun f at_ => (holds f at_).2) sound ?_
        intro f at_
        have live : Live (Took chunk) f := (holds f at_).1
        have took := live.kept
        unfold appendOutput
        split
        · refine ⟨by rintro ⟨⟩, ?_⟩
          rintro b ⟨⟩
          exact ⟨took.waited, live.unreaped, live.graceful⟩
        · next fits =>
          refine ⟨fun _ => ⟨⟨took.waited, took.inside, took.output, ?_⟩, live.unreaped, live.graceful⟩, by rintro b ⟨⟩⟩
          simpa using fits
    · intro e f live
      refine ⟨by rintro ⟨⟩, ?_⟩
      rintro b ⟨⟩
      have live : Live Reading f := live
      exact ⟨live.kept.waited, live.unreaped, live.graceful⟩
  · intro f bytes reading part
    have inside := reading.inside
    have length := part.length_le
    rw [length_drop] at length
    refine ⟨reading.waited, ?_, ?_, reading.limit⟩
    · simp only
      omega
    · simp only [take_add, reading.output]
      rw [← prefix_iff_eq_take.mp part]
  · intro f reading all closed
    have output := reading.output
    rw [take_of_length_le all] at output
    exact ⟨⟨closed, output, reading.limit⟩, reading.waited⟩

theorem spec_readCommandOutput : Spec Drift F Frame.Sound (Live Reading) readCommandOutput Collected :=
  Spec.iterate Collected.stable (fun _ _ collected => collected.unmarked.sound) spec_readRound

theorem spec_setWaited {K K' : Frame Command → Prop} {status : ChildResult} (steady : Steady K) (steady' : Steady K')
    (marked : ∀ f, K f → K' { f with locals := { f.locals with waited := true } }) :
    Spec Drift F Frame.Sound (Gone K status) setWaited fun o f => o = .ok () ∧ Gone K' status f := by
  refine Spec.exec (Gone.stable steady status) (fun o => Stable.and (.const _) (Gone.stable steady' status))
    (fun _ gone => gone.sound) (fun _ _ done => done.2.sound) ?_
  intro f gone
  exact ⟨rfl, marked f gone.kept, gone.reaped, gone.graceful, gone.own⟩

/-- `waited` is set exactly when the child is reaped. -/
def Held : Outcome ChildResult Fault → Frame Command → Prop
  | .ok status, f => Gone (fun f => Complete f ∧ Marked f) status f
  | .error _, f => (∃ status, Gone Marked status f) ∨ Live Unmarked f

theorem spec_collectCommand : Spec Drift F Frame.Sound (Live Reading) collectCommand Held := by
  have unmarked := steady_complete.and steady_unmarked
  have marked := steady_complete.and steady_marked
  refine Task.spec_bind spec_readCommandOutput ?_ fun e f live => .inr live
  rintro (_ | _) p _ holds
  · refine Task.spec_bind ((spec_terminateAndWait steady_unmarked).consequence (fun f at_ => (holds f at_).1)
      fun _ _ post => post) ?_ (by rintro e f ⟨_, ⟨⟩, _⟩)
    intro status p _ holds
    have reaped : ∀ f, p f → Gone Unmarked status f := by
      intro f at_
      obtain ⟨⟨_, ⟨⟩, gone⟩, _⟩ := holds f at_
      exact gone
    refine Task.spec_bind ((spec_setWaited steady_unmarked steady_marked fun _ _ => rfl).consequence reaped
      fun _ _ post => post) ?_ (by rintro e f ⟨⟨⟩, _⟩)
    rintro ⟨⟩ p kept holds
    exact Spec.ret kept (fun f at_ => (holds f at_).2) fun f at_ => .inl ⟨status, (holds f at_).1.2⟩
  · refine Task.spec_bind ((spec_waitChild unmarked).consequence (fun f at_ => (holds f at_).1) fun _ _ post => post) ?_ ?_
    · intro status p _ holds
      have reaped : ∀ f, p f → Gone (fun f => Complete f ∧ Unmarked f) status f := by
        intro f at_
        obtain ⟨⟨_, ⟨⟩, gone⟩ | ⟨⟨⟩, _⟩, _⟩ := holds f at_
        exact gone
      refine Task.spec_bind ((spec_setWaited unmarked marked ?_).consequence reaped fun _ _ post => post) ?_
        (by rintro e f ⟨⟨⟩, _⟩)
      · rintro f ⟨complete, _⟩
        exact ⟨⟨complete.closed, complete.output, complete.limit⟩, rfl⟩
      · rintro ⟨⟩ p kept holds
        exact Spec.ret kept (fun f at_ => (holds f at_).2) fun f at_ => (holds f at_).1.2
    · rintro e f (⟨_, ⟨⟩, _⟩ | ⟨_, _, live⟩)
      exact .inr ⟨live.kept.2, live.unreaped, live.graceful⟩

/-- The child is reaped, and where the command succeeded it was before the cleanup. -/
def Ended : Outcome ChildResult Fault → Frame Command → Prop
  | .ok status, f => Gone Complete status f
  | .error _, f => ∃ status, Gone (fun _ => True) status f

theorem spec_settleCommand (r : Outcome ChildResult Fault) :
    Spec Drift F Frame.Sound (Held r) settleCommand fun c f => c = .ok () ∧ Ended r f := by
  have marked := steady_complete.and steady_marked
  cases r with
  | ok status =>
    refine Task.spec_bind (Q := fun o f => o = .ok true ∧ Gone (fun f => Complete f ∧ Marked f) status f) ?_ ?_
      (by rintro e f ⟨⟨⟩, _⟩)
    · refine Spec.exec (Gone.stable marked status) (fun o => Stable.and (.const _) (Gone.stable marked status))
        (fun _ gone => gone.sound) (fun _ _ done => done.2.sound) ?_
      intro f gone
      exact ⟨congrArg Except.ok gone.kept.2, gone⟩
    · have mark : Spec Drift F Frame.Sound (Gone (fun f => Complete f ∧ Marked f) status) setWaited
          fun c f => c = .ok () ∧ Ended (.ok status) f :=
        spec_setWaited marked steady_complete fun f holds => ⟨holds.1.closed, holds.1.output, holds.1.limit⟩
      rintro (_ | _) p _ holds
      · refine Spec.never fun f at_ => ?_
        obtain ⟨⟨⟨⟩, _⟩, _⟩ := holds f at_
      · exact mark.consequence (fun f at_ => (holds f at_).1.2) fun _ _ post => post
  | error e =>
    refine Task.spec_bind (Q := fun o f => (o = .ok true ∧ ∃ status, Gone Marked status f) ∨ (o = .ok false ∧ Live Unmarked f)) ?_ ?_
      (by rintro e f (⟨⟨⟩, _⟩ | ⟨⟨⟩, _⟩))
    · refine Spec.exec ?_ ?_ ?_ ?_ ?_
      · exact (Stable.exists (Gone.stable steady_marked)).or (Live.stable steady_unmarked)
      · exact fun o => (Stable.and (.const _) (.exists (Gone.stable steady_marked))).or (.and (.const _) (Live.stable steady_unmarked))
      · rintro f (⟨_, gone⟩ | live)
        · exact gone.sound
        · exact live.sound
      · rintro o f (⟨_, _, gone⟩ | ⟨_, live⟩)
        · exact gone.sound
        · exact live.sound
      · rintro f (⟨status, gone⟩ | live)
        · exact .inl ⟨congrArg Except.ok gone.kept, status, gone⟩
        · exact .inr ⟨congrArg Except.ok live.kept, live⟩
    · have finish : ∀ {K : Frame Command → Prop}, Steady K → Spec Drift F Frame.Sound (fun f => ∃ status, Gone K status f) setWaited
          fun c f => c = .ok () ∧ Ended (.error e) f := by
        intro K steady
        refine Spec.choose fun status => (spec_setWaited steady steady_marked fun _ _ => rfl).consequence (fun _ gone => gone) ?_
        rintro c f ⟨rfl, gone⟩
        exact ⟨rfl, status, gone.mono fun _ _ => .intro⟩
      rintro (_ | _) p _ holds
      · refine Task.spec_bind ((spec_terminateAndWait steady_unmarked).consequence ?_ fun _ _ post => post) ?_
          (by rintro e f ⟨_, ⟨⟩, _⟩)
        · intro f at_
          obtain ⟨⟨⟨⟩, _⟩ | ⟨_, live⟩, _⟩ := holds f at_
          exact live
        · intro status p _ holds
          refine (finish steady_unmarked).consequence ?_ fun _ _ post => post
          intro f at_
          obtain ⟨⟨status, _, gone⟩, _⟩ := holds f at_
          exact ⟨status, gone⟩
      · refine (finish steady_marked).consequence ?_ fun _ _ post => post
        intro f at_
        obtain ⟨⟨_, reaped⟩ | ⟨⟨⟩, _⟩, _⟩ := holds f at_
        exact reaped

theorem spec_runCommand : Spec Drift F Frame.Sound Spawned runCommand fun o f =>
    ∃ status, Reaped f.child.past status ∧ f.child.exit = some status ∧ ∀ result, o = .ok result →
      result = processResult status f.child.written ∧ f.child.closed = true ∧ f.child.written.length ≤ maxCommandOutput := by
  have body := Task.spec_finally (F := F) spec_collectCommand spec_settleCommand (R := Ended) ?_
  · refine Task.spec_bind (body.consequence ?_ fun _ _ post => post) ?_ ?_
    · rintro f ⟨past, taken, output, waited⟩
      refine ⟨⟨waited, ?_, ?_, ?_⟩, ?_, ?_⟩
      · simp [taken]
      · simp [taken, output]
      · simp [output]
      · simp [Unreaped, past]
      · intro later before same
        simp [past] at same
    · intro status p kept holds
      have result : Spec Drift F Frame.Sound p (exec fun f => (.ok (processResult status f.locals.output), f))
          fun (o : Outcome ProcessResult Fault) f => o = .ok (processResult status f.locals.output) ∧ Gone Complete status f := by
        refine Spec.exec kept ?_ (fun f at_ => (holds f at_).2) (fun _ _ done => done.2.sound) ?_
        · rintro o f f' drift ⟨rfl, gone⟩
          exact ⟨by rw [drift.locals], Gone.stable steady_complete status f f' drift gone⟩
        · exact fun f at_ => ⟨rfl, (holds f at_).1⟩
      refine result.consequence (fun _ at_ => at_) ?_
      rintro o f ⟨rfl, gone⟩
      refine ⟨status, gone.reaped, gone.own, ?_⟩
      rintro r ⟨⟩
      have complete := gone.kept
      exact ⟨by rw [complete.output], complete.closed, complete.output ▸ complete.limit⟩
    · rintro e f ⟨status, gone⟩
      exact ⟨status, gone.reaped, gone.own, by rintro result ⟨⟩⟩
  · rintro (e | status) c f ⟨rfl, ended⟩
    · exact ended
    · exact ended

end Specs

/-- In every run from the spawned child on: SIGKILL comes only after SIGTERM and the grace period and
    a reaped child is left alone, and `run_command` settles only when the child was reaped, with its
    own status and complete output if it gives a result. -/
theorem run_command_reaps {f : Frame Command} {s : runCommand.State}
    (reach : Reach Frame.Lives Spawned runCommand (fun _ _ => True) f s) :
    Graceful f.child.past ∧ Lawful f.child.past ∧ ∀ o, runCommand.outcome s = some o →
      ∃ status, Reaped f.child.past status ∧ f.child.exit = some status ∧ ∀ result, o = .ok result →
        result = processResult status f.child.written ∧ f.child.closed = true ∧
          f.child.written.length ≤ maxCommandOutput := by
  have run := reach.mono (fun _ _ lives => (.inl lives : Drift _ _)) (fun _ _ flag => flag) (fun _ spawned => spawned)
  obtain ⟨graceful, lawful⟩ := spec_runCommand.always f s run
  exact ⟨graceful, lawful, fun o ended => spec_runCommand.ended f s o run ended⟩

/-- A child that closed its output and exited before it was waited for, and what becomes of it. -/
def quickChild : Frame Command := ⟨{ closed := true, exit := some { exited := true } }, {}⟩

def quickReaped : Frame Command := (quickChild.did .wait).did (.reaped { exited := true })

def quickEnd : Frame Command := ⟨quickReaped.child, { waited := true }⟩

theorem quickChild_collects : Gives (fun _ => True) collectCommand quickChild (.ok { exited := true }) quickEnd := by
  have take : Gives (fun _ => True) takeSome quickChild (.ok none) quickChild :=
    gives_atomic false trivial (.inr (.inl ⟨rfl, Nat.le_refl 0, rfl, rfl⟩))
  have read : Gives (fun _ => True) readCommandOutput quickChild (.ok true) quickChild :=
    Gives.iterate (a := .ok (some true)) (Gives.andThen take ⟨false, trivial⟩ gives_ret) trivial rfl
  have wait : Gives (fun _ => True) waitChild quickChild (.ok { exited := true }) quickReaped := by
    refine Gives.andThen (a := .ok ()) (gives_exec trivial rfl) ⟨false, trivial⟩ (gives_atomic false trivial (.inl ⟨_, rfl, rfl, ?_, rfl⟩))
    simp [Unreaped, quickChild, Frame.did]
  have mark : Gives (fun _ => True) setWaited quickReaped (.ok ()) quickEnd := gives_exec trivial rfl
  exact Gives.andThen read ⟨false, trivial⟩ (Gives.andThen wait ⟨false, trivial⟩ (Gives.andThen mark ⟨false, trivial⟩ gives_ret))

theorem quickChild_runs : Gives (fun _ => True) runCommand quickChild
    (.ok { exitCode := some 0, signal := none, output := [] }) quickEnd := by
  have look : Gives (· = false) (exec fun f : Frame Command => ((.ok f.locals.waited : Outcome Bool Fault), f)) quickEnd
      (.ok true) quickEnd := gives_exec rfl rfl
  have mark : Gives (· = false) setWaited quickEnd (.ok ()) quickEnd := gives_exec rfl rfl
  have settle : Gives (· = false) settleCommand quickEnd (.ok ()) quickEnd := Gives.andThen look ⟨false, rfl⟩ mark
  have body : Gives (fun _ => True) (Task.finally_ collectCommand settleCommand) quickChild (.ok { exited := true }) quickEnd :=
    Gives.andThen quickChild_collects ⟨false, trivial⟩ (Gives.andThen (settle.shield trivial) ⟨false, trivial⟩ gives_ret)
  exact Gives.andThen body ⟨false, trivial⟩ (gives_exec trivial rfl)

/-- A child that wrote a byte and exited, what was read of it, and what becomes of it when the command
    is cancelled. -/
def cutChild : Frame Command := ⟨{ written := [104], exit := some { exited := true } }, {}⟩

def cutRead : Frame Command := ⟨{ cutChild.child with taken := 1 }, { output := [104] }⟩

def cutEnd : Frame Command := ⟨(cutRead.terminated { exited := true }).child, { output := [104], waited := true }⟩

theorem cutChild_runs : Gives (fun _ => True) runCommand cutChild (.error .operationCancelled) cutEnd := by
  have flag : ∃ stopped, (fun _ => True) stopped := ⟨false, trivial⟩
  have take : Gives (fun _ => True) takeSome cutChild (.ok (some [104])) { cutChild with child := { cutChild.child with taken := 1 } } :=
    gives_atomic false trivial (.inl ⟨[104], rfl, prefix_rfl, rfl⟩)
  have append : Gives (fun _ => True) (exec (appendOutput [104])) { cutChild with child := { cutChild.child with taken := 1 } }
      (.ok none) cutRead := gives_exec trivial rfl
  have stop : Gives (fun _ => True) takeSome cutRead (.error .operationCancelled) cutRead :=
    gives_atomic true trivial (.inr (.inr (.inr ⟨rfl, rfl, rfl⟩)))
  have read : Gives (fun _ => True) readCommandOutput cutChild (.error .operationCancelled) cutRead :=
    Gives.again (a := .ok none) (Gives.andThen take flag append) trivial rfl
      (Gives.iterate (a := .error _) (Gives.andThen stop flag gives_ret) trivial rfl)
  have collect : Gives (fun _ => True) collectCommand cutChild (.error .operationCancelled) cutRead :=
    Gives.andThen read flag gives_ret
  have calm : ∃ stopped, (· = false) stopped := ⟨false, rfl⟩
  have look : Gives (· = false) (exec fun f : Frame Command => ((.ok f.locals.waited : Outcome Bool Fault), f)) cutRead
      (.ok false) cutRead := gives_exec rfl rfl
  have reap : Gives (· = false) terminateAndWait cutRead (.ok { exited := true }) (cutRead.terminated _) :=
    gives_terminateAndWait rfl rfl fun _ => not_mem_nil
  have mark : Gives (· = false) setWaited (cutRead.terminated { exited := true }) (.ok ()) cutEnd := gives_exec rfl rfl
  have settle : Gives (· = false) settleCommand cutRead (.ok ()) cutEnd := Gives.andThen look calm (Gives.andThen reap calm mark)
  have body : Gives (fun _ => True) (Task.finally_ collectCommand settleCommand) cutChild (.error .operationCancelled) cutEnd :=
    Gives.andThen collect flag (Gives.andThen (settle.shield trivial) flag gives_ret)
  exact Gives.andThen body flag gives_ret

/-- Two runs, as the theorem sees them: a quick child is waited for, and that of a cancelled command
    terminated. -/
theorem run_command_reaps_quick :
    (∃ s, runCommand.outcome s = some (.ok { exitCode := some 0, signal := none, output := [] }) ∧
      Reach Frame.Lives Spawned runCommand (fun _ _ => True) quickEnd s ∧ Reaped quickEnd.child.past { exited := true }) ∧
    ∃ s, runCommand.outcome s = some (.error .operationCancelled) ∧
      Reach Frame.Lives Spawned runCommand (fun _ _ => True) cutEnd s ∧ Reaped cutEnd.child.past { exited := true } ∧
      .signal .sigterm ∈ cutEnd.child.past := by
  constructor
  · obtain ⟨s, reach, ended⟩ : ∃ s, Reach Frame.Lives Spawned runCommand (fun _ _ => True) quickEnd s ∧ _ :=
      quickChild_runs.reach ⟨rfl, rfl, rfl, rfl⟩
    obtain ⟨_, _, settles⟩ := run_command_reaps reach
    obtain ⟨status, reaped, own, _⟩ := settles _ ended
    cases own
    exact ⟨s, ended, reach, reaped⟩
  · obtain ⟨s, reach, ended⟩ : ∃ s, Reach Frame.Lives Spawned runCommand (fun _ _ => True) cutEnd s ∧ _ :=
      cutChild_runs.reach ⟨rfl, rfl, rfl, rfl⟩
    obtain ⟨_, _, settles⟩ := run_command_reaps reach
    obtain ⟨status, reaped, own, _⟩ := settles _ ended
    cases own
    exact ⟨s, ended, reach, reaped, by decide⟩

end Nxt.Host
