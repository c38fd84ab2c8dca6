import Nxt.Runtime.Subprocess

/- What waiting for a child and terminating it do to the child, whatever the child and the timer do
   meanwhile. `Live` and `Gone` carry along any assertion that neither of these breaks. -/
namespace Nxt.Runtime
open Nxt.Lib Coroutine PipedChild

namespace PipedChild
variable {past : List Deed} {status : ChildResult} {d : Deed}

theorem Unreaped.cons (unreaped : Unreaped past) (other : ∀ status, d ≠ .reaped status) : Unreaped (d :: past) := by
  intro status mem
  obtain same | old := List.mem_cons.mp mem
  · exact other status same.symm
  · exact unreaped status old

theorem Late.cons (late : Late past) (d : Deed) : Late (d :: past) := by
  obtain ⟨later, before, rfl, term⟩ := late
  exact ⟨d :: later, before, rfl, term⟩

theorem Graceful.cons (graceful : Graceful past) (allowed : d = .signal .sigkill → Late past) : Graceful (d :: past) := by
  intro later before same
  cases later with
  | nil =>
    cases same
    exact allowed rfl
  | cons e later =>
    cases same
    exact graceful later before rfl

theorem Unreaped.reaped (unreaped : Unreaped past) (status : ChildResult) : Reaped (.reaped status :: past) status :=
  ⟨[], past, rfl, by simp, unreaped⟩

theorem Reaped.elapsed (reaped : Reaped past status) : Reaped (.elapsed :: past) status := by
  obtain ⟨later, before, rfl, quiet, unreaped⟩ := reaped
  refine ⟨.elapsed :: later, before, rfl, ?_, unreaped⟩
  intro d mem
  obtain rfl | old := List.mem_cons.mp mem
  · rfl
  · exact quiet d old

end PipedChild

variable {L A : Type} {K : Frame L → Prop} {f f' : Frame L} {status : ChildResult}

/-- An assertion that does not speak of what was done to the child, and that the child keeps. -/
structure Steady (K : Frame L → Prop) : Prop where
  lives : ∀ f f', f.Lives f' → K f → K f'
  did : ∀ f d, K f → K (f.did d)

structure Live (K : Frame L → Prop) (f : Frame L) : Prop where
  kept : K f
  unreaped : Unreaped f.child.past
  graceful : Graceful f.child.past

structure Gone (K : Frame L → Prop) (status : ChildResult) (f : Frame L) : Prop where
  kept : K f
  reaped : Reaped f.child.past status
  graceful : Graceful f.child.past
  own : f.child.exit = some status

/-- At every moment: SIGKILL only after the grace period, and a child that is reaped is left alone. -/
def Frame.Sound (f : Frame L) : Prop := Graceful f.child.past ∧ Lawful f.child.past

/-- The child lives, or a timer fires. -/
def Drift (f f' : Frame L) : Prop := f.Lives f' ∨ f' = f.did .elapsed ∨ f' = f

theorem Drift.locals (drift : Drift f f') : f'.locals = f.locals := by
  obtain lives | rfl | rfl := drift
  · cases lives
    rfl
  · rfl
  · rfl

theorem Live.sound (live : Live K f) : f.Sound := ⟨live.graceful, .inl live.unreaped⟩

theorem Gone.sound (gone : Gone K status f) : f.Sound := ⟨gone.graceful, .inr ⟨status, gone.reaped⟩⟩

theorem Frame.Lives.past (lives : f.Lives f') : f'.child.past = f.child.past := by
  cases lives with
  | child lives => cases lives <;> rfl

theorem Frame.Lives.exit (lives : f.Lives f') (exited : f.child.exit = some status) : f'.child.exit = some status := by
  cases lives with
  | child lives =>
    cases lives with
    | write bytes open_ => exact exited
    | close => exact exited
    | exit other running =>
      rw [running] at exited
      cases exited

theorem Live.did (steady : Steady K) (live : Live K f) (d : Deed) (other : ∀ status, d ≠ .reaped status)
    (allowed : d = .signal .sigkill → Late f.child.past) : Live K (f.did d) :=
  ⟨steady.did f d live.kept, live.unreaped.cons other, live.graceful.cons allowed⟩

theorem Live.lives (steady : Steady K) (live : Live K f) (lives : f.Lives f') : Live K f' :=
  ⟨steady.lives f f' lives live.kept, lives.past ▸ live.unreaped, lives.past ▸ live.graceful⟩

theorem Live.stable (steady : Steady K) : Stable Drift (Live K) := by
  rintro f f' (lives | rfl | rfl) live
  · exact live.lives steady lives
  · exact live.did steady .elapsed (by rintro _ ⟨⟩) (by rintro ⟨⟩)
  · exact live

theorem Gone.stable (steady : Steady K) (status : ChildResult) : Stable Drift (Gone K status) := by
  rintro f f' (lives | rfl | rfl) gone
  · exact ⟨steady.lives f f' lives gone.kept, lives.past ▸ gone.reaped, lives.past ▸ gone.graceful, lives.exit gone.own⟩
  · exact ⟨steady.did f _ gone.kept, gone.reaped.elapsed, gone.graceful.cons (by rintro ⟨⟩), gone.own⟩
  · exact gone

theorem Steady.and {K' : Frame L → Prop} (steady : Steady K) (steady' : Steady K') : Steady fun f => K f ∧ K' f where
  lives f f' lives holds := ⟨steady.lives f f' lives holds.1, steady'.lives f f' lives holds.2⟩
  did f d holds := ⟨steady.did f d holds.1, steady'.did f d holds.2⟩

theorem steady_late : Steady fun f : Frame L => Late f.child.past where
  lives _ _ lives late := lives.past ▸ late
  did _ d late := late.cons d

theorem steady_mem (d : Deed) : Steady fun f : Frame L => d ∈ f.child.past where
  lives _ _ lives mem := lives.past ▸ mem
  did _ _ mem := List.mem_cons_of_mem _ mem

section Specs
variable {F : Bool → Prop}

/-- What a wait came to: the child is reaped, or a stop cancelled the wait. -/
def Waited (F : Bool → Prop) (K : Frame L → Prop) (o : Outcome ChildResult Fault) (f : Frame L) : Prop :=
  (∃ status, o = .ok status ∧ Gone K status f) ∨ (o = .error .operationCancelled ∧ F true ∧ Live K f)

theorem Waited.stable (steady : Steady K) (o : Outcome ChildResult Fault) : Stable Drift (Waited F K o) := by
  rintro f f' drift (⟨status, rfl, gone⟩ | ⟨rfl, flag, live⟩)
  · exact .inl ⟨status, rfl, Gone.stable steady status f f' drift gone⟩
  · exact .inr ⟨rfl, flag, Live.stable steady f f' drift live⟩

theorem Waited.sound {o : Outcome ChildResult Fault} (waited : Waited F K o f) : f.Sound := by
  obtain ⟨_, _, gone⟩ | ⟨_, _, live⟩ := waited
  · exact gone.sound
  · exact live.sound

theorem spec_waitChild (steady : Steady K) : Spec Drift F Frame.Sound (Live K) waitChild (Waited F K) := by
  refine Task.spec_bind (Q := fun o f => o = .ok () ∧ Live K f) ?_ ?_ ?_
  · refine Spec.exec (Live.stable steady) ?_ (fun _ live => live.sound) (fun _ _ done => done.2.sound) ?_
    · rintro o f f' drift ⟨rfl, live⟩
      exact ⟨rfl, Live.stable steady f f' drift live⟩
    · intro f live
      exact ⟨rfl, live.did steady .wait (by rintro _ ⟨⟩) (by rintro ⟨⟩)⟩
  · rintro ⟨⟩ p stable holds
    refine Spec.atomic stable (Waited.stable steady) (fun f at_ => (holds f at_).2) (fun o f waited => waited.sound) ?_
    intro stopped f o f' flag at_ done
    obtain ⟨⟨_, live⟩, _⟩ := holds f at_
    obtain ⟨status, rfl, exited, unreaped, rfl⟩ | ⟨_, reaped, _⟩ | ⟨rfl, rfl, rfl⟩ := done
    · exact .inl ⟨status, rfl, steady.did f _ live.kept, unreaped.reaped status, live.graceful.cons (by rintro ⟨⟩), exited⟩
    · exact absurd live.unreaped reaped
    · exact .inr ⟨rfl, flag, live⟩
  · rintro e f ⟨⟨⟩, _⟩

theorem spec_signalChild (steady : Steady K) (sig : Sig) (allowed : ∀ f, K f → sig = .sigkill → Late f.child.past) :
    Spec Drift (· = false) Frame.Sound (Live K) (signalChild sig) fun o f =>
      o = .ok () ∧ Live (fun f => K f ∧ .signal sig ∈ f.child.past) f := by
  have both := steady.and (steady_mem (.signal sig))
  refine Spec.atomic (Live.stable steady) ?_ (fun _ live => live.sound) (fun _ _ done => done.2.sound) ?_
  · rintro o f f' drift ⟨rfl, live⟩
    exact ⟨rfl, Live.stable both f f' drift live⟩
  · rintro stopped f o f' rfl live done
    obtain ⟨rfl, unreaped, rfl⟩ | ⟨_, reaped, _⟩ | ⟨_, stopped, _⟩ := done
    · refine ⟨rfl, ⟨steady.did f _ live.kept, List.mem_cons_self⟩, unreaped.cons (by rintro _ ⟨⟩), ?_⟩
      refine live.graceful.cons ?_
      rintro ⟨⟩
      exact allowed f live.kept rfl
    · exact absurd live.unreaped reaped
    · cases stopped

/-- What a read left: a chunk with `took`, or the end with `drained`. -/
def Read (K : Frame L → Prop) (took : Bytes → Frame L → Prop) (drained : Frame L → Prop) :
    Outcome (Option Bytes) Fault → Frame L → Prop
  | .ok (some chunk), f => Live (took chunk) f
  | .ok none, f => Live drained f
  | .error _, f => Live K f

theorem spec_takeSome {took : Bytes → Frame L → Prop} {drained : Frame L → Prop} (steady : Steady K)
    (steadyTook : ∀ chunk, Steady (took chunk)) (steadyOver : Steady drained)
    (chunk : ∀ f bytes, K f → bytes <+: f.child.written.drop f.child.taken →
      took bytes { f with child := { f.child with taken := f.child.taken + bytes.length } })
    (eof : ∀ f, K f → f.child.written.length ≤ f.child.taken → f.child.closed = true → drained f) :
    Spec Drift F Frame.Sound (Live K) takeSome (Read K took drained) := by
  refine Spec.atomic (Live.stable steady) ?_ (fun _ live => live.sound) ?_ ?_
  · rintro ((e | none | bytes))
    · exact Live.stable steady
    · exact Live.stable steadyOver
    · exact Live.stable (steadyTook bytes)
  · rintro ((e | none | bytes)) f read
    · exact Live.sound (K := K) read
    · exact Live.sound (K := drained) read
    · exact Live.sound (K := took bytes) read
  · rintro stopped g o g' _ live (⟨bytes, rfl, part, rfl⟩ | ⟨rfl, all, closed, rfl⟩ | ⟨⟨_, rfl⟩, rfl⟩ | ⟨rfl, _, rfl⟩)
    · exact ⟨chunk g bytes live.kept part, live.unreaped, live.graceful⟩
    · exact ⟨eof _ live.kept all closed, live.unreaped, live.graceful⟩
    · exact live
    · exact live

theorem moves_waitChild (moves : (waitChild : Task (Frame L) Fault ChildResult).Moves f f') :
    (∃ d, f' = f.did d) ∨ f' = f := by
  obtain first | ⟨o, second⟩ | rfl := moves_andThen moves
  · obtain ⟨_, o, done⟩ := moves_atomic first
    cases done
    exact .inl ⟨_, rfl⟩
  · cases o with
    | error e => exact absurd second moves_ret
    | ok _ =>
      obtain ⟨_, o, ⟨status, _, _, _, rfl⟩ | ⟨_, _, rfl⟩ | ⟨_, _, rfl⟩⟩ := moves_atomic second
      · exact .inl ⟨_, rfl⟩
      · exact .inr rfl
      · exact .inr rfl
  · exact .inr rfl

theorem moves_timeoutAfter (moves : (timeoutAfter : Task (Frame L) Fault A).Moves f f') : Drift f f' := by
  obtain first | ⟨o, second⟩ | rfl := moves_andThen moves
  · obtain ⟨_, o, ⟨_, rfl⟩ | ⟨_, _, rfl⟩⟩ := moves_atomic first
    · exact .inr (.inl rfl)
    · exact .inr (.inr rfl)
  · cases o with
    | error e => exact absurd second moves_ret
    | ok _ => exact absurd second moves_ret
  · exact .inr (.inr rfl)

theorem spec_timeoutAfter {env : Frame L → Frame L → Prop} (kept : Stable env fun f => .signal .sigterm ∈ f.child.past)
    (late : Stable env fun f => Late f.child.past) :
    Spec env (· = false) (fun _ => True) (fun f => .signal .sigterm ∈ f.child.past) (timeoutAfter : Task (Frame L) Fault A)
      fun o f => o = .error (.thrown .timeoutError) ∧ Late f.child.past := by
  refine Task.spec_bind (Q := fun o f => o = .ok () ∧ Late f.child.past) ?_ ?_ ?_
  · refine Spec.atomic kept ?_ (fun _ _ => .intro) (fun _ _ _ => .intro) ?_
    · rintro o f f' move ⟨rfl, holds⟩
      exact ⟨rfl, late f f' move holds⟩
    · rintro stopped f o f' rfl term (⟨rfl, rfl⟩ | ⟨_, stopped, _⟩)
      · exact ⟨rfl, [], f.child.past, rfl, term⟩
      · cases stopped
  · rintro ⟨⟩ p stable holds
    exact Spec.ret stable (fun _ _ => .intro) fun f at_ => ⟨rfl, (holds f at_).1.2⟩
  · rintro e f ⟨⟨⟩, _⟩

theorem Gone.mono {K' : Frame L → Prop} (gone : Gone K' status f) (weaker : ∀ f, K' f → K f) : Gone K status f :=
  ⟨weaker f gone.kept, gone.reaped, gone.graceful, gone.own⟩

theorem spec_graceful (steady : Steady K) : Spec Drift (· = false) Frame.Sound
    (Live fun f => K f ∧ .signal .sigterm ∈ f.child.past) (Task.withTimeout timeoutAfter waitChild) fun o f =>
      (∃ status, o = .ok status ∧ Gone K status f) ∨
        (o = .error (.thrown .timeoutError) ∧ Live (fun f => K f ∧ Late f.child.past) f) := by
  have term := steady.and (steady_mem (.signal .sigterm))
  have drifts : ∀ f f' : Frame L, Drift f f' ∨ Moves (timeoutAfter : Task (Frame L) Fault ChildResult) f f' → Drift f f' :=
    fun f f' moves => moves.elim id moves_timeoutAfter
  have keep : ∀ {K' : Frame L → Prop}, Steady K' →
      Stable (fun f f' => Drift f f' ∨ Moves (waitChild : Task (Frame L) Fault ChildResult) f f') K' := by
    rintro K' steady' f f' ((lives | rfl | rfl) | moves) holds
    · exact steady'.lives f f' lives holds
    · exact steady'.did f _ holds
    · exact holds
    · obtain ⟨d, rfl⟩ | rfl := moves_waitChild moves
      · exact steady'.did f d holds
      · exact holds
  have body := (spec_waitChild term : Spec Drift (fun _ => True) _ _ _ _)
  have quiet := (spec_waitChild term : Spec Drift (· = false) _ _ _ _)
  have timer := (spec_timeoutAfter (keep (steady_mem _)) (keep steady_late) : Spec _ _ _ _ (timeoutAfter : Task _ _ ChildResult) _)
  refine Task.spec_withTimeout
    (body.mono drifts (fun _ flag => flag) (fun _ live => live) (fun _ sound => sound) (fun _ _ post => post))
    (quiet.mono drifts (fun _ flag => flag) (fun _ live => live) (fun _ _ => .intro) (fun _ _ post => post))
    Spec.trivial (timer.consequence (fun _ live => live.kept.2) (fun _ _ post => post)) ?_
  rintro b t f waited _ first
  obtain ⟨status, rfl, gone⟩ | ⟨rfl, _, live⟩ := waited
  · exact .inl ⟨status, rfl, gone.mono fun _ holds => holds.1⟩
  · obtain (⟨_, never, _⟩ | ⟨_, never, _⟩) | ⟨rfl, late⟩ := first
    · cases never
    · cases never
    · exact .inr ⟨rfl, ⟨live.kept.1, late⟩, live.unreaped, live.graceful⟩

theorem spec_terminateAndWait (steady : Steady K) : Spec Drift F Frame.Sound (Live K) terminateAndWait fun o f =>
    ∃ status, o = .ok status ∧ Gone K status f := by
  have late := steady.and steady_late
  have killed := late.and (steady_mem (.signal .sigkill))
  refine Spec.shield (Task.spec_bind (spec_signalChild steady .sigterm (by rintro _ _ ⟨⟩)) ?_ (by rintro e f ⟨⟨⟩, _⟩))
  rintro ⟨⟩ p _ holds
  refine Task.spec_bind ((Task.spec_attempt (spec_graceful steady)).consequence (fun f at_ => (holds f at_).1.2)
    fun _ _ post => post) ?_ (by rintro e f ⟨_, ⟨⟩, _⟩)
  intro o p stable holds
  have cases_ := fun f at_ => (holds f at_).1
  match o with
  | .ok status =>
    refine Spec.ret stable (fun f at_ => (holds f at_).2) fun f at_ => ?_
    obtain ⟨_, ⟨⟩, ⟨_, ⟨⟩, gone⟩ | ⟨⟨⟩, _⟩⟩ := cases_ f at_
    exact ⟨status, rfl, gone⟩
  | .error (.thrown .timeoutError) =>
    refine Task.spec_bind ((spec_signalChild late .sigkill fun f holds _ => holds.2).consequence ?_ fun _ _ post => post) ?_
      (by rintro e f ⟨⟨⟩, _⟩)
    · intro f at_
      obtain ⟨_, ⟨⟩, ⟨_, ⟨⟩, _⟩ | ⟨_, live⟩⟩ := cases_ f at_
      exact live
    · rintro ⟨⟩ p _ holds
      refine (spec_waitChild killed).consequence (fun f at_ => (holds f at_).1.2) ?_
      rintro o f (⟨status, rfl, gone⟩ | ⟨_, never, _⟩)
      · exact ⟨status, rfl, gone.mono fun _ holds => holds.1.1⟩
      · cases never
  | .error (.thrown (.errnoError _)) | .error (.thrown (.effectError _ _)) | .error .operationCancelled
  | .error (.runtimeError _) | .error (.logicError _) | .error (.exceptionGroup _ _) =>
    refine Spec.ret stable (fun f at_ => (holds f at_).2) fun f at_ => ?_
    obtain ⟨_, ⟨⟩, ⟨_, ⟨⟩, _⟩ | ⟨⟨⟩, _⟩⟩ := cases_ f at_

end Specs

/-- What becomes of a child that has exited when it is terminated and waited for. -/
def Frame.terminated (f : Frame L) (status : ChildResult) : Frame L :=
  ((f.did (.signal .sigterm)).did .wait).did (.reaped status)

theorem gives_terminateAndWait {F : Bool → Prop} (flag : F false) (exited : f.child.exit = some status)
    (unreaped : Unreaped f.child.past) : Gives F terminateAndWait f (.ok status) (f.terminated status) := by
  have term : Unreaped (f.did (.signal .sigterm)).child.past := unreaped.cons (by rintro _ ⟨⟩)
  have calm : ∃ stopped, (· = false) stopped := ⟨false, rfl⟩
  have signal : Gives (· = false) (signalChild .sigterm) f (.ok ()) (f.did (.signal .sigterm)) :=
    gives_atomic false rfl (.inl ⟨rfl, unreaped, rfl⟩)
  have wait : Gives (· = false) waitChild (f.did (.signal .sigterm)) (.ok status) (f.terminated status) := by
    have ask : Gives (· = false) (exec fun f : Frame L => ((.ok () : Outcome Unit Fault), f.did .wait))
        (f.did (.signal .sigterm)) (.ok ()) ((f.did (.signal .sigterm)).did .wait) := gives_exec rfl rfl
    refine Gives.andThen ask calm (gives_atomic false rfl (.inl ⟨status, rfl, exited, ?_, rfl⟩))
    exact term.cons (by rintro _ ⟨⟩)
  -- The wait is over first, and the timer is stopped.
  have timer : Gives (· = true) (timeoutAfter : Task (Frame L) Fault ChildResult) (f.terminated status)
      (.error .operationCancelled) (f.terminated status) :=
    Gives.andThen (gives_atomic true rfl (.inr ⟨rfl, rfl, rfl⟩)) ⟨true, rfl⟩ gives_ret
  have group : Gives (· = false) (Task.settle (asking firstCompletionGroup) () ![waitChild, timeoutAfter]) (f.did (.signal .sigterm))
      (.ok [.ok status, .error .operationCancelled]) (f.terminated status) :=
    gives_settle (fun _ => rfl) wait timer fun i => by fin_cases i <;> rfl
  have graceful : Gives (· = false) (Task.withTimeout timeoutAfter waitChild) (f.did (.signal .sigterm)) (.ok status)
      (f.terminated status) := Gives.andThen group calm gives_ret
  have body : Gives (· = false) terminateAndWaitImpl f (.ok status) (f.terminated status) :=
    Gives.andThen signal calm (Gives.andThen (Gives.andThen graceful calm gives_ret) calm gives_ret)
  exact body.shield flag

end Nxt.Runtime
