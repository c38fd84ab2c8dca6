import Nxt.Runtime.Structured

/- The rules of the task combinators, and `with_timeout` (task/concurrent.hpp). -/
namespace Nxt.Runtime
open Nxt.Lib Coroutine

/-- Stop the others when any job settles. -/
def firstCompletionGroup (_ : Completion) : Bool := true

/-- Stop the companions when the first job settles. -/
def primaryGroup (c : Completion) : Bool := c.index == 0

def asking (policy : Completion → Bool) (_ : Unit) (c : Completion) : Bool × Unit := (policy c, ())

namespace Task
variable {W E A B T : Type}

/-- What `with_timeout` gives: a value of the body wins over the timer, and an ordinary failure too. -/
def expired (body timeout : Outcome T E) : Outcome T E :=
  match body, timeout with
  | .ok v, _ => .ok v
  | .error .operationCancelled, .error e => .error e
  | .error e, _ => .error e

/-- `with_timeout`; the timer is `timeout_after`. -/
def withTimeout (timer body : Task W E T) : Task W E T := do
  match ← settle (asking firstCompletionGroup) () ![body, timer] with
  | [body, timeout] => Coroutine.ret (expired body timeout)
  | _ => throw (.logicError "nxtrt with_timeout returned without result")

section Rules
variable {env : W → W → Prop} {F : Bool → Prop} {G P : W → Prop} {Q : Outcome A E → W → Prop} {R : Outcome B E → W → Prop}

theorem spec_bind {m : Task W E A} {k : A → Task W E B} (first : Spec env F G P m Q)
    (second : ∀ (a : A) (p : W → Prop), Stable env p → (∀ w, p w → Q (.ok a) w ∧ G w) → Spec env F G p (k a) R)
    (failed : ∀ e w, Q (.error e) w → R (.error e) w) : Spec env F G P (bind m k) R := by
  refine Spec.sequence first fun o p stable holds => ?_
  cases o with
  | ok a => exact second a p stable holds
  | error e => exact Spec.ret stable (fun w at_ => (holds w at_).2) fun w at_ => failed e w (holds w at_).1

theorem spec_attempt {m : Task W E A} (spec : Spec env F G P m Q) :
    Spec env F G P (attempt m) fun o w => ∃ r, o = .ok r ∧ Q r w := by
  refine Spec.sequence spec fun o p stable holds => ?_
  exact Spec.ret stable (fun w at_ => (holds w at_).2) fun w at_ => ⟨o, rfl, (holds w at_).1⟩

theorem spec_finally {child : Task W E A} {cleanup : Task W E Unit} {S : Outcome A E → Outcome Unit E → W → Prop}
    {R : Outcome A E → W → Prop} (body : Spec env F G P child Q)
    (cleaned : ∀ r, Spec env (· = false) G (Q r) cleanup (S r)) (post : ∀ r c w, S r c w → R (concluded r c) w) :
    Spec env F G P (finally_ child cleanup) R := by
  refine body.andThen fun r => Spec.sequence (Spec.shield (cleaned r)) fun c p stable holds => ?_
  exact Spec.ret stable (fun w at_ => (holds w at_).2) fun w at_ => post r c w (holds w at_).1

theorem spec_withTimeout {timer body : Task W E T} {B B₀ C C₀ R : Outcome T E → W → Prop}
    (bodySpec : Spec (fun w w' => env w w' ∨ Moves timer w w') (fun _ => True) G P body B)
    (bodyQuiet : Spec (fun w w' => env w w' ∨ Moves timer w w') (· = false) (fun _ => True) P body B₀)
    (timerSpec : Spec (fun w w' => env w w' ∨ Moves body w w') (fun _ => True) (fun _ => True) P timer C)
    (timerQuiet : Spec (fun w w' => env w w' ∨ Moves body w w') (· = false) (fun _ => True) P timer C₀)
    (post : ∀ b t w, B b w → C t w → B₀ b w ∨ C₀ t w → R (expired b t) w) :
    Spec env (· = false) G P (withTimeout timer body) R := by
  have around₀ : ∀ w w', around env ![body, timer] 0 w w' → env w w' ∨ Moves timer w w' := by
    rintro w w' (move | ⟨j, other, move⟩)
    · exact .inl move
    · obtain rfl := Fin.eq_one_of_ne_zero j other
      exact .inr move
  have around₁ : ∀ w w', around env ![body, timer] 1 w w' → env w w' ∨ Moves body w w' := by
    rintro w w' (move | ⟨j, other, move⟩)
    · exact .inl move
    · obtain rfl : j = 0 := by
        by_contra none_
        exact other (Fin.eq_one_of_ne_zero j none_)
      exact .inr move
  have group : Spec env (· = false) G P (settle (asking firstCompletionGroup) () ![body, timer]) fun o w =>
      ∃ b t, o = .ok [b, t] ∧ B b w ∧ C t w ∧ (B₀ b w ∨ C₀ t w) := by
    constructor
    · intro w x reach
      have settled := reach_settle reach
      obtain ⟨child, here⟩ := settled.child 0
      exact bodySpec.always w _ ((settled.job 0 child here).mono around₀ (fun _ _ _ => trivial) (fun _ holds => holds))
    · intro w x r reach ended
      have settled := reach_settle reach
      have alone := reach_alone (fun _ _ flag => flag) reach
      obtain ⟨os, rfl, length, each⟩ :=
        settled.outcomes alone (fun i => reach_started i (fun _ _ _ flag _ _ => flag) reach) ended
      obtain ⟨b, t, rfl⟩ := List.length_eq_two.mp length
      obtain ⟨bodyChild, hereBody⟩ := settled.child 0
      obtain ⟨timerChild, hereTimer⟩ := settled.child 1
      obtain ⟨_, ⟨⟩, _, doneBody⟩ := each 0 bodyChild hereBody
      obtain ⟨_, ⟨⟩, _, doneTimer⟩ := each 1 timerChild hereTimer
      have bodyRun := settled.job 0 bodyChild hereBody
      have timerRun := settled.job 1 timerChild hereTimer
      refine ⟨b, t, rfl, ?_, ?_, ?_⟩
      · exact bodySpec.ended w _ b (bodyRun.mono around₀ (fun _ _ _ => trivial) (fun _ holds => holds)) doneBody
      · exact timerSpec.ended w _ t (timerRun.mono around₁ (fun _ _ _ => trivial) (fun _ holds => holds)) doneTimer
      · cases asked : bodyChild.stopRequested with
        | false =>
          left
          refine bodyQuiet.ended w _ b (bodyRun.mono around₀ (fun _ flag told => ?_) (fun _ holds => holds)) doneBody
          rw [asked] at told
          simpa using told
        | true =>
          right
          obtain ⟨j, other, _, apart, there, _, quiet⟩ := settled.unasked alone hereBody asked
          have inside := (List.getElem?_eq_some_iff.mp there).1
          rw [settled.length] at inside
          obtain rfl : j = 1 := by
            have apart : j ≠ 0 := apart
            omega
          cases hereTimer.symm.trans there
          refine timerQuiet.ended w _ t (timerRun.mono around₁ (fun _ flag told => ?_) (fun _ holds => holds)) doneTimer
          rw [quiet] at told
          simpa using told
  refine spec_bind group ?_ ?_
  · rintro outcomes p stable holds
    match outcomes with
    | [b, t] =>
      refine Spec.ret stable (fun w at_ => (holds w at_).2) fun w at_ => ?_
      obtain ⟨⟨b', t', same, holdsB, holdsC, quiet⟩, _⟩ := holds w at_
      cases same
      exact post _ _ w holdsB holdsC quiet
    | [] | [_] | _ :: _ :: _ :: _ =>
      refine Spec.ret stable (fun w at_ => (holds w at_).2) fun w at_ => ?_
      obtain ⟨⟨b, t, same, _⟩, _⟩ := holds w at_
      cases same
  · rintro e w ⟨b, t, same, _⟩
    cases same

end Rules

end Task

section Runs
variable {W E T : Type} {policy : Completion → Bool} {jobs : Fin 2 → Task W E T} {w w' w'' : W} {x y : Outcome T E}

/-- The first of two jobs ends, and the policy stops the other. -/
theorem gives_settle (stops : ∀ failed, policy ⟨0, failed⟩ = true) (first : Gives (· = false) (jobs 0) w x w')
    (second : Gives (· = true) (jobs 1) w' y w'') (begun : ∀ i, (jobs i).outcome (jobs i).start = none) :
    Gives (· = false) (Task.settle (asking policy) () jobs) w (.ok [x, y]) w'' := by
  let ss : (i : Fin 2) → (jobs i).State := fun i => (jobs i).start
  let started : Group T E Unit :=
    { children := [{ stage := .started, starts := 1 }, { stage := .started, starts := 1 }]
      policy := ()
      phase := .draining
      pending := 2 }
  let both : Group T E Unit :=
    { children := [{ stage := .done x, starts := 1 }, { stage := .started, starts := 1, stopRequested := true }]
      policy := ()
      phase := .draining
      pending := 1
      stopping := true
      completions := [⟨0, x.failed⟩]
      consulted := [(⟨0, x.failed⟩, true)] }
  have begin_ : Steps (· = false) (Task.settle (asking policy) () jobs) w (Task.settle (asking policy) () jobs).start
      w ⟨started, ss⟩ := by
    refine .tail (.tail (.tail .refl rfl rfl (@Settle.visit _ _ _ _ _ _ _ _ _ _ _ _ { stage := .fresh false } rfl rfl)) rfl rfl
      (@Settle.visit _ _ _ _ _ _ _ _ _ _ _ _ { stage := .fresh false } rfl rfl)) rfl rfl (.await rfl)
  obtain ⟨s, steps, done⟩ := first
  obtain ⟨t, steps', done'⟩ := second
  have onto : started.finish (asking policy) ((0 : Fin 2) : Nat) { stage := .started, starts := 1 } x = both := by
    simp only [Group.finish, Group.completed, asking, Fin.val_zero, stops]
    rfl
  have one := onto ▸ @steps_job _ _ _ _ _ (asking policy) () jobs _ _ ss started 0 _ _ s _ rfl rfl rfl rfl steps (begun 0) done
  have two := @steps_job _ _ _ _ _ (asking policy) () jobs _ _ (Function.update ss 0 s) both 1 _ _ t _ rfl rfl rfl rfl steps'
    (begun 1) done'
  exact ⟨_, .tail ((begin_.trans one).trans two) rfl rfl (.resume rfl rfl), rfl⟩

end Runs

end Nxt.Runtime
