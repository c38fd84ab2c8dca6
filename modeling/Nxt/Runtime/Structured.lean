import Nxt.Lib.Coroutine
import Nxt.Runtime.Settle

/- Tasks made of tasks (task/compose.hpp, task/concurrent.hpp). A task is a coroutine that ends with a
   value or an exception; `settle` resumes the jobs of a group, and a job runs as it would alone with
   the other jobs as a part of its world. -/
namespace Nxt.Runtime
open Nxt.Lib List

/-- `task<A>`, over what the tasks of the program share. -/
def Task (W E A : Type) := Coroutine W (Outcome A E)

namespace Task
variable {W E A B : Type}

/-- `co_await` without a handler around it. -/
def bind (m : Task W E A) (k : A → Task W E B) : Task W E B :=
  Coroutine.andThen m fun
    | .ok a => k a
    | .error e => Coroutine.ret (.error e)

instance : Monad (Task W E) where
  pure a := Coroutine.ret (.ok a)
  bind := bind

def throw (e : Exn E) : Task W E A := Coroutine.ret (.error e)

/-- `try`: what the task came to, for the handlers. -/
def attempt (m : Task W E A) : Task W E (Outcome A E) := Coroutine.andThen m fun o => Coroutine.ret (.ok o)

def shield (child : Task W E A) : Task W E A := Coroutine.shield child

/-- The end of `finally`. -/
def concluded : Outcome A E → Outcome Unit E → Outcome A E
  | .error body, .error cleanup => .error (.exceptionGroup "task body and cleanup failed" [body, cleanup])
  | .ok _, .error cleanup => .error cleanup
  | result, .ok _ => result

def finally_ (child : Task W E A) (cleanup : Task W E Unit) : Task W E A :=
  Coroutine.andThen child fun result =>
    Coroutine.andThen (shield cleanup) fun cleaned => Coroutine.ret (concluded result cleaned)

end Task

/-- The callback on the parent's stop token runs before anything else of the group does. -/
def Group.heed {T E P : Type} (stopped : Bool) (g : Group T E P) : Group T E P :=
  if stopped && !g.parentStopped then g.stopParent else g

def Group.report {T E P : Type} (ask : P → Completion → Bool × P) (g : Group T E P) (i : Nat) (child : Child T E) :
    Option (Outcome T E) → Group T E P
  | none => g
  | some result => g.finish ask i child result

structure Settling {W E T : Type} {n : Nat} (P : Type) (jobs : Fin n → Task W E T) where
  group : Group T E P
  states : (i : Fin n) → (jobs i).State

inductive Settle {W E T P : Type} {n : Nat} (ask : P → Completion → Bool × P) (jobs : Fin n → Task W E T) :
    Bool → W → Settling P jobs → W → Settling P jobs → Prop where
  | visit {stopped : Bool} {w : W} {g : Group T E P} {ss : (i : Fin n) → (jobs i).State} {i : Nat} {child : Child T E} :
      g.phase = .starting i → (g.heed stopped).children[i]? = some child →
      Settle ask jobs stopped w ⟨g, ss⟩ w ⟨(g.heed stopped).visit ask i child none, ss⟩
  | await {stopped : Bool} {w : W} {g : Group T E P} {ss : (i : Fin n) → (jobs i).State} :
      g.phase = .starting g.children.length →
      Settle ask jobs stopped w ⟨g, ss⟩ w ⟨{ g.heed stopped with phase := .draining }, ss⟩
  | job {stopped : Bool} {w w' : W} {g : Group T E P} {ss : (i : Fin n) → (jobs i).State} {i : Fin n}
      {child : Child T E} {s' : (jobs i).State} :
      g.phase = .draining → (g.heed stopped).children[i.val]? = some child → child.stage = .started →
      ((jobs i).Step child.stopRequested w (ss i) w' s' ∨ w' = w ∧ s' = ss i) →
      Settle ask jobs stopped w ⟨g, ss⟩ w'
        ⟨(g.heed stopped).report ask i child ((jobs i).outcome s'), Function.update ss i s'⟩
  | resume {stopped : Bool} {w : W} {g : Group T E P} {ss : (i : Fin n) → (jobs i).State} :
      g.phase = .draining → g.pending = 0 →
      Settle ask jobs stopped w ⟨g, ss⟩ w ⟨{ g.heed stopped with phase := .returned (g.heed stopped).result }, ss⟩

namespace Task
variable {W E T P : Type} {n : Nat}

/-- `settle` on tasks that have not run, with room for them in the deck's table. -/
def settle (ask : P → Completion → Bool × P) (policy : P) (jobs : Fin n → Task W E T) : Task W E (List (Outcome T E)) where
  State := Settling P jobs
  start := ⟨Group.ofJobs (replicate n (.fresh false)) policy, fun i => (jobs i).start⟩
  Step := Settle ask jobs
  outcome s :=
    match s.group.phase with
    | .returned r => some r
    | _ => none

end Task

namespace Group
variable {T E P : Type} {ask : P → Completion → Bool × P} {g : Group T E P}

/-- What a change of the group leaves to a job: a stop is never withdrawn, what has run stays so, and
    it ends only by `ended`. -/
structure Kept (child child' : Child T E) (ended : Outcome T E → Prop) : Prop where
  stops : child.stopRequested = true → child'.stopRequested = true
  fresh : ∀ observed, child'.stage = .fresh observed → child.stage = .fresh observed
  done : ∀ r, child'.stage = .done r → child.stage = .done r ∨ ended r

def Keeps (g g' : Group T E P) (ended : Nat → Outcome T E → Prop) : Prop :=
  ∀ (j : Nat) (child' : Child T E), g'.children[j]? = some child' →
    ∃ child, g.children[j]? = some child ∧ Kept child child' (ended j)

theorem Kept.refl (child : Child T E) (ended : Outcome T E → Prop) : Kept child child ended :=
  ⟨id, fun _ fresh => fresh, fun _ done => .inl done⟩

theorem Kept.trans {a b c : Child T E} {first second : Outcome T E → Prop} (ab : Kept a b first) (bc : Kept b c second) :
    Kept a c fun r => first r ∨ second r where
  stops := bc.stops ∘ ab.stops
  fresh observed fresh := ab.fresh observed (bc.fresh observed fresh)
  done r done := by
    obtain old | new := bc.done r done
    · exact (ab.done r old).imp_right .inl
    · exact .inr (.inr new)

theorem Kept.mono {a b : Child T E} {ended ended' : Outcome T E → Prop} (kept : Kept a b ended)
    (weaker : ∀ r, ended r → ended' r) : Kept a b ended' :=
  ⟨kept.stops, kept.fresh, fun r done => (kept.done r done).imp_right (weaker r)⟩

theorem Keeps.same {g' : Group T E P} (same : g'.children = g.children) (ended : Nat → Outcome T E → Prop) :
    g.Keeps g' ended :=
  fun _ child here => ⟨child, same ▸ here, .refl child _⟩

theorem keeps_stop (g : Group T E P) (ended : Nat → Outcome T E → Prop) : g.Keeps g.stop ended := by
  intro j child' here
  have here : (g.children.map Child.stop)[j]? = some child' := here
  rw [getElem?_map] at here
  obtain ⟨child, there, rfl⟩ := Option.map_eq_some_iff.mp here
  refine ⟨child, there, ?_, ?_, ?_⟩
  · intro stopped
    unfold Child.stop
    split <;> simp [stopped]
  · intro observed fresh
    rwa [(stop_stage child).1] at fresh
  · intro r done
    rw [(stop_stage child).1] at done
    exact .inl done

theorem keeps_heed (g : Group T E P) (stopped : Bool) (ended : Nat → Outcome T E → Prop) : g.Keeps (g.heed stopped) ended := by
  unfold heed
  split
  · exact keeps_stop { g with parentStopped := true } ended
  · exact .same rfl ended

theorem keeps_completed (g : Group T E P) (c : Completion) (ended : Nat → Outcome T E → Prop) :
    g.Keeps (g.completed ask c) ended := by
  unfold completed
  simp only
  split
  · exact .same rfl ended
  · split
    · exact keeps_stop { g with
        completions := g.completions ++ [c]
        policy := (ask g.policy c).2
        consulted := g.consulted ++ [(c, (ask g.policy c).1)] } ended
    · exact .same rfl ended

theorem Keeps.set {g' : Group T E P} {i : Nat} {child new : Child T E} {ended : Nat → Outcome T E → Prop}
    (here : g.children[i]? = some child) (changed : g'.children = g.children.set i new)
    (kept : Kept child new (ended i)) : g.Keeps g' ended := by
  intro j child' there
  rw [changed, getElem?_set] at there
  by_cases same : i = j
  · subst same
    rw [if_pos rfl] at there
    split at there
    · cases there
      exact ⟨child, here, kept⟩
    · cases there
  · rw [if_neg same] at there
    exact ⟨child', there, .refl child' _⟩

theorem keeps_finish {i : Nat} {child : Child T E} (here : g.children[i]? = some child) (r : Outcome T E) :
    g.Keeps (g.finish ask i child r) fun j x => j = i ∧ x = r := by
  have set : g.Keeps { g with children := g.children.set i { child with stage := .done r } } fun j x => j = i ∧ x = r := by
    refine .set here rfl ⟨id, by rintro _ ⟨⟩, ?_⟩
    rintro x ⟨⟩
    exact .inr ⟨rfl, rfl⟩
  intro j child'' there
  obtain ⟨child', here', kept'⟩ := @keeps_completed _ _ _ ask _ ⟨i, r.failed⟩ (fun _ _ => False) j child'' there
  obtain ⟨child₀, here₀, kept⟩ := set j child' here'
  exact ⟨child₀, here₀, (kept.trans kept').mono fun x ended => ended.resolve_right id⟩

theorem visit_fresh {i : Nat} {child : Child T E} (fresh : child.stage = .fresh false) :
    g.visit ask i child none =
      if g.stopping then { g with phase := .starting (i + 1) }
      else { g with
        phase := .starting (i + 1)
        children := g.children.set i { child with stage := .started, starts := child.starts + 1 }
        pending := g.pending + 1 } := by
  unfold visit
  simp only [fresh, Bool.false_eq_true, if_false]

theorem keeps_visit {i : Nat} {child : Child T E} (here : g.children[i]? = some child) (fresh : child.stage = .fresh false)
    (ended : Nat → Outcome T E → Prop) : g.Keeps (g.visit ask i child none) ended := by
  rw [visit_fresh fresh]
  split
  · exact .same rfl ended
  · exact .set here rfl ⟨id, by rintro _ ⟨⟩, by rintro _ ⟨⟩⟩

theorem phase_heed (g : Group T E P) (stopped : Bool) : (g.heed stopped).phase = g.phase := by
  unfold heed
  split <;> rfl

theorem run_heed {jobs : List (Job T E)} {policy : P} (run : Run ask jobs policy g) (stopped : Bool)
    (active : ∀ r, g.phase ≠ .returned r) : Run ask jobs policy (g.heed stopped) := by
  unfold heed
  split
  · exact .step run (.stopParent g active)
  · exact run

theorem clean_heed (g : Group T E P) (stopped : Bool) : (g.heed stopped).setupFailure = g.setupFailure := by
  unfold heed
  split <;> rfl

theorem length_heed (g : Group T E P) (stopped : Bool) : (g.heed stopped).children.length = g.children.length := by
  unfold heed
  split
  · exact length_map ..
  · rfl

theorem pending_heed (g : Group T E P) (stopped : Bool) : (g.heed stopped).pending = g.pending := by
  unfold heed
  split <;> rfl

theorem ofJobs_replicate (n : Nat) (policy : P) : Group.ofJobs (replicate n (.fresh false : Job T E)) policy =
      { children := replicate n { stage := .fresh false }, policy, phase := .starting 0 } := by
  have fresh : ∀ m : Nat, (replicate m (.fresh false : Job T E)).mapM Child.ofJob =
      some (replicate m { stage := .fresh false }) := by
    intro m
    induction m with
    | zero => rfl
    | succ m ih => simp [replicate_succ, ih, Child.ofJob]
  simp [Group.ofJobs, fresh]

theorem run_unvisited {n i : Nat} {policy : P} {child : Child T E} (run : Run ask (replicate n (.fresh false)) policy g)
    (setup : g.phase = .starting i) (here : g.children[i]? = some child) : child.stage = .fresh false := by
  have entry := getElem?_census here
  have unstarted : child.starts = 0 := (run_sound run).ahead i setup i _ le_rfl entry
  obtain ⟨job, at_, gives⟩ := (run_origin run).each i _ entry
  rw [getElem?_replicate] at at_
  split at at_
  · cases at_
    obtain ⟨fresh, _⟩ | once := gives
    · exact fresh
    · omega
  · cases at_

end Group

section Settle
variable {W E T P : Type} {n : Nat} {env : W → W → Prop} {start : W → Prop} {ask : P → Completion → Bool × P} {policy : P}
  {jobs : Fin n → Task W E T}

/-- What moves the world of a job besides itself: the world of the group, and the other jobs. -/
def around (env : W → W → Prop) (jobs : Fin n → Task W E T) (i : Fin n) (w w' : W) : Prop :=
  env w w' ∨ ∃ j, j ≠ i ∧ Coroutine.Moves (jobs j) w w'

/-- The group as `run_group` has it, and each job as it would run alone, where it sees a stop only
    when the group asked it to. -/
structure Settled (env : W → W → Prop) (start : W → Prop) (ask : P → Completion → Bool × P) (policy : P)
    (jobs : Fin n → Task W E T) (w : W) (x : Settling P jobs) : Prop where
  run : Group.Run ask (replicate n (.fresh false)) policy x.group
  clean : x.group.setupFailure = none
  job : ∀ (i : Fin n) (child : Child T E), x.group.children[i.val]? = some child →
    Coroutine.Reach (around env jobs i) start (jobs i) (fun _ stopped => stopped = true → child.stopRequested = true)
      w (x.states i)
  done : ∀ (i : Fin n) (child : Child T E) (r : Outcome T E), x.group.children[i.val]? = some child →
    child.stage = .done r → (jobs i).outcome (x.states i) = some r

variable {w w' : W} {g' : Group T E P} {x : Settling P jobs} {f : Settling P jobs → Bool → Prop} {i : Nat}
  {ss : (i : Fin n) → (jobs i).State}

theorem Settled.keeps {g : Group T E P} (settled : Settled env start ask policy jobs w ⟨g, ss⟩) (run : Group.Run ask (replicate n (.fresh false)) policy g')
    (clean : g'.setupFailure = none) (keeps : g.Keeps g' fun _ _ => False) :
    Settled env start ask policy jobs w ⟨g', ss⟩ where
  run := run
  clean := clean
  job i child' here := by
    obtain ⟨child, there, kept⟩ := keeps i child' here
    exact (settled.job i child there).mono (fun _ _ move => move) (fun _ _ flag stopped => kept.stops (flag stopped))
      (fun _ holds => holds)
  done i child' r here ended := by
    obtain ⟨child, there, kept⟩ := keeps i child' here
    exact settled.done i child r there ((kept.done r ended).resolve_right id)

theorem Settled.heed {g : Group T E P} (settled : Settled env start ask policy jobs w ⟨g, ss⟩) (stopped : Bool)
    (active : ∀ r, g.phase ≠ .returned r) : Settled env start ask policy jobs w ⟨g.heed stopped, ss⟩ :=
  settled.keeps (Group.run_heed settled.run stopped active) ((Group.clean_heed g stopped).trans settled.clean)
    (Group.keeps_heed g stopped _)

theorem Settled.resume {g : Group T E P} {i : Fin n} {child : Child T E}
    {s' : (jobs i).State} (settled : Settled env start ask policy jobs w ⟨g, ss⟩)
    (here : g.children[i.val]? = some child) (started : child.stage = .started)
    (step : (jobs i).Step child.stopRequested w (ss i) w' s' ∨ w' = w ∧ s' = ss i)
    (run : Group.Run ask (replicate n (.fresh false)) policy g') (clean : g'.setupFailure = none)
    (keeps : g.Keeps g' fun j r => j = i.val ∧ (jobs i).outcome s' = some r) :
    Settled env start ask policy jobs w' ⟨g', Function.update ss i s'⟩ where
  run := run
  clean := clean
  job j child' there := by
    obtain ⟨before, found, kept⟩ := keeps j child' there
    have reach := (settled.job j before found).mono (fun _ _ move => move)
      (fun _ _ flag stopped => kept.stops (flag stopped)) (fun _ holds => holds)
    show Coroutine.Reach _ _ _ _ w' (Function.update ss i s' j)
    by_cases same : j = i
    · subst same
      cases here.symm.trans found
      rw [Function.update_self]
      obtain step | ⟨rfl, rfl⟩ := step
      · exact .step reach kept.stops step
      · exact reach
    · rw [Function.update_of_ne same]
      obtain step | ⟨rfl, _⟩ := step
      · exact .env reach (.inr ⟨i, fun eq => same eq.symm, _, _, _, step⟩)
      · exact reach
  done j child' r there ended := by
    obtain ⟨before, found, kept⟩ := keeps j child' there
    show (jobs j).outcome (Function.update ss i s' j) = some r
    by_cases same : j = i
    · subst same
      cases here.symm.trans found
      rw [Function.update_self]
      obtain old | ⟨_, done⟩ := kept.done r ended
      · rw [started] at old
        cases old
      · exact done
    · rw [Function.update_of_ne same]
      obtain old | ⟨eq, _⟩ := kept.done r ended
      · exact settled.done j before r found old
      · exact absurd (Fin.ext eq) same

theorem Settled.step {stopped : Bool} {x' : Settling P jobs} (settled : Settled env start ask policy jobs w x)
    (step : Settle ask jobs stopped w x w' x') : Settled env start ask policy jobs w' x' := by
  cases step with
  | @visit g ss i child setup here =>
    have heeded := settled.heed stopped (by rw [setup]; rintro r ⟨⟩)
    have setup := (Group.phase_heed g stopped).trans setup
    have fresh := Group.run_unvisited heeded.run setup here
    refine heeded.keeps (.step heeded.run (.visit _ i child none setup here)) ?_ (Group.keeps_visit here fresh _)
    rw [Group.visit_fresh fresh]
    split <;> exact heeded.clean
  | @await g ss setup =>
    have heeded := settled.heed stopped (by rw [setup]; rintro r ⟨⟩)
    have setup : (g.heed stopped).phase = .starting (g.heed stopped).children.length := by
      rw [Group.phase_heed, Group.length_heed, setup]
    exact heeded.keeps (.step heeded.run (.await _ setup)) heeded.clean (.same rfl _)
  | @job _ g ss i child s' waits here started step =>
    have heeded := settled.heed stopped (by rw [waits]; rintro r ⟨⟩)
    have waits := (Group.phase_heed g stopped).trans waits
    cases ended : (jobs i).outcome s' with
    | none =>
      exact heeded.resume here started step heeded.run heeded.clean (.same rfl _)
    | some r =>
      refine heeded.resume here started step (.step heeded.run (.finish _ i child r waits here started)) ?_ ?_
      · exact (Group.completed_frame ask _ _).2.2.trans heeded.clean
      · intro j child' there
        obtain ⟨before, there, kept⟩ := Group.keeps_finish here r j child' there
        refine ⟨before, there, kept.mono ?_⟩
        rintro x ⟨rfl, rfl⟩
        exact ⟨rfl, ended⟩
  | @resume g ss waits arrived =>
    have heeded := settled.heed stopped (by rw [waits]; rintro r ⟨⟩)
    have waits := (Group.phase_heed g stopped).trans waits
    have arrived := (Group.pending_heed g stopped).trans arrived
    exact heeded.keeps (.step heeded.run (.resume _ waits arrived)) heeded.clean (.same rfl _)

theorem reach_settle {x : (Task.settle ask policy jobs).State}
    (reach : Coroutine.Reach env start (Task.settle ask policy jobs) f w x) : Settled env start ask policy jobs w x := by
  induction reach with
  | start holds =>
    refine ⟨.start, ?_, fun i child here => .start holds, fun i child r here done => ?_⟩
    · show (Group.ofJobs _ _).setupFailure = none
      rw [Group.ofJobs_replicate]
    · have here : (Group.ofJobs _ _).children[i.val]? = some child := here
      simp only [Group.ofJobs_replicate, getElem?_replicate] at here
      split at here
      · cases here
        cases done
      · cases here
  | step _ _ step ih => exact ih.step step
  | env _ move ih => exact ⟨ih.run, ih.clean, fun i child here => .env (ih.job i child here) (.inl move), ih.done⟩

theorem reach_alone {x : (Task.settle ask policy jobs).State} (alone : ∀ s b, f s b → b = false)
    (reach : Coroutine.Reach env start (Task.settle ask policy jobs) f w x) : x.group.parentStopped = false := by
  have completed : ∀ (g : Group T E P) (c : Completion), (g.completed ask c).parentStopped = g.parentStopped := by
    intro g c
    unfold Group.completed
    simp only
    split
    · rfl
    · split <;> rfl
  induction reach with
  | start holds =>
    show (Group.ofJobs _ _).parentStopped = false
    rw [Group.ofJobs_replicate]
  | step reach flag step ih =>
    cases alone _ _ flag
    have settled := reach_settle reach
    cases step with
    | @visit g ss i child setup here =>
      show (g.visit ask i child none).parentStopped = false
      rw [Group.visit_fresh (Group.run_unvisited settled.run setup here)]
      split <;> exact ih
    | await setup => exact ih
    | @job _ g ss i child s' waits here started step =>
      show (g.report ask i child ((jobs i).outcome s')).parentStopped = false
      cases (jobs i).outcome s' with
      | none => exact ih
      | some r => exact (completed _ _).trans ih
    | resume waits arrived => exact ih
  | env _ _ ih => exact ih

section
variable (settled : Settled env start ask policy jobs w x)
include settled

/-- In a group that stops at its first completion, and is not stopped itself, a job that was asked
    to stop was asked because another job ended that was not. -/
theorem Settled.unasked
    (alone : x.group.parentStopped = false) {child : Child T E} (here : x.group.children[i]? = some child)
    (asked : child.stopRequested = true) :
    ∃ j other r, j ≠ i ∧ x.group.children[j]? = some other ∧ other.stage = .done r ∧ other.stopRequested = false := by
  have sound := Group.run_sound settled.run
  have stopping : x.group.stopping = true := by
    by_contra running
    rw [sound.unasked (by simpa using running) child (mem_of_getElem? here)] at asked
    cases asked
  obtain parent | failed | ⟨c, told⟩ := sound.caused stopping
  · rw [alone] at parent
    cases parent
  · exact absurd settled.clean failed
  · have seen := sound.log.prefixed.subset (mem_map.mpr ⟨_, told, rfl⟩)
    obtain ⟨r, count, entry, _⟩ := sound.recorded c seen
    obtain ⟨other, there, stage, _⟩ := Group.census_getElem? entry
    have quiet := sound.trigger c told other there
    refine ⟨c.index, other, r, ?_, there, stage, quiet⟩
    rintro same
    rw [same, here] at there
    cases there
    rw [quiet] at asked
    cases asked

theorem Settled.length : x.group.children.length = n := by
  rw [(Group.run_origin settled.run).length settled.clean, length_replicate]

theorem Settled.child (i : Fin n) :
    ∃ child, x.group.children[i.val]? = some child :=
  ⟨_, getElem?_eq_getElem (settled.length.symm ▸ i.isLt)⟩

end

/-- The visit of the job is ahead and the group is not stopping, or the job was started. -/
def Group.Started (g : Group T E P) (i : Nat) : Prop :=
  (∃ k, k ≤ i ∧ g.phase = .starting k ∧ g.stopping = false) ∨
    ∀ child, g.children[i]? = some child → ∀ observed, child.stage ≠ .fresh observed

theorem Group.Keeps.started {g : Group T E P} {ended : Nat → Outcome T E → Prop} (keeps : g.Keeps g' ended)
    (started : g.Started i) (active : ∀ k, g.phase = .starting k → i < k) : g'.Started i := by
  obtain ⟨k, le, at_, _⟩ | started := started
  · have ahead := active k at_
    omega
  · right
    intro child' here observed fresh
    obtain ⟨child, there, kept⟩ := keeps i child' here
    exact started child there observed (kept.fresh observed fresh)

theorem Group.Started.same (g : Group T E P) (started : g.Started i)
    (same : g'.children = g.children) (active : ∀ k, g.phase = .starting k → i < k) : g'.Started i :=
  (Group.Keeps.same same fun _ _ => False).started started active

theorem Group.Started.visit {g : Group T E P} {k : Nat} {child : Child T E} (started : g.Started i)
    (setup : g.phase = .starting k) (here : g.children[k]? = some child) (fresh : child.stage = .fresh false) :
    (g.visit ask k child none).Started i := by
  obtain ⟨k', le, at_, running⟩ | started := started
  · cases setup.symm.trans at_
    rw [Group.visit_fresh fresh, running]
    obtain rfl | before := Nat.eq_or_lt_of_le le
    · right
      intro child' there observed never
      have there : (g.children.set k _)[k]? = some child' := there
      rw [getElem?_set_self (List.getElem?_eq_some_iff.mp here).1] at there
      cases there
      cases never
    · exact .inl ⟨k + 1, before, rfl, rfl⟩
  · right
    intro child' there observed again
    obtain ⟨before, found, kept⟩ := @Group.keeps_visit _ _ _ ask _ _ _ here fresh (fun _ _ => False) i child' there
    exact started before found observed (kept.fresh observed again)

theorem Group.Started.heed {g : Group T E P} (started : g.Started i) (stopped : Bool)
    (calm : ∀ k, g.phase = .starting k → k ≤ i → stopped = false) : (g.heed stopped).Started i := by
  obtain ⟨k, le, at_, running⟩ | started := started
  · cases calm k at_ le
    exact .inl ⟨k, le, at_, running⟩
  · right
    intro child' here observed fresh
    obtain ⟨child, there, kept⟩ := Group.keeps_heed g stopped (fun _ _ => False) i child' here
    exact started child there observed (kept.fresh observed fresh)

theorem reach_started {x : (Task.settle ask policy jobs).State} (i : Fin n)
    (calm : ∀ s b k, f s b → s.group.phase = .starting k → k ≤ i.val → b = false)
    (reach : Coroutine.Reach env start (Task.settle ask policy jobs) f w x) : x.group.Started i := by
  induction reach with
  | start holds =>
    left
    refine ⟨0, Nat.zero_le _, ?_⟩
    show (Group.ofJobs _ _).phase = _ ∧ (Group.ofJobs _ _).stopping = false
    rw [Group.ofJobs_replicate]
    exact ⟨rfl, rfl⟩
  | @step stopped w w' s s' reach flag step ih =>
    have settled := reach_settle reach
    have heeded := ih.heed stopped fun k at_ le => calm _ _ k flag at_ le
    cases step with
    | @visit g ss k child setup here =>
      have setup := (Group.phase_heed g stopped).trans setup
      exact heeded.visit setup here
        (Group.run_unvisited (settled.heed stopped (fun r at_ => by cases setup.symm.trans ((Group.phase_heed g stopped).trans at_))).run setup here)
    | @await g ss setup =>
      have setup := (Group.phase_heed g stopped).trans setup
      refine Group.Started.same (g.heed stopped) heeded rfl fun k at_ => ?_
      cases setup.symm.trans at_
      exact i.isLt.trans_eq settled.length.symm
    | @job _ g ss j child s' waits here _ step =>
      have waits := (Group.phase_heed g stopped).trans waits
      show (Group.report ask _ _ child ((jobs j).outcome s')).Started i
      cases (jobs j).outcome s' with
      | none => exact heeded
      | some r =>
        exact (Group.keeps_finish here r).started heeded fun k at_ => by cases waits.symm.trans at_
    | @resume g ss waits arrived =>
      have waits := (Group.phase_heed g stopped).trans waits
      exact Group.Started.same (g.heed stopped) heeded rfl fun k at_ => by cases waits.symm.trans at_
  | env _ _ ih => exact ih

theorem Settled.drained (settled : Settled env start ask policy jobs w x)
    {r : Except (Exn E) (List (Outcome T E))} (returned : x.group.phase = .returned r) {i : Fin n} {child : Child T E}
    (here : x.group.children[i.val]? = some child) (started : ∀ observed, child.stage ≠ .fresh observed) :
    ∃ o, child.stage = .done o ∧ (jobs i).outcome (x.states i) = some o := by
  have idle := Group.run_drained settled.run returned child (mem_of_getElem? here)
  cases stage : child.stage with
  | fresh observed => exact absurd stage (started observed)
  | started =>
    rw [stage] at idle
    cases idle
  | done o => exact ⟨o, rfl, settled.done i child o here stage⟩

theorem settle_outcome {r : Outcome (List (Outcome T E)) E}
    (ended : (Task.settle ask policy jobs).outcome x = some r) : x.group.phase = .returned r := by
  have ended : (match x.group.phase with | .returned r => some r | _ => none) = some r := ended
  split at ended
  · next at_ =>
    cases ended
    exact at_
  · cases ended

theorem Settled.outcomes (settled : Settled env start ask policy jobs w x) (alone : x.group.parentStopped = false)
    (started : ∀ i : Fin n, x.group.Started i) {r : Outcome (List (Outcome T E)) E}
    (ended : (Task.settle ask policy jobs).outcome x = some r) : ∃ os : List (Outcome T E), r = .ok os ∧ os.length = n ∧
    ∀ (i : Fin n) (child : Child T E), x.group.children[i.val]? = some child → ∃ o, os[i.val]? = some o ∧
    child.stage = .done o ∧ (jobs i).outcome (x.states i) = some o := by
  have returned := settle_outcome ended
  refine ⟨x.group.children.map Child.extractOutcome, ?_, ?_, ?_⟩
  · rw [← (Group.run_answered settled.run returned).1]
    simp [Group.result, settled.clean, alone]
  · rw [length_map, settled.length]
  · intro i child here
    obtain ⟨k, _, at_, _⟩ | started := started i
    · cases returned.symm.trans at_
    · obtain ⟨o, stage, done⟩ := settled.drained returned here (started child here)
      refine ⟨o, ?_, stage, done⟩
      rw [getElem?_map, here]
      simp [Child.extractOutcome, stage]

theorem steps_job {g : Group T E P} {i : Fin n} {child : Child T E} {asked : Bool}
    {s' : (jobs i).State} {r : Outcome T E} (waits : g.phase = .draining) (here : g.children[i.val]? = some child)
    (started : child.stage = .started) (requested : child.stopRequested = asked)
    (steps : Coroutine.Steps (· = asked) (jobs i) w (ss i) w' s') (begun : (jobs i).outcome (ss i) = none)
    (done : (jobs i).outcome s' = some r) : Coroutine.Steps (· = false) (Task.settle ask policy jobs) w ⟨g, ss⟩ w'
      ⟨g.finish ask i child r, Function.update ss i s'⟩ := by
  have resume : ∀ {w w' : W} {s s' : (jobs i).State} (stopped : Bool), stopped = asked → (jobs i).Step stopped w s w' s' →
      Settle ask jobs false w ⟨g, Function.update ss i s⟩ w'
        ⟨g.report ask i child ((jobs i).outcome s'), Function.update ss i s'⟩ := by
    rintro w w' s s' stopped rfl step
    have job := @Settle.job W E T P n ask jobs false w w' g (Function.update ss i s) i child s' waits here started
      (.inl (by rw [requested, Function.update_self]; exact step))
    rwa [Function.update_idem] at job
  have lift : ∀ {w' : W} {s' : (jobs i).State}, Coroutine.Steps (· = asked) (jobs i) w (ss i) w' s' →
      (jobs i).outcome s' = none →
      Coroutine.Steps (· = false) (Task.settle ask policy jobs) w ⟨g, ss⟩ w' ⟨g, Function.update ss i s'⟩ := by
    intro w' s' steps open_
    induction steps with
    | refl =>
      rw [Function.update_eq_self]
      exact .refl
    | tail _ before flag step ih =>
      have job := resume _ flag step
      rw [open_] at job
      exact .tail (ih before) (by show (match g.phase with | .returned r => some r | _ => none) = none; rw [waits]) rfl job
  cases steps with
  | refl =>
    rw [begun] at done
    cases done
  | tail steps before flag step =>
    have job := resume _ flag step
    rw [done] at job
    exact .tail (lift steps before) (by show (match g.phase with | .returned r => some r | _ => none) = none; rw [waits]) rfl job

theorem reach_skipped {K : W → Prop} {x : (Task.settle ask policy jobs).State}
    (hurried : ∀ s b, f s b → s.group.phase = .starting 0 → b = true) (stable : Stable env K) (begun : ∀ w, start w → K w)
    (reach : Coroutine.Reach env start (Task.settle ask policy jobs) f w x) :
    K w ∧ (∀ child ∈ x.group.children, child.stage = .fresh false) ∧
      (x.group.phase = .starting 0 ∧ x.group.parentStopped = false ∨ x.group.parentStopped = true ∧ x.group.stopping = true) := by
  have heeds : ∀ (g : Group T E P) (b : Bool), (g.phase = .starting 0 → b = true) →
      (∀ child ∈ g.children, child.stage = .fresh false) →
      (g.phase = .starting 0 ∧ g.parentStopped = false ∨ g.parentStopped = true ∧ g.stopping = true) →
      (∀ child ∈ (g.heed b).children, child.stage = .fresh false) ∧
        (g.heed b).parentStopped = true ∧ (g.heed b).stopping = true := by
    intro g b pending fresh at_
    have stopped : ∀ child ∈ g.stop.children, child.stage = .fresh false := by
      intro child mem
      obtain ⟨before, held, rfl⟩ := mem_map.mp mem
      rw [(Group.stop_stage before).1]
      exact fresh before held
    obtain ⟨first, running⟩ | ⟨parent, stopping⟩ := at_
    · cases pending first
      have heed : g.heed true = g.stopParent := by simp [Group.heed, running]
      rw [heed]
      exact ⟨stopped, rfl, rfl⟩
    · have heed : g.heed b = g := by simp [Group.heed, parent]
      rw [heed]
      exact ⟨fresh, parent, stopping⟩
  induction reach with
  | start holds =>
    show _ ∧ (∀ child ∈ (Group.ofJobs _ _).children, _) ∧ ((Group.ofJobs _ _).phase = _ ∧ (Group.ofJobs _ _).parentStopped = _ ∨ _)
    rw [Group.ofJobs_replicate]
    refine ⟨begun _ holds, ?_, .inl ⟨rfl, rfl⟩⟩
    intro child mem
    rw [eq_of_mem_replicate mem]
  | @step stopped w w' s s' _ flag step ih =>
    obtain ⟨holds, fresh, at_⟩ := ih
    obtain ⟨fresh, parent, stopping⟩ := heeds s.group stopped (hurried s stopped flag) fresh at_
    cases step with
    | @visit g ss k child setup here =>
      refine ⟨holds, ?_⟩
      show (∀ child' ∈ ((g.heed stopped).visit ask k child none).children, _) ∧ (((g.heed stopped).visit ask k child none).phase = _ ∧ _ ∨ _)
      have stopping : (g.heed stopped).stopping = true := stopping
      rw [Group.visit_fresh (fresh child (mem_of_getElem? here)), stopping]
      exact ⟨fresh, .inr ⟨parent, rfl⟩⟩
    | await _ => exact ⟨holds, fresh, .inr ⟨parent, stopping⟩⟩
    | job _ here started _ =>
      have never := fresh _ (mem_of_getElem? here)
      rw [started] at never
      cases never
    | resume _ _ => exact ⟨holds, fresh, .inr ⟨parent, stopping⟩⟩
  | env _ move ih => exact ⟨stable _ _ move ih.1, ih.2⟩

end Settle

end Nxt.Runtime
