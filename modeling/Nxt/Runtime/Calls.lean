import Mathlib

/- The life of one blocking call: the record its task and its worker share, each region that
   one of them runs under the record's mutex, and the order of these regions as a story told
   newest first. -/
namespace Nxt.Runtime.Blocking
open List

inductive Outcome (V E : Type) where
  | value (v : V)
  | failure (e : E)
  deriving DecidableEq

/-- How a `run` task ends; `nothing` is the read of a result that was never emplaced. -/
inductive Ending (V E : Type) where
  | operationCancelled
  | returned (v : V)
  | threw (e : E)
  | nothing
  deriving DecidableEq

inductive Event (V E : Type) where
  | cancelled
  | admitted
  | taken
  | skipped
  | started
  | invoked (o : Outcome V E)
  | published
  | ended (r : Ending V E)
  deriving DecidableEq

inductive Stage where
  | fresh
  | queued
  | taken
  | calling
  | finishing
  | done
  | ended
  deriving DecidableEq

variable {V E : Type}

@[grind] def stageOf : List (Event V E) → Stage
  | [] => .fresh
  | .cancelled :: past => stageOf past
  | .admitted :: _ => .queued
  | .taken :: _ => .taken
  | .skipped :: _ => .finishing
  | .started :: _ => .calling
  | .invoked _ :: _ => .finishing
  | .published :: _ => .done
  | .ended _ :: _ => .ended

def Outcome.ending : Outcome V E → Ending V E
  | .value v => .returned v
  | .failure e => .threw e

/-- `first` happened before some `second`, in a list with the newest event in front. -/
def Earlier {α : Type} (first second : α) (past : List α) : Prop :=
  ∃ later before, past = later ++ second :: before ∧ first ∈ before

@[grind =] theorem earlier_cons {α : Type} {first second e : α} {past : List α} :
    Earlier first second (e :: past) ↔ (e = second ∧ first ∈ past) ∨ Earlier first second past := by
  constructor
  · rintro ⟨later, before, split, mem⟩
    cases later with
    | nil =>
      cases split
      exact .inl ⟨rfl, mem⟩
    | cons e' later =>
      cases split
      exact .inr ⟨later, before, rfl, mem⟩
  · rintro (⟨rfl, mem⟩ | ⟨later, before, rfl, mem⟩)
    · exact ⟨[], past, rfl, mem⟩
    · exact ⟨e :: later, before, rfl, mem⟩

theorem Earlier.mem {α : Type} {first second : α} {past : List α} (h : Earlier first second past) : second ∈ past := by
  obtain ⟨later, before, rfl, _⟩ := h
  simp

inductive Story : List (Event V E) → Prop
  | nil : Story []
  | cancel {past} : Story past → Story (.cancelled :: past)
  | accept {past} : Story past → stageOf past = .fresh → .cancelled ∉ past → Story (.admitted :: past)
  | take {past} : Story past → stageOf past = .queued → Story (.taken :: past)
  | skip {past} : Story past → stageOf past = .taken → .cancelled ∈ past → Story (.skipped :: past)
  | start {past} : Story past → stageOf past = .taken → .cancelled ∉ past → Story (.started :: past)
  | invoke {past} (o) : Story past → stageOf past = .calling → Story (.invoked o :: past)
  | publish {past} : Story past → stageOf past = .finishing → Story (.published :: past)
  | refuse {past} : Story past → stageOf past = .fresh → Story (.ended .operationCancelled :: past)
  | discard {past} : Story past → stageOf past = .done → .cancelled ∈ past →
      Story (.ended .operationCancelled :: past)
  | deliver {past} {o} : Story past → stageOf past = .done → .cancelled ∉ past → .invoked o ∈ past →
      Story (.ended o.ending :: past)

@[grind] def Event.isInvoked : Event V E → Bool
  | .invoked _ => true
  | _ => false

def invocations (past : List (Event V E)) : Nat := past.countP Event.isInvoked

@[simp, grind =] theorem invocations_cons (e : Event V E) (past : List (Event V E)) :
    invocations (e :: past) = invocations past + if e.isInvoked then 1 else 0 := countP_cons

theorem not_invoked {past : List (Event V E)} (none : invocations past = 0) (o : Outcome V E) : .invoked o ∉ past := by
  intro mem
  exact countP_eq_zero.mp none _ mem rfl

structure Told (past : List (Event V E)) : Prop where
  fresh : stageOf past = .fresh → ∀ e ∈ past, e = .cancelled
  admitted : stageOf past ≠ .fresh → stageOf past ≠ .ended → .admitted ∈ past
  uncalled : stageOf past = .fresh ∨ stageOf past = .queued ∨ stageOf past = .taken →
    invocations past = 0 ∧ .started ∉ past ∧ .skipped ∉ past
  calling : stageOf past = .calling → invocations past = 0 ∧ .skipped ∉ past
  unpublished : stageOf past ≠ .done → stageOf past ≠ .ended → .published ∉ past
  done : stageOf past = .done → .published ∈ past
  once : invocations past ≤ 1
  unended : stageOf past ≠ .ended → ∀ r, .ended r ∉ past
  skipped : .skipped ∈ past → invocations past = 0
  kept : ¬Earlier .cancelled .started past
  settled : stageOf past = .finishing ∨ stageOf past = .done → .cancelled ∈ past ∨ ∃ o, .invoked o ∈ past

theorem Story.told {past : List (Event V E)} (story : Story past) : Told past := by
  induction story with
  | nil => constructor <;> simp [stageOf, Earlier, invocations]
  | cancel story ih => constructor <;> grind [Told]
  | accept story stage uncancelled ih =>
    constructor <;> grind [Told]
  | take story stage ih => constructor <;> grind [Told]
  | skip story stage cancelled ih => constructor <;> grind [Told]
  | start story stage uncancelled ih => constructor <;> grind [Told]
  | invoke o story stage ih => constructor <;> grind [Told]
  | publish story stage ih => constructor <;> grind [Told]
  | refuse story stage ih => constructor <;> grind [Told]
  | discard story stage cancelled ih => constructor <;> grind [Told]
  | deliver story stage uncancelled invoked ih => constructor <;> grind [Told]

theorem Story.ending {past : List (Event V E)} (story : Story past) {r : Ending V E} (mem : .ended r ∈ past) :
    ∃ later before, past = later ++ .ended r :: before ∧ (∀ e ∈ later, e = .cancelled) ∧ Story before ∧
      ((stageOf before = .fresh ∧ r = .operationCancelled) ∨
        (stageOf before = .done ∧ .cancelled ∈ before ∧ r = .operationCancelled) ∨
        ∃ o, stageOf before = .done ∧ .cancelled ∉ before ∧ .invoked o ∈ before ∧ r = o.ending) := by
  have only {past : List (Event V E)} {r r' : Ending V E} (before : Story past) (open_ : stageOf past ≠ .ended)
      (mem : .ended r ∈ .ended r' :: past) : r = r' := by
    have none := before.told.unended open_ r
    simpa [none] using mem
  induction story with
  | nil => cases mem
  | cancel story ih =>
    obtain ⟨later, before, rfl, cancels, told, how⟩ := ih (by simpa using mem)
    exact ⟨.cancelled :: later, before, rfl, by simpa using cancels, told, how⟩
  | accept story stage _ ih => exact absurd mem (by simp [story.told.unended (by simp [stage])])
  | take story stage ih => exact absurd mem (by simp [story.told.unended (by simp [stage])])
  | skip story stage _ ih => exact absurd mem (by simp [story.told.unended (by simp [stage])])
  | start story stage _ ih => exact absurd mem (by simp [story.told.unended (by simp [stage])])
  | invoke o story stage ih => exact absurd mem (by simp [story.told.unended (by simp [stage])])
  | publish story stage ih => exact absurd mem (by simp [story.told.unended (by simp [stage])])
  | refuse story stage ih =>
    cases only story (by simp [stage]) mem
    exact ⟨[], _, rfl, by simp, story, .inl ⟨stage, rfl⟩⟩
  | discard story stage cancelled ih =>
    cases only story (by simp [stage]) mem
    exact ⟨[], _, rfl, by simp, story, .inr (.inl ⟨stage, cancelled, rfl⟩)⟩
  | deliver story stage uncancelled invoked ih =>
    cases only story (by simp [stage]) mem
    exact ⟨[], _, rfl, by simp, story, .inr (.inr ⟨_, stage, uncancelled, invoked, rfl⟩)⟩

theorem earlier_of_split {α : Type} {later before : List α} {first second : α} (not_later : second ∉ later)
    (not_before : second ∉ before) : Earlier first second (later ++ second :: before) ↔ first ∈ before := by
  constructor
  · rintro ⟨later', before', split, mem⟩
    obtain ⟨_, _, same⟩ := (append_cons_inj_of_notMem not_later not_before).mp split
    rw [same]
    exact mem
  · intro mem
    exact ⟨later, before, rfl, mem⟩

/-- What the rules of the pool mean for one call, whatever the others do. -/
structure Obeys (past : List (Event V E)) : Prop where
  once : invocations past ≤ 1
  prevented : ∀ region, region = .started ∨ region = .skipped → Earlier .cancelled region past →
    ∀ o, .invoked o ∉ past
  published : ∀ r, .ended r ∈ past → .admitted ∈ past → Earlier .published (.ended r) past
  cancelled : ∀ r, .ended r ∈ past → Earlier .cancelled (.ended r) past → r = .operationCancelled
  delivered : ∀ r, .ended r ∈ past → .admitted ∈ past → ¬Earlier .cancelled (.ended r) past →
    ∃ o, .invoked o ∈ past ∧ r = o.ending

theorem Story.obeys {past : List (Event V E)} (story : Story past) : Obeys past := by
  have told := story.told
  constructor
  · exact told.once
  · rintro region (rfl | rfl) earlier o
    · exact absurd earlier told.kept
    · exact not_invoked (told.skipped earlier.mem) o
  all_goals
    intro r mem
    obtain ⟨later, before, rfl, cancels, story', how⟩ := story.ending mem
    have told' := story'.told
    have split (e : Event V E) : Earlier e (.ended r) (later ++ .ended r :: before) ↔ e ∈ before := by
      apply earlier_of_split
      · intro never
        cases cancels _ never
      · obtain ⟨fresh, _⟩ | ⟨done, _⟩ | ⟨_, done, _⟩ := how <;> exact told'.unended (by simp [*]) r
    rw [split]
  · intro admitted
    have admitted' : .admitted ∈ before := by
      simp only [mem_append, mem_cons, reduceCtorEq, false_or] at admitted
      exact admitted.resolve_left fun late => by cases cancels _ late
    obtain ⟨fresh, _⟩ | ⟨done, _⟩ | ⟨_, done, _⟩ := how
    · cases told'.fresh fresh _ admitted'
    · exact told'.done done
    · exact told'.done done
  · intro cancelled
    obtain ⟨_, rfl⟩ | ⟨_, _, rfl⟩ | ⟨_, _, uncancelled, _⟩ := how
    · rfl
    · rfl
    · exact absurd cancelled uncancelled
  · intro admitted uncancelled
    obtain ⟨fresh, _⟩ | ⟨_, cancelled, _⟩ | ⟨o, _, _, invoked, rfl⟩ := how
    · simp only [mem_append, mem_cons, reduceCtorEq, false_or] at admitted
      obtain late | early := admitted
      · cases cancels _ late
      · cases told'.fresh fresh _ early
    · exact absurd cancelled uncancelled
    · exact ⟨o, by simp [invoked], rfl⟩

/-- Where a `run` task is: at a drain, at the region after it, parked on its pipe, or past the
    loops with its ending decided. -/
inductive Phase (V E : Type) where
  | entering
  | checking
  | asking
  | draining
  | collecting
  | awaiting
  | leaving (r : Ending V E)
  | left (r : Ending V E)
  deriving DecidableEq

def Phase.isLeft : Phase V E → Bool
  | .left _ => true
  | _ => false

/-- `blocking_job`, with the task that owns it; `pending` is its readable pipe and `past` what
    happened to it. -/
structure Job (V E : Type) where
  phase : Phase V E := .entering
  pending : Bool := false
  submitted : Bool := false
  running : Bool := false
  cancelled : Bool := false
  done : Bool := false
  result : Option (Outcome V E) := none
  past : List (Event V E) := []
  deriving DecidableEq

namespace Job

def notify (b : Job V E) : Job V E := { b with pending := true }

def cancel (b : Job V E) : Job V E := { b with cancelled := true, pending := true, past := .cancelled :: b.past }

def drain (b : Job V E) (phase : Phase V E) : Job V E := { b with phase, pending := false }

def park (b : Job V E) (phase : Phase V E) : Job V E := { b with phase }

def accept (b : Job V E) : Job V E :=
  { b with phase := .draining, submitted := true, past := .admitted :: b.past }

def take (b : Job V E) : Job V E := { b with past := .taken :: b.past }

/-- The region of `execute`, which decides whether the callable runs. -/
def execute (b : Job V E) : Job V E :=
  { b with running := !b.cancelled, past := (if b.cancelled then .skipped else .started) :: b.past }

def invoke (b : Job V E) (o : Outcome V E) : Job V E := { b with result := some o, past := .invoked o :: b.past }

def publish (b : Job V E) : Job V E := { b with done := true, pending := true, past := .published :: b.past }

def ending (b : Job V E) : Ending V E :=
  if b.cancelled then .operationCancelled
  else match b.result with
    | some o => o.ending
    | none => .nothing

def finish (b : Job V E) (r : Ending V E) : Job V E := { b with phase := .leaving r, past := .ended r :: b.past }

def leave (b : Job V E) (r : Ending V E) : Job V E := { b with phase := .left r }

def stage (b : Job V E) : Stage := stageOf b.past

def Placed (b : Job V E) : Prop :=
  match b.phase with
  | .entering | .checking | .asking => b.stage = .fresh
  | .draining | .collecting | .awaiting => b.stage ≠ .fresh ∧ b.stage ≠ .ended
  | .leaving r | .left r => b.stage = .ended ∧ .ended r ∈ b.past

structure Sound (b : Job V E) : Prop where
  story : Story b.past
  placed : b.Placed
  cancelled : b.cancelled = true ↔ .cancelled ∈ b.past
  submitted : b.submitted = true ↔ .admitted ∈ b.past
  done : b.done = true ↔ .published ∈ b.past
  result : ∀ o, b.result = some o ↔ .invoked o ∈ b.past

variable {b : Job V E}

theorem sound_new : ({} : Job V E).Sound := by
  constructor <;> simp [Story.nil, Placed, stage, stageOf]

theorem Sound.notify (sound : b.Sound) : b.notify.Sound := ⟨sound.1, sound.2, sound.3, sound.4, sound.5, sound.6⟩

theorem Sound.cancel (sound : b.Sound) : b.cancel.Sound where
  story := sound.story.cancel
  placed := by
    have placed := sound.placed
    unfold Placed at placed ⊢
    cases phase : b.phase <;> simp_all [Job.cancel, stage, stageOf]
  cancelled := by simp [Job.cancel]
  submitted := by simpa [Job.cancel] using sound.submitted
  done := by simpa [Job.cancel] using sound.done
  result := by simpa [Job.cancel] using sound.result

theorem Sound.drain (sound : b.Sound) {phase : Phase V E} (placed : (b.drain phase).Placed) : (b.drain phase).Sound :=
  ⟨sound.1, placed, sound.3, sound.4, sound.5, sound.6⟩

theorem Sound.park (sound : b.Sound) {phase : Phase V E} (placed : (b.park phase).Placed) : (b.park phase).Sound :=
  ⟨sound.1, placed, sound.3, sound.4, sound.5, sound.6⟩

theorem Sound.accept (sound : b.Sound) (fresh : b.stage = .fresh) (uncancelled : b.cancelled = false) :
    b.accept.Sound where
  story := sound.story.accept fresh (by simp [← sound.cancelled, uncancelled])
  placed := by simp [Placed, Job.accept, stage, stageOf]
  cancelled := by simpa [Job.accept] using sound.cancelled
  submitted := by simp [Job.accept]
  done := by simpa [Job.accept] using sound.done
  result := by simpa [Job.accept] using sound.result

theorem Placed.inner (placed : b.Placed) (stage : b.stage ≠ .fresh) (open_ : b.stage ≠ .ended) :
    b.phase = .draining ∨ b.phase = .collecting ∨ b.phase = .awaiting := by
  unfold Placed at placed
  cases phase : b.phase <;> simp_all

theorem placed_inner (inner : b.phase = .draining ∨ b.phase = .collecting ∨ b.phase = .awaiting)
    (stage : b.stage ≠ .fresh) (open_ : b.stage ≠ .ended) : b.Placed := by
  obtain phase | phase | phase := inner <;> simp [Placed, phase, stage, open_]

section
variable (sound : b.Sound)
include sound

theorem Sound.take (queued : b.stage = .queued) : b.take.Sound where
  story := sound.story.take queued
  placed := placed_inner (sound.placed.inner (by simp [queued]) (by simp [queued]))
    (by simp [Job.take, stage, stageOf]) (by simp [Job.take, stage, stageOf])
  cancelled := by simpa [Job.take] using sound.cancelled
  submitted := by simpa [Job.take] using sound.submitted
  done := by simpa [Job.take] using sound.done
  result := by simpa [Job.take] using sound.result

theorem Sound.execute (taken : b.stage = .taken) : b.execute.Sound where
  story := by
    cases flag : b.cancelled with
    | true =>
      have told := sound.story.skip taken (sound.cancelled.mp flag)
      simpa [Job.execute, flag] using told
    | false =>
      have told := sound.story.start taken (by simp [← sound.cancelled, flag])
      simpa [Job.execute, flag] using told
  placed := by
    refine placed_inner (sound.placed.inner (by simp [taken]) (by simp [taken])) ?_ ?_ <;>
      cases flag : b.cancelled <;> simp [Job.execute, stage, stageOf, flag]
  cancelled := by cases flag : b.cancelled <;> simpa [Job.execute, flag] using sound.cancelled
  submitted := by cases flag : b.cancelled <;> simpa [Job.execute, flag] using sound.submitted
  done := by cases flag : b.cancelled <;> simpa [Job.execute, flag] using sound.done
  result := by cases flag : b.cancelled <;> simpa [Job.execute, flag] using sound.result

theorem Sound.invoke (calling : b.stage = .calling) (o : Outcome V E) : (b.invoke o).Sound where
  story := sound.story.invoke o calling
  placed := placed_inner (sound.placed.inner (by simp [calling]) (by simp [calling]))
    (by simp [Job.invoke, stage, stageOf]) (by simp [Job.invoke, stage, stageOf])
  cancelled := by simpa [Job.invoke] using sound.cancelled
  submitted := by simpa [Job.invoke] using sound.submitted
  done := by simpa [Job.invoke] using sound.done
  result := by
    intro o'
    have none := not_invoked (sound.story.told.calling calling).1 o'
    simp [Job.invoke, none, eq_comm]

theorem Sound.publish (finishing : b.stage = .finishing) : b.publish.Sound where
  story := sound.story.publish finishing
  placed := placed_inner (sound.placed.inner (by simp [finishing]) (by simp [finishing]))
    (by simp [Job.publish, stage, stageOf]) (by simp [Job.publish, stage, stageOf])
  cancelled := by simpa [Job.publish] using sound.cancelled
  submitted := by simpa [Job.publish] using sound.submitted
  done := by simp [Job.publish]
  result := by simpa [Job.publish] using sound.result

theorem Sound.refuse (fresh : b.stage = .fresh) : (b.finish .operationCancelled).Sound where
  story := sound.story.refuse fresh
  placed := by simp [Placed, finish, stage, stageOf]
  cancelled := by simpa [finish] using sound.cancelled
  submitted := by simpa [finish] using sound.submitted
  done := by simpa [finish] using sound.done
  result := by simpa [finish] using sound.result

theorem Sound.finish (done : b.stage = .done) : (b.finish b.ending).Sound where
  story := by
    cases flag : b.cancelled with
    | true =>
      have told := sound.story.discard done (sound.cancelled.mp flag)
      simpa [Job.finish, ending, flag] using told
    | false =>
      have uncancelled : .cancelled ∉ b.past := by simp [← sound.cancelled, flag]
      obtain ⟨o, invoked⟩ := (sound.story.told.settled (.inr done)).resolve_left uncancelled
      have told := sound.story.deliver done uncancelled invoked
      simpa [Job.finish, ending, flag, (sound.result o).mpr invoked] using told
  placed := by simp [Placed, Job.finish, stage, stageOf]
  cancelled := by simpa [Job.finish] using sound.cancelled
  submitted := by simpa [Job.finish] using sound.submitted
  done := by simpa [Job.finish] using sound.done
  result := by simpa [Job.finish] using sound.result

theorem Sound.leave {r : Ending V E} (leaving : b.phase = .leaving r) : (b.leave r).Sound where
  story := sound.story
  placed := by
    have placed := sound.placed
    unfold Placed at placed
    rw [leaving] at placed
    exact placed
  cancelled := sound.cancelled
  submitted := sound.submitted
  done := sound.done
  result := sound.result

end

end Job
end Nxt.Runtime.Blocking
