import Mathlib

/- Coroutines over a shared world. A scheduler resumes one step at a time, and a step can see whether
   a stop was requested. A specification speaks of every state that is reached while the world also
   moves by itself, and of the world in which the coroutine ends. -/
namespace Nxt.Lib

structure Coroutine (W A : Type) where
  State : Type
  start : State
  /-- One resumption: whether a stop is requested, then the world and the state before and after. -/
  Step : Bool → W → State → W → State → Prop
  /-- What it has come to, once it has ended. -/
  outcome : State → Option A

/-- The moves of the world keep the assertion. -/
def Stable {W : Type} (env : W → W → Prop) (P : W → Prop) : Prop := ∀ w w', env w w' → P w → P w'

variable {W : Type} {env : W → W → Prop} {P Q : W → Prop}

theorem Stable.or (left : Stable env P) (right : Stable env Q) : Stable env fun w => P w ∨ Q w :=
  fun w w' move holds => holds.imp (left w w' move) (right w w' move)

theorem Stable.and (left : Stable env P) (right : Stable env Q) : Stable env fun w => P w ∧ Q w :=
  fun w w' move holds => holds.imp (left w w' move) (right w w' move)

theorem Stable.exists {A : Type} {P : A → W → Prop} (each : ∀ a, Stable env (P a)) : Stable env fun w => ∃ a, P a w :=
  fun w w' move ⟨a, holds⟩ => ⟨a, each a w w' move holds⟩

theorem Stable.const (p : Prop) : Stable env fun _ => p :=
  fun _ _ _ holds => holds

namespace Coroutine
variable {W A B : Type}

/-- The states reached from `P` when the world moves by `env` and every step meets `F`. -/
inductive Reach (env : W → W → Prop) (P : W → Prop) (m : Coroutine W A) (F : m.State → Bool → Prop) :
    W → m.State → Prop where
  | start {w : W} : P w → Reach env P m F w m.start
  | step {stopped : Bool} {w w' : W} {s s' : m.State} :
      Reach env P m F w s → F s stopped → m.Step stopped w s w' s' → Reach env P m F w' s'
  | env {w w' : W} {s : m.State} : Reach env P m F w s → env w w' → Reach env P m F w' s

/-- From `P`, under stop flags in `F`: the guarantee `G` holds throughout, and at the end `Q` holds. -/
structure Spec (env : W → W → Prop) (F : Bool → Prop) (G P : W → Prop) (m : Coroutine W A) (Q : A → W → Prop) :
    Prop where
  always : ∀ (w : W) (s : m.State), Reach env P m (fun _ => F) w s → G w
  ended : ∀ (w : W) (s : m.State) (a : A), Reach env P m (fun _ => F) w s → m.outcome s = some a → Q a w

def Moves (m : Coroutine W A) (w w' : W) : Prop := ∃ stopped s s', m.Step stopped w s w' s'

section Combinators

/-- Ends at once. -/
def ret (a : A) : Coroutine W A where
  State := Unit
  start := ()
  Step _ _ _ _ _ := False
  outcome _ := some a

/-- Ends with one step of the relation. -/
def atomic (R : Bool → W → A → W → Prop) : Coroutine W A where
  State := Option A
  start := none
  Step stopped w s w' s' := s = none ∧ ∃ a, s' = some a ∧ R stopped w a w'
  outcome s := s

/-- Code between two suspensions. -/
def exec (f : W → A × W) : Coroutine W A := atomic fun _ w a w' => f w = (a, w')

/-- Stops do not reach it. -/
def shield (m : Coroutine W A) : Coroutine W A where
  State := m.State
  start := m.start
  Step _ w s w' s' := m.Step false w s w' s'
  outcome := m.outcome

inductive AndThen (m : Coroutine W A) (k : A → Coroutine W B) :
    Bool → W → m.State ⊕ ((a : A) × (k a).State) → W → m.State ⊕ ((a : A) × (k a).State) → Prop where
  | first {stopped : Bool} {w w' : W} {s s' : m.State} :
      m.Step stopped w s w' s' → AndThen m k stopped w (.inl s) w' (.inl s')
  | pass {stopped : Bool} {w : W} {s : m.State} {a : A} :
      m.outcome s = some a → AndThen m k stopped w (.inl s) w (.inr ⟨a, (k a).start⟩)
  | second {stopped : Bool} {w w' : W} {a : A} {t t' : (k a).State} :
      (k a).Step stopped w t w' t' → AndThen m k stopped w (.inr ⟨a, t⟩) w' (.inr ⟨a, t'⟩)

def andThen (m : Coroutine W A) (k : A → Coroutine W B) : Coroutine W B where
  State := m.State ⊕ ((a : A) × (k a).State)
  start := .inl m.start
  Step := AndThen m k
  outcome
    | .inl _ => none
    | .inr ⟨a, t⟩ => (k a).outcome t

inductive Iterate (m : Coroutine W A) (next : A → Option B) :
    Bool → W → m.State ⊕ B → W → m.State ⊕ B → Prop where
  | run {stopped : Bool} {w w' : W} {s s' : m.State} :
      m.Step stopped w s w' s' → Iterate m next stopped w (.inl s) w' (.inl s')
  | again {stopped : Bool} {w : W} {s : m.State} {a : A} :
      m.outcome s = some a → next a = none → Iterate m next stopped w (.inl s) w (.inl m.start)
  | leave {stopped : Bool} {w : W} {s : m.State} {a : A} {b : B} :
      m.outcome s = some a → next a = some b → Iterate m next stopped w (.inl s) w (.inr b)

def iterate (m : Coroutine W A) (next : A → Option B) : Coroutine W B where
  State := m.State ⊕ B
  start := .inl m.start
  Step := Iterate m next
  outcome
    | .inl _ => none
    | .inr b => some b

end Combinators

section Rules
variable {env env' : W → W → Prop} {F F' : Bool → Prop} {G G' P P' : W → Prop} {Q Q' : A → W → Prop}
  {R : B → W → Prop} {m : Coroutine W A}

variable {w : W} {a : A} {w' : W} {S : Bool → W → A → W → Prop} {k : A → Coroutine W B}

theorem Reach.mono {f f' : m.State → Bool → Prop} {s : m.State} (reach : Reach env P m f w s)
    (moves : ∀ w w', env w w' → env' w w') (flags : ∀ s b, f s b → f' s b) (pre : ∀ w, P w → P' w) :
    Reach env' P' m f' w s := by
  induction reach with
  | start holds => exact .start (pre _ holds)
  | step _ flag step ih => exact .step ih (flags _ _ flag) step
  | env _ move ih => exact .env ih (moves _ _ move)

theorem moves_ret : ¬(ret a).Moves w w' :=
  fun ⟨_, _, _, step⟩ => step

theorem moves_atomic (moves : (atomic S).Moves w w') : ∃ stopped a, S stopped w a w' := by
  obtain ⟨stopped, _, _, _, a, _, done⟩ := moves
  exact ⟨stopped, a, done⟩

theorem moves_andThen (moves : (m.andThen k).Moves w w') : m.Moves w w' ∨ (∃ a, (k a).Moves w w') ∨ w' = w := by
  obtain ⟨stopped, _, _, step⟩ := moves
  cases step with
  | first step => exact .inl ⟨_, _, _, step⟩
  | pass _ => exact .inr (.inr rfl)
  | second step => exact .inr (.inl ⟨_, _, _, _, step⟩)

theorem Spec.mono (spec : Spec env F G P m Q) (moves : ∀ w w', env' w w' → env w w') (flags : ∀ b, F' b → F b)
    (pre : ∀ w, P' w → P w) (always : ∀ w, G w → G' w) (post : ∀ a w, Q a w → Q' a w) : Spec env' F' G' P' m Q' where
  always w s reach := always w (spec.always w s (reach.mono moves (fun _ => flags) pre))
  ended w s a reach done := post a w (spec.ended w s a (reach.mono moves (fun _ => flags) pre) done)

theorem Spec.consequence (spec : Spec env F G P m Q) (pre : ∀ w, P' w → P w) (post : ∀ a w, Q a w → Q' a w) :
    Spec env F G P' m Q' :=
  spec.mono (fun _ _ move => move) (fun _ flag => flag) pre (fun _ holds => holds) post

theorem Spec.choose {C : Type} {P : C → W → Prop} (each : ∀ c, Spec env F G (P c) m Q) :
    Spec env F G (fun w => ∃ c, P c w) m Q := by
  have chosen : ∀ {w : W} {s : m.State}, Reach env (fun w => ∃ c, P c w) m (fun _ => F) w s →
      ∃ c, Reach env (P c) m (fun _ => F) w s := by
    intro w s reach
    induction reach with
    | start holds => exact holds.imp fun c holds => .start holds
    | step _ flag step ih => exact ih.imp fun c reach => .step reach flag step
    | env _ move ih => exact ih.imp fun c reach => .env reach move
  constructor
  · intro w s reach
    obtain ⟨c, reach⟩ := chosen reach
    exact (each c).always w s reach
  · intro w s a reach done
    obtain ⟨c, reach⟩ := chosen reach
    exact (each c).ended w s a reach done

theorem Spec.never (never : ∀ w, ¬P w) : Spec env F G P m Q := by
  have unreached : ∀ {w : W} {s : m.State}, ¬Reach env P m (fun _ => F) w s := by
    intro w s reach
    induction reach with
    | start holds => exact never _ holds
    | step _ _ _ ih => exact ih
    | env _ _ ih => exact ih
  exact ⟨fun _ _ reach => absurd reach unreached, fun _ _ _ reach _ => absurd reach unreached⟩

theorem Spec.trivial : Spec env F (fun _ => True) P m fun _ _ => True :=
  ⟨fun _ _ _ => .intro, fun _ _ _ _ _ => .intro⟩

theorem Spec.ret (stable : Stable env P) (always : ∀ w, P w → G w) (post : ∀ w, P w → Q a w) :
    Spec env F G P (ret a) Q := by
  have kept : ∀ (w : W) (s : (Coroutine.ret a).State), Reach env P (Coroutine.ret a) (fun _ => F) w s → P w := by
    intro w s reach
    induction reach with
    | start holds => exact holds
    | step _ _ step _ => exact step.elim
    | env _ move ih => exact stable _ _ move ih
  constructor
  · intro w s reach
    exact always w (kept w s reach)
  · intro w s b reach done
    cases done
    exact post w (kept w s reach)

theorem Spec.atomic (stable : Stable env P) (stable' : ∀ a, Stable env (Q a))
    (always : ∀ w, P w → G w) (always' : ∀ a w, Q a w → G w)
    (post : ∀ stopped w a w', F stopped → P w → S stopped w a w' → Q a w') : Spec env F G P (atomic S) Q := by
  have kept : ∀ (w : W) (s : (Coroutine.atomic S).State), Reach env P (Coroutine.atomic S) (fun _ => F) w s →
      (s = none → P w) ∧ ∀ a, s = some a → Q a w := by
    intro w s reach
    induction reach with
    | start holds => exact ⟨fun _ => holds, fun a found => by cases found⟩
    | step _ flag step ih =>
      obtain ⟨before, a, rfl, done⟩ := step
      constructor
      · intro none_
        cases none_
      · intro b found
        cases found
        exact post _ _ _ _ flag (ih.1 before) done
    | env _ move ih => exact ⟨fun none_ => stable _ _ move (ih.1 none_), fun a found => stable' a _ _ move (ih.2 a found)⟩
  constructor
  · intro w s reach
    cases s with
    | none => exact always w ((kept w _ reach).1 rfl)
    | some a => exact always' a w ((kept w _ reach).2 a rfl)
  · intro w s a reach done
    exact (kept w s reach).2 a done

theorem Spec.exec {f : W → A × W} (stable : Stable env P) (stable' : ∀ a, Stable env (Q a)) (always : ∀ w, P w → G w)
    (always' : ∀ a w, Q a w → G w) (post : ∀ w, P w → Q (f w).1 (f w).2) : Spec env F G P (exec f) Q := by
  refine Spec.atomic stable stable' always always' ?_
  intro stopped w a w' _ holds done
  have holds' := post w holds
  rwa [done] at holds'

theorem reach_shield {s : (shield m).State} (reach : Reach env P (shield m) (fun _ => F) w s) :
    Reach env P m (fun _ => (· = false)) w s := by
  induction reach with
  | start holds => exact .start holds
  | step _ _ step ih => exact .step ih rfl step
  | env _ move ih => exact .env ih move

theorem Spec.shield (spec : Spec env (· = false) G P m Q) : Spec env F G P (shield m) Q where
  always w s reach := spec.always w s (reach_shield reach)
  ended w s a reach done := spec.ended w s a (reach_shield reach) done

theorem reach_andThen {f : (m.andThen k).State → Bool → Prop} {x : (m.andThen k).State}
    (post : ∀ w s a, Reach env P m (fun s => f (.inl s)) w s → m.outcome s = some a → Q a w)
    (reach : Reach env P (m.andThen k) f w x) : (∀ s, x = .inl s → Reach env P m (fun s => f (.inl s)) w s) ∧
      ∀ a t, x = .inr ⟨a, t⟩ → Reach env (Q a) (k a) (fun t => f (.inr ⟨a, t⟩)) w t := by
  induction reach with
  | start holds =>
    constructor
    · rintro s ⟨⟩
      exact .start holds
    · rintro a t ⟨⟩
  | step _ flag step ih =>
    cases step with
    | first step =>
      constructor
      · rintro s ⟨⟩
        exact .step (ih.1 _ rfl) flag step
      · rintro a t ⟨⟩
    | pass done =>
      constructor
      · rintro s ⟨⟩
      · rintro a t ⟨⟩
        exact .start (post _ _ _ (ih.1 _ rfl) done)
    | second step =>
      constructor
      · rintro s ⟨⟩
      · rintro a t ⟨⟩
        exact .step (ih.2 _ _ rfl) flag step
  | env _ move ih => exact ⟨fun s same => .env (ih.1 s same) move, fun a t same => .env (ih.2 a t same) move⟩

theorem Spec.andThen (first : Spec env F G P m Q)
    (second : ∀ a, Spec env F G (Q a) (k a) R) : Spec env F G P (m.andThen k) R where
  always w x reach := by
    have parts := reach_andThen first.ended reach
    cases x with
    | inl s => exact first.always w s (parts.1 s rfl)
    | inr t => exact (second t.1).always w t.2 (parts.2 t.1 t.2 rfl)
  ended w x b reach done := by
    have parts := reach_andThen first.ended reach
    cases x with
    | inl s => cases done
    | inr t => exact (second t.1).ended w t.2 b (parts.2 t.1 t.2 rfl) done

/-- What follows an end may count on an assertion that the moves of the world keep. -/
theorem Spec.sequence (first : Spec env F G P m Q)
    (second : ∀ (a : A) (p : W → Prop), Stable env p → (∀ w, p w → Q a w ∧ G w) → Spec env F G p (k a) R) :
    Spec env F G P (m.andThen k) R := by
  have reached : Spec env F G P m fun a w => ∃ s, Reach env P m (fun _ => F) w s ∧ m.outcome s = some a :=
    ⟨first.always, fun w s a reach done => ⟨s, reach, done⟩⟩
  refine reached.andThen fun a => second a _ ?_ ?_
  · rintro w w' move ⟨s, reach, done⟩
    exact ⟨s, .env reach move, done⟩
  · rintro w ⟨s, reach, done⟩
    exact ⟨first.ended w s a reach done, first.always w s reach⟩

/-- The loop rule: a round keeps the invariant or leaves with the postcondition. -/
theorem Spec.iterate {next : A → Option B} (stable : ∀ b, Stable env (R b)) (always : ∀ b w, R b w → G w)
    (round : Spec env F G P m fun a w => (next a = none → P w) ∧ ∀ b, next a = some b → R b w) :
    Spec env F G P (iterate m next) R := by
  have parts : ∀ (w : W) (x : (Coroutine.iterate m next).State), Reach env P (Coroutine.iterate m next) (fun _ => F) w x →
      (∀ s, x = .inl s → Reach env P m (fun _ => F) w s) ∧ (∀ b, x = .inr b → R b w) := by
    intro w x reach
    induction reach with
    | start holds =>
      constructor
      · rintro s ⟨⟩
        exact .start holds
      · rintro b ⟨⟩
    | step _ flag step ih =>
      cases step with
      | run step =>
        constructor
        · rintro s ⟨⟩
          exact .step (ih.1 _ rfl) flag step
        · rintro b ⟨⟩
      | again done more =>
        constructor
        · rintro s ⟨⟩
          exact .start ((round.ended _ _ _ (ih.1 _ rfl) done).1 more)
        · rintro b ⟨⟩
      | leave done left =>
        constructor
        · rintro s ⟨⟩
        · rintro b ⟨⟩
          exact (round.ended _ _ _ (ih.1 _ rfl) done).2 _ left
    | env _ move ih => exact ⟨fun s same => .env (ih.1 s same) move, fun b same => stable b _ _ move (ih.2 b same)⟩
  constructor
  · intro w x reach
    cases x with
    | inl s => exact round.always w s ((parts w _ reach).1 s rfl)
    | inr b => exact always b w ((parts w _ reach).2 b rfl)
  · intro w x b reach done
    cases x with
    | inl s => cases done
    | inr c =>
      cases done
      exact (parts w _ reach).2 _ rfl

end Rules

section Runs
variable {env : W → W → Prop} {F F' : Bool → Prop} {P : W → Prop} {m : Coroutine W A} {w w' w'' : W} {a : A} {b : B}

/-- Steps with flags in `F`, between which the world does not move; what has ended is not resumed. -/
inductive Steps (F : Bool → Prop) (m : Coroutine W A) (w : W) (s : m.State) : W → m.State → Prop where
  | refl : Steps F m w s w s
  | tail {stopped : Bool} {w' w'' : W} {s' s'' : m.State} :
      Steps F m w s w' s' → m.outcome s' = none → F stopped → m.Step stopped w' s' w'' s'' → Steps F m w s w'' s''

/-- Some run from `w` ends with `a` in `w'`. -/
def Gives (F : Bool → Prop) (m : Coroutine W A) (w : W) (a : A) (w' : W) : Prop :=
  ∃ s, Steps F m w m.start w' s ∧ m.outcome s = some a

theorem Steps.trans {w₀ : W} {s₀ s s' : m.State} (first : Steps F m w₀ s₀ w s) (second : Steps F m w s w' s') :
    Steps F m w₀ s₀ w' s' := by
  induction second with
  | refl => exact first
  | tail _ open_ flag step ih => exact .tail ih open_ flag step

theorem Steps.reach {s s' : m.State} (steps : Steps F m w s w' s') (reach : Reach env P m (fun _ => F) w s) :
    Reach env P m (fun _ => F) w' s' := by
  induction steps with
  | refl => exact reach
  | tail _ _ flag step ih => exact .step ih flag step

theorem Gives.reach (gives : Gives F m w a w') (holds : P w) :
    ∃ s, Reach env P m (fun _ => F) w' s ∧ m.outcome s = some a :=
  gives.imp fun _ run => ⟨run.1.reach (.start holds), run.2⟩

theorem gives_ret : Gives F (ret a) w a w := ⟨(), .refl, rfl⟩

theorem gives_atomic {S : Bool → W → A → W → Prop} (stopped : Bool) (flag : F stopped) (done : S stopped w a w') :
    Gives F (atomic S) w a w' :=
  ⟨some a, .tail .refl rfl flag ⟨rfl, a, rfl, done⟩, rfl⟩

theorem gives_exec {f : W → A × W} (flag : F false) (done : f w = (a, w')) : Gives F (exec f) w a w' :=
  gives_atomic false flag done

theorem Gives.shield (flag : F false) (gives : Gives (· = false) m w a w') : Gives F (shield m) w a w' := by
  obtain ⟨s, steps, done⟩ := gives
  have run : Steps F (Coroutine.shield m) w m.start w' s := by
    clear done
    induction steps with
    | refl => exact .refl
    | tail _ open_ flag' step ih =>
      cases flag'
      exact .tail ih open_ flag step
  exact ⟨s, run, done⟩

theorem Gives.andThen {k : A → Coroutine W B} (first : Gives F m w a w') (flag : ∃ stopped, F stopped) (second : Gives F (k a) w' b w'') :
    Gives F (m.andThen k) w b w'' := by
  obtain ⟨s, steps, done⟩ := first
  have before : Steps F (m.andThen k) w (.inl m.start) w' (.inl s) := by
    clear done second
    induction steps with
    | refl => exact .refl
    | tail _ _ flag step ih => exact .tail ih rfl flag (.first step)
  obtain ⟨t, more, done'⟩ := second
  have after : Steps F (m.andThen k) w (.inl m.start) w'' (.inr ⟨a, t⟩) := by
    clear done'
    induction more with
    | refl =>
      obtain ⟨stopped, flag⟩ := flag
      exact .tail before rfl flag (.pass done)
    | tail _ open_ flag step ih => exact .tail ih open_ flag (.second step)
  exact ⟨_, after, done'⟩

theorem Steps.iterate {s s' : m.State} (next : A → Option B) (steps : Steps F m w s w' s') :
    Steps F (iterate m next) w (.inl s) w' (.inl s') := by
  induction steps with
  | refl => exact .refl
  | tail _ _ flag step ih => exact .tail ih rfl flag (.run step)

theorem Gives.iterate {next : A → Option B} (round : Gives F m w a w') (flag : F false) (left : next a = some b) :
    Gives F (iterate m next) w b w' := by
  obtain ⟨s, steps, done⟩ := round
  exact ⟨.inr b, .tail (steps.iterate next) rfl flag (.leave done left), rfl⟩

theorem Gives.again {next : A → Option B} (round : Gives F m w a w') (flag : F false) (left : next a = none)
    (rest : Gives F (Coroutine.iterate m next) w' b w'') : Gives F (Coroutine.iterate m next) w b w'' := by
  obtain ⟨s, steps, done⟩ := round
  obtain ⟨t, more, done'⟩ := rest
  exact ⟨t, .trans (.tail (steps.iterate next) rfl flag (.again done left)) more, done'⟩

end Runs

end Coroutine

end Nxt.Lib
