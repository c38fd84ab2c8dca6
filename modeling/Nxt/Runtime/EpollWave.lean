import Nxt.Runtime.EpollWand

/- A wave of the epoll wand, and what is left of its list when a submission throws (wand/epoll.hpp). -/
namespace Nxt.Runtime.Epoll
open Nxt.Lib List
variable {D : Type} {w : Wand D} {a : Nat → Answers D} {id : Nat} {x : Exec D}

structure QueuedAt (w : Wand D) (id : Nat) (x : Exec D) : Prop where
  here : w.execs id = some x
  queued : ∃ task, x.state = .parked task .queued

def Waits (w : Wand D) (id : Nat) : Prop := ∃ x task, w.execs id = some x ∧ x.state = .parked task .submitted

def Settled (w : Wand D) (id : Nat) : Prop := ∃ x, w.execs id = some x ∧ x.state = .settled

def SettledError (w : Wand D) (id : Nat) : Prop :=
  ∃ x failure, w.execs id = some x ∧ x.state = .settled ∧ x.urge.take = .error failure

/-- Submissions that fail for a reason of their own are settled with their error, and every other queued record is
    submitted, settled or still in the list. -/
def FailuresStay (a : Nat → Answers D) (w : Wand D) : Prop :=
  ∀ id ∈ w.pendingSubmissions, ∀ x, QueuedAt w id x →
    (x.request.refused (a id) = true → SettledError (w.wave a).1 id) ∧
      (x.request.refused (a id) = false →
        Waits (w.wave a).1 id ∨ Settled (w.wave a).1 id ∨ id ∈ (w.wave a).1.pendingSubmissions)

structure Put (w : Wand D) (id : Nat) (x' : Exec D) (w' : Wand D) : Prop where
  execs : w'.execs = Function.update w.execs id (some x')
  pending : w'.pendingSubmissions = w.pendingSubmissions
  next : w'.next = w.next

theorem apply_spec {step : Doing D (Option Nat)} {Q : Option Nat → Exec D → Prop} {E : Thrown → Exec D → Prop}
    (here : w.execs id = some x) (spec : wp step Q E x) :
    (∃ c x', Q c x' ∧ (w.apply id step).2 = none ∧ Put w id x' (w.apply id step).1) ∨
      ∃ e x', E e x' ∧ (w.apply id step).2 = some e ∧ Put w id x' (w.apply id step).1 := by
  unfold wp at spec
  unfold Wand.apply
  rw [here]
  dsimp only
  cases run : step x with
  | ok c x' =>
    rw [run] at spec
    exact .inl ⟨c, x', spec, rfl, rfl, rfl, rfl⟩
  | error e x' =>
    rw [run] at spec
    exact .inr ⟨e, x', spec, rfl, rfl, rfl, rfl⟩

theorem apply_none {step : Doing D (Option Nat)} (none_ : w.execs id = none) : w.apply id step = (w, none) := by
  unfold Wand.apply
  rw [none_]

def Done (w : Wand D) (id : Nat) : Prop := Waits w id ∨ Settled w id

structure Turned (a : Answers D) (id : Nat) (w w' : Wand D) : Prop where
  others : ∀ other, other ≠ id → w'.execs other = w.execs other
  willing : ∀ x, QueuedAt w id x → x.request.refused a = false
  done : (∃ x, QueuedAt w id x) ∨ Done w id → Done w' id
  unqueued : ∀ x, ¬QueuedAt w' id x

theorem apply_stage (w : Wand D) (a : Answers D) (id : Nat) :
    ((w.apply id (stage a)).2 = none ∧ Turned a id w (w.apply id (stage a)).1) ∨
    ∃ e x x', (w.apply id (stage a)).2 = some e ∧ QueuedAt w id x ∧
      x.request.refused a = true ∧ QueuedAt (w.apply id (stage a)).1 id x' := by
  cases here : w.execs id with
  | none =>
    have nothing (x : Exec D) : ¬QueuedAt w id x := fun at_ => by cases here.symm.trans at_.here
    have undone : ¬Done w id := by
      rintro (⟨x, task, there, -⟩ | ⟨x, there, -⟩) <;> cases here.symm.trans there
    rw [apply_none here]
    exact .inl ⟨rfl, fun _ _ => rfl, fun x at_ => absurd at_ (nothing x),
      fun some_ => absurd some_ (by rintro (⟨x, at_⟩ | done); exacts [nothing x at_, undone done]), nothing⟩
  | some x =>
    by_cases queued : ∃ task, x.state = .parked task .queued
    · obtain ⟨task, state⟩ := queued
      have at_ : QueuedAt w id x := ⟨here, task, state⟩
      rcases apply_spec here (stage_queued x state) with
        ⟨c, x', ⟨willing, after⟩, none_, put⟩ | ⟨e, x', threw, some_, put⟩
      · have there : (w.apply id (stage a)).1.execs id = some x' := by rw [put.execs, Function.update_self]
        have done : Done (w.apply id (stage a)).1 id :=
          after.symm.imp (fun waits => ⟨x', task, there, waits.1⟩) fun settled => ⟨x', there, settled⟩
        refine .inl ⟨none_, ?_, ?_, fun _ => done, ?_⟩
        · intro other apart
          rw [put.execs, Function.update_of_ne apart]
        · intro y at_'
          cases here.symm.trans at_'.here
          exact willing
        · rintro y ⟨there', task', queued⟩
          cases there.symm.trans there'
          rcases after with settled | ⟨waits, -⟩
          · rw [queued] at settled
            cases settled
          · rw [queued] at waits
            cases waits
      · refine .inr ⟨e, x, x', some_, at_, threw.refused, ?_, task, threw.state.trans state⟩
        rw [put.execs, Function.update_self]
    · push Not at queued
      rcases apply_spec here (stage_other (a := a) x queued) with ⟨c, x', after, none_, put⟩ | ⟨e, x', never, -⟩
      · have there : (w.apply id (stage a)).1.execs id = some x' := by rw [put.execs, Function.update_self]
        refine .inl ⟨none_, ?_, ?_, ?_, ?_⟩
        · intro other apart
          rw [put.execs, Function.update_of_ne apart]
        · rintro y ⟨here', task, at_⟩
          cases here.symm.trans here'
          exact absurd at_ (queued task)
        · rintro (⟨y, here', task, at_⟩ | done)
          · cases here.symm.trans here'
            exact absurd at_ (queued task)
          · rcases after with settled | rfl
            · exact .inr ⟨x', there, settled⟩
            · rcases done with ⟨y, task, here', waits⟩ | ⟨y, here', settled⟩
              · cases here.symm.trans here'
                exact .inl ⟨x', task, there, waits⟩
              · cases here.symm.trans here'
                exact .inr ⟨x', there, settled⟩
        · rintro y ⟨there', task, at_⟩
          cases there.symm.trans there'
          rcases after with settled | rfl
          · rw [at_] at settled
            cases settled
          · exact queued task at_
      · exact never.elim

theorem Turned.queued {a : Answers D} {w w' : Wand D} (turn : Turned a id w w') {other : Nat} {x : Exec D}
    (at_ : QueuedAt w' other x) : QueuedAt w other x := by
  have apart : other ≠ id := by
    rintro rfl
    exact turn.unqueued x at_
  exact ⟨(turn.others other apart).symm.trans at_.here, at_.queued⟩

theorem Turned.keeps {a : Answers D} {w w' : Wand D} (turn : Turned a id w w') {other : Nat} (done : Done w other) :
    Done w' other := by
  by_cases same : other = id
  · subst same
    exact turn.done (.inr done)
  · have kept := turn.others other same
    unfold Done Waits Settled
    rw [kept]
    exact done

theorem stageFrom_willing (ids : List Nat) (w : Wand D)
    (willing : ∀ id ∈ ids, ∀ x, QueuedAt w id x → x.request.refused (a id) = false) :
    (Wand.stageFrom a ids w).2 = none ∧ (∀ id, Done w id → Done (Wand.stageFrom a ids w).1 id) ∧
      ∀ id ∈ ids, ∀ x, QueuedAt w id x → Done (Wand.stageFrom a ids w).1 id := by
  induction ids generalizing w with
  | nil => exact ⟨rfl, fun _ done => done, fun _ mem => absurd mem not_mem_nil⟩
  | cons first rest ih =>
    rcases apply_stage w (a first) first with ⟨none_, turn⟩ | ⟨e, x, x', -, at_, refused, -⟩
    · obtain ⟨through, keeps, done⟩ := ih (w.apply first (stage (a first))).1
        fun id mem x at_ => willing id (mem_cons_of_mem _ mem) x (turn.queued at_)
      have step : Wand.stageFrom a (first :: rest) w = Wand.stageFrom a rest (w.apply first (stage (a first))).1 := by
        rw [Wand.stageFrom]
        rw [none_]
        rfl
      rw [step]
      refine ⟨through, fun id done_ => keeps id (turn.keeps done_), ?_⟩
      intro id mem x at_
      by_cases same : id = first
      · subst same
        exact keeps id (turn.done (.inl ⟨x, at_⟩))
      · rcases mem_cons.mp mem with here | later
        · exact absurd here same
        · exact done id later x ⟨(turn.others id same).trans at_.here, at_.queued⟩
    · rw [willing first mem_cons_self x at_] at refused
      cases refused

theorem stageFrom_refused (ids : List Nat) (w : Wand D)
    (some_ : ∃ id ∈ ids, ∃ x, QueuedAt w id x ∧ x.request.refused (a id) = true) : ∃ id ∈ ids, ∃ x x', QueuedAt w id x ∧
    x.request.refused (a id) = true ∧ QueuedAt (Wand.stageFrom a ids w).1 id x' := by
  induction ids generalizing w with
  | nil =>
    obtain ⟨id, mem, -⟩ := some_
    cases mem
  | cons first rest ih =>
    rcases apply_stage w (a first) first with ⟨none_, turn⟩ | ⟨e, x, x', thrown, at_, refused, left⟩
    · have step : Wand.stageFrom a (first :: rest) w = Wand.stageFrom a rest (w.apply first (stage (a first))).1 := by
        rw [Wand.stageFrom]
        rw [none_]
        rfl
      obtain ⟨id, mem, x, at_, refused⟩ := some_
      have apart : id ≠ first := by
        rintro rfl
        rw [turn.willing x at_] at refused
        cases refused
      have later : id ∈ rest := (mem_cons.mp mem).resolve_left apart
      obtain ⟨id', mem', y, y', at_', refused', left⟩ := ih (w.apply first (stage (a first))).1
        ⟨id, later, x, ⟨(turn.others id apart).trans at_.here, at_.queued⟩, refused⟩
      rw [step]
      exact ⟨id', mem_cons_of_mem _ mem', y, y', turn.queued at_', refused', left⟩
    · have step : Wand.stageFrom a (first :: rest) w = w.apply first (stage (a first)) := by
        rw [Wand.stageFrom]
        rw [thrown]
        rfl
      rw [step]
      exact ⟨first, mem_cons_self, x, x', at_, refused, left⟩

theorem compact_queued : QueuedAt w.compactExecs id x ↔ QueuedAt w id x := by
  constructor
  · rintro ⟨here, queued⟩
    exact ⟨(Option.filter_eq_some_iff.mp here).1, queued⟩
  · rintro ⟨here, task, queued⟩
    refine ⟨Option.filter_eq_some_iff.mpr ⟨here, ?_⟩, task, queued⟩
    rw [Wand.isRetirable, queued]
    rfl

theorem compact_pending (at_ : QueuedAt w id x) :
    id ∈ w.compactExecs.pendingSubmissions ↔ id ∈ w.pendingSubmissions := by
  obtain ⟨here, task, queued⟩ := at_
  have parked : w.isParked id = true := by
    rw [Wand.isParked, here, Option.any_some, queued]
  unfold Wand.compactExecs
  rw [mem_filter, parked]
  exact and_iff_left rfl

/-- Failing submissions stay with their wishes just when no queued record of the list fails so. -/
theorem failuresStay_iff (a : Nat → Answers D) (w : Wand D) :
    FailuresStay a w ↔ ∀ id ∈ w.pendingSubmissions, ∀ x, QueuedAt w id x → x.request.refused (a id) = false := by
  have queued_clear {id : Nat} {x : Exec D} :
      QueuedAt { w.compactExecs with pendingSubmissions := [] } id x ↔ QueuedAt w id x := by
    constructor
    · exact fun at_ => compact_queued.mp ⟨at_.here, at_.queued⟩
    · intro at_
      have kept := compact_queued.mpr at_
      exact ⟨kept.here, kept.queued⟩
  constructor
  · intro stay id mem x at_
    by_contra refused
    rw [Bool.not_eq_false] at refused
    obtain ⟨id', mem', y, y', at_', refused', left⟩ := stageFrom_refused w.compactExecs.pendingSubmissions
      { w.compactExecs with pendingSubmissions := [] } ⟨id, (compact_pending at_).mpr mem, x, queued_clear.mpr at_, refused⟩
    have there := queued_clear.mp at_'
    obtain ⟨z, failure, here, settled, -⟩ := (stay id' ((compact_pending there).mp mem') y there).1 refused'
    cases here.symm.trans left.here
    obtain ⟨task, queued⟩ := left.queued
    rw [queued] at settled
    cases settled
  · intro willing id mem x at_
    obtain ⟨-, -, done⟩ := stageFrom_willing (a := a) w.compactExecs.pendingSubmissions
      { w.compactExecs with pendingSubmissions := [] } fun id' mem' y at_' =>
        willing id' ((compact_pending (queued_clear.mp at_')).mp mem') y (queued_clear.mp at_')
    have good := willing id mem x at_
    constructor
    · intro refused
      rw [good] at refused
      cases refused
    · intro _
      exact (done id ((compact_pending at_).mpr mem) x (queued_clear.mpr at_)).imp_right Or.inl

/-- A kernel that has no descriptor left, and would refuse nothing else. -/
def noDescriptors : Answers Unit where
  call := .ok 0
  getfl := .ok true
  setfl := .ok ()
  dup _ := .error 24
  timerfdCreate := .error 24
  timerfdSettime _ := .ok ()
  add _ _ := .ok ()
  getsockopt _ := .ok 0
  waitid := .ok {}
  filled := ()

/-- Two wishes that wait for a wave: one watches a descriptor, the other is done at once. -/
def pollAndManual : Wand Unit := ((((({} : Wand Unit).prep (.poll 3 1)).suspend 0 10).prep .manual).suspend 1 11)

theorem pollAndManual_reached : Reached pollAndManual :=
  .step (.step (.step (.step .start (.prep _)) (.suspend 0 10)) (.prep _)) (.suspend 1 11)

/-- Without a descriptor left, a wave loses both wishes. -/
theorem wave_loses : ¬∀ (a : Nat → Answers Unit) (w : Wand Unit), Reached w → FailuresStay a w := by
  intro stay
  have first := (stay (fun _ => noDescriptors) pollAndManual pollAndManual_reached 0 (by decide)
    { request := .poll 3 1, state := .parked 10 .queued } ⟨rfl, 10, rfl⟩).1 rfl
  obtain ⟨x, failure, here, settled, -⟩ := first
  cases here
  cases settled

end Nxt.Runtime.Epoll
