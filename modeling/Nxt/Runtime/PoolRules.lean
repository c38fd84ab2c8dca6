import Nxt.Runtime.Credit

/- The rules of the blocking pool over whole runs, for any number of workers and any capacity. -/
namespace Nxt.Runtime.Blocking.Pool
open List
variable {V E : Type} {s s' : Pool V E}

structure Kept (capacity : Nat) (s : Pool V E) : Prop where
  capacity : s.capacity = capacity
  sound : s.Sound
  owed : s.Owed
  order : s.InOrder
  closed : s.Closed

theorem Kept.move {capacity : Nat} (kept : Kept capacity s) (move : Move s s') : Kept capacity s' where
  capacity := by
    have same : s'.capacity = s.capacity := by cases move <;> rfl
    rw [same, kept.capacity]
  sound := kept.sound.move move
  owed := kept.owed.move kept.sound move
  order := kept.order.move move
  closed := kept.closed.move kept.owed move

theorem kept_start (workers capacity : Nat) : Kept capacity (start workers capacity : Pool V E) where
  capacity := rfl
  sound := sound_start workers capacity
  owed := owed_start workers capacity
  order := by
    refine ⟨rfl, fun _ => List.Sublist.refl _, ?_⟩
    intro j only
    have mem : Worker.taking j ∈ replicate workers .idle := by
      rw [show replicate workers Worker.idle = _ from only]
      exact mem_singleton_self _
    cases eq_of_mem_replicate mem
  closed := by constructor <;> simp [start, Turn.closes]

/-- Nothing is admitted, taken or started between the two states, and a call whose task had left
    `run` is as it was. -/
structure Still (s s' : Pool V E) : Prop where
  admitted : s'.admitted = s.admitted
  taken : s'.taken = s.taken
  started : s'.started = s.started
  left : ∀ (j : Nat) (b : Job V E), s.jobs[j]? = some b → b.phase.isLeft = true → s'.jobs[j]? = some b
  returned : s.returned ≠ [] → s'.returned ≠ []

theorem Still.trans {s'' : Pool V E} (first : Still s s') (second : Still s' s'') : Still s s'' where
  admitted := second.admitted.trans first.admitted
  taken := second.taken.trans first.taken
  started := second.started.trans first.started
  left j b at_ left := second.left j b (first.left j b at_ left) left
  returned some_ := second.returned (first.returned some_)

theorem left_put {j : Nat} {b d : Job V E} (at_ : s.jobs[j]? = some b) (here : b.phase.isLeft = false) :
    ∀ (i : Nat) (c : Job V E), s.jobs[i]? = some c → c.phase.isLeft = true → (s.put j d).jobs[i]? = some c := by
  intro i c at_i left
  rw [put_at at_, if_neg]
  · exact at_i
  · rintro rfl
    rw [at_] at at_i
    cases at_i
    rw [here] at left
    cases left

theorem Kept.still {capacity : Nat} (kept : Kept capacity s) (some_ : s.returned ≠ []) (move : Move s s') :
    Still s s' := by
  have closed := kept.closed
  have busy {w : Nat} {x : Worker} (worker : s.workers[w]? = some x) (active : x ≠ .exited) : False :=
    some_ (closed.working worker active)
  have inside {j : Nat} (mem : j ∈ s.calls) {b : Job V E} (at_ : s.jobs[j]? = some b) : b.phase.isLeft = false := by
    obtain ⟨c, at_c, here⟩ := (kept.owed.calls j).mp mem
    rw [at_] at at_c
    cases at_c
    exact here
  cases move with
  | begin turn =>
    exact ⟨rfl, rfl, rfl, fun j b at_ _ => (begin_at j b).mpr (.inl at_), id⟩
  | @drain j b phase turn at_ phases =>
    refine ⟨rfl, rfl, rfl, left_put at_ ?_, id⟩
    obtain ⟨old, _⟩ | ⟨old, _⟩ := phases <;> rw [old] <;> rfl
  | @refuse j b turn at_ phase refused => exact ⟨rfl, rfl, rfl, left_put at_ (by rw [phase]; rfl), id⟩
  | @accept j b turn at_ phase open_ uncancelled credit =>
    rw [(closed.exited some_).1] at open_
    cases open_
  | @park j b phase turn at_ phases =>
    refine ⟨rfl, rfl, rfl, left_put at_ ?_, id⟩
    obtain ⟨old, _⟩ | ⟨old, _⟩ := phases <;> rw [old] <;> rfl
  | @finish j b turn at_ phase done => exact ⟨rfl, rfl, rfl, left_put at_ (by rw [phase]; rfl), id⟩
  | @leave j b r turn at_ phase =>
    refine ⟨rfl, rfl, rfl, ?_, id⟩
    intro i c at_i left
    have put := left_put (d := b.leave r) at_ (by rw [phase]; rfl) i c at_i left
    have quiet : i ∉ s.calls.filter (· ≠ j) := by
      intro mem
      rw [inside (mem_of_mem_filter mem) at_i] at left
      cases left
    have found := notifyAll_at (s.calls.filter (· ≠ j)) (s.put j (b.leave r)).jobs i
    rw [put, Option.map_some, if_neg quiet] at found
    exact found
  | @stopNext j b rest closes turn at_ =>
    have mem := closed.stopping _ _ turn j (by simp)
    exact ⟨rfl, rfl, rfl, left_put at_ (inside mem at_), id⟩
  | joined turn exited => exact ⟨rfl, rfl, rfl, fun _ _ at_ _ => at_, fun _ => cons_ne_nil _ _⟩
  | @wake j b phase turn at_ phases =>
    refine ⟨rfl, rfl, rfl, left_put at_ ?_, id⟩
    obtain ⟨old, _⟩ | ⟨old, _⟩ := phases <;> rw [old] <;> rfl
  | @cancel j b at_ here => exact ⟨rfl, rfl, rfl, left_put at_ here, id⟩
  | take worker queue at_ => exact absurd worker fun worker => busy worker (fun same => by cases same)
  | execute worker at_ => exact absurd worker fun worker => busy worker (fun same => by cases same)
  | publish worker at_ => exact absurd worker fun worker => busy worker (fun same => by cases same)
  | invoke worker at_ => exact absurd worker fun worker => busy worker (fun same => by cases same)
  | _ => exact ⟨rfl, rfl, rfl, fun _ _ at_ _ => at_, id⟩

theorem run_still {capacity : Nat} (kept : Kept capacity s) (some_ : s.returned ≠ []) {more : List (Action V E)}
    (ran : s.run more = some s') : Still s s' := by
  have holds := run_keeps (P := fun t => Kept capacity t ∧ Still s t) ?_ ran
    ⟨kept, ⟨rfl, rfl, rfl, fun _ _ at_ _ => at_, id⟩⟩
  · exact holds.2
  · rintro t t' ⟨kept, still⟩ move
    exact ⟨kept.move move, still.trans (kept.still (still.returned some_) move)⟩

/-- What the pool promises in a state, whatever led to it. -/
structure Promises (capacity : Nat) (s : Pool V E) : Prop where
  occupied : s.occupied = s.jobs.countP fun b => b.submitted && !b.phase.isLeft
  bounded : s.occupied ≤ capacity
  calls : ∀ (j : Nat) (b : Job V E), s.jobs[j]? = some b → Obeys b.past ∧
    (b.submitted = true ↔ .admitted ∈ b.past) ∧ (b.cancelled = true ↔ .cancelled ∈ b.past) ∧
    (b.done = true ↔ .published ∈ b.past) ∧ ∀ r, b.phase = .left r → .ended r ∈ b.past
  fifo : s.admitted = s.taken ++ s.queue
  oneWorker : s.workers.length = 1 → s.started.Sublist s.admitted
  awake : ∀ (j : Nat) (b : Job V E), s.jobs[j]? = some b → b.phase = .asking → s.occupied < capacity →
    b.pending = true
  closed : ∀ n ∈ s.returned, (∀ w ∈ s.workers, w = .exited) ∧
    (∀ (j : Nat) (b : Job V E), s.jobs[j]? = some b → (j < n → b.phase.isLeft = true) ∧
      (n ≤ j → b.submitted = false)) ∧
    ∀ more s', s.run more = some s' → Still s s'

theorem Kept.promises {capacity : Nat} (kept : Kept capacity s) : Promises capacity s where
  occupied := kept.owed.counted
  bounded := kept.capacity ▸ kept.owed.bounded
  calls j b at_ := by
    have sound := kept.sound.jobs j b at_
    refine ⟨sound.story.obeys, sound.submitted, sound.cancelled, sound.done, ?_⟩
    intro r left
    have placed := sound.placed
    simp only [Job.Placed, left] at placed
    exact placed.2
  fifo := kept.order.fifo
  oneWorker one := by
    rw [kept.order.fifo]
    exact (kept.order.started one).trans (sublist_append_left _ _)
  awake := kept.capacity ▸ kept.owed.awake
  closed n mem := by
    have some_ := ne_nil_of_mem mem
    exact ⟨(kept.closed.exited some_).2, (kept.closed.gone n mem).2, fun more s' ran => run_still kept some_ ran⟩

theorem run_promises {workers capacity : Nat} {acts : List (Action V E)}
    (ran : (start workers capacity).run acts = some s) : Promises capacity s :=
  (run_keeps (fun kept move => Kept.move kept move) ran (kept_start workers capacity)).promises

/-- Two run tasks, the first of them cancelled while its call runs, and a `close`. -/
def sampleRun : List (Action Nat Nat) :=
  [.begin, .advance, .advance, .advance, .advance, .begin, .advance, .advance, .work 0, .work 0, .cancel 0,
    .invoke 0 (.value 7), .work 0, .wake 0, .advance, .advance, .advance, .wake 1, .advance, .advance, .advance,
    .advance, .work 0, .work 0, .invoke 0 (.failure 3), .work 0, .close, .advance, .advance, .advance, .wake 1,
    .advance, .advance, .advance, .wakeClose, .advance, .work 0, .advance]

theorem sample_promises : ∃ s, (start 1 1).run sampleRun = some s ∧ s.returned = [2] ∧ Promises 1 s := by
  have ran : ((start 1 1).run sampleRun).isSome = true := by decide +kernel
  obtain ⟨s, ran⟩ := Option.isSome_iff_exists.mp ran
  have returned : ((start 1 1).run sampleRun).map (·.returned) = some [2] := by decide +kernel
  rw [ran] at returned
  exact ⟨s, ran, Option.some.inj returned, run_promises ran⟩

/-- Two workers that took two calls in order and start them the other way round. -/
def overtaking : List (Action Unit Unit) :=
  [.begin, .advance, .advance, .advance, .advance, .begin, .advance, .advance, .work 0, .work 1, .work 1, .work 0]

theorem started_out_of_order : ∃ s, (start 2 2).run overtaking = some s ∧
    s.admitted = [0, 1] ∧ s.started = [1, 0] ∧ ¬s.started.Sublist s.admitted := by
  have ran : ((start 2 2).run overtaking).map (fun s => (s.admitted, s.started)) = some ([0, 1], [1, 0]) := by
    decide +kernel
  obtain ⟨s, ran, same⟩ := Option.map_eq_some_iff.mp ran
  obtain ⟨admitted, started⟩ := Prod.mk.inj same
  refine ⟨s, ran, admitted, started, ?_⟩
  rw [admitted, started]
  decide

end Nxt.Runtime.Blocking.Pool
