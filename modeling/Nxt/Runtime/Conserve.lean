import Nxt.Runtime.Pump

/- What a pool conserves over its runs. The slots always have their places and the books are in
   order; a pool that is not stopped is steady between two events; the end of the stream is told
   only when everything read was published; and a read throws, or `close` returns, only when the
   pool is empty. -/
namespace Nxt.Runtime.Pool
open List

variable {V E : Type} {s s' : Pool V E} {capacity : Nat}

structure Exhausted (s : Pool V E) : Prop where
  ended : s.inputEnded = true
  input : s.input = .none
  prepared : s.prepared = none
  completed : s.completed = []
  still : ∀ i, runs (s.held i) = false
  every : ∀ id < s.reads, id ∈ s.published.map Prod.fst
  whole : s.completions = successes s.published

structure Drained (s : Pool V E) : Prop where
  stopping : s.stopping = true
  input : s.input = .none
  empty : ∀ i, s.held i = none

def ReadEnd.final : ReadEnd E → Prop
  | .threw _ => True
  | .closed => True
  | _ => False

structure Ledger (capacity : Nat) (s : Pool V E) : Prop where
  loose : s.Loose
  size : s.slots.length = capacity
  eof : ∀ left, .eof left ∈ s.ends → s.Exhausted ∧ s.published.length ≤ s.consumed + left
  drained : ∀ r ∈ s.ends, ReadEnd.final r → s.Drained

/-- What holds between two events. -/
structure Sound (capacity : Nat) (s : Pool V E) : Prop where
  ledger : s.Ledger capacity
  places : ∃ place, s.Shape place ∧ Tidy place
  steady : s.stopping = false → s.Steady

section Counting

theorem slots_eq (s : Pool V E) : s.slots = (range s.slots.length).map s.held := by
  apply ext_getElem?
  intro i
  rw [getElem?_map]
  by_cases inside : i < s.slots.length
  · rw [getElem?_range inside, getElem?_eq_getElem inside]
    unfold held
    rw [Option.map_some, getElem?_eq_getElem inside]
    rfl
  · rw [getElem?_eq_none (by omega), getElem?_eq_none (by rw [length_range]; omega)]
    rfl

theorem Shape.only_buffered {place : Nat → Place} (shape : s.Shape place)
    (full : s.occupied = s.ring.length) (i : Nat) : place i = .free ∨ place i = .buffered := by
  let taken := (range s.slots.length).filter fun i => (s.held i).isSome
  have count : s.occupied = taken.length := by
    rw [shape.occupied, slots_eq s, countP_map, countP_eq_length_filter]
    rfl
  have among : s.buffered ⊆ taken := by
    intro j held
    obtain ⟨h, here⟩ := shape.held_at ((shape.buffered j).mp held) (by decide)
    refine mem_filter.mpr ⟨mem_range.mpr (held_inside here), ?_⟩
    rw [here]
    rfl
  have same : s.buffered.Perm taken :=
    (subperm_of_subset shape.onceBuffered among).perm_of_length_le (by rw [← count, full, shape.ring])
  by_cases free : s.held i = none
  · exact Or.inl ((shape.owned i).mp free)
  · obtain ⟨h, here⟩ := Option.ne_none_iff_exists'.mp free
    refine Or.inr ((shape.buffered i).mp (same.mem_iff.mpr ?_))
    refine mem_filter.mpr ⟨mem_range.mpr (held_inside here), ?_⟩
    rw [here]
    rfl

theorem Shape.empty_iff {place : Nat → Place} (shape : s.Shape place) : s.occupied = 0 ↔ ∀ i, s.held i = none := by
  rw [shape.occupied, countP_eq_zero]
  constructor
  · intro none_ i
    by_contra taken
    obtain ⟨h, here⟩ := Option.ne_none_iff_exists'.mp taken
    exact none_ _ (mem_of_getElem? (getElem?_held here)) rfl
  · intro free c held
    obtain ⟨i, inside, rfl⟩ := getElem_of_mem held
    have here := free i
    unfold Pool.held at here
    rw [getElem?_eq_getElem inside] at here
    have here : s.slots[i] = none := here
    rw [here]
    simp

theorem Drained.idle {place : Nat → Place} (drained : s.Drained) (shape : s.Shape place) :
    s.occupied = 0 ∧ s.running = 0 := by
  refine ⟨shape.empty_iff.mpr drained.empty, ?_⟩
  rw [shape.counted, countP_eq_zero]
  intro c held
  obtain ⟨i, inside, rfl⟩ := getElem_of_mem held
  have here := drained.empty i
  unfold Pool.held at here
  rw [getElem?_eq_getElem inside] at here
  have here : s.slots[i] = none := here
  rw [here]
  simp [runs]

end Counting

theorem Steady.exhausted (steady : s.Steady) (ended : s.inputEnded = true) (full : s.occupied = s.ring.length) :
    s.Exhausted ∧ s.published.length ≤ s.consumed + s.ring.length := by
  obtain ⟨place, shape, -⟩ := steady.places
  have only := shape.only_buffered full
  have nowhere : ∀ {i r}, place i = r → r ≠ .free → r ≠ .buffered → False := by
    rintro i r rfl notFree notBuffered
    exact (only i).elim notFree notBuffered
  have empty : s.inputSlot = none := by
    by_contra taken
    obtain ⟨i, slot⟩ := Option.ne_none_iff_exists'.mp taken
    exact nowhere ((shape.input i).mp slot) (by decide) (by decide)
  have vacant : s.prepared = none := by
    by_contra taken
    obtain ⟨i, slot⟩ := Option.ne_none_iff_exists'.mp taken
    exact nowhere ((shape.prepared i).mp slot) (by decide) (by decide)
  have none_ : s.completed = [] := by
    rw [eq_nil_iff_forall_not_mem]
    exact fun i held => nowhere ((shape.completed i).mp held) (by decide) (by decide)
  have still : ∀ i, runs (s.held i) = false := by
    intro i
    rcases only i with free | buffered
    · exact shape.runs_at free
    · exact shape.runs_at buffered
  have whole : s.completions = successes s.published := by
    rw [steady.current.whole, none_, map_nil, append_nil]
  refine ⟨⟨ended, steady.reserved.mp empty, vacant, none_, still, ?_, whole⟩, ?_⟩
  · intro id bound
    have begun : id ∈ s.begun := by
      rcases steady.current.every id bound with already | ⟨i, slot, -⟩
      · exact already
      · rw [vacant] at slot
        cases slot
    have done : id ∈ s.completions.map Prod.fst := by
      rcases steady.current.followed id begun with done | ⟨i, h, here, busy, -⟩
      · exact done
      · have idle := still i
        rw [here] at idle
        have idle : h.isRunning = false := idle
        rw [busy] at idle
        cases idle
    rw [whole] at done
    unfold successes at done
    rw [map_map] at done
    exact done
  · exact steady.current.exact_.ge

theorem pump_exhausted (schedule : Bool) (replies : List (Reply V E)) (exhausted : s.Exhausted)
    {thrown : Option (Exn E)} (ran : pump schedule replies s = some (thrown, s')) : s' = s ∧ thrown = none := by
  cases replies with
  | nil => cases ran
  | cons r rest =>
    have halts : pumpTurn schedule r s = (.returned, s) := by
      unfold pumpTurn
      split
      · rfl
      · rw [exhausted.completed]
        simp only [publish, startPrepared, exhausted.prepared, exhausted.input, admitInput, exhausted.ended, if_true]
    unfold pump at ran
    rw [halts] at ran
    cases ran
    exact ⟨rfl, rfl⟩

theorem Sound.pump (sound : s.Sound capacity) (opened : s.stopping = false) (schedule : Bool)
    (replies : List (Reply V E)) {thrown : Option (Exn E)} (ran : s.pump schedule replies = some (thrown, s')) :
    s'.Ledger capacity ∧ (thrown = none → s'.stopping = true ∨ s'.Steady) := by
  obtain ⟨loose, kept⟩ := pump_kept schedule replies (sound.steady opened) ran
  have frame := pump_frame False replies (fun never => never.elim) ran
  refine ⟨⟨loose, by rw [frame.size]; exact sound.ledger.size, ?_, ?_⟩, kept⟩
  · intro left told
    rw [frame.ends] at told
    obtain ⟨exhausted, all⟩ := sound.ledger.eof left told
    obtain ⟨rfl, -⟩ := pump_exhausted schedule replies exhausted ran
    exact ⟨exhausted, all⟩
  · intro r told final
    rw [frame.ends] at told
    have drained := (sound.ledger.drained r told final).stopping
    rw [opened] at drained
    cases drained

section Events

theorem Ledger.stage (ledger : s.Ledger capacity) (failure : Option (Exn E)) (changed waiter : Bool)
    (reader : Reader) (observed : List (Exn E)) :
    Ledger capacity { s with failure, changed, waiter, reader, observed } := by
  obtain ⟨place, shape⟩ := ledger.loose.places
  refine ⟨⟨⟨place, shape.same rfl rfl rfl rfl rfl rfl rfl rfl⟩, ?_⟩, ledger.size, ?_, ?_⟩
  · exact ledger.loose.books.shrinks (fun j h here => here) (fun j slot => ⟨slot, rfl⟩)
      (fun j slot => ⟨slot, rfl⟩) ledger.loose.books.reading rfl rfl rfl rfl ledger.loose.books.tally
  · intro left told
    obtain ⟨ex, all⟩ := ledger.eof left told
    exact ⟨⟨ex.ended, ex.input, ex.prepared, ex.completed, ex.still, ex.every, ex.whole⟩, all⟩
  · intro r told final
    have drained := ledger.drained r told final
    exact ⟨drained.stopping, drained.input, drained.empty⟩

theorem Steady.stage (steady : s.Steady) (failure : Option (Exn E)) (changed waiter : Bool)
    (reader : Reader) (observed : List (Exn E)) (ends : List (ReadEnd E)) :
    Steady { s with failure, changed, waiter, reader, observed, ends } := by
  obtain ⟨place, shape, tidy⟩ := steady.places
  refine ⟨⟨place, shape.same rfl rfl rfl rfl rfl rfl rfl rfl, tidy⟩, ?_, ?_, steady.reserved, steady.opened⟩
  · exact steady.books.shrinks (fun j h here => here) (fun j slot => ⟨slot, rfl⟩)
      (fun j slot => ⟨slot, rfl⟩) steady.books.reading rfl rfl rfl rfl steady.books.tally
  · exact ⟨steady.current.every, steady.current.followed, steady.current.whole, steady.current.exact_⟩

theorem Sound.stage (sound : s.Sound capacity) (failure : Option (Exn E)) (changed waiter : Bool)
    (reader : Reader) (observed : List (Exn E)) :
    Sound capacity { s with failure, changed, waiter, reader, observed } := by
  obtain ⟨place, shape, tidy⟩ := sound.places
  refine ⟨sound.ledger.stage failure changed waiter reader observed,
    ⟨place, shape.same rfl rfl rfl rfl rfl rfl rfl rfl, tidy⟩, ?_⟩
  exact fun opened => (sound.steady opened).stage failure changed waiter reader observed s.ends

theorem Sound.ends (sound : s.Sound capacity) (r : ReadEnd E) (failure : Option (Exn E)) (reader : Reader)
    (eof : ∀ left, r = .eof left → s.Exhausted ∧ s.published.length ≤ s.consumed + left)
    (drained : ReadEnd.final r → s.Drained) :
    Sound capacity { s with failure, reader, ends := s.ends ++ [r] } := by
  obtain ⟨place, shape, tidy⟩ := sound.places
  obtain ⟨⟨-, books⟩, size, told, ended⟩ := sound.ledger
  have booked : Books { s with failure, reader, ends := s.ends ++ [r] } :=
    books.shrinks (fun j h here => here) (fun j slot => ⟨slot, rfl⟩)
      (fun j slot => ⟨slot, rfl⟩) books.reading rfl rfl rfl rfl books.tally
  have placed : Shape { s with failure, reader, ends := s.ends ++ [r] } place :=
    shape.same rfl rfl rfl rfl rfl rfl rfl rfl
  refine ⟨⟨⟨⟨place, placed⟩, booked⟩, size, ?_, ?_⟩, ⟨place, placed, tidy⟩, ?_⟩
  · intro left held
    have both : s.Exhausted ∧ s.published.length ≤ s.consumed + left := by
      rcases mem_append.mp held with old | last
      · exact told left old
      · exact eof left (mem_singleton.mp last).symm
    obtain ⟨ex, all⟩ := both
    exact ⟨⟨ex.ended, ex.input, ex.prepared, ex.completed, ex.still, ex.every, ex.whole⟩, all⟩
  · intro r' held final
    have drained : s.Drained := by
      rcases mem_append.mp held with old | last
      · exact ended r' old final
      · rw [mem_singleton.mp last] at final
        exact drained final
    exact ⟨drained.stopping, drained.input, drained.empty⟩
  · exact fun opened => (sound.steady opened).stage failure s.changed s.waiter reader s.observed (s.ends ++ [r])

theorem Ledger.stop (ledger : s.Ledger capacity) : s.stop.Ledger capacity := by
  refine ⟨ledger.loose.stop, ledger.size, ?_, ?_⟩
  · intro left told
    obtain ⟨ex, all⟩ := ledger.eof left told
    exact ⟨⟨ex.ended, ex.input, ex.prepared, ex.completed, ex.still, ex.every, ex.whole⟩, all⟩
  · intro r told final
    have drained := ledger.drained r told final
    exact ⟨rfl, drained.input, drained.empty⟩

theorem Sound.stop (sound : s.Sound capacity) : s.stop.Sound capacity := by
  obtain ⟨place, shape, tidy⟩ := sound.places
  refine ⟨sound.ledger.stop, ⟨place, shape.same rfl rfl rfl rfl rfl rfl rfl rfl, tidy⟩, ?_⟩
  intro never
  cases never

section
variable (gone : Discarded s s')
include gone

theorem Discarded.input :
    s'.input = .none ∧ s'.inputSlot = none ∨ s'.input = s.input ∧ s'.inputSlot = s.inputSlot := by
  obtain ⟨slots, occupied, equal⟩ := gone.frame
  rw [equal]
  by_cases busy : s.inputRunning = true
  · exact Or.inr ⟨if_pos busy, if_pos busy⟩
  · exact Or.inl ⟨if_neg busy, if_neg busy⟩

theorem Discarded.books (books : s.Books) : s'.Books := by
  obtain ⟨slots, occupied, equal⟩ := gone.frame
  obtain ⟨place, shape, -⟩ := gone.places
  refine books.shrinks gone.kept ?_ ?_ ?_ (by rw [equal]) (by rw [equal]) (by rw [equal]) (by rw [equal]) ?_
  · intro j slot
    obtain ⟨h, here⟩ := shape.held_at ((shape.input j).mp slot) (by decide)
    refine ⟨?_, here.trans (gone.kept j h here).symm⟩
    rcases gone.input with ⟨-, none_⟩ | ⟨-, same⟩
    · rw [none_] at slot
      cases slot
    · rw [← same]
      exact slot
  · intro j slot
    rw [equal] at slot
    cases slot
  · intro busy
    rcases gone.input with ⟨idle, -⟩ | ⟨still, same⟩
    · exact absurd idle busy
    · rw [same]
      rw [still] at busy
      exact books.reading busy
  · rw [equal]
    exact (Nat.add_le_add_left (Nat.zero_le _) _).trans books.tally

theorem Discarded.exhausted (ex : s.Exhausted) : s'.Exhausted := by
  obtain ⟨slots, occupied, equal⟩ := gone.frame
  refine ⟨by rw [equal]; exact ex.ended, ?_, by rw [equal], by rw [equal], ?_, by rw [equal]; exact ex.every,
    by rw [equal]; exact ex.whole⟩
  · rcases gone.input with ⟨idle, -⟩ | ⟨still, -⟩
    · exact idle
    · exact still.trans ex.input
  · intro i
    cases here : s'.held i with
    | none => rfl
    | some h =>
      have still := ex.still i
      rw [gone.kept i h here] at still
      exact still

theorem Discarded.drained (drained : s.Drained) : s'.Drained := by
  obtain ⟨slots, occupied, equal⟩ := gone.frame
  refine ⟨by rw [equal]; exact drained.stopping, ?_, ?_⟩
  · rcases gone.input with ⟨idle, -⟩ | ⟨still, -⟩
    · exact idle
    · exact still.trans drained.input
  · intro i
    by_contra taken
    obtain ⟨h, here⟩ := Option.ne_none_iff_exists'.mp taken
    have old := gone.kept i h here
    rw [drained.empty] at old
    cases old

theorem Discarded.ledger (ledger : s.Ledger capacity) : s'.Ledger capacity := by
  obtain ⟨slots, occupied, equal⟩ := gone.frame
  obtain ⟨place, shape, -⟩ := gone.places
  have ends : s'.ends = s.ends := by rw [equal]
  refine ⟨⟨⟨place, shape⟩, gone.books ledger.loose.books⟩, gone.length.trans ledger.size, ?_, ?_⟩
  · intro left told
    rw [ends] at told
    obtain ⟨ex, all⟩ := ledger.eof left told
    refine ⟨gone.exhausted ex, ?_⟩
    rw [equal]
    exact all
  · intro r told final
    rw [ends] at told
    exact gone.drained (ledger.drained r told final)

end

theorem Ledger.discards (ledger : s.Ledger capacity) (stopped : s.stopping = true) :
    s.discardSettled.2.Sound capacity ∧ (s.discardSettled.1 = true → s.discardSettled.2.Drained) := by
  obtain ⟨place, shape⟩ := ledger.loose.places
  obtain ⟨gone, verdict⟩ := shape.discards
  have after := gone.ledger ledger
  obtain ⟨place', shape', at_⟩ := gone.places
  have stopping : s.discardSettled.2.stopping = true := by
    obtain ⟨slots, occupied, equal⟩ := gone.frame
    rw [equal]
    exact stopped
  refine ⟨⟨after, ⟨place', shape', ?_⟩, ?_⟩, ?_⟩
  · intro j stray
    rcases at_ j with free | input | running
    · rw [free] at stray
      cases stray
    · rw [input] at stray
      cases stray
    · rw [running] at stray
      cases stray
  · intro opened
    rw [stopping] at opened
    cases opened
  · intro done
    rw [done] at verdict
    have empty := shape'.empty_iff.mp (by simpa using verdict.symm)
    refine ⟨stopping, ?_, empty⟩
    by_contra busy
    obtain ⟨i, reserved⟩ := Option.ne_none_iff_exists'.mp (after.loose.books.reading busy)
    obtain ⟨h, here⟩ := shape'.held_at ((shape'.input i).mp reserved) (by decide)
    rw [empty] at here
    cases here

theorem progress_cases (before : Nat) (s : Pool V E) {r : ReadEnd E} (told : s.progress before = some r) :
    r = .data ∨ r = .eof s.ring.length ∧ s.inputEnded = true ∧ s.occupied = s.ring.length := by
  unfold progress at told
  split at told
  · cases told
    exact Or.inl rfl
  · split at told
    · rename_i over_
      cases told
      simp only [Bool.and_eq_true, beq_iff_eq] at over_
      exact Or.inr ⟨rfl, over_⟩
    · cases told

/-- What an end that a call of `stream_more` tells says of the pool. -/
def Told (s : Pool V E) : Call E → Prop
  | .pending _ => True
  | .ended r => (∀ left, r = .eof left → s.Exhausted ∧ s.published.length ≤ s.consumed + left) ∧
      (ReadEnd.final r → s.Drained)

theorem Steady.told (steady : s.Steady) (before : Nat) {r : ReadEnd E} (told : s.progress before = some r) :
    s.Told (.ended r) := by
  rcases progress_cases before s told with rfl | ⟨rfl, ended, full⟩
  · exact ⟨(fun left never => by cases never), fun never => never.elim⟩
  · refine ⟨?_, fun never => never.elim⟩
    intro left same
    cases same
    exact steady.exhausted ended full

inductive Meets (schedule : Bool) (replies : List (Reply V E)) (s : Pool V E) : Exn E → Pool V E → Prop where
  | stopped (halted : s.stopping = true) : Meets schedule replies s .operationCancelled s
  | threw (e : Exn E) (t : Pool V E) (opened : s.stopping = false)
      (ran : s.pump schedule replies = some (some e, t)) :
      Meets schedule replies s e { t with observed := t.observed ++ [e] }
  | cut (t : Pool V E) (opened : s.stopping = false) (ran : s.pump schedule replies = some (none, t))
      (halted : t.stopping = true) : Meets schedule replies s .operationCancelled t

structure Passes (schedule : Bool) (replies : List (Reply V E)) (s t : Pool V E) : Prop where
  opened : s.stopping = false
  ran : s.pump schedule replies = some (none, t)
  still : t.stopping = false

/-- A call that meets an exception. -/
def refused (before : Nat) (e : Exn E) (s : Pool V E) : Call E × Pool V E :=
  if (s.fail e).discardSettled.1 then (.ended (.threw e), { (s.fail e).discardSettled.2 with failure := none })
  else (.pending before, (s.fail e).discardSettled.2)

theorem streamMore_cases (replies : List (Reply V E)) {r : Call E × Pool V E} (called : s.streamMore replies = some r) :
    (∃ e t, Meets false replies s e t ∧ r = refused s.ring.length e t) ∨ ∃ t, Passes false replies s t ∧
    ((∃ q, t.progress s.ring.length = some q ∧ r = (.ended q, t)) ∨ r = (.pending s.ring.length, t)) := by
  have refusal : ∀ (e : Exn E) (t : Pool V E) (emptied : Bool) (u : Pool V E),
      (t.fail e).discardSettled = (emptied, u) → refused s.ring.length e t =
        if emptied then (.ended (.threw e), { u with failure := none }) else (.pending s.ring.length, u) := by
    intro e t emptied u discards
    unfold refused
    rw [discards]
  unfold streamMore at called
  dsimp only at called
  split at called
  · rename_i halted
    refine Or.inl ⟨_, s, .stopped halted, ?_⟩
    split at called
    · rename_i u discards
      rw [refusal _ _ _ _ discards]
      exact (Option.some.inj called).symm
    · rename_i u discards
      rw [refusal _ _ _ _ discards]
      exact (Option.some.inj called).symm
  · rename_i opened
    have opened : s.stopping = false := by simpa using opened
    split at called
    · cases called
    · rename_i e t ran
      refine Or.inl ⟨e, _, .threw e t opened ran, ?_⟩
      split at called
      · rename_i u discards
        rw [refusal _ _ _ _ discards]
        exact (Option.some.inj called).symm
      · rename_i u discards
        rw [refusal _ _ _ _ discards]
        exact (Option.some.inj called).symm
    · rename_i t ran
      split at called
      · rename_i halted
        refine Or.inl ⟨_, t, .cut t opened ran halted, ?_⟩
        split at called
        · rename_i u discards
          rw [refusal _ _ _ _ discards]
          exact (Option.some.inj called).symm
        · rename_i u discards
          rw [refusal _ _ _ _ discards]
          exact (Option.some.inj called).symm
      · rename_i still
        refine Or.inr ⟨t, ⟨opened, ran, by simpa using still⟩, ?_⟩
        split at called
        · rename_i q told
          exact Or.inl ⟨q, told, (Option.some.inj called).symm⟩
        · exact Or.inr (Option.some.inj called).symm

theorem readSlow_cases (replies : List (Reply V E)) (before : Nat) (ran : s.readSlow replies before = some s') :
    (∃ e t, Meets true replies s e t ∧ (s' = t.drain before ∧ t.stopping = true ∧ t.observed = s.observed ∨
        s' = (t.fail e).drain before ∧ t.observed = s.observed ++ [e])) ∨
      ∃ t, Passes true replies s t ∧ ((∃ q, t.progress before = some q ∧
        s' = { t with reader := .idle, ends := t.ends ++ [q] }) ∨ s' = t.drain before) := by
  unfold readSlow at ran
  split at ran
  · rename_i halted
    exact Or.inl ⟨_, s, .stopped halted, Or.inl ⟨(Option.some.inj ran).symm, halted, rfl⟩⟩
  · rename_i opened
    have opened : s.stopping = false := by simpa using opened
    split at ran
    · cases ran
    · rename_i e t pumped
      have frame := pump_frame False replies (fun never => never.elim) pumped
      refine Or.inl ⟨e, _, .threw e t opened pumped, Or.inr ⟨(Option.some.inj ran).symm, ?_⟩⟩
      show t.observed ++ [e] = s.observed ++ [e]
      rw [frame.observed]
    · rename_i t pumped
      have frame := pump_frame False replies (fun never => never.elim) pumped
      split at ran
      · rename_i halted
        exact Or.inl ⟨_, t, .cut t opened pumped halted,
          Or.inl ⟨(Option.some.inj ran).symm, halted, frame.observed⟩⟩
      · rename_i still
        refine Or.inr ⟨t, ⟨opened, pumped, by simpa using still⟩, ?_⟩
        split at ran
        · rename_i q told
          exact Or.inl ⟨q, told, (Option.some.inj ran).symm⟩
        · exact Or.inr (Option.some.inj ran).symm

theorem Sound.meets (sound : s.Sound capacity) {schedule : Bool} {replies : List (Reply V E)} {e : Exn E}
    {t : Pool V E} (meets : Meets schedule replies s e t) : t.Ledger capacity := by
  cases meets with
  | stopped => exact sound.ledger
  | threw e t opened ran =>
    exact (sound.pump opened schedule replies ran).1.stage t.failure t.changed t.waiter t.reader (t.observed ++ [e])
  | cut t opened ran => exact (sound.pump opened schedule replies ran).1

theorem Sound.passes (sound : s.Sound capacity) {schedule : Bool} {replies : List (Reply V E)} {t : Pool V E}
    (passes : Passes schedule replies s t) : t.Sound capacity ∧ t.Steady := by
  obtain ⟨ledger, kept⟩ := sound.pump passes.opened schedule replies passes.ran
  have steady : t.Steady := by
    rcases kept rfl with halted | steady
    · rw [passes.still] at halted
      cases halted
    · exact steady
  exact ⟨⟨ledger, steady.places, fun _ => steady⟩, steady⟩

theorem Ledger.fail (ledger : s.Ledger capacity) (e : Exn E) : (s.fail e).Ledger capacity :=
  (ledger.stage (some e) s.changed s.waiter s.reader s.observed).stop

theorem Ledger.refused (ledger : s.Ledger capacity) (before : Nat) (e : Exn E) :
    (refused before e s).2.Sound capacity ∧ (refused before e s).2.Told (refused before e s).1 := by
  obtain ⟨sound, drained⟩ := (ledger.fail e).discards rfl
  unfold Pool.refused
  split
  · rename_i emptied
    have drained := drained emptied
    generalize (s.fail e).discardSettled.2 = t at *
    refine ⟨sound.stage none t.changed t.waiter t.reader t.observed, ?_, ?_⟩
    · intro left never
      cases never
    · exact fun _ => ⟨drained.stopping, drained.input, drained.empty⟩
  · exact ⟨sound, trivial⟩

theorem Sound.streamMore (sound : s.Sound capacity) (replies : List (Reply V E)) {r : Call E × Pool V E}
    (called : s.streamMore replies = some r) : r.2.Sound capacity ∧ r.2.Told r.1 := by
  rcases streamMore_cases replies called with ⟨e, t, meets, rfl⟩ | ⟨t, passes, went⟩
  · exact (sound.meets meets).refused s.ring.length e
  · obtain ⟨after, steady⟩ := sound.passes passes
    rcases went with ⟨q, told, rfl⟩ | rfl
    · exact ⟨after, steady.told s.ring.length told⟩
    · exact ⟨after, trivial⟩

theorem Sound.answered (pending : Nat → Reader) {r : Call E × Pool V E} (sound : r.2.Sound capacity)
    (told : r.2.Told r.1) : (answered pending r).Sound capacity := by
  obtain ⟨call, t⟩ := r
  cases call with
  | ended q => exact sound.ends q t.failure .idle told.1 told.2
  | pending before => exact sound.stage t.failure t.changed t.waiter (pending before) t.observed

theorem Ledger.drain (ledger : s.Ledger capacity) (stopped : s.stopping = true) (before : Nat) :
    (s.drain before).Sound capacity := by
  obtain ⟨sound, drained⟩ := ledger.discards stopped
  unfold Pool.drain
  rw [if_pos stopped]
  split
  · rename_i t emptied
    rw [emptied] at sound drained
    exact sound.ends (.threw (t.failure.getD .operationCancelled)) none .idle
      (fun left never => by cases never) (fun _ => drained rfl)
  · rename_i t left
    rw [left] at sound
    dsimp only
    split
    · exact sound.stage t.failure false t.waiter (.begun before) t.observed
    · exact sound.stage t.failure t.changed true (.waiting before) t.observed

theorem Sound.waits (sound : s.Sound capacity) (opened : s.stopping = false) (before : Nat) :
    (s.drain before).Sound capacity := by
  unfold Pool.drain
  rw [if_neg (by rw [opened]; exact Bool.false_ne_true)]
  dsimp only
  split
  · exact sound.stage s.failure false s.waiter (.begun before) s.observed
  · exact sound.stage s.failure s.changed true (.waiting before) s.observed

theorem Sound.readSlow (sound : s.Sound capacity) (replies : List (Reply V E)) (before : Nat)
    (ran : s.readSlow replies before = some s') : s'.Sound capacity := by
  rcases readSlow_cases replies before ran with ⟨e, t, meets, cut⟩ | ⟨t, passes, went⟩
  · rcases cut with ⟨rfl, halted, -⟩ | ⟨rfl, -⟩
    · exact (sound.meets meets).drain halted before
    · exact ((sound.meets meets).fail e).drain rfl before
  · obtain ⟨after, steady⟩ := sound.passes passes
    rcases went with ⟨q, told, rfl⟩ | rfl
    · have told := steady.told before told
      exact after.ends q t.failure .idle told.1 told.2
    · exact after.waits passes.still before

theorem Ledger.closeRound (ledger : s.Ledger capacity) (stopped : s.stopping = true) : s.closeRound.Sound capacity := by
  obtain ⟨sound, drained⟩ := ledger.discards stopped
  unfold Pool.closeRound
  split
  · rename_i t emptied
    rw [emptied] at sound drained
    exact sound.ends .closed t.failure .idle (fun left never => by cases never) (fun _ => drained rfl)
  · rename_i t left
    rw [left] at sound
    split
    · exact sound.stage t.failure false t.waiter .closing t.observed
    · exact sound.stage t.failure t.changed true .closing t.observed

theorem Sound.consume (sound : s.Sound capacity) {n : Nat} (enough : n ≤ s.ring.length) :
    Sound capacity { s.toss n with consumed := s.consumed + n } := by
  obtain ⟨place, shape, tidy⟩ := sound.places
  obtain ⟨place', shape', at_⟩ := shape.toss n
  rw [toss_eq] at shape' ⊢
  have buffered : ∀ j, j ∈ s.buffered.take n → place j = .buffered := fun j front =>
    (shape.buffered j).mp (mem_of_mem_take front)
  have held : ∀ j, ((cleared s.slots (s.buffered.take n))[j]?).join =
      if j ∈ s.buffered.take n then none else s.held j := cleared_held s.slots (s.buffered.take n)
  have kept : ∀ j, place j ≠ .buffered → ((cleared s.slots (s.buffered.take n))[j]?).join = s.held j := by
    intro j apart
    rw [held, if_neg (fun front => apart (buffered j front))]
  have shrunk : ∀ j h, ((cleared s.slots (s.buffered.take n))[j]?).join = some h → s.held j = some h := by
    intro j h here
    rw [held] at here
    split at here
    · cases here
    · exact here
  have length : (s.ring.drop n).length = s.ring.length - n := length_drop
  have prepared : ∀ j, s.prepared = some j → place j ≠ .buffered := by
    intro j slot
    rw [(shape.prepared j).mp slot]
    decide
  have placed : Shape { s with
      slots := cleared s.slots (s.buffered.take n), occupied := s.occupied - (s.buffered.take n).length
      ring := s.ring.drop n, buffered := s.buffered.drop n, consumed := s.consumed + n } place' :=
    shape'.same rfl rfl rfl rfl rfl rfl rfl rfl
  have booked : Books { s with
      slots := cleared s.slots (s.buffered.take n), occupied := s.occupied - (s.buffered.take n).length
      ring := s.ring.drop n, buffered := s.buffered.drop n, consumed := s.consumed + n } := by
    have books := sound.ledger.loose.books
    refine books.shrinks shrunk (fun j slot => ⟨slot, kept j ?_⟩) (fun j slot => ⟨slot, kept j (prepared j slot)⟩)
      books.reading rfl rfl rfl rfl ?_
    · rw [(shape.input j).mp slot]
      decide
    · show s.consumed + n + (s.ring.drop n).length ≤ s.published.length
      have tally := books.tally
      omega
  refine ⟨⟨⟨⟨place', placed⟩, booked⟩, (cleared_length _ _).trans sound.ledger.size, ?_, ?_⟩,
    ⟨place', placed, ?_⟩, ?_⟩
  · intro left told
    obtain ⟨ex, all⟩ := sound.ledger.eof left told
    refine ⟨⟨ex.ended, ex.input, ex.prepared, ex.completed, ?_, ex.every, ex.whole⟩, ?_⟩
    · intro i
      show runs ((cleared s.slots (s.buffered.take n))[i]?).join = false
      rw [held]
      split
      · rfl
      · exact ex.still i
    · show s.published.length ≤ s.consumed + n + left
      omega
  · intro r told final
    have drained := sound.ledger.drained r told final
    refine ⟨drained.stopping, drained.input, ?_⟩
    intro i
    show ((cleared s.slots (s.buffered.take n))[i]?).join = none
    rw [held, drained.empty, ite_self]
  · intro j
    rw [at_]
    split
    · decide
    · exact tidy j
  · intro opened
    have steady := sound.steady opened
    refine ⟨⟨place', placed, ?_⟩, booked, ⟨?_, ?_, ?_, ?_⟩, steady.reserved, opened⟩
    · intro j
      rw [at_]
      split
      · decide
      · exact tidy j
    · intro id bound
      rcases steady.current.every id bound with already | ⟨j, slot, named⟩
      · exact Or.inl already
      · refine Or.inr ⟨j, slot, ?_⟩
        show (((cleared s.slots (s.buffered.take n))[j]?).join).bind Held.idea = some id
        rw [kept j (prepared j slot)]
        exact named
    · intro id begun
      rcases steady.current.followed id begun with done | ⟨j, h, here, busy, named⟩
      · exact Or.inl done
      · refine Or.inr ⟨j, h, ?_, busy, named⟩
        show ((cleared s.slots (s.buffered.take n))[j]?).join = some h
        rw [kept j]
        · exact here
        · rw [(shape.running j).mp (by rw [here]; exact busy)]
          decide
    · show s.completions = successes s.published ++ s.completed.map _
      rw [steady.current.whole]
      congr 1
      apply map_congr_left
      intro j queued
      have same := kept j (by rw [(shape.completed j).mp queued]; decide)
      unfold report
      show _ = (((((cleared s.slots (s.buffered.take n))[j]?).join).getD {}).idea.getD 0,
        outcome ((((cleared s.slots (s.buffered.take n))[j]?).join).getD {}))
      rw [same]
    · show s.consumed + n + (s.ring.drop n).length = s.published.length
      have exact_ := steady.current.exact_
      omega

theorem Sound.jobDone (sound : s.Sound capacity) {i : Nat} {h : Held V E} (here : s.held i = some h)
    (started : h.started = true) (pending : h.task = .pending) (result : Outcome V E) :
    (s.jobDone i h result).Sound capacity := by
  obtain ⟨place, shape, tidy⟩ := sound.places
  have books := sound.ledger.loose.books
  have inside := held_inside here
  have busy : h.isRunning = true := by simp [Held.isRunning, started, pending]
  have was : place i = .running := (shape.running i).mp (by rw [here]; exact busy)
  obtain ⟨id, named, begun, unfinished⟩ := books.active i h here busy
  have number : h.idea.getD 0 = id := by rw [named]; rfl
  have idle : ({ h with task := .done result } : Held V E).isRunning = false := by simp [Held.isRunning]
  have slots : (s.jobDone i h result).slots = s.slots.set i (some { h with task := .done result }) := rfl
  have completions : (s.jobDone i h result).completions = s.completions ++ [(id, result)] := by
    show s.completions ++ [(h.idea.getD 0, result)] = _
    rw [number]
  have placed : (s.jobDone i h result).Shape fun j => if i = j then .completed else place j :=
    (shape.completes was (Or.inr rfl) { h with task := .done result } idle (h.idea.getD 0) result s.begun).same
      rfl rfl rfl rfl rfl rfl rfl rfl
  have notInput : ∀ j, s.inputSlot = some j → i ≠ j := by
    rintro j slot rfl
    rw [(shape.input i).mp slot] at was
    cases was
  have notPrepared : ∀ j, s.prepared = some j → i ≠ j := by
    rintro j slot rfl
    rw [(shape.prepared i).mp slot] at was
    cases was
  have booked : (s.jobDone i h result).Books := by
    refine books.advance here named slots named [] [(id, result)] (append_nil _).symm completions (Or.inl rfl)
      (Or.inr ⟨⟨result, rfl⟩, unfinished⟩) (fun never => by cases never) begun ?_ (fun j slot => ⟨notInput j slot, slot⟩)
      (fun j slot => ⟨notPrepared j slot, slot⟩) books.reading rfl rfl books.tally
    intro still
    rw [idle] at still
    cases still
  refine ⟨⟨⟨⟨_, placed⟩, booked⟩, length_set.trans sound.ledger.size, ?_, ?_⟩,
    ⟨_, placed, tidy_set tidy (by decide)⟩, ?_⟩
  · intro left told
    have still := (sound.ledger.eof left told).1.still i
    rw [here] at still
    have still : h.isRunning = false := still
    rw [busy] at still
    cases still
  · intro r told final
    have empty := (sound.ledger.drained r told final).empty i
    rw [here] at empty
    cases empty
  · intro opened
    have steady := sound.steady opened
    refine ⟨⟨_, placed, tidy_set tidy (by decide)⟩, booked, ⟨?_, ?_, ?_, steady.current.exact_⟩, steady.reserved,
      opened⟩
    · intro x bound
      rcases steady.current.every x bound with already | ⟨j, slot, idea⟩
      · exact Or.inl already
      · refine Or.inr ⟨j, slot, ?_⟩
        rw [idea_setSlot slots inside, if_neg (notPrepared j slot)]
        exact idea
    · intro x already
      rw [completions, map_append]
      rcases steady.current.followed x already with done | ⟨j, g, there, running, idea⟩
      · exact Or.inl (mem_append_left _ done)
      · by_cases same : i = j
        · subst same
          rw [here] at there
          cases there
          rw [named] at idea
          cases idea
          exact Or.inl (mem_append_right _ (mem_singleton.mpr rfl))
        · refine Or.inr ⟨j, g, ?_, running, idea⟩
          rw [held_setSlot slots inside, if_neg same]
          exact there
    · have each : s.completed.map s.report = s.completed.map (s.jobDone i h result).report := by
        apply map_congr_left
        intro j queued
        refine (report_setSlot slots inside ?_).symm
        rintro rfl
        rw [(shape.completed i).mp queued] at was
        cases was
      have last : (s.jobDone i h result).report i = (id, result) := by
        unfold Pool.report
        rw [held_setSlot slots inside, if_pos rfl, Option.getD_some]
        have vacant := books.plain i h here pending
        unfold outcome
        rw [vacant]
        exact Prod.ext number rfl
      rw [completions]
      show _ = successes s.published ++ (s.completed ++ [i]).map _
      rw [map_append, ← each, map_singleton, last, ← append_assoc, ← steady.current.whole]

theorem Sound.inputDone (sound : s.Sound capacity) (running : s.input = .running) (result : Outcome Bool E) :
    Sound capacity ({ s with input := .done result } : Pool V E).signal := by
  obtain ⟨place, shape, tidy⟩ := sound.places
  have books := sound.ledger.loose.books
  have pending : s.inputSlot ≠ none := books.reading (by rw [running]; simp)
  have placed : Shape ({ s with input := .done result } : Pool V E).signal place :=
    shape.same rfl rfl rfl rfl rfl rfl rfl rfl
  have booked : Books ({ s with input := .done result } : Pool V E).signal :=
    books.shrinks (fun j h here => here) (fun j slot => ⟨slot, rfl⟩) (fun j slot => ⟨slot, rfl⟩)
      (fun _ => pending) rfl rfl rfl rfl books.tally
  refine ⟨⟨⟨⟨place, placed⟩, booked⟩, sound.ledger.size, ?_, ?_⟩, ⟨place, placed, tidy⟩, ?_⟩
  · intro left told
    have idle := (sound.ledger.eof left told).1.input
    rw [running] at idle
    cases idle
  · intro r told final
    have idle := (sound.ledger.drained r told final).input
    rw [running] at idle
    cases idle
  · intro opened
    have steady := sound.steady opened
    refine ⟨⟨place, placed, tidy⟩, booked, ?_, ?_, opened⟩
    · exact ⟨steady.current.every, steady.current.followed, steady.current.whole, steady.current.exact_⟩
    · exact iff_of_false pending (by simp [signal])

end Events

def Closing (s : Pool V E) : Prop := s.reader = .closing → s.stopping = true

theorem answered_reader (pending : Nat → Reader) (r : Call E × Pool V E) :
    (answered pending r).reader = .idle ∨ ∃ before, (answered pending r).reader = pending before := by
  obtain ⟨call, t⟩ := r
  cases call with
  | ended q => exact Or.inl rfl
  | pending before => exact Or.inr ⟨before, rfl⟩

theorem answered_closing {pending : Nat → Reader} (apart : ∀ before, pending before ≠ .closing)
    (r : Call E × Pool V E) : (answered pending r).Closing := by
  intro closing
  rcases answered_reader pending r with idle | ⟨before, waits⟩
  · rw [closing] at idle
    cases idle
  · rw [closing] at waits
    exact absurd waits.symm (apart before)

theorem drain_reader (before : Nat) (s : Pool V E) : (s.drain before).reader ≠ .closing := by
  unfold drain
  dsimp only
  split
  · split
    · simp
    · split <;> simp
  · split <;> simp

theorem readSlow_closing (replies : List (Reply V E)) (before : Nat) (ran : s.readSlow replies before = some s') :
    s'.Closing := by
  intro closing
  rcases readSlow_cases replies before ran with ⟨e, t, -, ⟨rfl, -⟩ | ⟨rfl, -⟩⟩ | ⟨t, -, ⟨q, -, rfl⟩ | rfl⟩
  · exact absurd closing (drain_reader before t)
  · exact absurd closing (drain_reader before _)
  · cases closing
  · exact absurd closing (drain_reader before t)

def FinalOnly (s s' : Pool V E) : Prop := s'.ends = s.ends ∨ ∃ r, s'.ends = s.ends ++ [r] ∧ ReadEnd.final r

structure Halts (s s' : Pool V E) : Prop where
  ends : FinalOnly s s'
  stopping : s'.stopping = true
  observed : s'.observed = s.observed

theorem Ledger.discard_same (ledger : s.Ledger capacity) :
    s.discardSettled.2.ends = s.ends ∧ s.discardSettled.2.observed = s.observed ∧
      s.discardSettled.2.failure = s.failure ∧ s.discardSettled.2.stopping = s.stopping := by
  obtain ⟨place, shape⟩ := ledger.loose.places
  obtain ⟨slots, occupied, equal⟩ := shape.discards.1.frame
  rw [equal]
  exact ⟨rfl, rfl, rfl, rfl⟩

section
variable (ledger : s.Ledger capacity) (stopped : s.stopping = true)
include ledger stopped

theorem streamMore_stopped (pending : Nat → Reader) (replies : List (Reply V E)) {r : Call E × Pool V E}
    (called : s.streamMore replies = some r) : Halts s (answered pending r) := by
  rcases streamMore_cases replies called with ⟨e, t, meets, rfl⟩ | ⟨t, passes, -⟩
  · cases meets with
    | stopped =>
      obtain ⟨ends, observed, -, stopping⟩ := (ledger.fail .operationCancelled).discard_same
      unfold refused
      split
      · refine ⟨Or.inr ⟨.threw .operationCancelled, ?_, trivial⟩, stopping, observed⟩
        show (s.fail .operationCancelled).discardSettled.2.ends ++ [_] = _
        rw [ends]
        rfl
      · exact ⟨Or.inl ends, stopping, observed⟩
    | threw e t opened ran =>
      rw [stopped] at opened
      cases opened
    | cut t opened ran halted =>
      rw [stopped] at opened
      cases opened
  · have opened := passes.opened
    rw [stopped] at opened
    cases opened

theorem readSlow_stopped (replies : List (Reply V E))
    (before : Nat) (ran : s.readSlow replies before = some s') : Halts s s' := by
  obtain ⟨ends, observed, -, stopping⟩ := ledger.discard_same
  unfold readSlow at ran
  rw [if_pos stopped] at ran
  cases ran
  unfold drain
  rw [if_pos stopped]
  split
  · rename_i u emptied
    rw [emptied] at ends observed stopping
    refine ⟨Or.inr ⟨.threw (u.failure.getD .operationCancelled), ?_, trivial⟩, stopping.trans stopped, observed⟩
    show u.ends ++ [_] = _
    rw [show u.ends = s.ends from ends]
  · rename_i u left
    rw [left] at ends observed stopping
    dsimp only
    split
    · exact ⟨Or.inl ends, stopping.trans stopped, observed⟩
    · exact ⟨Or.inl ends, stopping.trans stopped, observed⟩

theorem closeRound_stopped : Halts s s.closeRound := by
  obtain ⟨ends, observed, -, stopping⟩ := ledger.discard_same
  unfold closeRound
  split
  · rename_i u emptied
    rw [emptied] at ends observed stopping
    refine ⟨Or.inr ⟨.closed, ?_, trivial⟩, stopping.trans stopped, observed⟩
    show u.ends ++ [_] = _
    rw [show u.ends = s.ends from ends]
  · rename_i u left
    rw [left] at ends observed stopping
    split
    · exact ⟨Or.inl ends, stopping.trans stopped, observed⟩
    · exact ⟨Or.inl ends, stopping.trans stopped, observed⟩

end

variable {e : Event V E} {allowed : Pool V E → Event V E → Prop}

theorem step_sound (step : Step s e s') (sound : s.Sound capacity) (closing : s.Closing) :
    s'.Sound capacity ∧ s'.Closing := by
  cases step with
  | refill replies r free called =>
    obtain ⟨after, told⟩ := sound.streamMore replies called
    exact ⟨.answered _ after told, answered_closing (by simp) r⟩
  | stream replies r free called =>
    obtain ⟨after, told⟩ := sound.streamMore replies called
    exact ⟨.answered _ after told, answered_closing (by simp) r⟩
  | retry replies r staged called =>
    obtain ⟨after, told⟩ := sound.streamMore replies called
    exact ⟨.answered _ after told, answered_closing (by simp) r⟩
  | drop staged =>
    refine ⟨sound.stage s.failure s.changed s.waiter .idle s.observed, ?_⟩
    intro never
    cases never
  | begin _ replies before begun ran =>
    exact ⟨sound.readSlow replies before ran, readSlow_closing replies before ran⟩
  | resume _ replies before waited ready ran =>
    exact ⟨(sound.stage s.failure false s.waiter s.reader s.observed).readSlow replies before ran,
      readSlow_closing replies before ran⟩
  | consume n free enough =>
    refine ⟨sound.consume enough, ?_⟩
    intro never
    rw [toss_eq] at never
    have never : s.reader = .closing := never
    rw [free] at never
    cases never
  | jobDone i h result here started pending => exact ⟨sound.jobDone here started pending result, closing⟩
  | inputDone result running => exact ⟨sound.inputDone running result, closing⟩
  | stop => exact ⟨sound.stop, fun _ => rfl⟩
  | close free => exact ⟨sound.ledger.stop.closeRound rfl, fun _ => (closeRound_stopped sound.ledger.stop rfl).stopping⟩
  | closeRound waits ready =>
    have staged := sound.ledger.stage s.failure false s.waiter s.reader s.observed
    exact ⟨staged.closeRound (closing waits), fun _ => (closeRound_stopped staged (closing waits)).stopping⟩

theorem start_sound (capacity : Nat) : Sound capacity ({ slots := replicate capacity none } : Pool V E) := by
  have held : ∀ i, Pool.held ({ slots := replicate capacity none } : Pool V E) i = none := by
    intro i
    unfold Pool.held
    rw [getElem?_replicate]
    split <;> rfl
  have shape : Shape ({ slots := replicate capacity none } : Pool V E) fun _ => .free := by
    refine ⟨?_, ?_, ?_, ?_, ?_, ?_, nodup_nil, nodup_nil, ?_, ?_, rfl⟩
    · exact fun i => iff_of_true (held i) rfl
    · exact fun i => iff_of_false (by simp) (by simp)
    · exact fun i => iff_of_false (by simp) (by simp)
    · exact fun i => iff_of_false (by rw [held]; simp [runs]) (by simp)
    · exact fun i => iff_of_false (by simp) (by simp)
    · exact fun i => iff_of_false (by simp) (by simp)
    · simp [countP_replicate]
    · simp [countP_replicate, runs]
  have none_ : ∀ i h, Pool.held ({ slots := replicate capacity none } : Pool V E) i ≠ some h := by
    intro i h here
    rw [held] at here
    cases here
  have unnamed : ∀ i id, Pool.idea ({ slots := replicate capacity none } : Pool V E) i ≠ some id := by
    intro i id same
    unfold Pool.idea at same
    rw [held] at same
    cases same
  have books : Books ({ slots := replicate capacity none } : Pool V E) :=
    ⟨fun i id same => absurd same (unnamed i id), fun i j id same => absurd same (unnamed i id),
      (fun i never => by cases never), fun busy => absurd rfl busy, (fun i never => by cases never),
      fun i h here => absurd here (none_ i h), fun i h here => absurd here (none_ i h), nodup_nil,
      (fun id never => by cases never), nodup_nil, (fun id never => by cases never),
      prefix_rfl, Nat.le_refl _⟩
  have tidy : Tidy fun _ => .free := fun _ never => by cases never
  refine ⟨⟨⟨⟨_, shape⟩, books⟩, length_replicate, ?_, ?_⟩, ⟨_, shape, tidy⟩, ?_⟩
  · intro left never
    cases never
  · intro r never
    cases never
  · intro opened
    refine ⟨⟨_, shape, tidy⟩, books, ⟨?_, ?_, rfl, rfl⟩, iff_of_true rfl rfl, rfl⟩
    · intro id never
      cases never
    · intro id never
      cases never

theorem run_sound (run : Run allowed capacity s) : s.Sound capacity ∧ s.Closing := by
  induction run with
  | start =>
    refine ⟨start_sound capacity, ?_⟩
    intro never
    cases never
  | step run step may ih => exact step_sound step ih.1 ih.2

theorem step_stopped (step : Step s e s') (sound : s.Sound capacity) (stopped : s.stopping = true) : Halts s s' := by
  have staged := sound.ledger.stage s.failure false s.waiter s.reader s.observed
  cases step with
  | refill replies r free called => exact streamMore_stopped sound.ledger stopped _ replies called
  | stream replies r free called => exact streamMore_stopped sound.ledger stopped _ replies called
  | retry replies r waits called => exact streamMore_stopped sound.ledger stopped _ replies called
  | drop => exact ⟨Or.inl rfl, stopped, rfl⟩
  | begin _ replies before begun ran => exact readSlow_stopped sound.ledger stopped replies before ran
  | resume _ replies before waited ready ran =>
    have halts := readSlow_stopped staged stopped replies before ran
    exact ⟨halts.ends, halts.stopping, halts.observed⟩
  | consume n free enough =>
    rw [toss_eq]
    exact ⟨Or.inl rfl, stopped, rfl⟩
  | jobDone => exact ⟨Or.inl rfl, stopped, rfl⟩
  | inputDone => exact ⟨Or.inl rfl, stopped, rfl⟩
  | stop => exact ⟨Or.inl rfl, rfl, rfl⟩
  | close free =>
    have halts := closeRound_stopped sound.ledger.stop rfl
    exact ⟨halts.ends, halts.stopping, halts.observed⟩
  | closeRound waits ready =>
    have halts := closeRound_stopped staged stopped
    exact ⟨halts.ends, halts.stopping, halts.observed⟩

theorem pool_conserves (run : Run (fun _ _ => True) capacity s) :
    (∃ place, s.Shape place ∧ Tidy place) ∧ s.occupied ≤ capacity ∧
      s.begun.Nodup ∧ (s.completions.map Prod.fst).Nodup ∧ successes s.published <+: s.completions ∧
      (s.stopping = false → (∀ id < s.reads, id ∈ s.begun ∨ ∃ i, s.prepared = some i ∧ s.idea i = some id) ∧
        s.completions = successes s.published ++ s.completed.map s.report) ∧
      (∀ left, .eof left ∈ s.ends → s.Exhausted ∧ s.published.length ≤ s.consumed + left) ∧
      (s.stopping = true → ∀ e s', Step s e s' → FinalOnly s s') ∧
      ∀ r ∈ s.ends, ReadEnd.final r → s.occupied = 0 ∧ s.running = 0 ∧ s.input = .none := by
  obtain ⟨sound, -⟩ := run_sound run
  obtain ⟨place, shape, tidy⟩ := sound.places
  have books := sound.ledger.loose.books
  refine ⟨⟨place, shape, tidy⟩, ?_, books.begunOnce, books.completedOnce, books.published, ?_, sound.ledger.eof, ?_, ?_⟩
  · rw [shape.occupied, ← sound.ledger.size]
    exact countP_le_length
  · intro opened
    have current := (sound.steady opened).current
    exact ⟨current.every, current.whole⟩
  · exact fun stopped e s' step => (step_stopped step sound stopped).ends
  · intro r told final
    have drained := sound.ledger.drained r told final
    obtain ⟨occupied, running⟩ := drained.idle shape
    exact ⟨occupied, running, drained.input⟩

theorem Run.next {t : Pool V E} (run : Run allowed capacity s) (step : Step s e t) (may : allowed s e) (same : t = s') :
    Run allowed capacity s' := by
  subst same
  exact .step run step may

/-- One job runs, one result was consumed, and the third input is prepared. -/
def preparedPool : Pool Nat Nat where
  slots := [some { idea := some 0, task := .pending, started := true }, some { idea := some 2, task := .pending }]
  prepared := some 1
  occupied := 2
  running := 1
  reader := .staged
  reads := 3
  begun := [0, 1]
  completions := [(1, .ok 7)]
  published := [(1, 7)]
  consumed := 1
  ends := [.data]

theorem preparedPool_run : Run (fun _ _ => True) 2 preparedPool := by
  have prepared : Run (fun _ _ => True) 2 ({
      slots := [some { idea := some 0, task := .pending }, none]
      prepared := some 0, occupied := 1, reader := .staged, reads := 1 } : Pool Nat Nat) :=
    Run.next .start (.refill _ [{ take := .ready true, invoke := .pending }, {}] _ rfl rfl) trivial rfl
  have begun : Run (fun _ _ => True) 2 ({
      slots := [some { idea := some 0, task := .pending }, none]
      prepared := some 0, occupied := 1, reader := .begun 0, reads := 1 } : Pool Nat Nat) :=
    prepared.next (.retry _ [{}] _ rfl rfl) trivial rfl
  have read : Run (fun _ _ => True) 2 ({
      slots := [some { idea := some 0, task := .pending, started := true }, some { idea := some 1 }]
      ring := [7], buffered := [1], occupied := 2, running := 1, reads := 2, begun := [0, 1]
      completions := [(1, .ok 7)], published := [(1, 7)], ends := [.data] } : Pool Nat Nat) :=
    begun.next (.begin _ _ [{ take := .ready true, invoke := .ready 7 }, {}] 0 rfl rfl) trivial rfl
  have consumed : Run (fun _ _ => True) 2 ({
      slots := [some { idea := some 0, task := .pending, started := true }, none]
      occupied := 1, running := 1, reads := 2, begun := [0, 1]
      completions := [(1, .ok 7)], published := [(1, 7)], consumed := 1, ends := [.data] } : Pool Nat Nat) :=
    read.next (.consume _ 1 rfl (by decide)) trivial rfl
  exact consumed.next (.refill _ [{ take := .ready true, invoke := .pending }, {}] _ rfl rfl) trivial rfl

theorem pool_conserves_prepared :
    Run (fun _ _ => True) 2 preparedPool ∧ preparedPool.occupied ≤ 2 ∧ preparedPool.begun.Nodup ∧
      ∀ id < 3, id ∈ preparedPool.begun ∨ ∃ i, preparedPool.prepared = some i ∧ preparedPool.idea i = some id := by
  obtain ⟨-, occupied, once, -, -, opened, -⟩ := pool_conserves preparedPool_run
  exact ⟨preparedPool_run, occupied, once, (opened rfl).1⟩

/-- The third input was read before anything failed, and it is never started. -/
theorem read_not_started : ∃ s s' : Pool Nat Nat, Run (fun _ _ => True) 2 preparedPool ∧ preparedPool.observed = [] ∧
      preparedPool.idea 1 = some 2 ∧ Step preparedPool (.jobDone 0 (.error (.thrown 9))) s ∧ Step s (.retry [{}]) s' ∧
      s'.observed = [.thrown 9] ∧ s'.ends = [.data, .threw (.thrown 9)] ∧ s'.occupied = 0 ∧ 2 ∉ s'.begun := by
  refine ⟨_, _, preparedPool_run, rfl, rfl, .jobDone _ 0 _ _ rfl rfl rfl, .retry _ [{}] _ rfl rfl, rfl, rfl, rfl, ?_⟩
  decide

end Nxt.Runtime.Pool
