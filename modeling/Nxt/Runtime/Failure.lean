import Nxt.Runtime.Conserve

/- The first failure of a pool read through the verbs of a feed. A refill calls `stream_more` once at
   once and, when it is pending, drops what it returned and calls it again from `read_more_slow`. A
   failure that the first call observes while something is still running is lost: the second call
   finds the pool stopping and puts `operation_cancelled` in its place. -/
namespace Nxt.Runtime.Pool
open List

variable {V E : Type} {s s' : Pool V E} {capacity : Nat}

def thrown (ends : List (ReadEnd E)) : List (Exn E) :=
  ends.filterMap fun r => match r with
    | .threw e => some e
    | _ => none

/-- Events of a pool that is read through the verbs of its feed and that nothing stops. -/
def FeedRead : Event V E → Prop
  | .refill replies => ∀ r ∈ replies, Calm r
  | .retry replies => ∀ r ∈ replies, Calm r
  | .round replies => ∀ r ∈ replies, Calm r
  | .stream _ => False
  | .stop => False
  | .close => False
  | .closeRound => False
  | _ => True

/-- Whether what the feed and its ideas answer holds a failure, as far as `free` slots let it be
    asked: a take or an idea that throws, an empty task, a task that is done with an exception. -/
def Fails : Nat → List (Reply V E) → Prop
  | 0, _ => False
  | _, [] => False
  | free + 1, r :: rest => match r.take with
    | .threw _ => True
    | .pending => False
    | .ready false => False
    | .ready true => match r.invoke with
      | .threw _ => True
      | .empty => True
      | .pending => False
      | .ready _ => Fails free rest
      | .done (.ok _) => Fails free rest
      | .done (.error _) => True

/-- A failure is there for the first call of a refill: a finished job's, that of the input read, or
    one that the feed and its ideas answer with. -/
def Failing (s : Pool V E) (replies : List (Reply V E)) : Prop :=
  (∃ i ∈ s.completed, ∃ e, outcome ((s.held i).getD {}) = .error e) ∨
    s.prepared = none ∧ match s.input, replies with
      | .none, replies => s.inputEnded = false ∧ Fails (s.capacity - s.occupied) replies
      | .done (.error _), _ => True
      -- the slot of that input is reserved already
      | .done (.ok true), r :: rest => Fails (s.capacity - s.occupied + 1) ({ r with take := .ready true } :: rest)
      | _, _ => False

def FailsAlone (s : Pool V E) : Event V E → Prop
  | .refill replies => s.Failing replies → s.running = 0 ∧ s.input ≠ .running
  | _ => True

inductive Honest (s : Pool V E) : Prop where
  | fine (silent : thrown s.ends = []) (opened : s.stopping = false) (observed : s.observed = [])
      (failure : s.failure = none)
  | failing (e : Exn E) (before : Nat) (silent : thrown s.ends = []) (halted : s.stopping = true)
      (observed : s.observed = [e]) (failure : s.failure = some e)
      (reading : s.reader = .begun before ∨ s.reader = .waiting before)
  | reported (e : Exn E) (halted : s.stopping = true) (first : (thrown s.ends).head? = some e)
      (observed : s.observed.head? = some e)

section Ends

theorem thrown_data (ends : List (ReadEnd E)) {r : ReadEnd E} (quiet : ¬ ReadEnd.final r) :
    thrown (ends ++ [r]) = thrown ends := by
  cases r with
  | data => simp [thrown]
  | eof left => simp [thrown]
  | threw e => exact absurd trivial quiet
  | closed => exact absurd trivial quiet

theorem thrown_threw {ends : List (ReadEnd E)} (silent : thrown ends = []) (e : Exn E) :
    (thrown (ends ++ [.threw e])).head? = some e := by
  unfold thrown at silent ⊢
  rw [filterMap_append, silent]
  rfl

theorem thrown_append {ends : List (ReadEnd E)} {e : Exn E} (first : (thrown ends).head? = some e)
    (more : List (ReadEnd E)) : (thrown (ends ++ more)).head? = some e := by
  unfold thrown at first ⊢
  rw [filterMap_append, head?_append, first]
  rfl

theorem progress_quiet (before : Nat) {r : ReadEnd E} (told : s.progress before = some r) : ¬ ReadEnd.final r := by
  rcases progress_cases before s told with rfl | ⟨rfl, -⟩
  · exact fun never => never
  · exact fun never => never

end Ends

theorem Ledger.discards_all (ledger : s.Ledger capacity) (still : s.running = 0) (idle : s.input ≠ .running) :
    s.discardSettled.1 = true := by
  obtain ⟨place, shape⟩ := ledger.loose.places
  obtain ⟨gone, verdict⟩ := shape.discards
  obtain ⟨place', shape', at_⟩ := gone.places
  obtain ⟨slots, occupied, equal⟩ := gone.frame
  have running : s.discardSettled.2.running = 0 := by
    rw [equal]
    exact still
  have empty : ∀ i, s.discardSettled.2.held i = none := by
    intro i
    rcases at_ i with free | input | busy
    · exact (shape'.owned i).mpr free
    · have slot := (shape'.input i).mpr input
      have notRunning : s.inputRunning = false := by
        unfold inputRunning
        split
        · rename_i running
          exact absurd running idle
        · rfl
      rw [equal] at slot
      simp only [notRunning] at slot
      cases slot
    · obtain ⟨h, here⟩ := shape'.held_at busy (by decide)
      have runs_ := shape'.runs_at busy
      have some_ : 0 < s.discardSettled.2.running := by
        rw [shape'.counted]
        refine countP_pos_iff.mpr ⟨_, mem_of_getElem? (getElem?_held here), ?_⟩
        rw [← here]
        exact runs_
      omega
  rw [verdict, shape'.empty_iff.mpr empty]
  rfl

section Passes

theorem Shape.room {place : Nat → Place} {i : Nat} (shape : s.Shape place) (finished : place i = .completed) :
    s.ring.length < s.capacity := by
  have inside (j : Nat) (owned : place j ≠ .free) : j ∈ range s.slots.length := by
    obtain ⟨h, here⟩ := Option.ne_none_iff_exists'.mp (fun free => owned ((shape.owned j).mp free))
    exact mem_range.mpr (held_inside here)
  have once : (i :: s.buffered).Nodup := by
    refine nodup_cons.mpr ⟨?_, shape.onceBuffered⟩
    intro mem
    rw [(shape.buffered i).mp mem] at finished
    cases finished
  have all : i :: s.buffered ⊆ range s.slots.length := by
    intro j mem
    obtain rfl | mem := mem_cons.mp mem
    · exact inside j (by rw [finished]; decide)
    · exact inside j (by rw [(shape.buffered j).mp mem]; decide)
  have bound := (subperm_of_subset once all).length_le
  rw [length_cons, length_range] at bound
  rw [shape.ring]
  exact bound

theorem publish_threw (queue : List Nat) {place : Nat → Place} (shape : s.Shape place) (whole : s.completed = queue)
    {e : Exn E} (threw : (publish queue s).1 = some e) : ∃ i ∈ queue, ∃ e, outcome ((s.held i).getD {}) = .error e := by
  induction queue generalizing s place with
  | nil => cases threw
  | cons i rest ih =>
    have was : place i = .completed := (shape.completed i).mp (by rw [whole]; exact mem_cons_self ..)
    have room := shape.room was
    obtain ⟨h, here⟩ := shape.held_at was (by decide)
    have inside := held_inside here
    have once := shape.onceCompleted
    rw [whole, nodup_cons] at once
    unfold publish at threw
    simp only [here, Option.getD_some] at threw
    split at threw
    · rename_i x failed
      exact ⟨i, mem_cons_self .., x, by rw [here]; exact failed⟩
    · rename_i value result
      rw [if_neg room.ne] at threw
      obtain ⟨j, later, x, failed⟩ := ih (shape.publishes whole { h with task := .none, ready := none }
        (by simp [Held.isRunning]) value _) rfl threw
      refine ⟨j, mem_cons_of_mem _ later, x, ?_⟩
      have apart : i ≠ j := by
        rintro rfl
        exact once.1 later
      rw [held_setSlot rfl inside, if_neg apart] at failed
      exact failed

theorem publish_occupied (queue : List Nat) (s : Pool V E) : (publish queue s).2.occupied = s.occupied := by
  induction queue generalizing s with
  | nil => rfl
  | cons i rest ih =>
    unfold publish
    dsimp only
    split
    · rfl
    · split
      · rfl
      · exact ih _

/-- The turn of an input that is there; when it goes on, the turns after it come to the failure. -/
theorem acceptInput_fails {i : Nat} {r : Reply V E} {rest : List (Reply V E)} (opened : s.stopping = false)
    (slot : s.inputSlot = some i) (inside : i < s.slots.length) (clear : s.completed = []) (idle : s.input = .none)
    (calm : Calm r) (goes : ∀ t, s.acceptInput true r = (none, t) → t.Failing rest) :
    Fails (s.capacity - s.occupied + 1) ({ r with take := .ready true } :: rest) := by
  have later {t : Pool V E} {value : V} {h : Held V E} (failing : t.Failing rest)
      (finished : t.completed = [i]) (slots : t.held i = some h) (good : outcome h = .ok value)
      (input : t.input = .none) (capacity : t.capacity = s.capacity) (occupied : t.occupied = s.occupied) :
      Fails (s.capacity - s.occupied) rest := by
    rcases failing with ⟨j, mem, e, failed⟩ | ⟨-, failing⟩
    · rw [finished, mem_singleton] at mem
      rw [mem, slots, Option.getD_some, good] at failed
      cases failed
    · rw [input] at failing
      rw [← capacity, ← occupied]
      exact failing.2
  have last (h : Held V E) : ((s.slots.set i (some { idea := some s.reads })).set i (some h))[i]?.join = some h := by
    rw [set_set, held_set inside, if_pos rfl]
  have pushed : s.completed ++ [i] = [i] := by rw [clear, nil_append]
  have size (h : Held V E) : ((s.slots.set i (some { idea := some s.reads })).set i (some h)).length =
      s.slots.length := by rw [length_set, length_set]
  unfold acceptInput at goes
  simp only [opened, slot, calm.2, Bool.not_true, Bool.false_eq_true, if_false] at goes
  unfold Fails
  cases invoked : r.invoke with
  | threw e => trivial
  | empty => trivial
  | ready value =>
    simp only [invoked] at goes
    exact later (goes _ rfl) pushed (last _) rfl idle (size _) rfl
  | done result =>
    simp only [invoked] at goes
    cases result with
    | error e => trivial
    | ok value => exact later (goes _ rfl) pushed (last _) rfl idle (size _) rfl
  | pending =>
    simp only [invoked] at goes
    rcases goes _ rfl with ⟨j, mem, -⟩ | ⟨none_, -⟩
    · have mem : j ∈ s.completed := mem
      rw [clear] at mem
      cases mem
    · cases none_

theorem acceptInput_over {i : Nat} {r : Reply V E} {rest : List (Reply V E)} (opened : s.stopping = false)
    (slot : s.inputSlot = some i) (clear : s.completed = []) (idle : s.input = .none)
    (goes : ∀ t, s.acceptInput false r = (none, t) → t.Failing rest) : False := by
  unfold acceptInput at goes
  rw [if_neg (by rw [opened]; exact Bool.false_ne_true), slot] at goes
  rcases goes _ rfl with ⟨j, mem, -⟩ | ⟨-, failing⟩
  · have mem : j ∈ s.completed := mem
    rw [clear] at mem
    cases mem
  · rw [show _ = s.input from rfl, idle] at failing
    cases failing.1

theorem admitInput_fails {r : Reply V E} {rest : List (Reply V E)} (steady : s.Steady) (clear : s.completed = [])
    (idle : s.input = .none) (calm : Calm r) (halts : ∀ t, admitInput r s = (.returned, t) → False)
    (goes : ∀ t, admitInput r s = (.again, t) → t.Failing rest) :
    s.inputEnded = false ∧ Fails (s.capacity - s.occupied) (r :: rest) := by
  obtain ⟨place, shape, -⟩ := steady.places
  unfold admitInput at halts goes
  cases ended : s.inputEnded with
  | true =>
    rw [if_pos ended] at halts
    exact (halts _ rfl).elim
  | false =>
  refine ⟨rfl, ?_⟩
  rw [if_neg (by rw [ended]; exact Bool.false_ne_true)] at halts goes
  rcases reserve_cases s r.pick with full | ⟨i, inside, free, found⟩
  · rw [full] at halts
    exact (halts _ rfl).elim
  rw [found] at halts goes
  simp only [calm.1, steady.opened, Bool.false_eq_true, if_false] at halts goes
  have room : s.occupied + 1 ≤ s.capacity := by
    have more := countP_slot Option.isSome inside (some {})
    have most := countP_le_length (p := Option.isSome) (l := s.slots.set i (some {}))
    rw [length_set] at most
    rw [free] at more
    simp only [Option.isSome_none, Option.isSome_some, Bool.false_eq_true, if_false, if_true] at more
    rw [shape.occupied]
    unfold capacity
    omega
  obtain ⟨left, spare⟩ := Nat.exists_eq_add_of_le room
  have spare : s.capacity - s.occupied = left + 1 := by omega
  rw [spare]
  cases taken : r.take with
  | threw e =>
    unfold Fails
    rw [taken]
    trivial
  | pending =>
    rw [taken] at goes
    rcases goes _ rfl with ⟨j, mem, -⟩ | ⟨-, never⟩
    · have mem : j ∈ s.completed := mem
      rw [clear] at mem
      cases mem
    · exact never.elim
  | ready item =>
  rw [taken] at halts goes
  cases item with
  | false =>
    refine (@acceptInput_over _ _ { s with
      slots := s.slots.set i (some {}), occupied := s.occupied + 1, inputSlot := some i, stopping := false }
      i r rest rfl rfl clear idle ?_).elim
    intro t accepted
    exact goes t (by dsimp only; rw [accepted])
  | true =>
    have fails := @acceptInput_fails _ _ { s with
      slots := s.slots.set i (some {}), occupied := s.occupied + 1, inputSlot := some i, stopping := false }
      i r rest rfl rfl (by rw [length_set]; exact inside) clear idle calm ?_
    · have same : ({ r with take := .ready true } : Reply V E) = r := by rw [← taken]
      have size : (s.slots.set i (some {})).length - (s.occupied + 1) = left := by
        rw [length_set]
        unfold capacity at spare
        omega
      rw [same] at fails
      exact size ▸ fails
    · intro t accepted
      exact goes t (by dsimp only; rw [accepted])

/-- A pass of the first call throws only with a failure that was there before it. -/
theorem pump_failing (steady : s.Steady) {replies : List (Reply V E)} (calm : ∀ r ∈ replies, Calm r) {e : Exn E}
    {t : Pool V E} (ran : pump false replies s = some (some e, t)) : s.Failing replies := by
  induction replies generalizing s with
  | nil => cases ran
  | cons r rest ih =>
    have kept := pumpTurn_kept false r steady
    have frame : Frame false True s (pumpTurn false r s).2 := pumpTurn_frame false r s fun _ => calm r (mem_cons_self ..)
    have goes {u : Pool V E} (turn : pumpTurn false r s = (.again, u)) : u.Failing rest := by
      rw [turn] at kept frame
      unfold pump at ran
      rw [turn] at ran
      obtain stopped | steady := kept.2
      · rw [frame.stopping trivial, steady.opened] at stopped
        cases stopped
      · exact ih steady (fun r' later => calm r' (mem_cons_of_mem _ later)) ran
    have halts {u : Pool V E} (turn : pumpTurn false r s = (.returned, u)) : False := by
      unfold pump at ran
      rw [turn] at ran
      cases ran
    obtain ⟨steady', cleared, prepared, input, ended⟩ := publish_steady s.completed steady rfl
    have occupied := publish_occupied s.completed s
    have size := (publish_frame false True s.completed s).size
    obtain ⟨place, shape, -⟩ := steady.places
    obtain ⟨⟨pass, after⟩, turn⟩ : ∃ p, pumpTurn false r s = p := ⟨_, rfl⟩
    rw [turn] at goes halts
    unfold pumpTurn at turn
    rw [if_neg (by rw [steady.opened]; exact Bool.false_ne_true)] at turn
    cases published : publish s.completed s with
    | mk thrown u =>
    rw [published] at steady' cleared prepared input ended occupied size turn
    cases thrown with
    | some x => exact .inl (publish_threw s.completed shape rfl (by rw [published]))
    | none =>
    cases vacant : u.prepared with
    | some i =>
      simp only [startPrepared, vacant, Bool.not_false, if_true] at turn
      exact (halts turn.symm).elim
    | none =>
    refine .inr ⟨prepared ▸ vacant, ?_⟩
    simp only [startPrepared, vacant] at turn
    have room : u.capacity - u.occupied = s.capacity - s.occupied := by rw [capacity, size, occupied]; rfl
    rw [← room, ← ended, ← input]
    have calm := calm r (mem_cons_self ..)
    cases idle : u.input with
    | none =>
      simp only [idle] at turn
      refine admitInput_fails steady' (cleared rfl) idle calm ?_ ?_
      · exact fun t back => halts (turn.symm.trans back)
      · exact fun t again => goes (turn.symm.trans again)
    | unstarted =>
      simp only [idle, pollInput, Bool.not_false, if_true] at turn
      exact (halts turn.symm).elim
    | running =>
      simp only [idle, pollInput] at turn
      exact (halts turn.symm).elim
    | done result =>
    cases result with
    | error x => trivial
    | ok item =>
    obtain ⟨i, slot⟩ := Option.ne_none_iff_exists'.mp (steady'.books.reading (by rw [idle]; simp))
    have inside := held_inside (steady'.books.blank i slot)
    simp only [idle, pollInput] at turn
    cases item with
    | true =>
      refine acceptInput_fails (s := { u with input := .none }) steady'.opened slot inside (cleared rfl) rfl calm ?_
      intro t taken
      rw [taken] at turn
      exact goes turn.symm
    | false =>
      refine (@acceptInput_over _ _ { u with input := .none } _ r rest steady'.opened slot
        (cleared rfl) rfl ?_).elim
      intro t taken
      rw [taken] at turn
      exact goes turn.symm

end Passes

section Steps

theorem Meets.failure {schedule : Bool} {replies : List (Reply V E)} {e : Exn E} {t : Pool V E}
    (meets : Meets schedule replies s e t) (calm : ∀ r ∈ replies, Calm r) (opened : s.stopping = false) :
    t.observed = s.observed ++ [e] ∧ t.ends = s.ends ∧ (schedule = false → t.running = s.running ∧
      (t.input = .running → s.input = .running)) ∧ s.pump schedule replies = some (some e, { t with observed := s.observed }) := by
  cases meets with
  | stopped halted =>
    rw [opened] at halted
    cases halted
  | threw e t _ ran =>
    have frame := pump_frame True replies (fun _ => calm) ran
    refine ⟨?_, frame.ends, fun off => ⟨frame.running off, frame.input off⟩, ?_⟩
    · show t.observed ++ [e] = _
      rw [frame.observed]
    · rw [ran, ← frame.observed]
  | cut t _ ran halted =>
    have frame := pump_frame True replies (fun _ => calm) ran
    rw [frame.stopping trivial, opened] at halted
    cases halted

theorem refused_honest (ledger : s.Ledger capacity) (pending : Nat → Reader) (before : Nat) {e : Exn E}
    (silent : thrown s.ends = []) (observed : s.observed = [e])
    (kept : (s.fail e).discardSettled.1 = true ∨ pending before = .begun before) :
    (answered pending (refused before e s)).Honest := by
  obtain ⟨ends, same, failure, halted⟩ := (ledger.fail e).discard_same
  unfold refused
  split
  · refine .reported e halted ?_ ?_
    · show (thrown ((s.fail e).discardSettled.2.ends ++ [.threw e])).head? = some e
      rw [ends]
      exact thrown_threw silent e
    · show (s.fail e).discardSettled.2.observed.head? = some e
      rw [same]
      exact congrArg List.head? observed
  · rename_i left
    refine .failing e before ?_ halted ?_ failure (Or.inl (kept.resolve_left left))
    · show thrown (s.fail e).discardSettled.2.ends = []
      rw [ends]
      exact silent
    · exact same.trans observed

theorem streamMore_honest (sound : s.Sound capacity) (replies : List (Reply V E)) (calm : ∀ r ∈ replies, Calm r)
    (pending : Nat → Reader) (silent : thrown s.ends = []) (opened : s.stopping = false) (observed : s.observed = [])
    (failure : s.failure = none) (kept : FailsAlone s (.refill replies) ∨ ∀ before, pending before = .begun before)
    {r : Call E × Pool V E} (called : s.streamMore replies = some r) : (answered pending r).Honest := by
  rcases streamMore_cases replies called with ⟨e, t, meets, rfl⟩ | ⟨t, passes, went⟩
  · obtain ⟨one, ends, idle, ran⟩ := meets.failure calm opened
    have ledger := sound.meets meets
    refine refused_honest ledger pending s.ring.length (by rw [ends]; exact silent) (by rw [one, observed]; rfl) ?_
    refine kept.imp (fun alone => ?_) (fun all => all _)
    obtain ⟨still, notReading⟩ := alone (pump_failing (sound.steady opened) calm ran)
    obtain ⟨running, input⟩ := idle rfl
    exact (ledger.fail e).discards_all (running.trans still) (fun busy => notReading (input busy))
  · have frame := pump_frame True replies (fun _ => calm) passes.ran
    have quiet : thrown t.ends = [] := by rw [frame.ends]; exact silent
    have none_ := frame.observed.trans observed
    have clean := frame.failure.trans failure
    rcases went with ⟨q, told, rfl⟩ | rfl
    · exact .fine ((thrown_data t.ends (progress_quiet _ told)).trans quiet) passes.still none_ clean
    · exact .fine quiet passes.still none_ clean

theorem drain_honest (ledger : s.Ledger capacity) (before : Nat) {e : Exn E} (silent : thrown s.ends = [])
    (halted : s.stopping = true) (observed : s.observed = [e]) (failure : s.failure = some e) :
    (s.drain before).Honest := by
  obtain ⟨ends, same, kept, still⟩ := ledger.discard_same
  unfold drain
  rw [if_pos halted]
  split
  · rename_i t emptied
    rw [emptied] at same kept still ends
    have told : t.failure.getD .operationCancelled = e := by
      rw [show t.failure = s.failure from kept, failure]
      rfl
    refine .reported e (still.trans halted) ?_ ?_
    · show (thrown (t.ends ++ [.threw (t.failure.getD .operationCancelled)])).head? = some e
      rw [told, show t.ends = s.ends from ends]
      exact thrown_threw silent e
    · show t.observed.head? = some e
      rw [show t.observed = s.observed from same, observed]
      rfl
  · rename_i t left
    rw [left] at same kept still ends
    have quiet : thrown t.ends = [] := by
      rw [show t.ends = s.ends from ends]
      exact silent
    dsimp only
    split
    · exact .failing e before quiet (still.trans halted) (same.trans observed) (kept.trans failure) (Or.inl rfl)
    · exact .failing e before quiet (still.trans halted) (same.trans observed) (kept.trans failure) (Or.inr rfl)

theorem readSlow_honest (sound : s.Sound capacity) (replies : List (Reply V E)) (calm : ∀ r ∈ replies, Calm r)
    (before : Nat) (silent : thrown s.ends = []) (opened : s.stopping = false) (observed : s.observed = [])
    (failure : s.failure = none) (ran : s.readSlow replies before = some s') : s'.Honest := by
  rcases readSlow_cases replies before ran with ⟨e, t, meets, cut⟩ | ⟨t, passes, went⟩
  · obtain ⟨one, ends, -, -⟩ := meets.failure calm opened
    have ledger := sound.meets meets
    have quiet : thrown t.ends = [] := by rw [ends]; exact silent
    rcases cut with ⟨-, -, none_⟩ | ⟨rfl, -⟩
    · rw [one] at none_
      exact absurd none_ (by simp)
    · exact drain_honest (ledger.fail e) before quiet rfl (one.trans (by rw [observed]; rfl)) rfl
  · have frame := pump_frame True replies (fun _ => calm) passes.ran
    have quiet : thrown t.ends = [] := by rw [frame.ends]; exact silent
    have none_ := frame.observed.trans observed
    have clean := frame.failure.trans failure
    rcases went with ⟨q, told, rfl⟩ | rfl
    · exact .fine ((thrown_data t.ends (progress_quiet _ told)).trans quiet) passes.still none_ clean
    · unfold drain
      rw [if_neg (by rw [passes.still]; exact Bool.false_ne_true)]
      dsimp only
      split
      · exact .fine quiet passes.still none_ clean
      · exact .fine quiet passes.still none_ clean

end Steps

theorem Honest.same (honest : s.Honest) (ends : s'.ends = s.ends) (stopping : s'.stopping = s.stopping)
    (observed : s'.observed = s.observed) (failure : s'.failure = s.failure)
    (reader : s'.reader = s.reader ∨ s.reader = .idle ∨ s.reader = .staged) : s'.Honest := by
  cases honest with
  | fine silent opened none_ clean =>
    exact .fine (by rw [ends]; exact silent) (stopping.trans opened) (observed.trans none_) (failure.trans clean)
  | failing e before silent halted one kept reading =>
    refine .failing e before (by rw [ends]; exact silent) (stopping.trans halted) (observed.trans one)
      (failure.trans kept) ?_
    rcases reader with same | idle | staged
    · rw [same]
      exact reading
    · rw [idle] at reading
      simp at reading
    · rw [staged] at reading
      simp at reading
  | reported e halted first one =>
    exact .reported e (stopping.trans halted) (by rw [ends]; exact first) (by rw [observed]; exact one)

theorem step_honest {e : Event V E} (step : Step s e s') (sound : s.Sound capacity) (feed : FeedRead e)
    (alone : FailsAlone s e) (honest : s.Honest) : s'.Honest := by
  have halts := step_stopped step sound
  by_cases over_ : ∃ x, (thrown s.ends).head? = some x ∧ s.stopping = true ∧ s.observed.head? = some x
  · -- a read has thrown, and nothing more is observed
    obtain ⟨x, first, halted, one⟩ := over_
    have halts := halts halted
    refine .reported x halts.stopping ?_ (by rw [halts.observed]; exact one)
    rcases halts.ends with same | ⟨r, same, -⟩
    · rw [same]
      exact first
    · rw [same]
      exact thrown_append first [r]
  · cases step with
    | refill replies r free called =>
      cases honest with
      | fine silent opened none_ clean =>
        exact streamMore_honest sound replies feed _ silent opened none_ clean (Or.inl alone) called
      | failing x before silent halted one kept reading =>
        rw [free] at reading
        simp at reading
      | reported x halted first one => exact absurd ⟨x, first, halted, one⟩ over_
    | stream => exact feed.elim
    | retry replies r staged called =>
      cases honest with
      | fine silent opened none_ clean =>
        exact streamMore_honest sound replies feed _ silent opened none_ clean (Or.inr fun _ => rfl) called
      | failing x before silent halted one kept reading =>
        rw [staged] at reading
        simp at reading
      | reported x halted first one => exact absurd ⟨x, first, halted, one⟩ over_
    | drop staged => exact honest.same rfl rfl rfl rfl (Or.inr (Or.inr staged))
    | begin _ replies before begun ran =>
      cases honest with
      | fine silent opened none_ clean => exact readSlow_honest sound replies feed before silent opened none_ clean ran
      | failing x before silent halted one kept reading =>
        unfold readSlow at ran
        rw [if_pos halted] at ran
        cases ran
        exact drain_honest sound.ledger _ silent halted one kept
      | reported x halted first one => exact absurd ⟨x, first, halted, one⟩ over_
    | resume _ replies before waited ready ran =>
      have staged := sound.stage s.failure false s.waiter s.reader s.observed
      cases honest with
      | fine silent opened none_ clean =>
        exact readSlow_honest staged replies feed before silent opened none_ clean ran
      | failing x _ silent halted one kept reading =>
        unfold readSlow at ran
        rw [if_pos (show ({ s with changed := false } : Pool V E).stopping = true from halted)] at ran
        cases ran
        exact drain_honest staged.ledger before silent halted one kept
      | reported x halted first one => exact absurd ⟨x, first, halted, one⟩ over_
    | consume n free enough =>
      rw [toss_eq]
      exact honest.same rfl rfl rfl rfl (Or.inr (Or.inl free))
    | jobDone => exact honest.same rfl rfl rfl rfl (Or.inl rfl)
    | inputDone => exact honest.same rfl rfl rfl rfl (Or.inl rfl)
    | stop => exact feed.elim
    | close => exact feed.elim
    | closeRound => exact feed.elim

theorem run_honest (run : Run (fun s e => FeedRead e ∧ FailsAlone s e) capacity s) : s.Honest := by
  induction run with
  | start => exact .fine rfl rfl rfl rfl
  | step run step may ih => exact step_honest step (run_sound run).1 may.1 may.2 ih

theorem first_failure_reported (run : Run (fun s e => FeedRead e ∧ FailsAlone s e) capacity s) {e : Exn E}
    (first : (thrown s.ends).head? = some e) : s.observed.head? = some e := by
  cases run_honest run with
  | fine silent =>
    rw [silent] at first
    cases first
  | failing x before silent =>
    rw [silent] at first
    cases first
  | reported x halted told one =>
    rw [told] at first
    rw [one]
    exact first

theorem first_failure_reported_take : ∃ s : Pool Nat Nat, Run (fun s e => FeedRead e ∧ FailsAlone s e) 1 s ∧
      (thrown s.ends).head? = some (.thrown 9) ∧ s.observed.head? = some (.thrown 9) := by
  have run : Run (fun s e => FeedRead e ∧ FailsAlone s e) 1 ({
      slots := [none], changed := true, stopping := true
      observed := [.thrown 9], ends := [.threw (.thrown 9)] } : Pool Nat Nat) :=
    Run.next .start (.refill _ [{ take := .threw (.thrown 9) }] _ rfl rfl)
      ⟨by simp [FeedRead, Calm], fun _ => ⟨rfl, by simp⟩⟩ rfl
  exact ⟨_, run, rfl, first_failure_reported run rfl⟩

def failedPool : Pool Nat Nat where
  slots := [some { idea := some 0, task := .done (.error (.thrown 9)), started := true },
    some { idea := some 1, task := .pending, started := true }, none]
  completed := [0]
  occupied := 2
  running := 1
  changed := true
  reads := 3
  begun := [0, 1, 2]
  completions := [(2, .ok 7), (0, .error (.thrown 9))]
  published := [(2, 7)]
  consumed := 1
  ends := [.data]

theorem failedPool_run : Run (fun _ e => FeedRead e) 3 failedPool := by
  have prepared : Run (fun _ e => FeedRead e) 3 ({
      slots := [some { idea := some 0, task := .pending }, none, none]
      prepared := some 0, occupied := 1, reader := .staged, reads := 1 } : Pool Nat Nat) :=
    Run.next .start (.refill _ [{ take := .ready true, invoke := .pending }, {}] _ rfl rfl)
      (by simp [FeedRead, Calm]) rfl
  have begun : Run (fun _ e => FeedRead e) 3 ({
      slots := [some { idea := some 0, task := .pending }, none, none]
      prepared := some 0, occupied := 1, reader := .begun 0, reads := 1 } : Pool Nat Nat) :=
    prepared.next (.retry _ [{}] _ rfl rfl) (by simp [FeedRead, Calm]) rfl
  have read : Run (fun _ e => FeedRead e) 3 ({
      slots := [some { idea := some 0, task := .pending, started := true },
        some { idea := some 1, task := .pending, started := true }, some { idea := some 2 }]
      ring := [7], buffered := [2], occupied := 3, running := 2, reads := 3, begun := [0, 1, 2]
      completions := [(2, .ok 7)], published := [(2, 7)], ends := [.data] } : Pool Nat Nat) :=
    begun.next (.begin _ _ [{ take := .ready true, invoke := .pending },
      { take := .ready true, invoke := .ready 7 }, {}] 0 rfl rfl) (by simp [FeedRead, Calm]) rfl
  have consumed : Run (fun _ e => FeedRead e) 3 ({
      slots := [some { idea := some 0, task := .pending, started := true },
        some { idea := some 1, task := .pending, started := true }, none]
      occupied := 2, running := 2, reads := 3, begun := [0, 1, 2]
      completions := [(2, .ok 7)], published := [(2, 7)], consumed := 1, ends := [.data] } : Pool Nat Nat) :=
    read.next (.consume _ 1 rfl (by decide)) trivial rfl
  exact consumed.next (.jobDone _ 0 _ (.error (.thrown 9)) rfl rfl rfl) trivial rfl

/-- The first call of the refill observes the failure, and the read throws `operation_cancelled`. -/
theorem failure_lost : ∃ s : Pool Nat Nat, Run (fun _ e => FeedRead e) 3 s ∧ s.observed = [.thrown 9] ∧
      thrown s.ends = [.operationCancelled] := by
  have staged : Run (fun _ e => FeedRead e) 3 ({
      slots := [none, some { idea := some 1, task := .pending, started := true }, none]
      occupied := 1, running := 1, changed := true, stopping := true, reader := .staged, reads := 3
      failure := some (.thrown 9), begun := [0, 1, 2], completions := [(2, .ok 7), (0, .error (.thrown 9))]
      published := [(2, 7)], consumed := 1, observed := [.thrown 9], ends := [.data] } : Pool Nat Nat) :=
    failedPool_run.next (.refill _ [{}] _ rfl rfl) (by simp [FeedRead, Calm]) rfl
  have overwritten : Run (fun _ e => FeedRead e) 3 ({
      slots := [none, some { idea := some 1, task := .pending, started := true }, none]
      occupied := 1, running := 1, changed := true, stopping := true, reader := .begun 0, reads := 3
      failure := some .operationCancelled, begun := [0, 1, 2]
      completions := [(2, .ok 7), (0, .error (.thrown 9))]
      published := [(2, 7)], consumed := 1, observed := [.thrown 9], ends := [.data] } : Pool Nat Nat) :=
    staged.next (.retry _ [] _ rfl rfl) (by simp [FeedRead]) rfl
  have done := Run.step overwritten (.jobDone _ 1 _ (.ok 5) rfl rfl rfl) trivial
  exact ⟨_, .step done (.begin _ _ [] 0 rfl rfl) (by simp [FeedRead]), rfl, rfl⟩

end Nxt.Runtime.Pool
