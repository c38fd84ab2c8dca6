import Nxt.Runtime.Pool

/- Where the slots of a pool are. A slot that the pool owns is reserved for the input, prepared,
   running, completed or buffered; inside a pass that throws or is stopped one can be astray, and
   `discard_settled` gives it back before the reader suspends. -/
namespace Nxt.Runtime
open List

inductive Place where
  | free
  | input
  | prepared
  | running
  | completed
  | buffered
  | stray
  deriving DecidableEq

def Held.isRunning {V E : Type} (h : Held V E) : Bool :=
  h.started && match h.task with
    | .pending => true
    | _ => false

namespace Pool
variable {V E : Type}

def runs (c : Option (Held V E)) : Bool := c.any Held.isRunning

/-- The slots, the queues and the counters tell one assignment of places. -/
structure Shape (s : Pool V E) (place : Nat → Place) : Prop where
  owned : ∀ i, s.held i = none ↔ place i = .free
  input : ∀ i, s.inputSlot = some i ↔ place i = .input
  prepared : ∀ i, s.prepared = some i ↔ place i = .prepared
  running : ∀ i, runs (s.held i) = true ↔ place i = .running
  completed : ∀ i, i ∈ s.completed ↔ place i = .completed
  buffered : ∀ i, i ∈ s.buffered ↔ place i = .buffered
  onceCompleted : s.completed.Nodup
  onceBuffered : s.buffered.Nodup
  occupied : s.occupied = s.slots.countP Option.isSome
  counted : s.running = s.slots.countP runs
  ring : s.ring.length = s.buffered.length

section Held
variable {s : Pool V E} {i j : Nat} {c : Option (Held V E)}

theorem held_set (inside : i < s.slots.length) (j : Nat) :
    ((s.slots.set i c)[j]?).join = if i = j then c else s.held j := by
  rw [getElem?_set]
  split
  · rfl
  · rfl

theorem held_inside {h : Held V E} (here : s.held i = some h) : i < s.slots.length := by
  by_contra outside
  unfold held at here
  rw [getElem?_eq_none (by omega)] at here
  cases here

theorem getElem?_held {h : Held V E} (here : s.held i = some h) : s.slots[i]? = some (some h) := by
  have inside := held_inside here
  unfold held at here
  rw [getElem?_eq_getElem inside] at here ⊢
  exact congrArg some here

theorem countP_slot (p : Option (Held V E) → Bool) (inside : i < s.slots.length) (c : Option (Held V E)) :
    (s.slots.set i c).countP p + (if p (s.held i) then 1 else 0) = s.slots.countP p + (if p c then 1 else 0) := by
  have here : s.held i = s.slots[i] := by
    unfold held
    rw [getElem?_eq_getElem inside]
    rfl
  have held : s.slots[i] ∈ s.slots := getElem_mem inside
  rw [countP_set inside, here]
  cases old : p s.slots[i] with
  | false => simp
  | true =>
    have some_ : 0 < s.slots.countP p := countP_pos_iff.mpr ⟨_, held, old⟩
    simp only [if_true]
    omega

end Held

section Moves
variable {s s' : Pool V E} {place : Nat → Place} {i : Nat} {h : Held V E}

theorem Shape.move (ok : s.Shape place) (p : Place) (c : Option (Held V E)) (inside : i < s.slots.length)
    (slots : s'.slots = s.slots.set i c) (owned : c = none ↔ p = .free) (runs_ : runs c = true ↔ p = .running)
    (input : ∀ j, s'.inputSlot = some j ↔ if i = j then p = .input else s.inputSlot = some j)
    (prepared : ∀ j, s'.prepared = some j ↔ if i = j then p = .prepared else s.prepared = some j)
    (completed : ∀ j, j ∈ s'.completed ↔ if i = j then p = .completed else j ∈ s.completed)
    (buffered : ∀ j, j ∈ s'.buffered ↔ if i = j then p = .buffered else j ∈ s.buffered)
    (onceCompleted : s'.completed.Nodup) (onceBuffered : s'.buffered.Nodup)
    (occupied : s'.occupied + (if (s.held i).isSome then 1 else 0) = s.occupied + (if c.isSome then 1 else 0))
    (counted : s'.running + (if runs (s.held i) then 1 else 0) = s.running + (if runs c then 1 else 0))
    (ring : s'.ring.length = s'.buffered.length) : s'.Shape fun j => if i = j then p else place j := by
  have held : ∀ j, s'.held j = if i = j then c else s.held j := by
    intro j
    unfold Pool.held
    rw [slots]
    exact held_set inside j
  refine ⟨?_, ?_, ?_, ?_, ?_, ?_, onceCompleted, onceBuffered, ?_, ?_, ring⟩
  · intro j
    rw [held]
    split
    · exact owned
    · exact ok.owned j
  · intro j
    rw [input]
    split
    · rfl
    · exact ok.input j
  · intro j
    rw [prepared]
    split
    · rfl
    · exact ok.prepared j
  · intro j
    rw [held]
    split
    · exact runs_
    · exact ok.running j
  · intro j
    rw [completed]
    split
    · rfl
    · exact ok.completed j
  · intro j
    rw [buffered]
    split
    · rfl
    · exact ok.buffered j
  · have count := countP_slot Option.isSome inside c
    rw [slots]
    rw [ok.occupied] at occupied
    omega
  · have count := countP_slot runs inside c
    rw [slots]
    rw [ok.counted] at counted
    omega

variable {P : Nat → Prop} {old new : Place} {P' : Nat → Prop} {p : Place} {o : Option Nat}

theorem unmoved {r : Place} (at_ : ∀ j, P j ↔ place j = r)
    (was : place i = old) (before : old ≠ r) (after : new ≠ r) (j : Nat) : P j ↔ if i = j then new = r else P j := by
  split
  · rename_i same
    subst same
    rw [at_, was]
    exact iff_of_false before after
  · rfl

theorem leaves {r : Place} (left : ∀ j, P' j ↔ P j ∧ j ≠ i) (after : new ≠ r) (j : Nat) :
    P' j ↔ if i = j then new = r else P j := by
  rw [left]
  split
  · rename_i same
    exact iff_of_false (fun both => both.2 same.symm) after
  · rename_i apart
    exact and_iff_left (Ne.symm apart)

theorem joins {r : Place} (joined : ∀ j, P' j ↔ P j ∨ j = i) (after : new = r) (j : Nat) :
    P' j ↔ if i = j then new = r else P j := by
  rw [joined]
  split
  · rename_i same
    exact iff_of_true (Or.inr same.symm) after
  · rename_i apart
    exact or_iff_left (Ne.symm apart)

theorem Shape.held_at (ok : s.Shape place) (was : place i = p) (taken : p ≠ .free) : ∃ h, s.held i = some h := by
  refine Option.ne_none_iff_exists'.mp ?_
  intro none_
  have free := (ok.owned i).mp none_
  rw [was] at free
  exact taken free

theorem Shape.runs_at (ok : s.Shape place) (was : place i = p) : runs (s.held i) = decide (p = .running) := by
  rw [← was]
  by_cases running : place i = .running
  · rw [(ok.running i).mpr running, decide_eq_true running]
  · rw [decide_eq_false running]
    by_contra busy
    exact running ((ok.running i).mp (by simpa using busy))

theorem none_leaves (slot : o = some i) (j : Nat) : (none : Option Nat) = some j ↔ o = some j ∧ j ≠ i := by
  constructor
  · intro never
    cases never
  · rintro ⟨same, apart⟩
    rw [slot] at same
    exact absurd (Option.some.inj same).symm apart

theorem some_joins (vacant : o = none) (j : Nat) : some i = some j ↔ o = some j ∨ j = i := by
  rw [vacant, Option.some.injEq]
  simp [eq_comm]

theorem Shape.reserved (ok : s.Shape place) (inside : i < s.slots.length) (free : s.held i = none)
    (vacant : s.inputSlot = none) :
    Shape { s with slots := s.slots.set i (some {}), occupied := s.occupied + 1, inputSlot := some i }
      fun j => if i = j then .input else place j := by
  have was : place i = .free := (ok.owned i).mp free
  refine ok.move .input (some {}) inside rfl (by simp) (by simp [runs, Held.isRunning])
    (joins (some_joins vacant) rfl)
    (unmoved ok.prepared was (by decide) (by decide)) (unmoved ok.completed was (by decide) (by decide))
    (unmoved ok.buffered was (by decide) (by decide)) ok.onceCompleted ok.onceBuffered ?_ ?_ ok.ring
  · simp [free]
  · simp [free, runs, Held.isRunning]

theorem Shape.released (ok : s.Shape place) (was : place i = old) (taken : old ≠ .free)
    (idle : old ≠ .running) (slots : s'.slots = s.slots.set i none)
    (input : ∀ j, s'.inputSlot = some j ↔ if i = j then Place.free = .input else s.inputSlot = some j)
    (prepared : ∀ j, s'.prepared = some j ↔ if i = j then Place.free = .prepared else s.prepared = some j)
    (completed : ∀ j, j ∈ s'.completed ↔ if i = j then Place.free = .completed else j ∈ s.completed)
    (buffered : ∀ j, j ∈ s'.buffered ↔ if i = j then Place.free = .buffered else j ∈ s.buffered)
    (onceCompleted : s'.completed.Nodup) (onceBuffered : s'.buffered.Nodup)
    (occupied : s'.occupied = s.occupied - 1) (counted : s'.running = s.running)
    (ring : s'.ring.length = s'.buffered.length) : s'.Shape fun j => if i = j then .free else place j := by
  obtain ⟨h, here⟩ := ok.held_at was taken
  have some_ : 0 < s.occupied := by
    rw [ok.occupied]
    exact countP_pos_iff.mpr ⟨_, mem_of_getElem? (getElem?_held here), rfl⟩
  refine ok.move .free none (held_inside here) slots (by simp) (by simp [runs]) input prepared completed
    buffered onceCompleted onceBuffered ?_ ?_ ring
  · rw [here, occupied]
    simp only [Option.isSome_some, if_true, Option.isSome_none, Bool.false_eq_true, if_false]
    omega
  · rw [ok.runs_at was, counted, decide_eq_false idle]
    simp [runs]

theorem Shape.shift (ok : s.Shape place) (was : place i = old) (taken : old ≠ .free)
    (p : Place) (stays : p ≠ .free) (h : Held V E) (runs_ : h.isRunning = decide (p = .running))
    (slots : s'.slots = s.slots.set i (some h))
    (input : ∀ j, s'.inputSlot = some j ↔ if i = j then p = .input else s.inputSlot = some j)
    (prepared : ∀ j, s'.prepared = some j ↔ if i = j then p = .prepared else s.prepared = some j)
    (completed : ∀ j, j ∈ s'.completed ↔ if i = j then p = .completed else j ∈ s.completed)
    (buffered : ∀ j, j ∈ s'.buffered ↔ if i = j then p = .buffered else j ∈ s.buffered)
    (onceCompleted : s'.completed.Nodup) (onceBuffered : s'.buffered.Nodup) (occupied : s'.occupied = s.occupied)
    (counted : s'.running + (if old = .running then 1 else 0) = s.running + (if p = .running then 1 else 0))
    (ring : s'.ring.length = s'.buffered.length) : s'.Shape fun j => if i = j then p else place j := by
  obtain ⟨h', here⟩ := ok.held_at was taken
  refine ok.move p (some h) (held_inside here) slots ?_ ?_ input prepared completed buffered onceCompleted
    onceBuffered ?_ ?_ ring
  · simp [stays]
  · simp [runs, runs_]
  · rw [here, occupied]
    simp
  · rw [ok.runs_at was]
    simpa [runs, runs_] using counted

theorem Shape.inputReleased (ok : s.Shape place) (slot : s.inputSlot = some i) :
    Shape { ({ s with inputSlot := none } : Pool V E).release i with inputEnded := true }
      fun j => if i = j then .free else place j := by
  have was : place i = .input := (ok.input i).mp slot
  exact ok.released was (by decide) (by decide) rfl (leaves (none_leaves slot) (by decide))
    (unmoved ok.prepared was (by decide) (by decide)) (unmoved ok.completed was (by decide) (by decide))
    (unmoved ok.buffered was (by decide) (by decide)) ok.onceCompleted ok.onceBuffered rfl rfl ok.ring

theorem Shape.taken (ok : s.Shape place) (slot : s.inputSlot = some i) (h : Held V E)
    (idle : h.isRunning = false) (n : Nat) :
    Shape { ({ s with inputSlot := none } : Pool V E).setSlot i h with reads := n }
      fun j => if i = j then .stray else place j := by
  have was : place i = .input := (ok.input i).mp slot
  exact ok.shift was (by decide) .stray (by decide) h (by rw [idle]; rfl) rfl
    (leaves (none_leaves slot) (by decide)) (unmoved ok.prepared was (by decide) (by decide))
    (unmoved ok.completed was (by decide) (by decide)) (unmoved ok.buffered was (by decide) (by decide))
    ok.onceCompleted ok.onceBuffered rfl rfl ok.ring

theorem nodup_concat {queue : List Nat} (once : queue.Nodup) (new : i ∉ queue) : (queue ++ [i]).Nodup := by
  rw [nodup_append]
  refine ⟨once, nodup_singleton i, ?_⟩
  intro a old b last
  rw [mem_singleton.mp last]
  rintro rfl
  exact new old

theorem Shape.completes (ok : s.Shape place) (was : place i = old)
    (origin : old = .stray ∨ old = .running) (h : Held V E) (idle : h.isRunning = false)
    (id : Nat) (result : Outcome V E) (begun : List Nat) : Shape { ({ s.setSlot i h with
      running := s.running - if old = .running then 1 else 0 } : Pool V E).pushCompleted i id result with begun }
      fun j => if i = j then .completed else place j := by
  have taken : old ≠ .free := by rcases origin with rfl | rfl <;> decide
  have new : i ∉ s.completed := by
    intro held
    have place_ := (ok.completed i).mp held
    rw [was] at place_
    rcases origin with rfl | rfl <;> cases place_
  refine ok.shift was taken .completed (by decide) h (by rw [idle]; rfl) rfl
    (unmoved ok.input was (by rcases origin with rfl | rfl <;> decide) (by decide))
    (unmoved ok.prepared was (by rcases origin with rfl | rfl <;> decide) (by decide))
    (joins (fun j => ?_) rfl)
    (unmoved ok.buffered was (by rcases origin with rfl | rfl <;> decide) (by decide))
    (nodup_concat ok.onceCompleted new) ok.onceBuffered rfl ?_ ok.ring
  · show j ∈ s.completed ++ [i] ↔ _
    rw [mem_append, mem_singleton]
  · show s.running - (if old = .running then 1 else 0) + (if old = .running then 1 else 0) = s.running + 0
    split
    · rename_i running
      obtain ⟨h', here⟩ := ok.held_at was taken
      have some_ : 0 < s.running := by
        rw [ok.counted]
        refine countP_pos_iff.mpr ⟨_, mem_of_getElem? (getElem?_held here), ?_⟩
        rw [← here, ok.runs_at was, decide_eq_true running]
      omega
    · rfl

theorem Shape.prepares (ok : s.Shape place) (was : place i = .stray) (vacant : s.prepared = none)
    (h : Held V E) (idle : h.isRunning = false) :
    Shape { s.setSlot i h with prepared := some i } fun j => if i = j then .prepared else place j :=
  ok.shift was (by decide) .prepared (by decide) h (by rw [idle]; rfl) rfl
    (unmoved ok.input was (by decide) (by decide)) (joins (some_joins vacant) rfl)
    (unmoved ok.completed was (by decide) (by decide)) (unmoved ok.buffered was (by decide) (by decide))
    ok.onceCompleted ok.onceBuffered rfl rfl ok.ring

theorem Shape.starts (ok : s.Shape place) (slot : s.prepared = some i) (h : Held V E)
    (busy : h.isRunning = true) (begun : List Nat) :
    Shape { s.setSlot i h with running := s.running + 1, prepared := none, begun }
      fun j => if i = j then .running else place j := by
  have was : place i = .prepared := (ok.prepared i).mp slot
  exact ok.shift was (by decide) .running (by decide) h (by rw [busy]; rfl) rfl
    (unmoved ok.input was (by decide) (by decide)) (leaves (none_leaves slot) (by decide))
    (unmoved ok.completed was (by decide) (by decide)) (unmoved ok.buffered was (by decide) (by decide))
    ok.onceCompleted ok.onceBuffered rfl rfl ok.ring

theorem Shape.publishes (ok : s.Shape place) {rest : List Nat} (queue : s.completed = i :: rest)
    (h : Held V E) (idle : h.isRunning = false) (value : V) (published : List (Nat × V)) :
    Shape { s.setSlot i h with
      ring := s.ring ++ [value], buffered := s.buffered ++ [i], completed := rest, published }
      fun j => if i = j then .buffered else place j := by
  have was : place i = .completed := (ok.completed i).mp (by rw [queue]; exact mem_cons_self ..)
  have once := ok.onceCompleted
  rw [queue, nodup_cons] at once
  have new : i ∉ s.buffered := by
    intro held
    have place_ := (ok.buffered i).mp held
    rw [was] at place_
    cases place_
  refine ok.shift was (by decide) .buffered (by decide) h (by rw [idle]; rfl) rfl
    (unmoved ok.input was (by decide) (by decide)) (unmoved ok.prepared was (by decide) (by decide))
    (leaves (fun j => ?_) (by decide)) (joins (fun j => ?_) rfl) once.2
    (nodup_concat ok.onceBuffered new) rfl rfl ?_
  · show j ∈ rest ↔ j ∈ s.completed ∧ j ≠ i
    rw [queue, mem_cons]
    constructor
    · intro later
      exact ⟨Or.inr later, fun same => once.1 (same ▸ later)⟩
    · rintro ⟨rfl | later, apart⟩
      · exact absurd rfl apart
      · exact later
  · show j ∈ s.buffered ++ [i] ↔ _
    rw [mem_append, mem_singleton]
  · show (s.ring ++ [value]).length = (s.buffered ++ [i]).length
    rw [length_append, length_append, ok.ring]
    rfl

end Moves

section Sweep
variable {s : Pool V E} {place : Nat → Place}

def cleared (slots : List (Option (Held V E))) (gone : List Nat) : List (Option (Held V E)) :=
  gone.foldl (fun slots i => slots.set i none) slots

theorem cleared_length (slots : List (Option (Held V E))) (gone : List Nat) :
    (cleared slots gone).length = slots.length := by
  induction gone generalizing slots with
  | nil => rfl
  | cons i rest ih =>
    show (cleared (slots.set i none) rest).length = slots.length
    rw [ih, length_set]

theorem cleared_held (slots : List (Option (Held V E))) (gone : List Nat) (j : Nat) :
    ((cleared slots gone)[j]?).join = if j ∈ gone then none else (slots[j]?).join := by
  induction gone generalizing slots with
  | nil => simp [cleared]
  | cons i rest ih =>
    show ((cleared (slots.set i none) rest)[j]?).join = _
    rw [ih, getElem?_set]
    by_cases later : j ∈ rest
    · simp [later]
    · by_cases same : i = j
      · subst same
        by_cases inside : i < slots.length <;> simp [later, inside]
      · simp [later, same, Ne.symm same]

theorem foldl_release (gone : List Nat) (s : Pool V E) :
    gone.foldl release s =
      { s with slots := cleared s.slots gone, occupied := s.occupied - gone.length } := by
  induction gone generalizing s with
  | nil => rfl
  | cons i rest ih =>
    show rest.foldl release (s.release i) = _
    rw [ih]
    unfold release
    simp only [length_cons, cleared, foldl_cons]
    congr 1
    omega

theorem toss_eq (s : Pool V E) (n : Nat) :
    s.toss n =
      { s with
        slots := cleared s.slots (s.buffered.take n)
        occupied := s.occupied - (s.buffered.take n).length
        ring := s.ring.drop n
        buffered := s.buffered.drop n } := by
  unfold toss
  simp only
  rw [foldl_release]

theorem Shape.consumed (ok : s.Shape place) {front rest : List Nat} (queue : s.buffered = front ++ rest) :
    ∃ place', Shape { s with
      slots := cleared s.slots front, occupied := s.occupied - front.length
      ring := s.ring.drop front.length, buffered := rest } place' ∧
      ∀ j, place' j = if j ∈ front then .free else place j := by
  induction front generalizing s place with
  | nil =>
    have whole : rest = s.buffered := queue.symm
    subst whole
    exact ⟨place, ok, fun j => by simp⟩
  | cons i front ih =>
    have was : place i = .buffered := (ok.buffered i).mp (by rw [queue]; simp)
    have once := ok.onceBuffered
    rw [queue, cons_append, nodup_cons] at once
    have length := ok.ring
    rw [queue, cons_append, length_cons] at length
    have first : Shape { s with
        slots := s.slots.set i none, occupied := s.occupied - 1, ring := s.ring.drop 1
        buffered := front ++ rest } fun j => if i = j then .free else place j := by
      refine ok.released was (by decide) (by decide) rfl (unmoved ok.input was (by decide) (by decide))
        (unmoved ok.prepared was (by decide) (by decide)) (unmoved ok.completed was (by decide) (by decide))
        (leaves (fun j => ?_) (by decide)) ok.onceCompleted once.2 rfl rfl ?_
      · show j ∈ front ++ rest ↔ j ∈ s.buffered ∧ j ≠ i
        rw [queue, cons_append, mem_cons]
        constructor
        · intro later
          exact ⟨Or.inr later, fun same => once.1 (same ▸ later)⟩
        · rintro ⟨rfl | later, apart⟩
          · exact absurd rfl apart
          · exact later
      · show (s.ring.drop 1).length = (front ++ rest).length
        rw [length_drop]
        omega
    obtain ⟨place', shape, at_⟩ := ih first rfl
    refine ⟨place', ?_, ?_⟩
    · have same : s.occupied - 1 - front.length = s.occupied - (i :: front).length := by
        rw [length_cons]
        omega
      have drops : (s.ring.drop 1).drop front.length = s.ring.drop (i :: front).length := by
        rw [drop_drop, length_cons, Nat.add_comm]
      simp only [same, drops] at shape
      exact shape
    · intro j
      simp only [at_, mem_cons]
      by_cases later : j ∈ front
      · simp [later]
      · by_cases same : i = j
        · simp [same]
        · simp [later, same, Ne.symm same]

theorem Shape.toss (ok : s.Shape place) (n : Nat) : ∃ place', (s.toss n).Shape place' ∧
      ∀ j, place' j = if j ∈ s.buffered.take n then .free else place j := by
  rw [toss_eq]
  obtain ⟨place', shape, at_⟩ := ok.consumed (take_append_drop n s.buffered).symm
  refine ⟨place', ?_, at_⟩
  have same : s.ring.drop (s.buffered.take n).length = s.ring.drop n := by
    rw [length_take, ← ok.ring]
    by_cases short : n ≤ s.ring.length
    · rw [Nat.min_eq_left short]
    · rw [Nat.min_eq_right (by omega), drop_length, drop_eq_nil_of_le (by omega)]
  rw [same] at shape
  exact shape

theorem Shape.forget (ok : s.Shape place) :
    Shape { s with completed := [], prepared := none }
      fun j => if place j = .completed ∨ place j = .prepared then .stray else place j := by
  have other : ∀ (j : Nat) (r : Place), r ≠ .completed → r ≠ .prepared → r ≠ .stray →
      (place j = r ↔ (if place j = .completed ∨ place j = .prepared then Place.stray else place j) = r) := by
    intro j r notCompleted notPrepared notStray
    split
    · rename_i was
      refine iff_of_false ?_ (Ne.symm notStray)
      rintro rfl
      exact was.elim notCompleted notPrepared
    · rfl
  refine ⟨?_, ?_, ?_, ?_, ?_, ?_, nodup_nil, ok.onceBuffered, ok.occupied, ok.counted, ok.ring⟩
  · exact fun j => (ok.owned j).trans (other j .free (by decide) (by decide) (by decide))
  · exact fun j => (ok.input j).trans (other j .input (by decide) (by decide) (by decide))
  · intro j
    refine iff_of_false (by simp) ?_
    split
    · decide
    · rename_i apart
      exact fun was => apart (Or.inr was)
  · exact fun j => (ok.running j).trans (other j .running (by decide) (by decide) (by decide))
  · intro j
    refine iff_of_false (by simp) ?_
    split
    · decide
    · rename_i apart
      exact fun was => apart (Or.inl was)
  · exact fun j => (ok.buffered j).trans (other j .buffered (by decide) (by decide) (by decide))

theorem Shape.forgetInput (ok : s.Shape place) :
    Shape { s with input := .none, inputSlot := none }
      fun j => if place j = .input then .stray else place j := by
  have other : ∀ (j : Nat) (r : Place), r ≠ .input → r ≠ .stray →
      (place j = r ↔ (if place j = .input then Place.stray else place j) = r) := by
    intro j r notInput notStray
    split
    · rename_i was
      rw [was]
      exact iff_of_false (Ne.symm notInput) (Ne.symm notStray)
    · rfl
  refine ⟨?_, ?_, ?_, ?_, ?_, ?_, ok.onceCompleted, ok.onceBuffered, ok.occupied, ok.counted, ok.ring⟩
  · exact fun j => (ok.owned j).trans (other j .free (by decide) (by decide))
  · intro j
    refine iff_of_false (by simp) ?_
    split
    · decide
    · rename_i apart
      exact apart
  · exact fun j => (ok.prepared j).trans (other j .prepared (by decide) (by decide))
  · exact fun j => (ok.running j).trans (other j .running (by decide) (by decide))
  · exact fun j => (ok.completed j).trans (other j .completed (by decide) (by decide))
  · exact fun j => (ok.buffered j).trans (other j .buffered (by decide) (by decide))

theorem settled_iff {i : Nat} : s.settled i = true ↔
    (∃ h, s.held i = some h) ∧ s.inputSlot ≠ some i ∧ runs (s.held i) = false := by
  unfold settled
  cases here : s.held i with
  | none => simp
  | some h =>
    simp only [Bool.and_eq_true, decide_eq_true_eq, Option.some.injEq, exists_eq', true_and]
    refine and_congr_right fun _ => ?_
    obtain ⟨idea, task, ready, started⟩ := h
    unfold runs Held.isRunning
    cases started <;> cases task <;> simp

theorem Shape.swept (ok : s.Shape place) (all : List Nat) (astray : ∀ i, s.settled i = true → place i = .stray) :
    ∃ place', (all.foldl (fun s i => if s.settled i then s.release i else s) s).Shape place' ∧
      (∀ j, place' j = if j ∈ all ∧ s.settled j = true then .free else place j) ∧
      ∃ slots occupied, all.foldl (fun s i => if s.settled i then s.release i else s) s =
        { s with slots, occupied } ∧ slots.length = s.slots.length ∧
        ∀ j h, (slots[j]?).join = some h → s.held j = some h := by
  induction all generalizing s place with
  | nil => exact ⟨place, ok, fun j => by simp, s.slots, s.occupied, rfl, rfl, fun j h here => here⟩
  | cons i rest ih =>
    simp only [foldl_cons]
    by_cases settles : s.settled i = true
    · rw [if_pos settles]
      have was := astray i settles
      obtain ⟨⟨h, here⟩, -, -⟩ := settled_iff.mp settles
      have inside := held_inside here
      have held : ∀ j, (s.release i).held j = if i = j then none else s.held j := fun j => held_set inside j
      have settled : ∀ j, (s.release i).settled j = true ↔ s.settled j = true ∧ i ≠ j := by
        intro j
        rw [settled_iff, settled_iff, held]
        by_cases same : i = j
        · simp [same]
        · simp only [same, if_false, ne_eq, not_false_eq_true, and_true]
          exact Iff.rfl
      have first : (s.release i).Shape fun j => if i = j then .free else place j :=
        ok.released was (by decide) (by decide) rfl (unmoved ok.input was (by decide) (by decide))
          (unmoved ok.prepared was (by decide) (by decide)) (unmoved ok.completed was (by decide) (by decide))
          (unmoved ok.buffered was (by decide) (by decide)) ok.onceCompleted ok.onceBuffered rfl rfl ok.ring
      obtain ⟨place', shape, at_, slots, occupied, equal, length, kept⟩ := ih first fun j settles => by
        obtain ⟨old, apart⟩ := (settled j).mp settles
        rw [if_neg apart]
        exact astray j old
      refine ⟨place', shape, ?_, slots, occupied, ?_, ?_, ?_⟩
      · intro j
        rw [at_]
        simp only [settled, mem_cons]
        by_cases same : i = j
        · subst same
          simp [settles]
        · simp only [same, if_false, Ne.symm same, false_or, ne_eq, not_false_eq_true, and_true]
      · rw [equal]
        rfl
      · rw [length]
        exact length_set
      · intro j h' there
        have old := kept j h' there
        rw [held] at old
        split at old
        · cases old
        · exact old
    · rw [if_neg settles]
      obtain ⟨place', shape, at_, more⟩ := ih ok astray
      refine ⟨place', shape, ?_, more⟩
      intro j
      rw [at_]
      simp only [mem_cons]
      by_cases same : j = i
      · subst same
        simp [settles]
      · simp [same]

/-- What `discard_settled` leaves: the slot of a running input read, and the running jobs. -/
structure Discarded (s s' : Pool V E) : Prop where
  places : ∃ place, s'.Shape place ∧ ∀ j, place j = .free ∨ place j = .input ∨ place j = .running
  frame : ∃ slots occupied, s' =
    { s with
      slots, occupied, ring := [], buffered := [], completed := [], prepared := none
      input := if s.inputRunning then s.input else .none
      inputSlot := if s.inputRunning then s.inputSlot else none }
  kept : ∀ j h, s'.held j = some h → s.held j = some h
  length : s'.slots.length = s.slots.length

theorem Shape.discards (ok : s.Shape place) :
    Discarded s s.discardSettled.2 ∧ s.discardSettled.1 = (s.discardSettled.2.occupied == 0) := by
  -- the buffer is emptied, and everything that is settled is astray
  obtain ⟨tossedPlace, tossed, tossedAt⟩ := ok.toss s.ring.length
  have all : s.buffered.take s.ring.length = s.buffered := by rw [ok.ring, take_length]
  have empty : s.buffered.drop s.ring.length = [] := by rw [ok.ring, drop_length]
  have frame := toss_eq s s.ring.length
  rw [all, empty, drop_length] at frame
  rw [frame] at tossed
  have forgot := tossed.forget
  have kept : ∀ j h, ((cleared s.slots s.buffered)[j]?).join = some h → s.held j = some h := by
    intro j h here
    rw [cleared_held] at here
    split at here
    · cases here
    · exact here
  let middle : Pool V E :=
    { s with
      slots := cleared s.slots s.buffered, occupied := s.occupied - s.buffered.length
      ring := [], buffered := [], completed := [], prepared := none
      input := if s.inputRunning then s.input else .none
      inputSlot := if s.inputRunning then s.inputSlot else none }
  obtain ⟨middlePlace, middleShape, middleAt⟩ : ∃ place, middle.Shape place ∧
      ∀ j, place j = .free ∨ place j = .input ∨ place j = .running ∨ place j = .stray := by
    have cases_ : ∀ (p : Nat → Place) (x : Pool V E), x.Shape p → x.buffered = [] → x.completed = [] →
        x.prepared = none → ∀ j, p j = .free ∨ p j = .input ∨ p j = .running ∨ p j = .stray := by
      intro p x shape noBuffered noCompleted noPrepared j
      have buffered := shape.buffered j
      have completed := shape.completed j
      have prepared := shape.prepared j
      rw [noBuffered] at buffered
      rw [noCompleted] at completed
      rw [noPrepared] at prepared
      cases at_ : p j with
      | free => exact Or.inl rfl
      | input => exact Or.inr (Or.inl rfl)
      | running => exact Or.inr (Or.inr (Or.inl rfl))
      | stray => exact Or.inr (Or.inr (Or.inr rfl))
      | prepared => cases prepared.mpr at_
      | completed => cases completed.mpr at_
      | buffered => cases buffered.mpr at_
    by_cases busy : s.inputRunning = true
    · have same : middle = { s with
          slots := cleared s.slots s.buffered, occupied := s.occupied - s.buffered.length
          ring := [], buffered := [], completed := [], prepared := none } := by
        simp only [middle, busy, if_true]
      rw [same]
      exact ⟨_, forgot, cases_ _ _ forgot rfl rfl rfl⟩
    · have same : middle = { s with
          slots := cleared s.slots s.buffered, occupied := s.occupied - s.buffered.length
          ring := [], buffered := [], completed := [], prepared := none, input := .none
          inputSlot := none } := by
        simp only [middle, busy]
        rfl
      rw [same]
      exact ⟨_, forgot.forgetInput, cases_ _ _ forgot.forgetInput rfl rfl rfl⟩
  have start : (if ({ s.toss s.ring.length with completed := [], prepared := none } : Pool V E).inputRunning
      then { s.toss s.ring.length with completed := [], prepared := none }
      else { s.toss s.ring.length with completed := [], prepared := none, input := .none, inputSlot := none }) =
      middle := by
    rw [frame]
    by_cases busy : s.inputRunning = true
    · have same : ({ s with
          slots := cleared s.slots s.buffered, occupied := s.occupied - s.buffered.length
          ring := [], buffered := [], completed := [], prepared := none } : Pool V E).inputRunning = true := busy
      rw [if_pos same]
      simp only [middle, busy, if_true]
    · have same : ¬ ({ s with
          slots := cleared s.slots s.buffered, occupied := s.occupied - s.buffered.length
          ring := [], buffered := [], completed := [], prepared := none } : Pool V E).inputRunning = true := busy
      rw [if_neg same]
      simp only [middle, busy]
      rfl
  have astray : ∀ i, middle.settled i = true → middlePlace i = .stray := by
    intro i settles
    obtain ⟨⟨h, here⟩, notInput, idle⟩ := settled_iff.mp settles
    rcases middleAt i with free | input | running | stray
    · rw [(middleShape.owned i).mpr free] at here
      cases here
    · exact absurd ((middleShape.input i).mpr input) notInput
    · rw [(middleShape.running i).mpr running] at idle
      cases idle
    · exact stray
  obtain ⟨place', shape, at_, slots, occupied, equal, length, left⟩ :=
    middleShape.swept (range middle.capacity) astray
  have result : s.discardSettled = (({ middle with slots, occupied } : Pool V E).occupied == 0,
      { middle with slots, occupied }) := by
    unfold discardSettled
    simp only
    rw [start, equal]
  rw [equal] at shape
  refine ⟨⟨⟨place', ?_, ?_⟩, ⟨slots, occupied, ?_⟩, ?_, ?_⟩, ?_⟩
  · rw [result]
    exact shape
  · intro j
    rw [at_]
    split
    · exact Or.inl rfl
    · rename_i stays
      rcases middleAt j with free | input | running | stray
      · exact Or.inl free
      · exact Or.inr (Or.inl input)
      · exact Or.inr (Or.inr running)
      · -- a slot astray is settled, so the sweep has taken it
        obtain ⟨h, here⟩ := middleShape.held_at stray (by decide)
        refine absurd ⟨mem_range.mpr (held_inside here), settled_iff.mpr ⟨⟨h, here⟩, ?_, ?_⟩⟩ stays
        · intro slot
          have input := (middleShape.input j).mp slot
          rw [stray] at input
          cases input
        · rw [middleShape.runs_at stray]
          rfl
  · rw [result]
  · intro j h here
    rw [result] at here
    exact kept j h (left j h here)
  · rw [result]
    exact length.trans (cleared_length s.slots s.buffered)
  · rw [result]

end Sweep

end Pool

end Nxt.Runtime
