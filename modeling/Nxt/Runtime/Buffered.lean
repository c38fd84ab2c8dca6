import Nxt.Runtime.Rendezvous

/- A wire with a buffer. What was accepted is what was received and then what is buffered, in every
   run. A send parked on a silent space bell is parked at a full open wire; a receive parked on a
   silent data bell is parked at an empty one, and at an open one as long as no other receive runs
   meanwhile. -/
namespace Nxt.Runtime
open List

section Segments
variable {T : Type} {w : Wire T} {value : T}

inductive Wire.Sent (w : Wire T) (value : T) : Sending × Wire T → Prop where
  | pushed (room : w.canSendNow = true) : Sent w value (.returned true, w.pushReady value)
  | refused : Sent w value (.returned false, w)
  | begun : Sent w value (.begun, w)
  | parked (full : w.full = true) (opened : w.closed = false) :
      Sent w value (.waiting false, { w with space := false })

inductive Wire.Got (w : Wire T) : Receiving (Option T) × Wire T → Prop where
  | popped (first : T) (w' : Wire T) (capacity : w'.capacity = w.capacity)
      (buffered : w.buffered = first :: w'.buffered) (rendezvous : w'.rendezvous = none)
      (closed : w'.closed = w.closed) (space : w'.space = true)
      (data : w'.buffered = [] ∨ w'.data = w.data) :
      Got w (.returned (some first), w')
  | ended (closed : w.closed = true) (empty : w.buffered = []) : Got w (.returned none, w)
  | begun (opened : w.closed = false) : Got w (.begun, w)
  | parked (opened : w.closed = false) (empty : w.empty = true) :
      Got w (.waiting false, { w with data := false })

inductive Wire.Refilled (w : Wire T) : Receiving Wire.Refill × Wire T → Prop where
  | more : Refilled w (.returned .more, w)
  | ended (closed : w.closed = true) (empty : w.buffered = []) : Refilled w (.returned .eof, w)
  | begun : Refilled w (.begun, w)
  | parked (opened : w.closed = false) (empty : w.empty = true) :
      Refilled w (.waiting false, { w with data := false })

theorem empty_iff (slot : w.rendezvous = none) : w.empty = true ↔ w.buffered = [] := by
  simp [Wire.empty, slot]

theorem buffered_of_empty (empty : w.empty = true) : w.buffered = [] := by
  rw [Wire.empty, Bool.and_eq_true] at empty
  exact List.isEmpty_iff.mp empty.1

theorem full_of_refused (room : w.capacity ≠ 0) (refused : w.canSendNow = false)
    (opened : w.closed = false) : w.full = true := by
  simpa [Wire.canSendNow, opened, room] using refused

theorem send_sent (room : w.capacity ≠ 0) : w.Sent value (w.send value) := by
  unfold Wire.send
  split
  · exact .refused
  · split
    · rename_i now
      exact .pushed now
    · exact .begun

theorem trySend_sent : w.Sent value (.returned (w.trySend value).1, (w.trySend value).2) := by
  unfold Wire.trySend
  split
  · exact .refused
  · rename_i now
    exact .pushed (by simpa using now)

theorem sendSlow_sent (room : w.capacity ≠ 0) : w.Sent value (w.sendSlow value) := by
  unfold Wire.sendSlow
  split
  · exact .refused
  · rename_i closed
    have opened : w.closed = false := by simpa using closed
    split
    · rename_i now
      exact .pushed now
    · rename_i full
      -- the bell is silenced, and the checks are made again on the same wire
      show w.Sent value (if w.canSendNow then _ else if w.closed then _ else _)
      rw [if_neg full, if_neg closed]
      exact .parked (full_of_refused room (by simpa using full) opened) opened

section
variable (slot : w.rendezvous = none)
include slot

theorem tryNext_ring : (w.buffered = [] ∧ w.tryNext = (none, w)) ∨
      ∃ first w', w.tryNext = (some first, w') ∧ w.Got (.returned (some first), w') := by
  unfold Wire.tryNext
  cases ring : w.buffered with
  | nil => simp [slot]
  | cons first rest =>
    simp only [slot]
    right
    by_cases last : (w.toss 1).empty = true
    · rw [if_pos last]
      exact ⟨first, _, rfl, .popped first _ rfl (by simp [Wire.toss, ring]) slot rfl rfl
        (.inl (buffered_of_empty last))⟩
    · rw [if_neg last]
      exact ⟨first, _, rfl, .popped first _ rfl (by simp [Wire.toss, ring]) slot rfl rfl (.inr rfl)⟩

theorem next_got : w.Got w.next := by
  unfold Wire.next
  rcases tryNext_ring slot with ⟨empty, tried⟩ | ⟨first, w', tried, got⟩
  · rw [tried]
    simp only
    split
    · rename_i closed
      exact .ended closed empty
    · rename_i opened
      exact .begun (by simpa using opened)
  · rw [tried]
    exact got

theorem nextSlow_got : w.Got w.nextSlow := by
  unfold Wire.nextSlow
  rcases tryNext_ring slot with ⟨empty, tried⟩ | ⟨first, w', tried, got⟩
  · rw [tried]
    simp only
    split
    · rename_i closed
      exact .ended closed empty
    · rename_i opened
      have again : ({ w with data := false } : Wire T).tryNext = (none, { w with data := false }) := by
        unfold Wire.tryNext
        simp [empty, slot]
      rw [again]
      simp only
      rw [if_neg opened]
      exact .parked (by simpa using opened) ((empty_iff slot).mpr empty)
  · rw [tried]
    exact got

theorem streamMore_refilled : w.Refilled w.streamMore := by
  unfold Wire.streamMore
  split
  · exact .more
  · rename_i empty
    split
    · rename_i closed
      exact .ended closed ((empty_iff slot).mp (by simpa using empty))
    · exact .begun

theorem waitForData_refilled : w.Refilled w.waitForData := by
  unfold Wire.waitForData
  split
  · rename_i waits
    rw [Bool.and_eq_true, Bool.not_eq_true'] at waits
    exact .parked waits.2 waits.1
  · rename_i done
    split
    · rename_i empty
      have closed : w.closed = true := by simpa [empty] using done
      exact .ended closed ((empty_iff slot).mp empty)
    · exact .more

end

end Segments

def Wire.SpaceKept {T : Type} (w : Wire T) : Prop :=
  w.space = true ∨ (w.full = true ∧ w.closed = false)

def Wire.DataKept {T : Type} (w : Wire T) : Prop := w.data = true ∨ w.closed = false

/-- Only an empty wire has a silent data bell. -/
def Wire.DataHeard {T : Type} (w : Wire T) : Prop := w.data = true ∨ w.buffered = []

section Bells
variable {T : Type} {w w' : Wire T} {value : T}

theorem Wire.SpaceKept.sent {stage : Sending} (kept : w.SpaceKept) (sent : w.Sent value (stage, w')) :
    w'.SpaceKept := by
  cases sent with
  | pushed room =>
    rcases kept with ringing | ⟨full, -⟩
    · exact Or.inl ringing
    · unfold Wire.canSendNow at room
      simp [full] at room
  | refused => exact kept
  | begun => exact kept
  | parked full opened => exact Or.inr ⟨full, opened⟩

theorem Wire.DataHeard.sent {stage : Sending} (heard : w.DataHeard) (sent : w.Sent value (stage, w')) :
    w'.DataHeard := by
  cases sent with
  | pushed room => exact Or.inl rfl
  | refused => exact heard
  | begun => exact heard
  | parked full opened => exact heard

theorem Wire.DataHeard.got {stage : Receiving (Option T)} (heard : w.DataHeard)
    (got : w.Got (stage, w')) : w'.DataHeard := by
  cases got with
  | popped first w' capacity buffered rendezvous closed space data =>
    rcases data with last | same
    · exact Or.inr last
    · rcases heard with ringing | none_
      · exact Or.inl (same.trans ringing)
      · cases none_.symm.trans buffered
  | ended closed empty => exact heard
  | begun opened => exact heard
  | parked opened empty => exact Or.inr (buffered_of_empty empty)

theorem Wire.DataHeard.refilled {stage : Receiving Wire.Refill} (heard : w.DataHeard)
    (refilled : w.Refilled (stage, w')) : w'.DataHeard := by
  cases refilled with
  | parked opened empty => exact Or.inr (buffered_of_empty empty)
  | _ => exact heard

theorem Wire.DataHeard.toss (heard : w.DataHeard) (n : Nat) : (w.toss n).DataHeard := by
  refine heard.imp id fun none_ => ?_
  show w.buffered.drop n = []
  rw [none_, drop_nil]

theorem Wire.DataKept.sent {stage : Sending} (kept : w.DataKept) (sent : w.Sent value (stage, w')) : w'.DataKept := by
  cases sent with
  | pushed room => exact Or.inl rfl
  | refused => exact kept
  | begun => exact kept
  | parked full opened => exact kept

theorem Wire.SpaceKept.got {stage : Receiving (Option T)} (kept : w.SpaceKept)
    (got : w.Got (stage, w')) : w'.SpaceKept := by
  cases got with
  | popped first w' capacity buffered rendezvous closed space => exact Or.inl space
  | ended closed empty => exact kept
  | begun opened => exact kept
  | parked opened empty => exact kept

theorem Wire.SpaceKept.refilled {stage : Receiving Wire.Refill} (kept : w.SpaceKept)
    (refilled : w.Refilled (stage, w')) : w'.SpaceKept := by
  cases refilled <;> exact kept

theorem Wire.SpaceKept.close (kept : w.SpaceKept) : w.close.SpaceKept := by
  unfold Wire.close
  split
  · exact kept
  · exact Or.inl rfl

theorem Wire.DataHeard.close (heard : w.DataHeard) : w.close.DataHeard := by
  unfold Wire.close
  split
  · exact heard
  · exact Or.inl rfl

theorem Wire.DataKept.close (kept : w.DataKept) : w.close.DataKept := by
  unfold Wire.close
  split
  · exact kept
  · exact Or.inl rfl

end Bells

def Call.parkedReceive {V : Type} : Call V → Bool
  | .next (.waiting _) | .streamMore (.waiting _) => true
  | _ => false

def Call.ended {V : Type} : Call V → Bool
  | .next (.returned none) | .streamMore (.returned .eof) => true
  | _ => false

namespace Traffic
variable {V : Type} {t : Traffic V} {c : Nat}

def Single (t : Traffic V) : Move V → Prop
  | .next | .tryNext | .streamMore | .consume _ => ∀ call ∈ t.calls, call.parkedReceive = false
  | .run i => t.calls[i]? = some (.next .begun) ∨ t.calls[i]? = some (.streamMore .begun) →
      ∀ call ∈ t.calls, call.parkedReceive = false
  | _ => True

structure Ordered (t : Traffic V) : Prop where
  room : t.wire.capacity ≠ 0
  slot : t.wire.rendezvous = none
  order : t.accepted = t.received ++ t.wire.buffered
  sends : ∀ (i : Nat) (v : V) (stage : Sending), t.calls[i]? = some (.send v stage) →
    (∀ woken, stage ≠ .offered woken) ∧
      (stage = .returned true ↔ (⟨i, v⟩ : Parcel V) ∈ t.accepted)
  known : ∀ p ∈ t.accepted, ∃ stage, t.calls[p.call]? = some (.send p.value stage)
  once : t.accepted.Nodup
  ends : ∀ call ∈ t.calls, call.ended = true → t.wire.closed = true ∧ t.wire.buffered = []

/-- Which bells are silent, whoever receives. -/
structure Rung (t : Traffic V) : Prop where
  space : ∀ (i : Nat) (v : V), t.calls[i]? = some (.send v (.waiting false)) → t.wire.SpaceKept
  data : t.wire.DataHeard

structure Attended (t : Traffic V) : Prop where
  alone : ∀ (i j : Nat) (a b : Call V), t.calls[i]? = some a → t.calls[j]? = some b →
    a.parkedReceive = true → b.parkedReceive = true → i = j
  data : ∀ i : Nat, t.calls[i]? = some (.next (.waiting false)) ∨
    t.calls[i]? = some (.streamMore (.waiting false)) → t.wire.DataKept

open Exchange (getElem?_set_call)

section Ordered

theorem Ordered.fresh_call (ok : t.Ordered) (v : V) : (⟨t.calls.length, v⟩ : Parcel V) ∉ t.accepted := by
  intro held
  obtain ⟨stage, here⟩ := ok.known _ held
  rw [getElem?_eq_none (Nat.le_refl _)] at here
  cases here

theorem Ordered.called (ok : t.Ordered) (call : Call V) (new : ∀ v stage, call = .send v stage → stage = .begun)
    (open_ : call.ended = false) : (t.called call).Ordered := by
  refine ⟨ok.room, ok.slot, ok.order, ?_, ?_, ok.once, ?_⟩
  · intro j u stage there
    have there : (t.calls ++ [call])[j]? = some (.send u stage) := there
    rw [getElem?_append] at there
    split at there
    · exact ok.sends j u stage there
    · rename_i beyond
      rw [getElem?_singleton] at there
      split at there
      · rename_i last
        have first := new u stage (Option.some.inj there)
        subst first
        have place : j = t.calls.length := by omega
        subst place
        exact ⟨by simp, iff_of_false (by simp) (ok.fresh_call u)⟩
      · cases there
  · intro p held
    obtain ⟨stage, there⟩ := ok.known p held
    have inside := (List.getElem?_eq_some_iff.mp there).1
    exact ⟨stage, by
      show (t.calls ++ [call])[p.call]? = _
      rw [getElem?_append_left inside]
      exact there⟩
  · intro other held ended
    have held : other ∈ t.calls ++ [call] := held
    rcases mem_append.mp held with old | last
    · exact ok.ends other old ended
    · rw [mem_singleton.mp last, open_] at ended
      cases ended

variable {i : Nat} {w : Wire (Parcel V)} {v : V} {old : Sending}

section
variable (ok : t.Ordered)
include ok

theorem Ordered.set_other {old new : Call V}
    {received : List (Parcel V)} (here : t.calls[i]? = some old) (was : ∀ v stage, old ≠ .send v stage)
    (is : ∀ v stage, new ≠ .send v stage) (capacity : w.capacity = t.wire.capacity)
    (slot : w.rendezvous = none) (order : t.received ++ t.wire.buffered = received ++ w.buffered)
    (closed : w.closed = t.wire.closed) (emptied : t.wire.buffered = [] → w.buffered = [])
    (ended : new.ended = true → w.closed = true ∧ w.buffered = []) :
    Ordered { t with wire := w, calls := t.calls.set i new, received } := by
  refine ⟨?_, slot, ok.order.trans order, ?_, ?_, ok.once, ?_⟩
  · show w.capacity ≠ 0
    rw [capacity]
    exact ok.room
  · intro j u stage there
    have there : (t.calls.set i new)[j]? = some (.send u stage) := there
    rw [getElem?_set_call here] at there
    split at there
    · cases there
      exact absurd rfl (is u stage)
    · exact ok.sends j u stage there
  · intro p held
    obtain ⟨stage, there⟩ := ok.known p held
    refine ⟨stage, ?_⟩
    show (t.calls.set i new)[p.call]? = _
    rw [getElem?_set_call here, if_neg]
    · exact there
    · rintro rfl
      rw [here] at there
      exact was _ _ (Option.some.inj there)
  · intro call held ends
    rcases mem_or_eq_of_mem_set held with before | rfl
    · obtain ⟨wasClosed, wasEmpty⟩ := ok.ends call before ends
      exact ⟨closed.trans wasClosed, emptied wasEmpty⟩
    · exact ended ends

theorem Ordered.receiving {old : Receiving (Option (Parcel V))} {r : Receiving (Option (Parcel V)) × Wire (Parcel V)}
    (here : t.calls[i]? = some (.next old)) (got : t.wire.Got r) : (t.receiving i r).Ordered := by
  cases got with
  | popped first w capacity buffered rendezvous closed space =>
    refine ok.set_other here (by simp) (by simp) capacity rendezvous ?_ closed ?_ ?_
    · rw [buffered]
      simp
    · intro empty
      rw [empty] at buffered
      cases buffered
    · intro ended
      cases ended
  | ended closed empty =>
    exact ok.set_other here (by simp) (by simp) rfl ok.slot (by simp) rfl id (fun _ => ⟨closed, empty⟩)
  | begun opened =>
    exact ok.set_other here (by simp) (by simp) rfl ok.slot (by simp) rfl id (by simp [Call.ended])
  | parked opened empty =>
    exact ok.set_other here (by simp) (by simp) rfl ok.slot (by simp) rfl id (by simp [Call.ended])

theorem Ordered.refilling {old : Receiving Wire.Refill} {r : Receiving Wire.Refill × Wire (Parcel V)}
    (here : t.calls[i]? = some (.streamMore old)) (refilled : t.wire.Refilled r) : (t.refilling i r).Ordered := by
  cases refilled with
  | more => exact ok.set_other here (by simp) (by simp) rfl ok.slot rfl rfl id (by simp [Call.ended])
  | ended closed empty =>
    exact ok.set_other here (by simp) (by simp) rfl ok.slot rfl rfl id (fun _ => ⟨closed, empty⟩)
  | begun => exact ok.set_other here (by simp) (by simp) rfl ok.slot rfl rfl id (by simp [Call.ended])
  | parked opened empty =>
    exact ok.set_other here (by simp) (by simp) rfl ok.slot rfl rfl id (by simp [Call.ended])

theorem Ordered.set_send {new : Sending}
    (here : t.calls[i]? = some (.send v old)) (alike : t.wire.Alike w)
    (agrees : new = .returned true ↔ (⟨i, v⟩ : Parcel V) ∈ t.accepted) (unoffered : ∀ woken, new ≠ .offered woken) :
    Ordered { t with wire := w, calls := t.calls.set i (.send v new) } := by
  refine ⟨?_, alike.rendezvous.trans ok.slot, ?_, ?_, ?_, ok.once, ?_⟩
  · show w.capacity ≠ 0
    rw [alike.capacity]
    exact ok.room
  · show t.accepted = t.received ++ w.buffered
    rw [alike.buffered]
    exact ok.order
  · intro j u stage there
    have there : (t.calls.set i (.send v new))[j]? = some (.send u stage) := there
    rw [getElem?_set_call here] at there
    split at there
    · rename_i same
      cases there
      subst same
      exact ⟨unoffered, agrees⟩
    · exact ok.sends j u stage there
  · intro p held
    obtain ⟨stage, there⟩ := ok.known p held
    show ∃ stage, (t.calls.set i (.send v new))[p.call]? = some (.send p.value stage)
    rw [getElem?_set_call here]
    split
    · rename_i same
      rw [← same, here] at there
      cases there
      exact ⟨new, rfl⟩
    · exact ⟨stage, there⟩
  · intro call held ends
    rcases mem_or_eq_of_mem_set held with before | rfl
    · obtain ⟨wasClosed, wasEmpty⟩ := ok.ends call before ends
      exact ⟨alike.closed.trans wasClosed, alike.buffered.trans wasEmpty⟩
    · cases ends

theorem Ordered.push (here : t.calls[i]? = some (.send v old)) (early : (⟨i, v⟩ : Parcel V) ∉ t.accepted)
    (room : t.wire.canSendNow = true) : (t.sending i v (.returned true, t.wire.pushReady ⟨i, v⟩)).Ordered := by
  have opened : t.wire.closed = false := by
    cases closed : t.wire.closed with
    | false => rfl
    | true => simp [Wire.canSendNow, closed] at room
  have grown : (t.sending i v (.returned true, t.wire.pushReady ⟨i, v⟩)).accepted =
      t.accepted ++ [⟨i, v⟩] := by
    unfold Traffic.sending
    simp
  refine ⟨ok.room, ok.slot, ?_, ?_, ?_, ?_, ?_⟩
  · rw [grown, ok.order]
    show t.received ++ t.wire.buffered ++ [⟨i, v⟩] = t.received ++ (t.wire.buffered ++ [⟨i, v⟩])
    rw [append_assoc]
  · intro j u stage there
    rw [grown]
    have there : (t.calls.set i (.send v (.returned true)))[j]? = some (.send u stage) := there
    rw [getElem?_set_call here] at there
    split at there
    · rename_i same
      cases there
      subst same
      exact ⟨by simp, iff_of_true rfl (by simp)⟩
    · rename_i apart
      have old := ok.sends j u stage there
      refine ⟨old.1, old.2.trans ?_⟩
      rw [mem_append, mem_singleton]
      exact ⟨Or.inl, fun held => held.resolve_right fun same => apart (congrArg Parcel.call same).symm⟩
  · rw [grown]
    intro p held
    show ∃ stage, (t.calls.set i (.send v (.returned true)))[p.call]? = some (.send p.value stage)
    rcases mem_append.mp held with before | last
    · obtain ⟨stage, there⟩ := ok.known p before
      refine ⟨stage, ?_⟩
      rw [getElem?_set_call here, if_neg]
      · exact there
      · rintro rfl
        rw [here] at there
        cases there
        exact early before
    · rw [mem_singleton.mp last]
      exact ⟨.returned true, by rw [getElem?_set_call here, if_pos rfl]⟩
  · rw [grown, nodup_append]
    refine ⟨ok.once, nodup_singleton _, ?_⟩
    intro p before q last
    rw [mem_singleton.mp last]
    rintro rfl
    exact early before
  · intro call held ends
    rcases mem_or_eq_of_mem_set held with before | rfl
    · rw [(ok.ends call before ends).1] at opened
      cases opened
    · cases ends

theorem Ordered.sending {r : Sending × Wire (Parcel V)} (here : t.calls[i]? = some (.send v old))
    (early : (⟨i, v⟩ : Parcel V) ∉ t.accepted) (sent : t.wire.Sent ⟨i, v⟩ r) : (t.sending i v r).Ordered := by
  have failed : ∀ (stage : Sending) (w : Wire (Parcel V)), stage ≠ .returned true →
      t.sending i v (stage, w) = { t with wire := w, calls := t.calls.set i (.send v stage) } := by
    intro stage w failed
    unfold Traffic.sending
    simp [failed]
  cases sent with
  | pushed room => exact ok.push here early room
  | refused =>
    rw [failed _ _ (by simp)]
    exact ok.set_send here ⟨rfl, rfl, rfl, rfl⟩ (iff_of_false (by simp) early) (by simp)
  | begun =>
    rw [failed _ _ (by simp)]
    exact ok.set_send here ⟨rfl, rfl, rfl, rfl⟩ (iff_of_false (by simp) early) (by simp)
  | parked full opened =>
    rw [failed _ _ (by simp)]
    exact ok.set_send here ⟨rfl, rfl, rfl, rfl⟩ (iff_of_false (by simp) early) (by simp)

theorem Ordered.modify (f : Call V → Call V)
    (sends : ∀ v stage, ∃ stage', f (.send v stage) = .send v stage' ∧
      ((∀ woken, stage ≠ .offered woken) → ∀ woken, stage' ≠ .offered woken) ∧
      (stage' = .returned true ↔ stage = .returned true))
    (others : ∀ c, (∀ v stage, c ≠ .send v stage) → ∀ v stage, f c ≠ .send v stage)
    (ended : ∀ c, (f c).ended = c.ended) (i : Nat) :
    Ordered { t with calls := t.calls.modify i f } := by
  rw [modify_eq_set_getElem?]
  cases here : t.calls[i]? with
  | none => exact ok
  | some call =>
    have other : (∀ v stage, call ≠ .send v stage) →
        Ordered { t with calls := t.calls.set i (f call) } := by
      intro isOther
      refine ok.set_other here isOther (others call isOther) rfl ok.slot rfl rfl id ?_
      rw [ended]
      exact ok.ends call (mem_of_getElem? here)
    cases call with
    | send v stage =>
      obtain ⟨stage', changed, unoffered, returned⟩ := sends v stage
      have old := ok.sends i v stage here
      show Ordered { t with calls := t.calls.set i (f (.send v stage)) }
      rw [changed]
      exact ok.set_send here ⟨rfl, rfl, rfl, rfl⟩ (returned.trans old.2) (unoffered old.1)
    | next stage => exact other (by simp)
    | streamMore stage => exact other (by simp)

theorem Ordered.run (i : Nat) : (t.run i).Ordered := by
  have early : ∀ {v : V} {stage : Sending}, t.calls[i]? = some (.send v stage) →
      stage ≠ .returned true → (⟨i, v⟩ : Parcel V) ∉ t.accepted := by
    intro v stage here unfinished held
    exact unfinished ((ok.sends i v stage here).2.mpr held)
  unfold Traffic.run
  split
  · rename_i v here
    rw [if_neg ok.room]
    exact ok.sending here (early here (by simp)) (sendSlow_sent ok.room)
  · rename_i v here
    rw [if_neg ok.room]
    exact ok.sending here (early here (by simp)) (sendSlow_sent ok.room)
  · rename_i v here
    exact absurd rfl ((ok.sends i v _ here).1 true)
  · rename_i here
    exact ok.receiving here (nextSlow_got ok.slot)
  · rename_i here
    exact ok.receiving here (nextSlow_got ok.slot)
  · rename_i here
    exact ok.refilling here (waitForData_refilled ok.slot)
  · rename_i here
    exact ok.refilling here (waitForData_refilled ok.slot)
  · exact ok

theorem Ordered.consumed {received : List (Parcel V)}
    (capacity : w.capacity = t.wire.capacity) (slot : w.rendezvous = none)
    (order : t.received ++ t.wire.buffered = received ++ w.buffered)
    (closed : w.closed = t.wire.closed) (emptied : t.wire.buffered = [] → w.buffered = []) :
    Ordered { t with wire := w, received } := by
  refine ⟨?_, slot, ok.order.trans order, ok.sends, ok.known, ok.once, ?_⟩
  · show w.capacity ≠ 0
    rw [capacity]
    exact ok.room
  · intro call held ends
    obtain ⟨wasClosed, wasEmpty⟩ := ok.ends call held ends
    exact ⟨closed.trans wasClosed, emptied wasEmpty⟩

theorem Ordered.move (m : Move V) : (t.move m).Ordered := by
  cases m with
  | send v =>
    have fresh := ok.called (.send v .begun) (by simp) rfl
    exact fresh.sending (getElem?_called t _) (ok.fresh_call v) (send_sent ok.room)
  | trySend v =>
    have fresh := ok.called (.send v .begun) (by simp) rfl
    exact fresh.sending (getElem?_called t _) (ok.fresh_call v) trySend_sent
  | next =>
    have fresh := ok.called (.next .begun) (by simp) rfl
    exact fresh.receiving (getElem?_called t _) (next_got ok.slot)
  | tryNext =>
    show Ordered { t with wire := t.wire.tryNext.2, received := t.received ++ t.wire.tryNext.1.toList }
    rcases tryNext_ring ok.slot with ⟨-, nothing⟩ | ⟨first, w', tried, got⟩
    · rw [nothing]
      exact ok.consumed rfl ok.slot (by simp) rfl id
    · rw [tried]
      cases got with
      | popped _ _ capacity buffered rendezvous closed space =>
        refine ok.consumed capacity rendezvous ?_ closed ?_
        · rw [buffered]
          simp
        · intro empty
          rw [empty] at buffered
          cases buffered
  | streamMore =>
    have fresh := ok.called (.streamMore .begun) (by simp) rfl
    exact fresh.refilling (getElem?_called t _) (streamMore_refilled ok.slot)
  | consume n =>
    unfold Traffic.move
    simp only
    split
    · refine ok.consumed rfl ok.slot ?_ rfl ?_
      · show t.received ++ t.wire.buffered =
          t.received ++ t.wire.buffered.take n ++ t.wire.buffered.drop n
        rw [append_assoc, take_append_drop]
      · intro empty
        show t.wire.buffered.drop n = []
        rw [empty, drop_nil]
    · exact ok
  | close =>
    show Ordered { t with wire := t.wire.close }
    unfold Wire.close
    split
    · exact ok
    · refine ⟨ok.room, ok.slot, ok.order, ok.sends, ok.known, ok.once, ?_⟩
      intro call held ends
      exact ⟨rfl, (ok.ends call held ends).2⟩
  | wake i =>
    refine ok.modify _ ?_ ?_ ?_ i
    · intro v stage
      cases stage with
      | waiting woken => cases woken <;> exact ⟨_, rfl, by simp, by simp⟩
      | offered woken => cases woken <;> exact ⟨_, rfl, by simp, by simp⟩
      | _ => exact ⟨_, rfl, fun same => same, Iff.rfl⟩
    · intro call other v stage
      unfold woken
      split <;> simp_all
    · intro call
      unfold woken
      split <;> rfl
  | run i => exact ok.run i
  | drop i =>
    refine ok.modify _ ?_ ?_ ?_ i
    · intro v stage
      cases stage with
      | begun => exact ⟨_, rfl, by simp, by simp⟩
      | _ => exact ⟨_, rfl, fun same => same, Iff.rfl⟩
    · intro call other v stage
      unfold dropped
      split <;> simp_all
    · intro call
      unfold dropped
      split <;> rfl

end

theorem run_ordered {allowed : Traffic V → Move V → Prop} (room : 0 < c) (run : t.Run allowed c) : t.Ordered := by
  induction run with
  | start =>
    refine ⟨room.ne', rfl, rfl, ?_, ?_, nodup_nil, ?_⟩
    · intro i v stage here
      cases here
    · intro p held
      cases held
    · intro call held
      cases held
  | step run m may ih => exact ih.move m

end Ordered

section Rung
variable {t' : Traffic V} {i : Nat}

theorem called_cases {call other : Call V} {j : Nat} (there : (t.called call).calls[j]? = some other) :
    t.calls[j]? = some other ∨ other = call := by
  have there : (t.calls ++ [call])[j]? = some other := there
  rw [getElem?_append] at there
  split at there
  · exact Or.inl there
  · rw [getElem?_singleton] at there
    split at there
    · exact Or.inr (Option.some.inj there).symm
    · cases there

theorem modify_cases {calls : List (Call V)} {f : Call V → Call V} {j : Nat} {new : Call V}
    (there : (calls.modify i f)[j]? = some new) : ∃ old, calls[j]? = some old ∧ (new = old ∨ new = f old) := by
  rw [getElem?_modify] at there
  obtain ⟨old, here, changed⟩ := Option.map_eq_some_iff.mp there
  refine ⟨old, here, ?_⟩
  split at changed
  · exact Or.inr changed.symm
  · exact Or.inl changed.symm

section
variable (ok : t.Rung)
include ok

theorem Rung.set {old new : Call V} (here : t.calls[i]? = some old)
    (calls : t'.calls = t.calls.set i new) (space : t.wire.SpaceKept → t'.wire.SpaceKept)
    (parked : ∀ v, new = .send v (.waiting false) → t'.wire.SpaceKept) (data : t'.wire.DataHeard) : t'.Rung := by
  refine ⟨fun j v there => ?_, data⟩
  rw [calls, getElem?_set_call here] at there
  split at there
  · exact parked v (Option.some.inj there)
  · exact space (ok.space j v there)

theorem Rung.called {call : Call V} (begun : ∀ v, call ≠ .send v (.waiting false)) :
    (t.called call).Rung := by
  refine ⟨fun j v there => ?_, ok.data⟩
  rcases called_cases there with before | last
  · exact ok.space j v before
  · exact absurd last.symm (begun v)

theorem Rung.modify {f : Call V → Call V}
    (send : ∀ call v, f call = .send v (.waiting false) → call = .send v (.waiting false)) (i : Nat) :
    Rung { t with calls := t.calls.modify i f } := by
  refine ⟨fun j v there => ?_, ok.data⟩
  obtain ⟨old, here, same | changed⟩ := modify_cases there
  · exact ok.space j v (same ▸ here)
  · exact ok.space j v (send old v changed.symm ▸ here)

theorem Rung.sending {v : V} {old : Sending} {r : Sending × Wire (Parcel V)}
    (here : t.calls[i]? = some (.send v old)) (sent : t.wire.Sent ⟨i, v⟩ r) : (t.sending i v r).Rung := by
  refine ok.set here rfl (fun kept => kept.sent sent) ?_ (ok.data.sent sent)
  intro u waits
  cases sent with
  | parked full opened => exact Or.inr ⟨full, opened⟩
  | pushed room => cases waits
  | refused => cases waits
  | begun => cases waits

theorem Rung.receiving {old : Receiving (Option (Parcel V))}
    {r : Receiving (Option (Parcel V)) × Wire (Parcel V)} (here : t.calls[i]? = some (.next old))
    (got : t.wire.Got r) : (t.receiving i r).Rung :=
  ok.set here rfl (fun kept => kept.got got) (fun _ other => by cases other) (ok.data.got got)

theorem Rung.refilling {old : Receiving Wire.Refill} {r : Receiving Wire.Refill × Wire (Parcel V)}
    (here : t.calls[i]? = some (.streamMore old)) (refilled : t.wire.Refilled r) : (t.refilling i r).Rung :=
  ok.set here rfl (fun kept => kept.refilled refilled) (fun _ other => by cases other) (ok.data.refilled refilled)

theorem Rung.run (ordered : t.Ordered) (i : Nat) : (t.run i).Rung := by
  unfold Traffic.run
  split
  · rename_i v here
    rw [if_neg ordered.room]
    exact ok.sending here (sendSlow_sent ordered.room)
  · rename_i v here
    rw [if_neg ordered.room]
    exact ok.sending here (sendSlow_sent ordered.room)
  · rename_i v here
    exact absurd rfl ((ordered.sends i v _ here).1 true)
  · rename_i here
    exact ok.receiving here (nextSlow_got ordered.slot)
  · rename_i here
    exact ok.receiving here (nextSlow_got ordered.slot)
  · rename_i here
    exact ok.refilling here (waitForData_refilled ordered.slot)
  · rename_i here
    exact ok.refilling here (waitForData_refilled ordered.slot)
  · exact ok

theorem Rung.move (ordered : t.Ordered) (m : Move V) : (t.move m).Rung := by
  cases m with
  | send v => exact (ok.called (by simp)).sending (getElem?_called t _) (send_sent ordered.room)
  | trySend v => exact (ok.called (by simp)).sending (getElem?_called t _) trySend_sent
  | next => exact (ok.called (by simp)).receiving (getElem?_called t _) (next_got ordered.slot)
  | tryNext =>
    show Rung { t with wire := t.wire.tryNext.2, received := t.received ++ t.wire.tryNext.1.toList }
    rcases tryNext_ring ordered.slot with ⟨-, nothing⟩ | ⟨first, w', tried, got⟩
    · rw [nothing]
      exact ⟨ok.space, ok.data⟩
    · rw [tried]
      exact ⟨fun j v there => (ok.space j v there).got got, ok.data.got got⟩
  | streamMore => exact (ok.called (by simp)).refilling (getElem?_called t _) (streamMore_refilled ordered.slot)
  | consume n =>
    unfold Traffic.move
    simp only
    split
    · exact ⟨fun _ _ _ => Or.inl rfl, ok.data.toss n⟩
    · exact ok
  | close => exact ⟨fun j v there => (ok.space j v there).close, ok.data.close⟩
  | wake i =>
    refine ok.modify (fun call v => ?_) i
    unfold woken
    split <;> simp +contextual
  | run i => exact ok.run ordered i
  | drop i =>
    refine ok.modify (fun call v => ?_) i
    unfold dropped
    split <;> simp

end

theorem run_rung {allowed : Traffic V → Move V → Prop} (room : 0 < c) (run : t.Run allowed c) : t.Rung := by
  induction run with
  | start => exact ⟨fun i v here => (by cases here), Or.inr rfl⟩
  | step run m may ih => exact ih.move (run_ordered room run) m

end Rung

section Attended
variable {t' : Traffic V} {i : Nat}

def Quiet (t : Traffic V) (i : Nat) : Prop :=
  ∀ (j : Nat) (call : Call V), t.calls[j]? = some call → call.parkedReceive = true → j = i

theorem quiet_of_none (none : ∀ call ∈ t.calls, call.parkedReceive = false) (i : Nat) : t.Quiet i := by
  intro j call there parked
  rw [none call (mem_of_getElem? there)] at parked
  cases parked

theorem Attended.receive (quiet : t.Quiet i) {old new : Call V}
    (here : t.calls[i]? = some old) (calls : t'.calls = t.calls.set i new)
    (parked : new = .next (.waiting false) ∨ new = .streamMore (.waiting false) → t'.wire.DataKept) : t'.Attended := by
  have only : ∀ (j : Nat) (call : Call V), t'.calls[j]? = some call → call.parkedReceive = true →
      j = i ∧ call = new := by
    intro j call there isParked
    rw [calls, getElem?_set_call here] at there
    split at there
    · rename_i same
      exact ⟨same.symm, (Option.some.inj there).symm⟩
    · rename_i apart
      exact absurd (quiet j call there isParked).symm apart
  refine ⟨?_, ?_⟩
  · intro j k a b there elsewhere aParked bParked
    rw [(only j a there aParked).1, (only k b elsewhere bParked).1]
  · intro j there
    rcases there with there | there
    · exact parked (Or.inl (only j _ there rfl).2.symm)
    · exact parked (Or.inr (only j _ there rfl).2.symm)

theorem Attended.send (ok : t.Attended) {v : V} {old new : Sending} (here : t.calls[i]? = some (.send v old))
    (calls : t'.calls = t.calls.set i (.send v new)) (data : t.wire.DataKept → t'.wire.DataKept) : t'.Attended := by
  have before : ∀ (j : Nat) (call : Call V), t'.calls[j]? = some call → (∀ u stage, call ≠ .send u stage) →
      t.calls[j]? = some call := by
    intro j call there other
    rw [calls, getElem?_set_call here] at there
    split at there
    · exact absurd (Option.some.inj there).symm (other v new)
    · exact there
  refine ⟨?_, ?_⟩
  · intro j k a b there elsewhere aParked bParked
    refine ok.alone j k a b (before j a there ?_) (before k b elsewhere ?_) aParked bParked
    · rintro u stage rfl
      cases aParked
    · rintro u stage rfl
      cases bParked
  · intro j there
    rcases there with there | there
    · exact data (ok.data j (Or.inl (before j _ there (by simp))))
    · exact data (ok.data j (Or.inr (before j _ there (by simp))))

theorem Attended.called (ok : t.Attended) (call : Call V) (fresh : call.parkedReceive = false) :
    (t.called call).Attended := by
  have before : ∀ (j : Nat) (old : Call V), (t.called call).calls[j]? = some old → old.parkedReceive = true →
      t.calls[j]? = some old := by
    intro j old there parked
    refine (called_cases there).resolve_right ?_
    rintro rfl
    rw [fresh] at parked
    cases parked
  refine ⟨?_, ?_⟩
  · intro j k a b there elsewhere aParked bParked
    exact ok.alone j k a b (before j a there aParked) (before k b elsewhere bParked) aParked bParked
  · intro j there
    rcases there with there | there
    · exact ok.data j (Or.inl (before j _ there rfl))
    · exact ok.data j (Or.inr (before j _ there rfl))

theorem Attended.modify (ok : t.Attended) (f : Call V → Call V)
    (parked : ∀ call, (f call).parkedReceive = call.parkedReceive)
    (receive : ∀ call, f call = .next (.waiting false) ∨ f call = .streamMore (.waiting false) →
      call = .next (.waiting false) ∨ call = .streamMore (.waiting false)) (i : Nat) :
    Attended { t with calls := t.calls.modify i f } := by
  have parkedBefore : ∀ (j : Nat) (new : Call V), (t.calls.modify i f)[j]? = some new →
      new.parkedReceive = true → ∃ old, t.calls[j]? = some old ∧ old.parkedReceive = true := by
    intro j new there isParked
    obtain ⟨old, here, rfl | rfl⟩ := modify_cases there
    · exact ⟨_, here, isParked⟩
    · exact ⟨old, here, (parked old).symm.trans isParked⟩
  refine ⟨?_, ?_⟩
  · intro j k a b there elsewhere aParked bParked
    obtain ⟨a', here, aWas⟩ := parkedBefore j a there aParked
    obtain ⟨b', other, bWas⟩ := parkedBefore k b elsewhere bParked
    exact ok.alone j k a' b' here other aWas bWas
  · intro j there
    have back : ∃ old, t.calls[j]? = some old ∧
        (old = .next (.waiting false) ∨ old = .streamMore (.waiting false)) := by
      rcases there with there | there
      · obtain ⟨old, here, same | changed⟩ := modify_cases there
        · exact ⟨old, here, Or.inl same.symm⟩
        · exact ⟨old, here, receive old (Or.inl changed.symm)⟩
      · obtain ⟨old, here, same | changed⟩ := modify_cases there
        · exact ⟨old, here, Or.inr same.symm⟩
        · exact ⟨old, here, receive old (Or.inr changed.symm)⟩
    obtain ⟨old, here, rfl | rfl⟩ := back
    · exact ok.data j (Or.inl here)
    · exact ok.data j (Or.inr here)

theorem Attended.sending (ok : t.Attended) {v : V} {old : Sending} {r : Sending × Wire (Parcel V)}
    (here : t.calls[i]? = some (.send v old)) (sent : t.wire.Sent ⟨i, v⟩ r) : (t.sending i v r).Attended :=
  ok.send here rfl fun kept => kept.sent sent

theorem Attended.receiving (quiet : t.Quiet i) {old : Receiving (Option (Parcel V))}
    {r : Receiving (Option (Parcel V)) × Wire (Parcel V)} (here : t.calls[i]? = some (.next old))
    (got : t.wire.Got r) : (t.receiving i r).Attended := by
  refine Attended.receive quiet here rfl ?_
  intro waits
  cases got with
  | parked opened empty => exact Or.inr opened
  | popped first w' capacity buffered rendezvous closed space => rcases waits with waits | waits <;> cases waits
  | ended closed empty => rcases waits with waits | waits <;> cases waits
  | begun opened => rcases waits with waits | waits <;> cases waits

theorem Attended.refilling (quiet : t.Quiet i) {old : Receiving Wire.Refill}
    {r : Receiving Wire.Refill × Wire (Parcel V)} (here : t.calls[i]? = some (.streamMore old))
    (refilled : t.wire.Refilled r) : (t.refilling i r).Attended := by
  refine Attended.receive quiet here rfl ?_
  intro waits
  cases refilled with
  | parked opened empty => exact Or.inr opened
  | more => rcases waits with waits | waits <;> cases waits
  | ended closed empty => rcases waits with waits | waits <;> cases waits
  | begun => rcases waits with waits | waits <;> cases waits

theorem Attended.run (ok : t.Attended) (ordered : t.Ordered) (i : Nat) (may : t.Single (.run i)) :
    (t.run i).Attended := by
  have parked : ∀ {call : Call V}, t.calls[i]? = some call → call.parkedReceive = true → t.Quiet i := by
    intro call here isParked j other there otherParked
    exact ok.alone j i other call there here otherParked isParked
  unfold Traffic.run
  split
  · rename_i v here
    rw [if_neg ordered.room]
    exact ok.sending here (sendSlow_sent ordered.room)
  · rename_i v here
    rw [if_neg ordered.room]
    exact ok.sending here (sendSlow_sent ordered.room)
  · rename_i v here
    exact absurd rfl ((ordered.sends i v _ here).1 true)
  · rename_i here
    exact Attended.receiving (quiet_of_none (may (Or.inl here)) i) here (nextSlow_got ordered.slot)
  · rename_i here
    exact Attended.receiving (parked here rfl) here (nextSlow_got ordered.slot)
  · rename_i here
    exact Attended.refilling (quiet_of_none (may (Or.inr here)) i) here (waitForData_refilled ordered.slot)
  · rename_i here
    exact Attended.refilling (parked here rfl) here (waitForData_refilled ordered.slot)
  · exact ok

theorem Attended.wire (ok : t.Attended) (none : ∀ call ∈ t.calls, call.parkedReceive = false)
    (calls : t'.calls = t.calls) : t'.Attended := by
  refine ⟨?_, ?_⟩
  · rw [calls]
    exact ok.alone
  · intro j there
    rw [calls] at there
    rcases there with there | there
    · cases none _ (mem_of_getElem? there)
    · cases none _ (mem_of_getElem? there)

theorem Quiet.called {call : Call V} (none : ∀ call ∈ t.calls, call.parkedReceive = false)
    (fresh : call.parkedReceive = false) (i : Nat) : (t.called call).Quiet i := by
  refine quiet_of_none ?_ i
  intro other held
  rcases mem_append.mp held with before | last
  · exact none other before
  · rw [mem_singleton.mp last]
    exact fresh

theorem Attended.move (ok : t.Attended) (ordered : t.Ordered) (m : Move V) (may : t.Single m) :
    (t.move m).Attended := by
  cases m with
  | send v =>
    exact (ok.called (.send v .begun) rfl).sending (getElem?_called t _) (send_sent ordered.room)
  | trySend v =>
    exact (ok.called (.send v .begun) rfl).sending (getElem?_called t _) trySend_sent
  | next =>
    exact Attended.receiving (Quiet.called may rfl _)
      (getElem?_called t _) (next_got ordered.slot)
  | tryNext => exact ok.wire may rfl
  | streamMore =>
    exact Attended.refilling (Quiet.called may rfl _)
      (getElem?_called t _) (streamMore_refilled ordered.slot)
  | consume n =>
    unfold Traffic.move
    simp only
    split
    · exact ok.wire may rfl
    · exact ok
  | close =>
    refine ⟨ok.alone, ?_⟩
    intro j there
    exact (ok.data j there).close
  | wake i =>
    refine ok.modify _ ?_ ?_ i
    · intro call
      unfold woken
      split <;> rfl
    · intro call
      unfold woken
      split <;> simp
  | run i => exact ok.run ordered i may
  | drop i =>
    refine ok.modify _ ?_ ?_ i
    · intro call
      unfold dropped
      split <;> rfl
    · intro call
      unfold dropped
      split <;> simp

theorem run_attended (room : 0 < c) (run : t.Run Single c) : t.Attended := by
  induction run with
  | start =>
    refine ⟨?_, ?_⟩
    · intro i j a b here
      cases here
    · intro i here
      rcases here with here | here <;> cases here
  | step run m may ih => exact ih.move (run_ordered room run) m may

end Attended

section Closed

variable {T : Type} {w : Wire T}

theorem sent_closed {value : T} {r : Sending × Wire T} (closed : w.closed = true)
    (sent : w.Sent value r) : r.1 ≠ .returned true ∧ r.2.closed = true := by
  cases sent with
  | pushed room => simp [Wire.canSendNow, closed] at room
  | refused => exact ⟨by simp, closed⟩
  | begun => exact ⟨by simp, closed⟩
  | parked full opened => simp [closed] at opened

theorem got_closed {r : Receiving (Option T) × Wire T} (got : w.Got r) : r.2.closed = w.closed := by
  cases got with
  | popped first w' capacity buffered rendezvous closed space => exact closed
  | _ => rfl

theorem refilled_closed {r : Receiving Wire.Refill × Wire T} (refilled : w.Refilled r) : r.2.closed = w.closed := by
  cases refilled <;> rfl

def Shut (t t' : Traffic V) : Prop := t'.wire.closed = true ∧ t'.accepted = t.accepted

theorem shut_sending {i : Nat} {v : V} {r : Sending × Wire (Parcel V)} (closed : t.wire.closed = true)
    (sent : t.wire.Sent ⟨i, v⟩ r) : t.Shut (t.sending i v r) := by
  obtain ⟨failed, still⟩ := sent_closed closed sent
  refine ⟨still, ?_⟩
  unfold Traffic.sending
  simp [failed]

theorem move_shut (ok : t.Ordered) (closed : t.wire.closed = true) (m : Move V) : t.Shut (t.move m) := by
  cases m with
  | send v => exact shut_sending closed (send_sent ok.room)
  | trySend v => exact shut_sending closed trySend_sent
  | next => exact ⟨(got_closed (next_got ok.slot)).trans closed, rfl⟩
  | tryNext =>
    refine ⟨?_, rfl⟩
    show t.wire.tryNext.2.closed = true
    rcases tryNext_ring ok.slot with ⟨-, nothing⟩ | ⟨first, w', tried, got⟩
    · rw [nothing]
      exact closed
    · rw [tried]
      exact (got_closed got).trans closed
  | streamMore => exact ⟨(refilled_closed (streamMore_refilled ok.slot)).trans closed, rfl⟩
  | consume n =>
    unfold Traffic.move
    simp only
    split <;> exact ⟨closed, rfl⟩
  | close =>
    refine ⟨?_, rfl⟩
    show t.wire.close.closed = true
    unfold Wire.close
    rw [if_pos closed]
    exact closed
  | wake i => exact ⟨closed, rfl⟩
  | run i =>
    show t.Shut (t.run i)
    unfold Traffic.run
    split
    · rw [if_neg ok.room]
      exact shut_sending closed (sendSlow_sent ok.room)
    · rw [if_neg ok.room]
      exact shut_sending closed (sendSlow_sent ok.room)
    · rename_i v here
      exact absurd rfl ((ok.sends i v _ here).1 true)
    · exact ⟨(got_closed (nextSlow_got ok.slot)).trans closed, rfl⟩
    · exact ⟨(got_closed (nextSlow_got ok.slot)).trans closed, rfl⟩
    · exact ⟨(refilled_closed (waitForData_refilled ok.slot)).trans closed, rfl⟩
    · exact ⟨(refilled_closed (waitForData_refilled ok.slot)).trans closed, rfl⟩
    · exact ⟨closed, rfl⟩
  | drop i => exact ⟨closed, rfl⟩

theorem moves_shut (ok : t.Ordered) (closed : t.wire.closed = true) (moves : List (Move V)) :
    t.Shut (moves.foldl move t) := by
  induction moves generalizing t with
  | nil => exact ⟨closed, rfl⟩
  | cons m rest ih =>
    obtain ⟨still, same⟩ := move_shut ok closed m
    obtain ⟨stays, all⟩ := ih (ok.move m) still
    exact ⟨stays, all.trans same⟩

theorem got_of_closed {r : Receiving (Option T) × Wire T} (got : w.Got r)
    (closed : w.closed = true) : r.1 = .returned w.buffered.head? := by
  cases got with
  | popped first w' capacity buffered rendezvous still space =>
    rw [buffered]
    rfl
  | ended _ empty =>
    rw [empty]
    rfl
  | begun opened =>
    rw [closed] at opened
    cases opened
  | parked opened empty =>
    rw [closed] at opened
    cases opened

end Closed

/-- In every run of a wire with a buffer the values received are a prefix of the values whose send
succeeded, in the order they succeeded, each of them once; after the close nothing more is accepted,
a receive returns at once the next value left, and the end only when none is left. A call parked
without a wake-up pending waits for what does not hold: a send for space in a full open wire, a
receive for a value in an empty one, which is open when no other receive runs while one is parked. -/
theorem wire_in_order (room : 0 < c) (run : t.Run Free c) :
    (t.received <+: t.accepted ∧ (t.accepted.map Parcel.call).Nodup ∧
      ∀ (i : Nat) (v : V) (sent : Bool), t.calls[i]? = some (.send v (.returned sent)) →
        (sent = true ↔ (⟨i, v⟩ : Parcel V) ∈ t.accepted)) ∧ (t.wire.closed = true →
      (∀ moves : List (Move V), (moves.foldl move t).accepted = t.accepted) ∧
      t.wire.next.1 = .returned t.accepted[t.received.length]? ∧
      t.wire.nextSlow.1 = .returned t.accepted[t.received.length]?) ∧
    (∀ call ∈ t.calls, call.ended = true → t.wire.closed = true ∧ t.received = t.accepted) ∧
    (∀ (i : Nat) (v : V), t.calls[i]? = some (.send v (.waiting false)) → t.wire.space = false →
      t.wire.full = true ∧ t.wire.closed = false) ∧ ∀ i : Nat, t.calls[i]? = some (.next (.waiting false)) ∨
      t.calls[i]? = some (.streamMore (.waiting false)) → t.wire.data = false →
      t.wire.empty = true ∧ (t.Run Single c → t.wire.closed = false) := by
  have ok := run_ordered room run
  have rung := run_rung room run
  have left : t.accepted[t.received.length]? = t.wire.buffered.head? := by
    rw [ok.order, getElem?_append_right (Nat.le_refl _), Nat.sub_self, head?_eq_getElem?]
  refine ⟨⟨?_, ?_, ?_⟩, ?_, ?_, ?_, ?_⟩
  · rw [ok.order]
    exact prefix_append _ _
  · exact calls_nodup ok.once ok.known
  · intro i v sent here
    have agrees := (ok.sends i v _ here).2
    simpa using agrees
  · intro closed
    rw [left]
    exact ⟨fun moves => (moves_shut ok closed moves).2, got_of_closed (next_got ok.slot) closed,
      got_of_closed (nextSlow_got ok.slot) closed⟩
  · intro call held ended
    obtain ⟨closed, empty⟩ := ok.ends call held ended
    refine ⟨closed, ?_⟩
    rw [ok.order, empty, append_nil]
  · intro i v here silent
    refine (rung.space i v here).resolve_left ?_
    rw [silent]
    decide
  · intro i here silent
    have quiet : t.wire.data ≠ true := by
      rw [silent]
      decide
    refine ⟨(empty_iff ok.slot).mpr (rung.data.resolve_left quiet), fun single => ?_⟩
    exact ((run_attended room single).data i here).resolve_left quiet

section Example

/-- A task waits for a value; one is sent, the wire is closed, and another task takes the value. -/
def twoReceivers : List (Move Nat) := [.next, .run 0, .send 5, .close, .tryNext]

theorem second_receiver_stranded : (twoReceivers.foldl move (fresh 1)).Run Free 1 ∧
    (twoReceivers.foldl move (fresh 1)).calls[0]? = some (.next (.waiting false)) ∧
    (twoReceivers.foldl move (fresh 1)).wire.data = false ∧ (twoReceivers.foldl move (fresh 1)).wire.closed = true :=
  ⟨run_free .start twoReceivers, by decide, by decide, by decide⟩

/-- A send waits for space, and, once both values are taken, a receive for a value. -/
def fullWire : List (Move Nat) := [.send 5, .send 6, .run 1]

def emptyWire : List (Move Nat) := [.next, .run 0]

theorem wire_in_order_full : (fullWire.foldl move (fresh 1)).wire.full = true ∧
    (emptyWire.foldl move (fresh 1)).wire.empty = true ∧ (emptyWire.foldl move (fresh 1)).wire.closed = false := by
  have single : (emptyWire.foldl move (fresh 1)).Run Single 1 := by
    refine .step (.step .start .next ?_) (.run 0) ?_
    · intro call held
      cases held
    · intro _
      decide
  have parked := (wire_in_order (c := 1) (by decide) (run_free .start emptyWire)).2.2.2.2 0 (by decide) (by decide)
  exact ⟨((wire_in_order (by decide) (run_free .start fullWire)).2.2.2.1 1 6 (by decide) (by decide)).1, parked.1,
    parked.2 single⟩

end Example

end Traffic

end Nxt.Runtime
