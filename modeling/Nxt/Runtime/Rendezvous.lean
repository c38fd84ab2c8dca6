import Nxt.Runtime.Wire

/- A wire of capacity zero. A send that has put its value in the slot answers by the closed flag it
   finds when it is resumed, so its answer is right in the runs where the flag and the slot agree:
   nothing is taken from a closed wire, and the wire is not closed between the taking of a value and
   the answer of its send. -/
namespace Nxt.Runtime
open List

section Slot
variable {T : Type} {w : Wire T}

structure Wire.Alike (w w' : Wire T) : Prop where
  capacity : w'.capacity = w.capacity
  buffered : w'.buffered = w.buffered
  rendezvous : w'.rendezvous = w.rendezvous
  closed : w'.closed = w.closed

structure Wire.Taken (w w' : Wire T) : Prop where
  capacity : w'.capacity = w.capacity
  buffered : w'.buffered = w.buffered
  rendezvous : w'.rendezvous = none
  closed : w'.closed = w.closed

theorem tryNext_slot (ring : w.buffered = []) : (w.rendezvous = none ∧ w.tryNext = (none, w)) ∨
      ∃ value w', w.rendezvous = some value ∧ w.tryNext = (some value, w') ∧ w.Taken w' := by
  unfold Wire.tryNext
  cases slot : w.rendezvous with
  | none => simp [ring]
  | some value => exact Or.inr ⟨value, _, rfl, rfl, rfl, rfl, rfl, rfl⟩

theorem next_slot (ring : w.buffered = []) : (w.Alike w.next.2 ∧ ∀ value, w.next.1 ≠ .returned (some value)) ∨
      ∃ value, w.rendezvous = some value ∧ w.next.1 = .returned (some value) ∧ w.Taken w.next.2 := by
  unfold Wire.next
  rcases tryNext_slot ring with ⟨-, tried⟩ | ⟨value, w', slot, tried, taken⟩
  · rw [tried]
    simp only
    left
    split <;> exact ⟨⟨rfl, rfl, rfl, rfl⟩, by simp⟩
  · rw [tried]
    exact Or.inr ⟨value, slot, rfl, taken⟩

theorem nextSlow_slot (ring : w.buffered = []) :
    (w.Alike w.nextSlow.2 ∧ ∀ value, w.nextSlow.1 ≠ .returned (some value)) ∨
      ∃ value, w.rendezvous = some value ∧ w.nextSlow.1 = .returned (some value) ∧ w.Taken w.nextSlow.2 := by
  unfold Wire.nextSlow
  rcases tryNext_slot ring with ⟨empty, tried⟩ | ⟨value, w', slot, tried, taken⟩
  · rw [tried]
    simp only
    left
    split
    · exact ⟨⟨rfl, rfl, rfl, rfl⟩, by simp⟩
    · have again : ({ w with data := false } : Wire T).tryNext = (none, { w with data := false }) := by
        unfold Wire.tryNext
        simp [empty, ring]
      rw [again]
      simp only
      split <;> exact ⟨⟨rfl, rfl, rfl, rfl⟩, by simp⟩
  · rw [tried]
    exact Or.inr ⟨value, slot, rfl, taken⟩

end Slot

/-- Where the value of a send is, by how far the send has come. -/
def Fair {V : Type} (slot : Option (Parcel V)) (closed : Bool) (received : List (Parcel V))
    (p : Parcel V) : Sending → Prop
  | .begun | .waiting _ | .dropped => p ∉ received ∧ slot ≠ some p
  | .offered _ => (slot = some p ∧ p ∉ received) ∨ (slot ≠ some p ∧ p ∈ received ∧ closed = false)
  | .returned true => p ∈ received ∧ slot ≠ some p
  | .returned false => p ∉ received ∧ (slot = some p → closed = true)

namespace Fair
variable {V : Type} {slot slot' : Option (Parcel V)} {closed : Bool} {received received' : List (Parcel V)}
  {p : Parcel V} {stage : Sending}

theorem congr (slots : slot' = some p ↔ slot = some p) (taken : p ∈ received' ↔ p ∈ received)
    (fair : Fair slot closed received p stage) : Fair slot' closed received' p stage := by
  cases stage with
  | begun => simpa only [Fair, ne_eq, slots, taken] using fair
  | waiting woken => simpa only [Fair, ne_eq, slots, taken] using fair
  | dropped => simpa only [Fair, ne_eq, slots, taken] using fair
  | offered woken => simpa only [Fair, ne_eq, slots, taken] using fair
  | returned sent => cases sent <;> simpa only [Fair, ne_eq, slots, taken] using fair

theorem in_slot (fair : Fair (some p) false received p stage) : p ∉ received ∧ ∃ woken, stage = .offered woken := by
  cases stage with
  | begun => exact absurd rfl fair.2
  | waiting woken => exact absurd rfl fair.2
  | dropped => exact absurd rfl fair.2
  | offered woken =>
    rcases fair with ⟨-, fresh⟩ | ⟨apart, -⟩
    · exact ⟨fresh, woken, rfl⟩
    · exact absurd rfl apart
  | returned sent =>
    cases sent with
    | true => exact absurd rfl fair.2
    | false => exact absurd (fair.2 rfl) (by decide)

end Fair

structure Exchange {V : Type} (slot : Option (Parcel V)) (closed : Bool) (received : List (Parcel V))
    (calls : List (Call V)) : Prop where
  sends : ∀ (i : Nat) (v : V) (stage : Sending), calls[i]? = some (.send v stage) →
    Fair slot closed received ⟨i, v⟩ stage
  known : ∀ p : Parcel V, p ∈ received ∨ slot = some p →
    ∃ stage, calls[p.call]? = some (.send p.value stage)
  once : received.Nodup

theorem calls_nodup {V : Type} {parcels : List (Parcel V)} {calls : List (Call V)} (once : parcels.Nodup)
    (known : ∀ p ∈ parcels, ∃ stage, calls[p.call]? = some (.send p.value stage)) :
    (parcels.map Parcel.call).Nodup := by
  refine once.map_on ?_
  rintro ⟨i, v⟩ pIn ⟨j, u⟩ qIn same
  obtain ⟨_, here⟩ := known _ pIn
  obtain ⟨_, there⟩ := known _ qIn
  cases same
  rw [there] at here
  cases here
  rfl

namespace Exchange
variable {V : Type} {slot : Option (Parcel V)} {closed : Bool} {received : List (Parcel V)}
  {calls : List (Call V)} {i : Nat} {v : V} {p : Parcel V}

theorem getElem?_set_call {c d : Call V} {j : Nat} (here : calls[i]? = some c) :
    (calls.set i d)[j]? = if i = j then some d else calls[j]? := by
  rw [getElem?_set]
  split
  · rename_i same
    rw [if_pos (same ▸ (List.getElem?_eq_some_iff.mp here).1)]
  · rfl

theorem set_send {stage stage' : Sending} (ok : Exchange slot closed received calls)
    (here : calls[i]? = some (.send v stage)) (fair : Fair slot closed received ⟨i, v⟩ stage') :
    Exchange slot closed received (calls.set i (.send v stage')) := by
  refine ⟨?_, ?_, ok.once⟩
  · intro j u other there
    rw [getElem?_set_call here] at there
    split at there
    · rename_i same
      cases there
      rw [← same]
      exact fair
    · exact ok.sends j u other there
  · intro p known
    obtain ⟨other, there⟩ := ok.known p known
    by_cases same : i = p.call
    · rw [← same, here] at there
      cases there
      exact ⟨stage', by rw [getElem?_set_call here, if_pos same]⟩
    · exact ⟨other, by rw [getElem?_set_call here, if_neg same]; exact there⟩

theorem set_other {c d : Call V} (ok : Exchange slot closed received calls)
    (here : calls[i]? = some c) (old : ∀ v stage, c ≠ .send v stage)
    (new : ∀ v stage, d ≠ .send v stage) : Exchange slot closed received (calls.set i d) := by
  refine ⟨?_, ?_, ok.once⟩
  · intro j u other there
    rw [getElem?_set_call here] at there
    split at there
    · cases there
      exact absurd rfl (new u other)
    · exact ok.sends j u other there
  · intro p known
    obtain ⟨other, there⟩ := ok.known p known
    have apart : i ≠ p.call := by
      rintro same
      rw [← same, here] at there
      cases there
      exact old p.value other rfl
    exact ⟨other, by rw [getElem?_set_call here, if_neg apart]; exact there⟩

theorem append (ok : Exchange slot closed received calls) {c : Call V}
    (new : ∀ v stage, c = .send v stage → stage = .begun) : Exchange slot closed received (calls ++ [c]) := by
  refine ⟨?_, ?_, ok.once⟩
  · intro j u stage there
    rw [getElem?_append] at there
    split at there
    · exact ok.sends j u stage there
    · rename_i beyond
      have same : c = .send u stage := by
        rw [getElem?_singleton] at there
        split at there
        · exact Option.some.inj there
        · cases there
      rw [new u stage same]
      have fresh : ∀ stage, calls[j]? ≠ some (.send u stage) := by
        rw [getElem?_eq_none (by omega)]
        simp
      constructor
      · intro held
        obtain ⟨other, there⟩ := ok.known ⟨j, u⟩ (Or.inl held)
        exact fresh other there
      · intro held
        obtain ⟨other, there⟩ := ok.known ⟨j, u⟩ (Or.inr held)
        exact fresh other there
  · intro p known
    obtain ⟨stage, there⟩ := ok.known p known
    have inside := (List.getElem?_eq_some_iff.mp there).1
    exact ⟨stage, by rw [getElem?_append_left inside]; exact there⟩

theorem take (ok : Exchange (some p) false received calls) : Exchange none false (received ++ [p]) calls := by
  obtain ⟨stage, owner⟩ := ok.known p (Or.inr rfl)
  obtain ⟨fresh, -⟩ := (ok.sends p.call p.value stage owner).in_slot
  refine ⟨?_, ?_, ?_⟩
  · intro i v other here
    have fair := ok.sends i v other here
    by_cases same : (⟨i, v⟩ : Parcel V) = p
    · rw [same] at fair ⊢
      obtain ⟨-, woken, rfl⟩ := fair.in_slot
      exact Or.inr ⟨by simp, by simp, rfl⟩
    · exact fair.congr (by simp [Ne.symm same]) (by simp [same])
  · intro q known
    rcases known with held | slot
    · rcases mem_append.mp held with old | last
      · exact ok.known q (Or.inl old)
      · rw [mem_singleton.mp last]
        exact ⟨stage, owner⟩
    · cases slot
  · rw [nodup_append]
    refine ⟨ok.once, nodup_singleton p, ?_⟩
    intro a old b last
    rw [mem_singleton.mp last]
    rintro rfl
    exact fresh old

theorem close (ok : Exchange slot closed received calls) (settled : closed = false → ∀ (i : Nat) (v : V) (woken : Bool),
      calls[i]? = some (.send v (.offered woken)) → slot = some ⟨i, v⟩) : Exchange slot true received calls := by
  refine ⟨?_, ok.known, ok.once⟩
  intro i v stage here
  have fair := ok.sends i v stage here
  cases stage with
  | begun => exact fair
  | waiting woken => exact fair
  | dropped => exact fair
  | offered woken =>
    rcases fair with inside | ⟨apart, -, opened⟩
    · exact Or.inl inside
    · exact absurd (settled opened i v woken here) apart
  | returned sent =>
    cases sent with
    | true => exact fair
    | false => exact ⟨fair.1, fun _ => rfl⟩

theorem emplace {stage : Sending} (ok : Exchange none false received calls)
    (here : calls[i]? = some (.send v stage)) (early : (⟨i, v⟩ : Parcel V) ∉ received) :
    Exchange (some ⟨i, v⟩) false received (calls.set i (.send v (.offered false))) := by
  refine ⟨?_, ?_, ok.once⟩
  · intro j u other there
    rw [getElem?_set_call here] at there
    split at there
    · rename_i same
      cases there
      rw [← same]
      exact Or.inl ⟨rfl, early⟩
    · rename_i apart
      exact (ok.sends j u other there).congr (by simp [apart]) Iff.rfl
  · intro p known
    by_cases same : i = p.call
    · refine ⟨.offered false, ?_⟩
      rw [getElem?_set_call here, if_pos same]
      rcases known with held | slot
      · obtain ⟨other, there⟩ := ok.known p (Or.inl held)
        rw [← same, here] at there
        cases there
        rfl
      · cases slot
        rfl
    · rcases known with held | slot
      · obtain ⟨other, there⟩ := ok.known p (Or.inl held)
        exact ⟨other, by rw [getElem?_set_call here, if_neg same]; exact there⟩
      · cases slot
        exact absurd rfl same

theorem modify (ok : Exchange slot closed received calls) (f : Call V → Call V)
    (sends : ∀ v stage, ∃ stage', f (.send v stage) = .send v stage' ∧
      ∀ p, Fair slot closed received p stage → Fair slot closed received p stage')
    (others : ∀ c, (∀ v stage, c ≠ .send v stage) → ∀ v stage, f c ≠ .send v stage) (i : Nat) :
    Exchange slot closed received (calls.modify i f) := by
  rw [modify_eq_set_getElem?]
  cases here : calls[i]? with
  | none => exact ok
  | some c =>
    show Exchange slot closed received (calls.set i (f c))
    cases c with
    | send v stage =>
      obtain ⟨stage', changed, fair⟩ := sends v stage
      rw [changed]
      exact ok.set_send here (fair _ (ok.sends i v stage here))
    | next stage => exact ok.set_other here (by simp) (others _ (by simp))
    | streamMore stage => exact ok.set_other here (by simp) (others _ (by simp))

end Exchange

namespace Traffic
variable {V : Type} {t : Traffic V}

/-- The moves after which every answer is right: the wire is closed only while each offered value is
still in the slot, and nothing is received out of the slot of a closed wire. -/
def Orderly (t : Traffic V) : Move V → Prop
  | .close => t.wire.closed = false → ∀ (i : Nat) (v : V) (woken : Bool),
      t.calls[i]? = some (.send v (.offered woken)) → t.wire.rendezvous = some ⟨i, v⟩
  | .next | .tryNext => t.wire.closed = true → t.wire.rendezvous = none
  | .run i => (∃ stage, t.calls[i]? = some (.next stage)) → t.wire.closed = true →
      t.wire.rendezvous = none
  | _ => True

structure Matched (t : Traffic V) : Prop where
  capacity : t.wire.capacity = 0
  ring : t.wire.buffered = []
  exchange : Exchange t.wire.rendezvous t.wire.closed t.received t.calls

theorem getElem?_called (t : Traffic V) (c : Call V) :
    (t.called c).calls[t.calls.length]? = some c := getElem?_concat_length

theorem Matched.sending (ok : t.Matched) {i : Nat} {v : V} {old : Sending} {stage : Sending}
    {w : Wire (Parcel V)} (here : t.calls[i]? = some (.send v old)) (alike : t.wire.Alike w)
    (fair : Fair t.wire.rendezvous t.wire.closed t.received ⟨i, v⟩ stage) : (t.sending i v (stage, w)).Matched := by
  refine ⟨alike.capacity.trans ok.capacity, alike.buffered.trans ok.ring, ?_⟩
  show Exchange w.rendezvous w.closed t.received (t.calls.set i (.send v stage))
  rw [alike.rendezvous, alike.closed]
  exact ok.exchange.set_send here fair

theorem Matched.called (ok : t.Matched) {c : Call V} (new : ∀ v stage, c = .send v stage → stage = .begun) :
    (t.called c).Matched := ⟨ok.capacity, ok.ring, ok.exchange.append new⟩

theorem Matched.receiving (ok : t.Matched) {i : Nat} {old : Receiving (Option (Parcel V))}
    {r : Receiving (Option (Parcel V)) × Wire (Parcel V)} (here : t.calls[i]? = some (.next old))
    (may : t.wire.closed = true → t.wire.rendezvous = none)
    (result : (t.wire.Alike r.2 ∧ ∀ value, r.1 ≠ .returned (some value)) ∨
      ∃ value, t.wire.rendezvous = some value ∧ r.1 = .returned (some value) ∧ t.wire.Taken r.2) :
    (t.receiving i r).Matched := by
  have calls := ok.exchange.set_other here (by simp) (d := .next r.1) (by simp)
  obtain ⟨stage, w⟩ := r
  rcases result with ⟨alike, nothing⟩ | ⟨p, slot, returned, taken⟩
  · refine ⟨alike.capacity.trans ok.capacity, alike.buffered.trans ok.ring, ?_⟩
    have same : (t.receiving i (stage, w)).received = t.received := by
      unfold Traffic.receiving
      cases stage with
      | returned result =>
        cases result with
        | none => simp
        | some value => exact absurd rfl (nothing value)
      | _ => simp
    rw [same]
    show Exchange w.rendezvous w.closed t.received (t.calls.set i (.next stage))
    rw [alike.rendezvous, alike.closed]
    exact calls
  · refine ⟨taken.capacity.trans ok.capacity, taken.buffered.trans ok.ring, ?_⟩
    simp only at returned taken
    subst returned
    show Exchange w.rendezvous w.closed (t.received ++ [p]) (t.calls.set i (.next (.returned (some p))))
    have opened : t.wire.closed = false := by
      cases closed : t.wire.closed with
      | false => rfl
      | true =>
        rw [may closed] at slot
        cases slot
    rw [taken.rendezvous, taken.closed, opened]
    rw [slot, opened] at calls
    exact calls.take

theorem Matched.refilling (ok : t.Matched) {i : Nat} {old : Receiving Wire.Refill}
    {r : Receiving Wire.Refill × Wire (Parcel V)} (here : t.calls[i]? = some (.streamMore old))
    (alike : t.wire.Alike r.2) : (t.refilling i r).Matched := by
  refine ⟨alike.capacity.trans ok.capacity, alike.buffered.trans ok.ring, ?_⟩
  show Exchange r.2.rendezvous r.2.closed t.received (t.calls.set i (.streamMore r.1))
  rw [alike.rendezvous, alike.closed]
  exact ok.exchange.set_other here (by simp) (by simp)

theorem Matched.offers (ok : t.Matched) {i : Nat} {v : V} {stage : Sending}
    (here : t.calls[i]? = some (.send v stage)) (early : (⟨i, v⟩ : Parcel V) ∉ t.received)
    (outside : t.wire.rendezvous ≠ some ⟨i, v⟩) : (t.sending i v (t.wire.sendRendezvousSlow ⟨i, v⟩)).Matched := by
  unfold Wire.sendRendezvousSlow
  split
  · exact ok.sending here ⟨rfl, rfl, rfl, rfl⟩ ⟨early, outside⟩
  · rename_i free
    split
    · exact ok.sending here ⟨rfl, rfl, rfl, rfl⟩ ⟨early, fun inside => absurd inside outside⟩
    · rename_i opened
      have opened : t.wire.closed = false := by simpa using opened
      have empty : t.wire.rendezvous = none := by simpa [opened] using free
      have exchange := ok.exchange
      rw [empty, opened] at exchange
      unfold Wire.awaitTaken
      rw [if_pos (by simp [opened])]
      refine ⟨ok.capacity, ok.ring, ?_⟩
      show Exchange (some ⟨i, v⟩) t.wire.closed t.received (t.calls.set i (.send v (.offered false)))
      rw [opened]
      exact exchange.emplace here early

theorem Matched.awaits (ok : t.Matched) {i : Nat} {v : V} {woken : Bool}
    (here : t.calls[i]? = some (.send v (.offered woken))) : (t.sending i v t.wire.awaitTaken).Matched := by
  have fair := ok.exchange.sends i v _ here
  unfold Wire.awaitTaken
  split
  · exact ok.sending here ⟨rfl, rfl, rfl, rfl⟩ fair
  · rename_i free
    refine ok.sending here ⟨rfl, rfl, rfl, rfl⟩ ?_
    cases closed : t.wire.closed with
    | true =>
      rw [closed] at fair
      rcases fair with ⟨inside, fresh⟩ | ⟨-, -, opened⟩
      · exact ⟨fresh, fun _ => rfl⟩
      · cases opened
    | false =>
      have empty : t.wire.rendezvous = none := by simpa [closed] using free
      rw [empty] at fair ⊢
      rcases fair with ⟨inside, -⟩ | ⟨outside, taken, -⟩
      · cases inside
      · exact ⟨taken, outside⟩

theorem woken_fair {slot : Option (Parcel V)} {closed : Bool} {received : List (Parcel V)}
    (w : Wire (Parcel V)) (v : V) (stage : Sending) : ∃ stage', woken w (.send v stage) = .send v stage' ∧
      ∀ p, Fair slot closed received p stage → Fair slot closed received p stage' := by
  cases stage with
  | begun => exact ⟨_, rfl, fun _ fair => fair⟩
  | waiting woken => cases woken <;> exact ⟨_, rfl, fun _ fair => fair⟩
  | offered woken => cases woken <;> exact ⟨_, rfl, fun _ fair => fair⟩
  | returned sent => exact ⟨_, rfl, fun _ fair => fair⟩
  | dropped => exact ⟨_, rfl, fun _ fair => fair⟩

theorem dropped_fair {slot : Option (Parcel V)} {closed : Bool} {received : List (Parcel V)}
    (v : V) (stage : Sending) : ∃ stage', dropped (.send v stage) = .send v stage' ∧
      ∀ p, Fair slot closed received p stage → Fair slot closed received p stage' := by
  cases stage <;> exact ⟨_, rfl, fun _ fair => fair⟩

theorem Matched.run (ok : t.Matched) (i : Nat) (may : t.Orderly (.run i)) : (t.run i).Matched := by
  unfold Traffic.run
  split
  · rename_i v here
    have fair := ok.exchange.sends i v _ here
    rw [if_pos ok.capacity]
    exact ok.offers here fair.1 fair.2
  · rename_i v here
    have fair := ok.exchange.sends i v _ here
    rw [if_pos ok.capacity]
    exact ok.offers here fair.1 fair.2
  · rename_i v here
    exact ok.awaits here
  · rename_i here
    exact ok.receiving here (may ⟨_, here⟩) (nextSlow_slot ok.ring)
  · rename_i here
    exact ok.receiving here (may ⟨_, here⟩) (nextSlow_slot ok.ring)
  · rename_i here
    refine ok.refilling here ?_
    unfold Wire.waitForData
    split <;> exact ⟨rfl, rfl, rfl, rfl⟩
  · rename_i here
    refine ok.refilling here ?_
    unfold Wire.waitForData
    split <;> exact ⟨rfl, rfl, rfl, rfl⟩
  · exact ok

theorem Matched.move (ok : t.Matched) (m : Move V) (may : t.Orderly m) : (t.move m).Matched := by
  cases m with
  | send v =>
    have fresh := ok.called (c := .send v .begun) (by simp)
    have here := getElem?_called t (.send v .begun)
    have fair := fresh.exchange.sends _ v _ here
    show (Traffic.sending _ _ v (t.wire.send ⟨t.calls.length, v⟩)).Matched
    unfold Wire.send
    split
    · exact fresh.sending here ⟨rfl, rfl, rfl, rfl⟩ ⟨fair.1, fun inside => absurd inside fair.2⟩
    · rw [if_pos ok.capacity]
      exact fresh.sending here ⟨rfl, rfl, rfl, rfl⟩ fair
  | trySend v =>
    have fresh := ok.called (c := .send v .begun) (by simp)
    have here := getElem?_called t (.send v .begun)
    have fair := fresh.exchange.sends _ v _ here
    have refused : t.wire.trySend ⟨t.calls.length, v⟩ = (false, t.wire) := by
      simp [Wire.trySend, Wire.canSendNow, ok.capacity]
    show (Traffic.sending _ _ v (.returned (t.wire.trySend _).1, (t.wire.trySend _).2)).Matched
    rw [refused]
    exact fresh.sending here ⟨rfl, rfl, rfl, rfl⟩ ⟨fair.1, fun inside => absurd inside fair.2⟩
  | next =>
    have fresh := ok.called (c := .next .begun) (by simp)
    exact fresh.receiving (getElem?_called t (.next .begun)) may (next_slot ok.ring)
  | tryNext =>
    have tried := tryNext_slot ok.ring
    have opened : ∀ p, t.wire.rendezvous = some p → t.wire.closed = false := by
      intro p slot
      cases closed : t.wire.closed with
      | false => rfl
      | true =>
        rw [may closed] at slot
        cases slot
    rcases tried with ⟨-, nothing⟩ | ⟨p, w', slot, taken, emptied⟩
    · show ({ t with wire := t.wire.tryNext.2, received := t.received ++ t.wire.tryNext.1.toList } :
        Traffic V).Matched
      rw [nothing]
      refine ⟨ok.capacity, ok.ring, ?_⟩
      simpa using ok.exchange
    · show ({ t with wire := t.wire.tryNext.2, received := t.received ++ t.wire.tryNext.1.toList } :
        Traffic V).Matched
      rw [taken]
      refine ⟨emptied.capacity.trans ok.capacity, emptied.buffered.trans ok.ring, ?_⟩
      have exchange := ok.exchange
      rw [slot, opened p slot] at exchange
      show Exchange w'.rendezvous w'.closed (t.received ++ [p]) t.calls
      rw [emptied.rendezvous, emptied.closed, opened p slot]
      exact exchange.take
  | streamMore =>
    have fresh := ok.called (c := .streamMore .begun) (by simp)
    refine fresh.refilling (getElem?_called t (.streamMore .begun)) ?_
    unfold Wire.streamMore
    split
    · exact ⟨rfl, rfl, rfl, rfl⟩
    · split <;> exact ⟨rfl, rfl, rfl, rfl⟩
  | consume n =>
    unfold Traffic.move
    simp only
    split
    · refine ⟨ok.capacity, ?_, ?_⟩
      · simp [Wire.toss, ok.ring]
      · simpa [Wire.toss, ok.ring] using ok.exchange
    · exact ok
  | close =>
    have exchange := ok.exchange.close may
    show ({ t with wire := t.wire.close } : Traffic V).Matched
    unfold Wire.close
    split
    · exact ok
    · exact ⟨ok.capacity, ok.ring, exchange⟩
  | wake i =>
    refine ⟨ok.capacity, ok.ring, ok.exchange.modify _ (woken_fair t.wire) ?_ i⟩
    intro c other v stage
    cases c with
    | send u old => exact absurd rfl (other u old)
    | next stage => unfold woken; split <;> simp_all
    | streamMore stage => unfold woken; split <;> simp_all
  | run i => exact ok.run i may
  | drop i =>
    refine ⟨ok.capacity, ok.ring, ok.exchange.modify _ dropped_fair ?_ i⟩
    intro c other v stage
    cases c with
    | send u old => exact absurd rfl (other u old)
    | next stage => unfold dropped; split <;> simp_all
    | streamMore stage => unfold dropped; split <;> simp_all

theorem run_matched (run : t.Run Orderly 0) : t.Matched := by
  induction run with
  | start =>
    refine ⟨rfl, rfl, ?_, ?_, nodup_nil⟩
    · intro i v stage here
      cases here
    · intro p known
      rcases known with held | slot
      · cases held
      · cases slot
  | step run m may ih => exact ih.move m may

/-- In every orderly run of a wire of capacity zero a send that has returned returned true exactly
when its own value was taken; no value is taken twice, and none is lost: an offered value is in the
slot until it is taken. -/
theorem rendezvous_exact (run : t.Run Orderly 0) :
    (∀ (i : Nat) (v : V) (sent : Bool), t.calls[i]? = some (.send v (.returned sent)) →
      (sent = true ↔ (⟨i, v⟩ : Parcel V) ∈ t.received)) ∧ (t.received.map Parcel.call).Nodup ∧
    (∀ p ∈ t.received, ∃ stage, t.calls[p.call]? = some (.send p.value stage)) ∧
    ∀ (i : Nat) (v : V) (woken : Bool), t.calls[i]? = some (.send v (.offered woken)) →
      t.wire.rendezvous = some ⟨i, v⟩ ∨ (⟨i, v⟩ : Parcel V) ∈ t.received := by
  have exchange := (run_matched run).exchange
  refine ⟨?_, ?_, fun p held => exchange.known p (Or.inl held), ?_⟩
  · intro i v sent here
    have fair := exchange.sends i v _ here
    cases sent with
    | true => exact iff_of_true rfl fair.1
    | false => exact iff_of_false (by decide) fair.1
  · exact calls_nodup exchange.once fun p held => exchange.known p (Or.inl held)
  · intro i v woken here
    rcases exchange.sends i v _ here with ⟨inside, -⟩ | ⟨-, taken, -⟩
    · exact Or.inl inside
    · exact Or.inr taken

section Example

/-- The value is taken, and the wire is closed before its send is resumed. -/
def lateClose : List (Move Nat) := [.send 7, .run 0, .next, .close, .wake 0, .run 0]

theorem taken_yet_false : (lateClose.foldl move (fresh 0)).Run Free 0 ∧
    (lateClose.foldl move (fresh 0)).calls[0]? = some (.send 7 (.returned false)) ∧
    (⟨0, 7⟩ : Parcel Nat) ∈ (lateClose.foldl move (fresh 0)).received :=
  ⟨run_free .start lateClose, by decide, by decide⟩

/-- A value taken before its send is resumed, on a wire that stays open. -/
theorem rendezvous_exact_seven : (⟨0, 7⟩ : Parcel Nat) ∈
      ((((fresh 0).move (.send 7)).move (.run 0)).move .tryNext |>.move (.wake 0) |>.move (.run 0)).received := by
  have run : (((((fresh 0).move (.send 7)).move (.run 0)).move .tryNext).move (.wake 0)
      |>.move (.run 0) : Traffic Nat).Run Orderly 0 :=
    .step (.step (.step (.step (.step .start _ trivial) _ (by rintro ⟨stage, here⟩; cases here)) _
      (by intro closed; cases closed)) _ trivial) _ (by rintro ⟨stage, here⟩; cases here)
  exact ((rendezvous_exact run).1 0 7 true (by decide)).mp rfl

end Example

end Traffic

end Nxt.Runtime
