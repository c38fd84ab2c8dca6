import Nxt.Buffers.Ring

/- Runs of a ring of buffer-core.hpp under the operations of its owners, and their moves of the live values to the
   front of the storage (value-buffers.hpp). A value is constructed first and counted later, so a ring is a queue of
   live values with some constructed values after it. -/
namespace Nxt.Buffers
open List
variable {α : Type}
namespace Ring

def hasContiguousConstructed (r : Ring α) : Bool := r.seek + r.size ≤ r.capacity

/-- `contiguize_buffered` of a sink: the values are taken out and put back one at a time. -/
def contiguizeBuffered (r : Ring α) : Ring α :=
  if r.empty then r.resetIfEmpty
  else r.constructed.flatten.foldl (fun r v => (r.constructAt r.writeIndex v).advanceConstructed 1) r.destroyAll

/-- `contiguize_buffered_for_derived` of a feed: values in one chunk stay where they are. -/
def contiguizeBufferedForDerived (r : Ring α) : Ring α :=
  if r.empty then r.resetIfEmpty
  else if r.hasContiguousConstructed then r
  else
    let values := r.constructed.flatten
    (r.destroyAll.constructRun 0 values).advanceConstructed values.length

structure Staged (r : Ring α) (live pending : List α) : Prop where
  size : r.size = live.length
  holds : (r.advanceConstructed pending.length).Holds (live ++ pending)

/-- The rings that an owner comes to, each operation within its bounds. -/
inductive Reaches (capacity : Nat) : Ring α → List α → List α → Prop
  | fresh : Reaches capacity (fresh capacity) [] []
  | construct {r live pending} (v : α) : Reaches capacity r live pending → pending.length < r.unusedCapacity.len →
      Reaches capacity (r.constructAt (r.unusedCapacity.off + pending.length) v) live (pending ++ [v])
  | advance {r live pending} (n : Nat) : Reaches capacity r live pending → n ≤ pending.length →
      Reaches capacity (r.advanceConstructed n) (live ++ pending.take n) (pending.drop n)
  | append {r live} (vs : List α) : Reaches capacity r live [] → vs.length ≤ r.unusedCapacity.len →
      Reaches capacity ((r.constructRun r.unusedCapacity.off vs).advanceConstructed vs.length) (live ++ vs) []
  | destroyFirst {r live pending} (n : Nat) : Reaches capacity r live pending → n ≤ r.size →
      Reaches capacity (r.destroyPrefix n) (live.drop n) pending
  | contiguize {r live} : Reaches capacity r live [] → Reaches capacity r.contiguizeBuffered live []
  | contiguizeForDerived {r live} : Reaches capacity r live [] →
      Reaches capacity r.contiguizeBufferedForDerived live []

variable {r : Ring α} {live pending : List α}

theorem Staged.alone (held : r.Staged live []) : r.Holds live := by
  have holds := held.holds
  rw [append_nil] at holds
  exact holds

theorem Holds.staged (holds : r.Holds live) : r.Staged live [] where
  size := holds.size
  holds := by
    rw [append_nil]
    exact holds

/-! ### Constructed slots -/

theorem Staged.fits (held : r.Staged live pending) : live.length + pending.length ≤ r.capacity := by
  have fits := held.holds.fits
  rw [length_append] at fits
  exact fits

theorem Staged.cursor (held : r.Staged live pending) (some_ : 0 < r.capacity) : r.seek < r.capacity :=
  held.holds.cursor some_

variable {i n : Nat} {xs : List α}

section
variable (held : r.Staged live pending)
include held

theorem Staged.slot (inside : i < r.capacity) :
    r.data[(r.seek + i) % r.capacity]? = some (live ++ pending)[i]? := held.holds.slot i inside

theorem unused_wrap (inside : i < r.unusedCapacity.len) :
    r.unusedCapacity.off + i = (r.seek + (r.size + i)) % r.capacity ∧ r.size + i < r.capacity := by
  have size := held.size
  have fits := held.fits
  have room : r.size ≠ r.capacity := by
    intro full
    rw [unusedCapacity, if_pos full] at inside
    exact absurd inside (Nat.not_lt_zero i)
  have cursor := held.cursor (by omega)
  have write : r.writeIndex = if r.seek + r.size < r.capacity then r.seek + r.size
      else r.seek + r.size - r.capacity := wrap_eq cursor (by omega)
  have least := unused_len_le r
  unfold unusedCapacitySize at least
  rw [unused_off room]
  have there : (r.seek + (r.size + i)) % r.capacity = if r.seek + (r.size + i) < r.capacity then r.seek + (r.size + i)
      else r.seek + (r.size + i) - r.capacity := wrap_eq cursor (by omega)
  refine ⟨?_, by omega⟩
  simp only [unusedCapacity, if_neg room] at inside
  rw [there]
  by_cases before : r.seek + r.size < r.capacity
  · rw [if_pos before] at write
    rw [write, if_neg (by omega)] at inside
    rw [write, if_pos (by omega)]
    omega
  · rw [if_neg before] at write
    rw [write, if_pos (by omega)] at inside
    rw [write, if_neg (by omega)]
    omega

theorem Staged.writeIndex (room : pending.length < r.unusedCapacity.len) :
    (r.advanceConstructed pending.length).writeIndex = r.unusedCapacity.off + pending.length := by
  rw [(unused_wrap held room).1]
  rfl

theorem construct_staged (v : α) (room : pending.length < r.unusedCapacity.len) :
    (r.constructAt (r.unusedCapacity.off + pending.length) v).Staged live (pending ++ [v]) where
  size := held.size
  holds := by
    have inside := (unused_wrap held room).2
    have more := emplace_holds held.holds inside v
    rw [held.writeIndex room, ← advance_construct, advance_advance] at more
    rw [length_append, length_singleton, ← append_assoc]
    exact more

theorem advance_staged (some_ : n ≤ pending.length) :
    (r.advanceConstructed n).Staged (live ++ pending.take n) (pending.drop n) where
  size := by
    rw [advance_size, held.size, length_append, length_take, Nat.min_eq_left some_]
  holds := by
    rw [advance_advance, length_drop, Nat.add_sub_cancel' some_, append_assoc, take_append_drop]
    exact held.holds

end

/-! ### Destroyed slots -/

theorem destroyPrefixLoop_advance (fuel : Nat) {k : Nat} (live : n ≤ r.size) :
    (destroyPrefixLoop fuel n r).advanceConstructed k = destroyPrefixLoop fuel n (r.advanceConstructed k) := by
  induction fuel generalizing n r with
  | zero => rfl
  | succ fuel ih =>
    rw [destroyPrefixLoop, destroyPrefixLoop]
    by_cases done : n = 0
    · rw [if_pos done, if_pos done]
    · rw [if_neg done, if_neg done]
      dsimp only [advance_capacity, advance_seek]
      rw [ih (by dsimp only; omega)]
      congr 1
      dsimp only [advanceConstructed]
      congr 1
      omega

theorem destroyPrefixLoop_size (fuel : Nat) (cursor : r.seek < r.capacity) (enough : n ≤ fuel) :
    (destroyPrefixLoop fuel n r).size = r.size - n := by
  induction fuel generalizing n r with
  | zero =>
    obtain rfl : n = 0 := by omega
    rfl
  | succ fuel ih =>
    rw [destroyPrefixLoop]
    by_cases done : n = 0
    · rw [if_pos done, done]
      rfl
    · have same : (Ring.mk (destroyAt r.seek (min n (r.capacity - r.seek)) r.data)
          ((r.seek + min n (r.capacity - r.seek)) % r.capacity)
          (r.size - min n (r.capacity - r.seek))).capacity = r.capacity := destroyAt_length _ _ _
      rw [if_neg done]
      dsimp only
      rw [ih (by rw [same]; exact Nat.mod_lt _ (by omega)) (by omega)]
      dsimp only
      omega

theorem destroyPrefix_staged (held : r.Staged live pending) (some_ : n ≤ r.size) :
    (r.destroyPrefix n).Staged (live.drop n) pending := by
  have size := held.size
  have fits := held.fits
  have gone := destroyPrefix_holds held.holds (n := n) (by rw [length_append]; omega)
  rw [destroyPrefix, ← destroyPrefixLoop_advance n some_, drop_append_of_le_length (by omega)] at gone
  refine ⟨?_, gone⟩
  by_cases none_ : n = 0
  · rw [none_]
    exact size
  · rw [destroyPrefix, destroyPrefixLoop_size n (held.cursor (by omega)) le_rfl, size, length_drop]

/-! ### Values moved to the front -/

theorem destroyAll_capacity (r : Ring α) : r.destroyAll.capacity = r.capacity :=
  destroyPrefixLoop_capacity r.size r.size r

theorem emplaceAll_holds (holds : r.Holds xs) (values : List α) (room : xs.length + values.length ≤ r.capacity) :
    let r' := values.foldl (fun r v => (r.constructAt r.writeIndex v).advanceConstructed 1) r
    r'.Holds (xs ++ values) ∧ r'.seek = r.seek ∧ r'.capacity = r.capacity := by
  induction values generalizing r xs with
  | nil =>
    rw [append_nil]
    exact ⟨holds, rfl, rfl⟩
  | cons v values ih =>
    have size := holds.size
    rw [length_cons] at room
    have first := emplace_holds holds (by omega) v
    have rest := ih first (by
      rw [length_append, length_singleton, advance_capacity, constructAt_capacity]
      omega)
    rw [append_assoc, singleton_append, advance_seek, constructAt_seek, advance_capacity,
      constructAt_capacity] at rest
    exact rest

theorem destroyAll_seek (r : Ring α) : r.destroyAll.seek = 0 := rfl

theorem contiguizeBuffered_holds (holds : r.Holds live) :
    r.contiguizeBuffered.Holds live ∧ r.contiguizeBuffered.seek = 0 ∧ r.contiguizeBuffered.capacity = r.capacity := by
  rw [contiguizeBuffered]
  by_cases none_ : r.empty = true
  · rw [if_pos none_]
    refine ⟨reset_holds holds, ?_, reset_capacity r⟩
    rw [resetIfEmpty, if_pos none_]
  · have fits := holds.fits
    have back := emplaceAll_holds (destroyAll_holds holds) live (by
      rw [length_nil, destroyAll_capacity]
      omega)
    rw [if_neg none_, constructed_flatten holds]
    rw [nil_append, destroyAll_seek, destroyAll_capacity] at back
    exact back

theorem contiguizeBufferedForDerived_holds (holds : r.Holds live) :
    r.contiguizeBufferedForDerived.Holds live ∧ r.contiguizeBufferedForDerived.hasContiguousConstructed = true ∧
      r.contiguizeBufferedForDerived.capacity = r.capacity := by
  have size := holds.size
  have fits := holds.fits
  rw [contiguizeBufferedForDerived]
  by_cases none_ : r.empty = true
  · have small : r.size = 0 := by
      rw [Ring.empty, decide_eq_true_iff] at none_
      exact none_
    rw [if_pos none_]
    refine ⟨reset_holds holds, ?_, reset_capacity r⟩
    rw [resetIfEmpty, if_pos none_, hasContiguousConstructed, small, decide_eq_true_iff]
    exact Nat.zero_le _
  · rw [if_neg none_]
    by_cases whole : r.hasContiguousConstructed = true
    · rw [if_pos whole]
      exact ⟨holds, whole, rfl⟩
    · have some_ : r.size ≠ 0 := by
        intro small
        rw [Ring.empty, small] at none_
        exact none_ rfl
      have gone := destroyAll_holds holds
      have capacity := destroyAll_capacity r
      have left : r.destroyAll.size = 0 := gone.size
      have room := unused_at_origin gone rfl
      have first : r.destroyAll.unusedCapacity.off = 0 := by
        rw [unused_off (by omega), writeIndex, destroyAll_seek, left, Nat.zero_add, Nat.zero_mod]
      rw [unusedCapacitySize, left, capacity] at room
      have back := (append_holds gone live (by omega)).1
      rw [first, nil_append] at back
      rw [if_neg whole]
      dsimp only
      rw [constructed_flatten holds]
      have same : ((r.destroyAll.constructRun 0 live).advanceConstructed live.length).capacity = r.capacity := by
        rw [advance_capacity, (constructRun_capacity _ _ _).1, capacity]
      refine ⟨back, ?_, same⟩
      rw [hasContiguousConstructed, same, back.size, advance_seek, (constructRun_capacity _ _ _).2, destroyAll_seek, Nat.zero_add,
        decide_eq_true_iff]
      exact fits

theorem spans_contiguous (whole : r.hasContiguousConstructed = true) :
    r.spans = if r.size = 0 then [] else [⟨r.seek, r.size⟩] := by
  rw [hasContiguousConstructed, decide_eq_true_iff] at whole
  rw [spans]
  by_cases none_ : r.size = 0
  · rw [if_pos none_, if_pos none_]
  · have first : min r.size (r.capacity - r.seek) = r.size := by omega
    rw [if_neg none_, if_neg none_, first]
    exact if_pos rfl

/-! ### Runs -/

theorem Reaches.staged {capacity : Nat} (run : Reaches capacity r live pending) :
    r.Staged live pending ∧ r.capacity = capacity := by
  induction run with
  | fresh => exact ⟨(fresh_holds capacity).staged, length_replicate⟩
  | construct v run room ih =>
    refine ⟨construct_staged ih.1 v room, ?_⟩
    rw [constructAt_capacity]
    exact ih.2
  | advance n run some_ ih => exact ⟨advance_staged ih.1 some_, ih.2⟩
  | append vs run room ih =>
    refine ⟨(append_holds ih.1.alone vs room).1.staged, ?_⟩
    rw [advance_capacity, (constructRun_capacity _ _ _).1]
    exact ih.2
  | destroyFirst n run some_ ih =>
    refine ⟨destroyPrefix_staged ih.1 some_, ?_⟩
    rw [destroyPrefix, destroyPrefixLoop_capacity]
    exact ih.2
  | contiguize run ih =>
    obtain ⟨holds, -, same⟩ := contiguizeBuffered_holds ih.1.alone
    exact ⟨holds.staged, same.trans ih.2⟩
  | contiguizeForDerived run ih =>
    obtain ⟨holds, -, same⟩ := contiguizeBufferedForDerived_holds ih.1.alone
    exact ⟨holds.staged, same.trans ih.2⟩

section
variable (held : r.Staged live pending)
include held

theorem Staged.constructed_flatten : r.constructed.flatten = live := by
  have fits := held.fits
  refine constructed_shows held.size (by omega) held.cursor fun i some_ => ?_
  rw [held.slot (by omega), getElem?_append_left some_]

theorem spans_wrap {s : Span} (chunk : s ∈ r.spans) {j : Nat} (first : s.off ≤ j)
    (last : j < s.off + s.len) : ∃ i < r.size, j = (r.seek + i) % r.capacity := by
  have size := held.size
  have fits := held.fits
  rw [spans] at chunk
  by_cases none_ : r.size = 0
  · rw [if_pos none_] at chunk
    cases chunk
  · have cursor := held.cursor (by omega)
    rw [if_neg none_] at chunk
    dsimp only at chunk
    have place (i : Nat) (less : i < r.size) : (r.seek + i) % r.capacity =
        if r.seek + i < r.capacity then r.seek + i else r.seek + i - r.capacity := wrap_eq cursor (by omega)
    by_cases whole : min r.size (r.capacity - r.seek) = r.size
    · rw [if_pos whole, mem_singleton] at chunk
      subst chunk
      dsimp only at first last
      refine ⟨j - r.seek, by omega, ?_⟩
      rw [place _ (by omega), if_pos (by omega)]
      omega
    · rw [if_neg whole, mem_cons, mem_singleton] at chunk
      rcases chunk with rfl | rfl
      · dsimp only at first last
        refine ⟨j - r.seek, by omega, ?_⟩
        rw [place _ (by omega), if_pos (by omega)]
        omega
      · dsimp only at first last
        refine ⟨j + (r.capacity - r.seek), by omega, ?_⟩
        rw [place _ (by omega), if_neg (by omega)]
        omega

theorem unused_apart (inside : i < r.unusedCapacity.len) : r.unusedCapacity.off + i < r.capacity ∧
      ∀ s ∈ r.spans, ¬(s.off ≤ r.unusedCapacity.off + i ∧ r.unusedCapacity.off + i < s.off + s.len) := by
  obtain ⟨place, small⟩ := unused_wrap held inside
  have cursor := held.cursor (by omega)
  rw [place]
  refine ⟨Nat.mod_lt _ (by omega), ?_⟩
  rintro s chunk ⟨first, last⟩
  obtain ⟨j, live_, same⟩ := spans_wrap held chunk first last
  rw [wrap_eq cursor small, wrap_eq cursor (by omega)] at same
  split at same <;> split at same <;> omega

theorem Staged.room : 0 < r.unusedCapacity.len ↔ r.size < r.capacity := by
  have size := held.size
  have fits := held.fits
  constructor
  · intro some_
    have inside := (unused_wrap held some_).2
    omega
  · intro room
    have cursor := held.cursor (by omega)
    have write : r.writeIndex < r.capacity := Nat.mod_lt _ (by omega)
    rw [unusedCapacity, if_neg (by omega)]
    dsimp only
    split <;> omega

theorem Staged.unused_slot (inside : i < r.unusedCapacity.len) :
    r.data[r.unusedCapacity.off + i]? = some pending[i]? := by
  obtain ⟨place, small⟩ := unused_wrap held inside
  have size := held.size
  rw [place, held.slot small, size, getElem?_append_right (by omega), Nat.add_sub_cancel_left]

end

theorem Reaches.seek_zero {capacity : Nat} (run : Reaches capacity r live pending) (none_ : capacity = 0) :
    r.seek = 0 := by
  induction run with
  | fresh => rfl
  | construct v run room ih => exact ih
  | advance n run some_ ih => exact ih
  | append vs run room ih =>
    rw [advance_seek, (constructRun_capacity _ _ _).2]
    exact ih
  | destroyFirst n run some_ ih =>
    obtain ⟨held, same⟩ := run.staged
    have fits := held.fits
    have size := held.size
    obtain rfl : n = 0 := by omega
    exact ih
  | contiguize run ih => exact (contiguizeBuffered_holds run.staged.1.alone).2.1
  | @contiguizeForDerived r live run ih =>
    obtain ⟨held, same⟩ := run.staged
    have fits := held.fits
    have size := held.size
    have empty : r.empty = true := by
      rw [Ring.empty, decide_eq_true_iff]
      omega
    rw [contiguizeBufferedForDerived, if_pos empty, resetIfEmpty, if_pos empty]

theorem contiguous_chunk (holds : r.Holds xs) (whole : r.hasContiguousConstructed = true) :
    r.constructed.flatten = xs ∧ r.spans.length = if xs = [] then 0 else 1 := by
  have size := holds.size
  refine ⟨constructed_flatten holds, ?_⟩
  rw [spans_contiguous whole, size]
  cases xs with
  | nil => rfl
  | cons x xs => rfl

/-- What every run comes to: the chunks hold the live values in their order, the unused run is apart from them, and
    moving the values to the front keeps them, in one chunk if there are any. -/
theorem reaches_queue {capacity : Nat} (run : Reaches capacity r live pending) :
    (0 < capacity → r.seek < capacity) ∧ (capacity = 0 → r.seek = 0) ∧ r.capacity = capacity ∧
      r.size = live.length ∧ r.size ≤ capacity ∧ r.spans.length ≤ 2 ∧ r.constructed.flatten = live ∧
      (0 < r.unusedCapacity.len ↔ r.size < capacity) ∧
      (∀ i < r.unusedCapacity.len, r.unusedCapacity.off + i < capacity ∧
        (∀ s ∈ r.spans, ¬(s.off ≤ r.unusedCapacity.off + i ∧ r.unusedCapacity.off + i < s.off + s.len)) ∧
        r.data[r.unusedCapacity.off + i]? = some pending[i]?) ∧ (pending = [] →
        (r.contiguizeBuffered.constructed.flatten = live ∧
          r.contiguizeBuffered.spans.length = if live = [] then 0 else 1) ∧
        r.contiguizeBufferedForDerived.constructed.flatten = live ∧
          r.contiguizeBufferedForDerived.spans.length = if live = [] then 0 else 1) := by
  obtain ⟨held, rfl⟩ := run.staged
  have fits := held.fits
  have size := held.size
  refine ⟨held.cursor, ?_, rfl, size, by omega, spans_length_le r, held.constructed_flatten, held.room, ?_, ?_⟩
  · exact run.seek_zero
  · intro i inside
    obtain ⟨small, apart⟩ := unused_apart held inside
    exact ⟨small, apart, held.unused_slot inside⟩
  · rintro rfl
    obtain ⟨holds, origin, same⟩ := contiguizeBuffered_holds held.alone
    obtain ⟨holds', whole', -⟩ := contiguizeBufferedForDerived_holds held.alone
    refine ⟨contiguous_chunk holds ?_, contiguous_chunk holds' whole'⟩
    have most := holds.fits
    rw [hasContiguousConstructed, origin, holds.size, Nat.zero_add, decide_eq_true_iff]
    exact most

/-- Five slots, with values that come round and are moved to the front. -/
theorem reaches_queue_five : ∃ r : Ring Nat, Reaches 5 r [3, 4, 5, 6] [] ∧ r.constructed.flatten = [3, 4, 5, 6] := by
  have filled := Reaches.append [1, 2, 3, 4, 5] (@Reaches.fresh Nat 5) (by decide)
  have drained := Reaches.destroyFirst 2 filled (by decide)
  have wrapped := Reaches.append [6] drained (by decide)
  exact ⟨_, wrapped, (reaches_queue wrapped).2.2.2.2.2.2.1⟩

/-- A ring without storage has no slot for its cursor, and an empty ring has no chunk when it is contiguous. -/
theorem no_slot_no_chunk : ¬(∀ (capacity : Nat) (r : Ring Nat) (live pending : List Nat),
        Reaches capacity r live pending → r.seek < capacity) ∧ ¬∀ (capacity : Nat) (r : Ring Nat) (live : List Nat),
        Reaches capacity r live [] → r.contiguizeBuffered.spans.length = 1 := by
  constructor
  · intro slot
    exact absurd (slot 0 (fresh 0) [] [] .fresh) (by decide)
  · intro chunk
    exact absurd (chunk 1 (fresh 1) [] .fresh) (by decide)

end Ring
end Nxt.Buffers
