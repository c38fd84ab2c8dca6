import Mathlib

/- The borrowed ring storage of buffer-core.hpp. A slot is `none` while it holds no
   constructed object, so lifetimes are visible: reading a raw slot yields nothing.
   Sizes are unbounded Nat; a capacity never comes near the width of std::size_t. -/
namespace Nxt.Buffers
open List
variable {α : Type}

structure Span where
  off : Nat
  len : Nat
  deriving DecidableEq

structure Ring (α : Type) where
  data : List (Option α)
  seek : Nat
  size : Nat
  deriving DecidableEq

namespace Ring

def fresh (capacity : Nat) : Ring α := ⟨replicate capacity none, 0, 0⟩

def capacity (r : Ring α) : Nat := r.data.length

def empty (r : Ring α) : Bool := r.size = 0

def unusedCapacitySize (r : Ring α) : Nat := r.capacity - r.size

def read (r : Ring α) (s : Span) : List α :=
  ((r.data.drop s.off).take s.len).reduceOption

/-- `ring_chunks`: the live values as at most two spans, the tail of the storage first. -/
def spans (r : Ring α) : List Span :=
  if r.size = 0 then []
  else
    let first := min r.size (r.capacity - r.seek)
    if first = r.size then [⟨r.seek, first⟩]
    else [⟨r.seek, first⟩, ⟨0, r.size - first⟩]

def constructed (r : Ring α) : List (List α) := r.spans.map r.read

def writeIndex (r : Ring α) : Nat := (r.seek + r.size) % r.capacity

/-- `ring_unused_capacity`: the run of raw slots after the live values, not wrapping. -/
def unusedCapacity (r : Ring α) : Span :=
  if r.size = r.capacity then ⟨0, 0⟩
  else
    let write := r.writeIndex
    let n := if write < r.seek then r.seek - write else r.capacity - write
    ⟨write, min n (r.capacity - r.size)⟩

/-- `std::construct_at` on the slot at an offset of the storage. -/
def constructAt (r : Ring α) (i : Nat) (value : α) : Ring α :=
  { r with data := r.data.set i (some value) }

/-- Construct a run of values in consecutive slots, as a copy into `unused_capacity()`. -/
def constructRun (r : Ring α) (off : Nat) : List α → Ring α
  | [] => r
  | v :: vs => (r.constructAt off v).constructRun (off + 1) vs

def advanceConstructed (r : Ring α) (n : Nat) : Ring α := { r with size := r.size + n }

def resetIfEmpty (r : Ring α) : Ring α := if r.empty then { r with seek := 0 } else r

/-- End the lifetime of `n` slots from an offset on. -/
def destroyAt : Nat → Nat → List (Option α) → List (Option α)
  | _, 0, data => data
  | off, n + 1, data => destroyAt (off + 1) n (data.set off none)

def destroyPrefixLoop : Nat → Nat → Ring α → Ring α
  | 0, _, r => r
  | fuel + 1, n, r =>
      if n = 0 then r
      else
        let take := min n (r.capacity - r.seek)
        destroyPrefixLoop fuel (n - take)
          ⟨destroyAt r.seek take r.data, (r.seek + take) % r.capacity, r.size - take⟩

/-- Every round of the loop destroys at least one value, so `n` rounds are enough. -/
def destroyPrefix (r : Ring α) (n : Nat) : Ring α := destroyPrefixLoop n n r

def destroyAll (r : Ring α) : Ring α := { r.destroyPrefix r.size with seek := 0 }

/-- The ring holds exactly the queue `xs`: reading from the cursor around the storage
    meets the values in order and then raw slots only. -/
structure Holds (r : Ring α) (xs : List α) : Prop where
  size : r.size = xs.length
  fits : xs.length ≤ r.capacity
  cursor : 0 < r.capacity → r.seek < r.capacity
  slot : ∀ i, i < r.capacity → r.data[(r.seek + i) % r.capacity]? = some xs[i]?

theorem wrap_eq {s i c : Nat} (hs : s < c) (hi : i < c) : (s + i) % c = if s + i < c then s + i else s + i - c := by
  split
  · rename_i h
    exact Nat.mod_eq_of_lt h
  · rename_i h
    rw [Nat.mod_eq_sub_mod (by omega), Nat.mod_eq_of_lt (by omega)]

theorem slot_position {s j c : Nat} (hs : s < c) (hj : j < c) : ∃ i, i < c ∧ (s + i) % c = j := by
  by_cases h : s ≤ j
  · exact ⟨j - s, by omega, by rw [wrap_eq hs (by omega)]; split <;> omega⟩
  · exact ⟨j + c - s, by omega, by rw [wrap_eq hs (by omega)]; split <;> omega⟩

theorem fresh_holds (capacity : Nat) : (fresh capacity : Ring α).Holds [] where
  size := rfl
  fits := by simp
  cursor := fun h => by simpa [fresh] using h
  slot := by
    intro i hi
    simp only [fresh, Ring.capacity, length_replicate] at hi ⊢
    simp [Nat.mod_lt i (by omega : capacity > 0)]

theorem read_eq (r : Ring α) (off : Nat) (ys : List α)
    (h : ∀ i, i < ys.length → r.data[off + i]? = some ys[i]?) : r.read ⟨off, ys.length⟩ = ys := by
  have same : (r.data.drop off).take ys.length = ys.map some := by
    apply ext_getElem?
    intro i
    by_cases hi : i < ys.length
    · rw [getElem?_take_of_lt hi, getElem?_drop, h i hi]
      simp [hi]
    · simp [hi]
  simp [read, same, List.reduceOption]

theorem spans_length_le (r : Ring α) : r.spans.length ≤ 2 := by
  simp only [spans]
  split
  · simp
  · split <;> simp

variable {r : Ring α} {xs : List α} {n : Nat}

theorem constructed_chunks (size : r.size = xs.length) (fits : xs.length ≤ r.capacity)
    (cursor : 0 < r.capacity → r.seek < r.capacity)
    (slot : ∀ i < xs.length, r.data[(r.seek + i) % r.capacity]? = some xs[i]?) :
    r.constructed = if xs.length = 0 then [] else if xs.length ≤ r.capacity - r.seek then [xs]
      else [xs.take (r.capacity - r.seek), xs.drop (r.capacity - r.seek)] := by
  simp only [constructed, spans, size]
  split
  · rfl
  · rename_i nonempty
    have cursor := cursor (by omega)
    split
    · rename_i whole
      rw [if_pos (by omega)]
      have run : r.read ⟨r.seek, xs.length⟩ = xs := by
        apply read_eq
        intro i hi
        have slot := slot i hi
        rwa [wrap_eq cursor (by omega), if_pos (by omega)] at slot
      simp [whole, run]
    · rename_i split
      -- The live values wrap: the tail of the storage, then its head.
      rw [if_neg (by omega)]
      have cut : min xs.length (r.capacity - r.seek) = r.capacity - r.seek := by omega
      have front : r.read ⟨r.seek, r.capacity - r.seek⟩ = xs.take (r.capacity - r.seek) := by
        have len : (xs.take (r.capacity - r.seek)).length = r.capacity - r.seek := by simp; omega
        have run := read_eq r r.seek (xs.take (r.capacity - r.seek)) (by
          intro i hi
          have slot := slot i (by omega)
          rw [wrap_eq cursor (by omega), if_pos (by omega)] at slot
          rw [slot, getElem?_take_of_lt (by omega)])
        rwa [len] at run
      have back : r.read ⟨0, xs.length - (r.capacity - r.seek)⟩ = xs.drop (r.capacity - r.seek) := by
        have len : (xs.drop (r.capacity - r.seek)).length = xs.length - (r.capacity - r.seek) := by
          simp
        have run := read_eq r 0 (xs.drop (r.capacity - r.seek)) (by
          intro i hi
          have slot := slot (r.capacity - r.seek + i) (by omega)
          rw [wrap_eq cursor (by omega), if_neg (by omega)] at slot
          rw [getElem?_drop, ← slot]
          congr 1
          omega)
        rwa [len] at run
      simp [cut, front, back]

theorem constructed_shows (size : r.size = xs.length) (fits : xs.length ≤ r.capacity)
    (cursor : 0 < r.capacity → r.seek < r.capacity)
    (slot : ∀ i < xs.length, r.data[(r.seek + i) % r.capacity]? = some xs[i]?) : r.constructed.flatten = xs := by
  rw [constructed_chunks size fits cursor slot]
  split
  · rename_i empty
    simp [length_eq_zero_iff.mp empty]
  · split <;> simp

theorem constructed_flatten (h : r.Holds xs) : r.constructed.flatten = xs := by
  have fits := h.fits
  exact constructed_shows h.size fits h.cursor fun i live => h.slot i (by omega)

theorem reset_holds (h : r.Holds xs) : r.resetIfEmpty.Holds xs := by
  unfold resetIfEmpty
  split
  · rename_i empty
    have none_left : xs = [] := by
      have := h.size
      simp only [Ring.empty, decide_eq_true_eq] at empty
      exact length_eq_zero_iff.mp (by omega)
    subst none_left
    refine ⟨h.size, h.fits, fun pos => pos, ?_⟩
    intro i hi
    have pos : 0 < r.capacity := Nat.zero_lt_of_lt hi
    obtain ⟨k, hk, at_slot⟩ := slot_position (h.cursor pos) (Nat.mod_lt i pos)
    have slot := h.slot k hk
    rw [at_slot] at slot
    simpa [Ring.capacity] using slot
  · exact h

@[simp] theorem constructAt_seek (r : Ring α) (i : Nat) (v : α) :
    (r.constructAt i v).seek = r.seek := rfl

@[simp] theorem constructAt_size (r : Ring α) (i : Nat) (v : α) :
    (r.constructAt i v).size = r.size := rfl

@[simp] theorem constructAt_capacity (r : Ring α) (i : Nat) (v : α) :
    (r.constructAt i v).capacity = r.capacity := by simp [constructAt, Ring.capacity]

@[simp] theorem advance_seek (r : Ring α) (n : Nat) : (r.advanceConstructed n).seek = r.seek := rfl

@[simp] theorem advance_capacity (r : Ring α) (n : Nat) :
    (r.advanceConstructed n).capacity = r.capacity := rfl

@[simp] theorem advance_size (r : Ring α) (n : Nat) :
    (r.advanceConstructed n).size = r.size + n := rfl

theorem advance_advance (r : Ring α) (m n : Nat) :
    (r.advanceConstructed m).advanceConstructed n = r.advanceConstructed (m + n) := by
  simp [advanceConstructed, Nat.add_assoc]

theorem advance_construct (r : Ring α) (i n : Nat) (v : α) :
    (r.constructAt i v).advanceConstructed n = (r.advanceConstructed n).constructAt i v := rfl

theorem emplace_holds (h : r.Holds xs) (room : r.size < r.capacity)
    (v : α) : ((r.constructAt r.writeIndex v).advanceConstructed 1).Holds (xs ++ [v]) := by
  have size := h.size
  have cursor := h.cursor (by omega)
  refine ⟨by simp [size], by simp; omega, by simpa using h.cursor, ?_⟩
  intro i hi
  simp only [advance_capacity, constructAt_capacity, advance_seek, constructAt_seek] at hi ⊢
  have old := h.slot i hi
  simp only [advanceConstructed, constructAt, getElem?_set, writeIndex]
  by_cases here : i = r.size
  · subst here
    have inside : (r.seek + r.size) % r.capacity < r.data.length := Nat.mod_lt _ (by omega)
    rw [if_pos rfl, if_pos inside, getElem?_append_right (by omega)]
    simp [size]
  · have apart : (r.seek + r.size) % r.capacity ≠ (r.seek + i) % r.capacity := by
      rw [wrap_eq cursor room, wrap_eq cursor hi]
      split <;> split <;> omega
    rw [if_neg apart, old]
    by_cases before : i < xs.length
    · rw [getElem?_append_left before]
    · rw [getElem?_eq_none (by omega), getElem?_eq_none (by simp; omega)]

theorem constructRun_capacity (r : Ring α) (off : Nat) (vs : List α) :
    (r.constructRun off vs).capacity = r.capacity ∧ (r.constructRun off vs).seek = r.seek := by
  induction vs generalizing r off with
  | nil => exact ⟨rfl, rfl⟩
  | cons v vs ih => simpa [constructRun] using ih (r.constructAt off v) (off + 1)

theorem constructRun_advance (r : Ring α) (off n : Nat) (vs : List α) :
    (r.constructRun off vs).advanceConstructed n = (r.advanceConstructed n).constructRun off vs := by
  induction vs generalizing r off with
  | nil => rfl
  | cons v vs ih => simp [constructRun, ih, advance_construct]

theorem unused_len_le (r : Ring α) : r.unusedCapacity.len ≤ r.unusedCapacitySize := by
  simp only [unusedCapacity, unusedCapacitySize]
  split <;> simp

theorem unused_pos_iff (h : r.Holds xs) : 0 < r.unusedCapacity.len ↔ r.size < r.capacity := by
  have size := h.size
  have fits := h.fits
  simp only [unusedCapacity]
  split
  · simp; omega
  · rename_i room
    have cursor := h.cursor (by omega)
    have write : r.writeIndex < r.capacity := Nat.mod_lt _ (by omega)
    simp only
    split <;> omega

theorem unused_off (room : r.size ≠ r.capacity) :
    r.unusedCapacity.off = r.writeIndex := by simp [unusedCapacity, room]

theorem unused_after_emplace (h : r.Holds xs) (v : α) (room : 1 < r.unusedCapacity.len) :
    ((r.constructAt r.writeIndex v).advanceConstructed 1).unusedCapacity =
      ⟨r.unusedCapacity.off + 1, r.unusedCapacity.len - 1⟩ := by
  have size := h.size
  have fits := h.fits
  have free := (unused_pos_iff h).mp (by omega)
  have cursor := h.cursor (by omega)
  have write : r.writeIndex = if r.seek + r.size < r.capacity then r.seek + r.size
      else r.seek + r.size - r.capacity := wrap_eq cursor free
  have next : r.size + 1 < r.capacity := by
    have := unused_len_le r
    simp only [unusedCapacitySize] at this
    omega
  have write' : (r.seek + (r.size + 1)) % r.capacity =
      if r.seek + (r.size + 1) < r.capacity then r.seek + (r.size + 1)
      else r.seek + (r.size + 1) - r.capacity := wrap_eq cursor next
  simp only [unusedCapacity, advance_size, advance_capacity, advance_seek, constructAt_size,
    constructAt_capacity, constructAt_seek, if_neg (by omega : ¬ r.size = r.capacity),
    if_neg (by omega : ¬ r.size + 1 = r.capacity)] at room ⊢
  have index : ((r.constructAt r.writeIndex v).advanceConstructed 1).writeIndex =
      (r.seek + (r.size + 1)) % r.capacity := by simp [Ring.writeIndex]
  rw [index, write', write] at *
  simp only [Span.mk.injEq]
  split at room <;> split at room <;> split <;> split <;> omega

theorem constructRun_cons (r : Ring α) (room : r.size ≠ r.capacity) (v : α) (vs : List α) :
    (r.constructRun r.unusedCapacity.off (v :: vs)).advanceConstructed (vs.length + 1) =
      (((r.constructAt r.writeIndex v).advanceConstructed 1).constructRun
        (r.writeIndex + 1) vs).advanceConstructed vs.length := by
  simp only [constructRun, constructRun_advance, advance_advance, unused_off room, Nat.add_comm]

/-- A run that fits `unused_capacity()` never wraps: it is a sequence of single writes, and
    the raw slots after it stay in one run. -/
theorem append_holds (h : r.Holds xs) (vs : List α) (room : vs.length ≤ r.unusedCapacity.len) :
    ((r.constructRun r.unusedCapacity.off vs).advanceConstructed vs.length).Holds (xs ++ vs) ∧
    r.unusedCapacity.len - vs.length ≤
      ((r.constructRun r.unusedCapacity.off vs).advanceConstructed vs.length).unusedCapacity.len := by
  induction vs generalizing r xs with
  | nil => simpa [constructRun, advanceConstructed] using h
  | cons v vs ih =>
    simp only [length_cons] at room ⊢
    have free := (unused_pos_iff h).mp (by omega)
    have first := emplace_holds h free v
    rw [constructRun_cons r (by omega) v vs, append_cons]
    by_cases more : 1 < r.unusedCapacity.len
    · have unused := unused_after_emplace h v more
      have step := ih first (by rw [unused]; simp; omega)
      rw [unused, unused_off (by omega)] at step
      refine ⟨step.1, ?_⟩
      have kept := step.2
      simp only at kept
      omega
    · have : vs = [] := length_eq_zero_iff.mp (by omega)
      subst this
      refine ⟨by simpa [constructRun, advanceConstructed] using first, ?_⟩
      simp only [length_nil]
      omega

theorem destroyAt_length (off n : Nat) (data : List (Option α)) : (destroyAt off n data).length = data.length := by
  induction n generalizing off data with
  | zero => rfl
  | succ n ih => simp [destroyAt, ih]

theorem destroyAt_get (off n : Nat) (data : List (Option α)) (j : Nat) (inside : j < data.length) :
    (destroyAt off n data)[j]? = if off ≤ j ∧ j < off + n then some none else data[j]? := by
  induction n generalizing off data with
  | zero => simp [destroyAt]
  | succ n ih =>
    rw [destroyAt, ih _ _ (by simpa using inside), getElem?_set]
    by_cases here : off = j
    · subst here
      simp [inside]
    · simp only [here, if_false]
      split <;> split <;> first | rfl | omega

theorem destroy_round_holds (h : r.Holds xs) (n : Nat) (inside : n ≤ r.capacity - r.seek) (pos : 0 < r.capacity) :
    (Ring.mk (destroyAt r.seek n r.data) ((r.seek + n) % r.capacity) (r.size - n)).Holds (xs.drop n) := by
  have cursor := h.cursor pos
  have capacity : (Ring.mk (destroyAt r.seek n r.data) ((r.seek + n) % r.capacity)
      (r.size - n)).capacity = r.capacity := destroyAt_length _ _ _
  refine ⟨by simp [h.size], ?_, ?_, ?_⟩
  · rw [capacity]
    have := h.fits
    simp
    omega
  · intro _
    rw [capacity]
    exact Nat.mod_lt _ pos
  · intro i hi
    rw [capacity] at hi ⊢
    simp only
    have shift : ((r.seek + n) % r.capacity + i) % r.capacity = (r.seek + (n + i)) % r.capacity := by
      rw [Nat.mod_add_mod, Nat.add_assoc]
    have place : (r.seek + (n + i)) % r.capacity < r.data.length := Nat.mod_lt _ pos
    rw [shift, destroyAt_get _ _ _ _ place, getElem?_drop]
    by_cases keep : n + i < r.capacity
    · have away : ¬ (r.seek ≤ (r.seek + (n + i)) % r.capacity ∧
          (r.seek + (n + i)) % r.capacity < r.seek + n) := by
        rw [wrap_eq cursor keep]
        split <;> omega
      rw [if_neg away]
      exact h.slot _ keep
    · -- The slot has come round to one that this round destroyed.
      have back : (r.seek + (n + i)) % r.capacity = (r.seek + (n + i - r.capacity)) % r.capacity := by
        rw [← Nat.add_mod_right (r.seek + (n + i - r.capacity))]
        congr 1
        omega
      have gone : r.seek ≤ (r.seek + (n + i)) % r.capacity ∧
          (r.seek + (n + i)) % r.capacity < r.seek + n := by
        rw [back, wrap_eq cursor (by omega)]
        split <;> omega
      have := h.fits
      rw [if_pos gone, getElem?_eq_none (by omega)]

theorem destroyPrefixLoop_holds (fuel : Nat) (h : r.Holds xs) (live : n ≤ xs.length) (enough : n ≤ fuel) :
    (destroyPrefixLoop fuel n r).Holds (xs.drop n) := by
  induction fuel generalizing n r xs with
  | zero =>
    have : n = 0 := by omega
    simpa [destroyPrefixLoop, this] using h
  | succ fuel ih =>
    unfold destroyPrefixLoop
    split
    · rename_i none_left
      simpa [none_left] using h
    · have fits := h.fits
      have cursor := h.cursor (by omega)
      have round := destroy_round_holds h (min n (r.capacity - r.seek)) (by omega)
        (by omega)
      have rest := ih round (n := n - min n (r.capacity - r.seek)) (by simp; omega) (by omega)
      rw [drop_drop] at rest
      rwa [show min n (r.capacity - r.seek) + (n - min n (r.capacity - r.seek)) = n by omega]
        at rest

theorem destroyPrefix_holds (h : r.Holds xs) (live : n ≤ xs.length) : (r.destroyPrefix n).Holds (xs.drop n) :=
  destroyPrefixLoop_holds n h live (Nat.le_refl n)

theorem destroyPrefixLoop_seek (fuel : Nat) (cursor : r.seek < r.capacity)
    (enough : n ≤ fuel) : (destroyPrefixLoop fuel n r).seek = (r.seek + n) % r.capacity := by
  induction fuel generalizing n r with
  | zero =>
    have : n = 0 := by omega
    simp [destroyPrefixLoop, this, Nat.mod_eq_of_lt cursor]
  | succ fuel ih =>
    unfold destroyPrefixLoop
    split
    · rename_i none_left
      simp [none_left, Nat.mod_eq_of_lt cursor]
    · have pos : 0 < r.capacity := by omega
      have same : (Ring.mk (destroyAt r.seek (min n (r.capacity - r.seek)) r.data)
          ((r.seek + min n (r.capacity - r.seek)) % r.capacity)
          (r.size - min n (r.capacity - r.seek))).capacity = r.capacity := destroyAt_length _ _ _
      rw [ih (by rw [same]; exact Nat.mod_lt _ pos) (by omega), same]
      simp only [Nat.mod_add_mod]
      congr 1
      omega

theorem destroyPrefixLoop_capacity (fuel n : Nat) (r : Ring α) :
    (destroyPrefixLoop fuel n r).capacity = r.capacity := by
  induction fuel generalizing n r with
  | zero => rfl
  | succ fuel ih =>
    unfold destroyPrefixLoop
    split
    · rfl
    · rw [ih]
      exact destroyAt_length _ _ _

@[simp] theorem reset_capacity (r : Ring α) : r.resetIfEmpty.capacity = r.capacity := by
  unfold resetIfEmpty
  split <;> rfl

theorem destroyAll_holds (h : r.Holds xs) : r.destroyAll.Holds [] := by
  have gone := destroyPrefix_holds h (n := r.size) (by rw [h.size])
  rw [h.size, drop_length] at gone
  have empty : (r.destroyPrefix r.size).size = 0 := by rw [h.size]; exact gone.size
  have reset := reset_holds gone
  rw [← h.size] at reset
  simpa [resetIfEmpty, Ring.empty, empty, destroyAll] using reset

theorem unused_at_origin (h : r.Holds xs) (origin : r.seek = 0) : r.unusedCapacity.len = r.unusedCapacitySize := by
  have size := h.size
  have fits := h.fits
  simp only [unusedCapacity, unusedCapacitySize, writeIndex, origin]
  split
  · rename_i full
    simp [full]
  · rw [Nat.zero_add, Nat.mod_eq_of_lt (by omega)]
    simp

theorem unused_after_drain (h : r.Holds xs) {seek k m : Nat} (began : seek < r.capacity)
    (moved : r.seek = (seek + k) % r.capacity) (left : xs.length + k = r.capacity) (wanted : m ≤ k)
    (before : seek + m ≤ r.capacity) : m ≤ r.unusedCapacity.len := by
  have size := h.size
  by_cases none_gone : k = 0
  · omega
  have write : r.writeIndex = seek := by
    rw [writeIndex, moved, Nat.mod_add_mod, Nat.add_assoc, size, Nat.add_comm k, left,
      Nat.add_mod_right, Nat.mod_eq_of_lt began]
  have cursor : r.seek = if seek + k < r.capacity then seek + k else seek + k - r.capacity := by
    by_cases all : k = r.capacity
    · rw [moved, all, Nat.add_mod_right, Nat.mod_eq_of_lt began]
      split <;> omega
    · rw [moved, wrap_eq began (by omega)]
  simp only [unusedCapacity, if_neg (by omega : ¬ r.size = r.capacity), write]
  split at cursor <;> split <;> omega

end Ring
end Nxt.Buffers
