import Mathlib

/- The submission queue of raw_uring.hpp, and a kernel that takes the entries it is asked for, some of them, or none.
   Indices into the queue are 32-bit counters that wrap. -/
namespace Nxt.Runtime.Uring
open List

/-- `io_uring`, as far as the submission queue goes. The kernel moves `sqHead`. -/
structure Ring (α : Type) where
  sqEntries : BitVec 32
  sqMask : BitVec 32
  sqHead : BitVec 32
  sqTail : BitVec 32
  sqeTail : BitVec 32
  sqArray : Nat → BitVec 32
  sqes : Nat → α

namespace Ring
variable {α : Type}

def sqSpaceLeft (r : Ring α) : BitVec 32 := r.sqEntries - (r.sqeTail - r.sqHead)

/-- The slot of the next entry. -/
def nextIndex (r : Ring α) : Nat := (r.sqeTail &&& r.sqMask).toNat

/-- `io_uring_get_sqe`, and the entry that the caller prepares in the slot. -/
def getSqe (r : Ring α) (entry : α) : Option (Ring α) :=
  if r.sqSpaceLeft = 0 then none
  else some
    { r with sqes := Function.update r.sqes r.nextIndex entry
             sqArray := Function.update r.sqArray r.nextIndex (r.sqeTail &&& r.sqMask)
             sqeTail := r.sqeTail + 1 }

/-- The number of entries that `io_uring_submit` asks the kernel for. -/
def toSubmit (r : Ring α) : BitVec 32 := r.sqeTail - r.sqTail

def headEntry (r : Ring α) : α := r.sqes (r.sqArray (r.sqHead &&& r.sqMask).toNat).toNat

def take : Nat → Ring α → List α × Ring α
  | 0, r => ([], r)
  | n + 1, r =>
      let later := take n { r with sqHead := r.sqHead + 1 }
      (r.headEntry :: later.1, later.2)

/-- `io_uring_submit`, with the kernel's answer to the system call: how many entries it takes, or an error. -/
def submit (r : Ring α) (answer : Option Nat) : List α × Ring α :=
  if r.toSubmit = 0 then ([], r)
  else
    let published := { r with sqTail := r.sqeTail }
    match answer with
    | none => ([], published)
    | some n => take n published

/-- A queue of `2 ^ k` entries, with its counters at some value. -/
def fresh (k : Nat) (base : BitVec 32) (empty : α) : Ring α where
  sqEntries := BitVec.ofNat 32 (2 ^ k)
  sqMask := BitVec.ofNat 32 (2 ^ k) - 1
  sqHead := base
  sqTail := base
  sqeTail := base
  sqArray _ := 0
  sqes _ := empty

end Ring

structure Traced (α : Type) where
  ring : Ring α
  obtained : List α := []
  consumed : List α := []

/-- The kernel takes no more than it is asked for, and no more than are published. -/
def Allowed {α : Type} (r : Ring α) (answer : Option Nat) : Prop :=
  ∀ n ∈ answer, n ≤ r.toSubmit.toNat ∧ n ≤ (r.sqeTail - r.sqHead).toNat

inductive Step {α : Type} : Traced α → Traced α → Prop
  | got {t : Traced α} {entry : α} {ring : Ring α} (some_ : t.ring.getSqe entry = some ring) :
      Step t { t with ring, obtained := t.obtained ++ [entry] }
  | full {t : Traced α} {entry : α} (none_ : t.ring.getSqe entry = none) : Step t t
  | submitted {t : Traced α} {answer : Option Nat} (allowed : Allowed t.ring answer) :
      Step t { t with ring := (t.ring.submit answer).2, consumed := t.consumed ++ (t.ring.submit answer).1 }

inductive Reached {α : Type} (k : Nat) (base : BitVec 32) (empty : α) : Traced α → Prop
  | start : Reached k base empty { ring := .fresh k base empty }
  | step {t t' : Traced α} (before : Reached k base empty t) (step : Step t t') : Reached k base empty t'

section Counters

def slot (k : Nat) (base : BitVec 32) (i : Nat) : Nat := (base.toNat + i) % 2 ^ k

def counter (base : BitVec 32) (i : Nat) : BitVec 32 := base + BitVec.ofNat 32 i

theorem counter_succ (base : BitVec 32) (i : Nat) : counter base i + 1 = counter base (i + 1) := by
  unfold counter
  rw [BitVec.add_assoc, BitVec.ofNat_add]
  rfl

theorem counter_sub (base : BitVec 32) {i j : Nat} (order : i ≤ j) :
    counter base j - counter base i = BitVec.ofNat 32 (j - i) := by
  obtain ⟨n, rfl⟩ := Nat.exists_eq_add_of_le order
  unfold counter
  rw [Nat.add_sub_cancel_left, BitVec.ofNat_add, ← BitVec.add_assoc]
  exact add_sub_cancel_left _ _

theorem counter_toNat (base : BitVec 32) (i : Nat) : (counter base i).toNat = (base.toNat + i) % 2 ^ 32 := by
  unfold counter
  rw [BitVec.toNat_add, BitVec.toNat_ofNat, Nat.add_mod_mod]

theorem counter_masked {k : Nat} (small : k < 32) (base : BitVec 32) (i : Nat) :
    (counter base i &&& (BitVec.ofNat 32 (2 ^ k) - 1)).toNat = slot k base i := by
  have positive : 1 ≤ 2 ^ k := Nat.one_le_two_pow
  have below : 2 ^ k < 2 ^ 32 := Nat.pow_lt_pow_right (by decide) small
  have mask : (BitVec.ofNat 32 (2 ^ k) - 1).toNat = 2 ^ k - 1 := by
    rw [BitVec.toNat_sub_of_le, BitVec.toNat_ofNat, Nat.mod_eq_of_lt below]
    · rfl
    · rw [BitVec.le_def, BitVec.toNat_ofNat, Nat.mod_eq_of_lt below]
      exact positive
  rw [BitVec.toNat_and, mask, Nat.and_two_pow_sub_one_eq_mod, counter_toNat, slot,
    Nat.mod_mod_of_dvd _ (Nat.pow_dvd_pow 2 small.le)]

theorem slot_apart {k : Nat} (base : BitVec 32) {i j : Nat} (order : i < j) (near : j < i + 2 ^ k) :
    slot k base i ≠ slot k base j := by
  intro same
  have divides : 2 ^ k ∣ j - i := by
    have shift : base.toNat + j - (base.toNat + i) = j - i := by omega
    rw [← shift]
    exact (Nat.modEq_iff_dvd' (by omega)).mp same
  have large := Nat.le_of_dvd (by omega) divides
  omega

end Counters

section Queue
variable {α : Type} {k p : Nat} {base : BitVec 32} {empty : α} {t t' : Traced α}

/-- The counters stand for the numbers of entries obtained, published and consumed, and the slots between head and tail
    hold the entries that wait. -/
structure Consistent (k : Nat) (base : BitVec 32) (p : Nat) (t : Traced α) : Prop where
  entries : t.ring.sqEntries = BitVec.ofNat 32 (2 ^ k)
  mask : t.ring.sqMask = BitVec.ofNat 32 (2 ^ k) - 1
  head : t.ring.sqHead = counter base t.consumed.length
  published : t.ring.sqTail = counter base p
  tail : t.ring.sqeTail = counter base t.obtained.length
  head_le : t.consumed.length ≤ p
  published_le : p ≤ t.obtained.length
  room : t.obtained.length ≤ t.consumed.length + 2 ^ k
  indices : ∀ i, t.consumed.length ≤ i → i < t.obtained.length →
    (t.ring.sqArray (slot k base i)).toNat = slot k base i
  holds : ∀ i entry, t.consumed.length ≤ i → t.obtained[i]? = some entry → t.ring.sqes (slot k base i) = entry
  inOrder : t.consumed <+: t.obtained

theorem fresh_consistent : Consistent k base 0 ({ ring := .fresh k base empty } : Traced α) where
  entries := rfl
  mask := rfl
  head := (BitVec.add_zero base).symm
  published := (BitVec.add_zero base).symm
  tail := (BitVec.add_zero base).symm
  head_le := le_rfl
  published_le := le_rfl
  room := Nat.zero_le _
  indices i _ inside := absurd inside (Nat.not_lt_zero i)
  holds i entry _ inside := by cases inside
  inOrder := prefix_refl _

section
variable (small : k < 32) (consistent : Consistent k base p t)
include small consistent

theorem Consistent.nextIndex : t.ring.nextIndex = slot k base t.obtained.length := by
  rw [Ring.nextIndex, consistent.tail, consistent.mask, counter_masked small]

theorem Consistent.waiting : (t.ring.sqeTail - t.ring.sqHead).toNat = t.obtained.length - t.consumed.length := by
  have below : 2 ^ k < 2 ^ 32 := Nat.pow_lt_pow_right (by decide) small
  have room := consistent.room
  rw [consistent.tail, consistent.head, counter_sub base (consistent.head_le.trans consistent.published_le),
    BitVec.toNat_ofNat, Nat.mod_eq_of_lt (by omega)]

theorem Consistent.toSubmit : t.ring.toSubmit.toNat = t.obtained.length - p := by
  have below : 2 ^ k < 2 ^ 32 := Nat.pow_lt_pow_right (by decide) small
  have room := consistent.room
  have head := consistent.head_le
  rw [Ring.toSubmit, consistent.tail, consistent.published, counter_sub base consistent.published_le,
    BitVec.toNat_ofNat, Nat.mod_eq_of_lt (by omega)]

theorem Consistent.full_iff : t.ring.sqSpaceLeft = 0 ↔ t.obtained.length = t.consumed.length + 2 ^ k := by
  have below : 2 ^ k < 2 ^ 32 := Nat.pow_lt_pow_right (by decide) small
  have room := consistent.room
  have order := consistent.head_le.trans consistent.published_le
  have waiting := consistent.waiting small
  have left_ : t.ring.sqSpaceLeft.toNat = 2 ^ k - (t.obtained.length - t.consumed.length) := by
    rw [Ring.sqSpaceLeft, consistent.entries, BitVec.toNat_sub_of_le, waiting, BitVec.toNat_ofNat,
      Nat.mod_eq_of_lt below]
    rw [BitVec.le_def, waiting, BitVec.toNat_ofNat, Nat.mod_eq_of_lt below]
    omega
  rw [← BitVec.toNat_inj, left_]
  show 2 ^ k - (t.obtained.length - t.consumed.length) = 0 ↔ _
  omega

theorem Consistent.free {entry : α} {ring : Ring α} (got : t.ring.getSqe entry = some ring) {i : Nat}
    (from_ : t.consumed.length ≤ i) (to_ : i < t.obtained.length) : t.ring.nextIndex ≠ slot k base i := by
  have room := consistent.room
  have space : t.ring.sqSpaceLeft ≠ 0 := by
    intro none_
    rw [Ring.getSqe, if_pos none_] at got
    cases got
  rw [ne_eq, consistent.full_iff small] at space
  rw [consistent.nextIndex small]
  exact (slot_apart base to_ (by omega)).symm

theorem Consistent.got {entry : α} {ring : Ring α}
    (got : t.ring.getSqe entry = some ring) :
    Consistent k base p { t with ring, obtained := t.obtained ++ [entry] } := by
  have free {i : Nat} := consistent.free small got (i := i)
  have next := consistent.nextIndex small
  have order := consistent.head_le.trans consistent.published_le
  have room := consistent.room
  have length : (t.obtained ++ [entry]).length = t.obtained.length + 1 := by simp
  have space : t.ring.sqSpaceLeft ≠ 0 := by
    intro none_
    rw [Ring.getSqe, if_pos none_] at got
    cases got
  rw [Ring.getSqe, if_neg space] at got
  cases got
  rw [ne_eq, consistent.full_iff small] at space
  refine ⟨consistent.entries, consistent.mask, consistent.head, consistent.published, ?_, consistent.head_le, ?_, ?_, ?_, ?_,
    consistent.inOrder.trans (prefix_append _ _)⟩
  · show t.ring.sqeTail + 1 = counter base (t.obtained ++ [entry]).length
    rw [length, consistent.tail, counter_succ]
  · show p ≤ (t.obtained ++ [entry]).length
    have published := consistent.published_le
    omega
  · show (t.obtained ++ [entry]).length ≤ t.consumed.length + 2 ^ k
    omega
  · intro i from_ to_
    have inside : i < (t.obtained ++ [entry]).length := to_
    show (Function.update t.ring.sqArray t.ring.nextIndex _ (slot k base i)).toNat = _
    by_cases last : i = t.obtained.length
    · subst last
      rw [← next, Function.update_self]
      rfl
    · have earlier : i < t.obtained.length := by omega
      rw [Function.update_of_ne (free from_ earlier).symm]
      exact consistent.indices i from_ earlier
  · intro i other from_ at_
    show Function.update t.ring.sqes t.ring.nextIndex entry (slot k base i) = other
    have inside := (List.getElem?_eq_some_iff.mp at_).1
    have inside : i < (t.obtained ++ [entry]).length := inside
    by_cases last : i = t.obtained.length
    · subst last
      rw [getElem?_concat_length] at at_
      cases at_
      rw [← next, Function.update_self]
    · have earlier : i < t.obtained.length := by omega
      rw [getElem?_append_left earlier] at at_
      rw [Function.update_of_ne (free from_ earlier).symm]
      exact consistent.holds i other from_ at_

end

theorem Consistent.take (small : k < 32) {n : Nat} {t : Traced α} (consistent : Consistent k base p t)
    (published : t.consumed.length + n ≤ p) :
    Consistent k base p { t with ring := (Ring.take n t.ring).2, consumed := t.consumed ++ (Ring.take n t.ring).1 } ∧
      (Ring.take n t.ring).1.length = n := by
  induction n generalizing t with
  | zero =>
    refine ⟨?_, rfl⟩
    rw [Ring.take, append_nil]
    exact consistent
  | succ n ih =>
    have tail := consistent.published_le
    have inside : t.consumed.length < t.obtained.length := by omega
    obtain ⟨entry, at_⟩ : ∃ entry, t.obtained[t.consumed.length]? = some entry := ⟨_, getElem?_eq_getElem inside⟩
    have first : t.ring.headEntry = entry := by
      rw [Ring.headEntry, consistent.head, consistent.mask, counter_masked small, consistent.indices _ le_rfl inside]
      exact consistent.holds _ entry le_rfl at_
    have length : (t.consumed ++ [entry]).length = t.consumed.length + 1 := by simp
    have next : Consistent k base p
        { t with ring := { t.ring with sqHead := t.ring.sqHead + 1 }, consumed := t.consumed ++ [entry] } := by
      refine ⟨consistent.entries, consistent.mask, ?_, consistent.published, consistent.tail, ?_, consistent.published_le, ?_,
        ?_, ?_, ?_⟩
      · show t.ring.sqHead + 1 = counter base (t.consumed ++ [entry]).length
        rw [length, consistent.head, counter_succ]
      · show (t.consumed ++ [entry]).length ≤ p
        omega
      · show t.obtained.length ≤ (t.consumed ++ [entry]).length + 2 ^ k
        have room := consistent.room
        omega
      · intro i from_ to_
        have later : (t.consumed ++ [entry]).length ≤ i := from_
        exact consistent.indices i (by omega) to_
      · intro i other from_ here
        have later : (t.consumed ++ [entry]).length ≤ i := from_
        exact consistent.holds i other (by omega) here
      · obtain ⟨rest, split⟩ := consistent.inOrder
        have here : (t.consumed ++ rest)[t.consumed.length]? = some entry := by
          rw [split]
          exact at_
        rw [getElem?_append_right le_rfl, Nat.sub_self] at here
        cases rest with
        | nil => cases here
        | cons x rest =>
          cases here
          exact ⟨rest, by rw [append_assoc]; exact split⟩
    obtain ⟨later, count⟩ := ih next (by show (t.consumed ++ [entry]).length + n ≤ p; omega)
    rw [Ring.take]
    dsimp only
    rw [first]
    refine ⟨?_, by rw [length_cons, count]⟩
    rw [append_assoc] at later
    exact later

theorem Consistent.publish (consistent : Consistent k base p t) :
    Consistent k base t.obtained.length { t with ring := { t.ring with sqTail := t.ring.sqeTail } } :=
  ⟨consistent.entries, consistent.mask, consistent.head, consistent.tail, consistent.tail,
    consistent.head_le.trans consistent.published_le, le_rfl, consistent.room, consistent.indices, consistent.holds,
    consistent.inOrder⟩

theorem Consistent.submitted (small : k < 32) (consistent : Consistent k base p t) {answer : Option Nat}
    (allowed : Allowed t.ring answer) :
    ∃ p', Consistent k base p'
        { t with ring := (t.ring.submit answer).2, consumed := t.consumed ++ (t.ring.submit answer).1 } ∧
      (t.ring.submit answer).1.length = if t.ring.toSubmit = 0 then 0 else answer.getD 0 := by
  unfold Ring.submit
  by_cases nothing : t.ring.toSubmit = 0
  · rw [if_pos nothing, if_pos nothing, append_nil]
    exact ⟨p, consistent, rfl⟩
  · rw [if_neg nothing, if_neg nothing]
    cases answer with
    | none =>
      dsimp only
      rw [append_nil]
      exact ⟨_, consistent.publish, rfl⟩
    | some n =>
      have most := (allowed n rfl).2
      rw [consistent.waiting small] at most
      have order := consistent.head_le.trans consistent.published_le
      have taken := consistent.publish.take small (n := n) (by show t.consumed.length + n ≤ t.obtained.length; omega)
      exact ⟨_, taken.1, taken.2⟩

theorem Reached.consistent (small : k < 32) (run : Reached k base empty t) : ∃ p, Consistent k base p t := by
  induction run with
  | start => exact ⟨0, fresh_consistent⟩
  | step before step ih =>
    obtain ⟨p, consistent⟩ := ih
    cases step with
    | got some_ => exact ⟨p, consistent.got small some_⟩
    | full none_ => exact ⟨p, consistent⟩
    | submitted allowed =>
      obtain ⟨p', later, -⟩ := consistent.submitted small allowed
      exact ⟨p', later⟩

end Queue

section Results
variable {α : Type} {k : Nat} {base : BitVec 32} {empty : α} {t : Traced α}

/-- A submission asks for every entry that the kernel has still to take, and leaves none behind when it takes them. -/
def AsksAll (t : Traced α) : Prop :=
  t.ring.toSubmit.toNat = t.obtained.length - t.consumed.length ∧
    t.consumed ++ (t.ring.submit (some t.ring.toSubmit.toNat)).1 = t.obtained

/-- After a submission of which the kernel took nothing, the next one asks for nothing. -/
theorem failed_submission_forgotten :
    ∃ t : Traced Nat, Reached 1 0 0 t ∧ t.obtained = [7] ∧ t.consumed = [] ∧ t.ring.toSubmit = 0 :=
  ⟨_, .step (.step .start (@Step.got _ _ 7 _ rfl)) (@Step.submitted _ _ none fun _ none_ => by cases none_), rfl, rfl,
    by decide⟩

/-- In every reached state: the consumed entries are the first that were obtained, in order; the slot that is handed out
    is none that waits; and a submission asks for all that waits exactly if no published entry waits. -/
theorem submission_complete_iff (small : k < 32) (run : Reached k base empty t) : t.consumed <+: t.obtained ∧
    (∀ entry ring, t.ring.getSqe entry = some ring → ∀ j < (t.ring.sqeTail - t.ring.sqHead).toNat,
      t.ring.nextIndex ≠ (t.ring.sqArray ((t.ring.sqHead + BitVec.ofNat 32 j) &&& t.ring.sqMask).toNat).toNat) ∧
    (AsksAll t ↔ t.ring.sqTail = t.ring.sqHead) := by
  obtain ⟨p, consistent⟩ := run.consistent small
  have below : 2 ^ k < 2 ^ 32 := Nat.pow_lt_pow_right (by decide) small
  have room := consistent.room
  have head := consistent.head_le
  have published := consistent.published_le
  have asked := consistent.toSubmit small
  have waits := consistent.waiting small
  refine ⟨consistent.inOrder, ?_, ?_⟩
  · intro entry ring got j inside
    rw [waits] at inside
    have at_ : t.ring.sqHead + BitVec.ofNat 32 j = counter base (t.consumed.length + j) := by
      rw [consistent.head, counter, counter, BitVec.ofNat_add, BitVec.add_assoc]
    rw [at_, consistent.mask, counter_masked small, consistent.indices _ (by omega) (by omega)]
    exact consistent.free small got (by omega) (by omega)
  · have same : t.ring.sqTail = t.ring.sqHead ↔ p = t.consumed.length := by
      rw [consistent.published, consistent.head, ← sub_eq_zero, counter_sub base head, ← BitVec.toNat_inj,
        BitVec.toNat_ofNat, Nat.mod_eq_of_lt (by omega)]
      show p - t.consumed.length = 0 ↔ _
      omega
    rw [same]
    constructor
    · rintro ⟨all, -⟩
      omega
    · rintro rfl
      refine ⟨by omega, ?_⟩
      have allowed : Allowed t.ring (some t.ring.toSubmit.toNat) := by
        rintro n ⟨⟩
        exact ⟨le_rfl, by omega⟩
      obtain ⟨p', later, count⟩ := consistent.submitted small allowed
      refine later.inOrder.eq_of_length ?_
      show (t.consumed ++ _).length = t.obtained.length
      rw [length_append, count, Option.getD_some]
      split
      · rename_i nothing
        rw [nothing] at asked
        have zero : (0 : BitVec 32).toNat = 0 := rfl
        omega
      · omega

theorem submission_complete_pair : ∃ t : Traced Nat, t.obtained = [7] ∧ AsksAll t := by
  have run : Reached 1 0xffffffff 0 (_ : Traced Nat) := .step .start (@Step.got _ _ 7 _ rfl)
  exact ⟨_, rfl, ((submission_complete_iff (by decide) run).2.2).mpr rfl⟩

end Results

end Nxt.Runtime.Uring
