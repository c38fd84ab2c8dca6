import Mathlib

/- Decoders that take items off the front of the bytes that have arrived. An item that is decoded
   stays decoded when more arrives, so the cuts between the pieces do not matter. -/
namespace Nxt.Lib
open List

structure Decoder (α β : Type) where
  /-- The first item and how much of the input it takes; none while it is incomplete. -/
  next : List α → Option (β × Nat)
  progress : ∀ {input : List α} {item : β} {n : Nat}, next input = some (item, n) → 0 < n ∧ n ≤ input.length
  stable : ∀ {input : List α} {item : β} {n : Nat} (more : List α), next input = some (item, n) →
    next (input ++ more) = some (item, n)

namespace Decoder
variable {α β : Type} (d : Decoder α β)

def drain (input : List α) : List β × List α :=
  match _found : d.next input with
  | none => ([], input)
  | some (item, n) =>
      let rest := drain (input.drop n)
      (item :: rest.1, rest.2)
  termination_by input.length
  decreasing_by
    have taken := d.progress _found
    rw [length_drop]
    omega

theorem drain_none {input : List α} (waits : d.next input = none) : d.drain input = ([], input) := by
  rw [drain]
  split
  · rfl
  · rename_i item n found
    rw [waits] at found
    cases found

theorem drain_some {input : List α} {item : β} {n : Nat} (found : d.next input = some (item, n)) :
    d.drain input = (item :: (d.drain (input.drop n)).1, (d.drain (input.drop n)).2) := by
  rw [drain]
  split
  · rename_i waits
    rw [found] at waits
    cases waits
  · rename_i item' n' found'
    rw [found] at found'
    cases found'
    rfl

theorem drain_induct {P : List α → Prop} (waits : ∀ input, d.next input = none → P input)
    (takes : ∀ input item n, d.next input = some (item, n) → P (input.drop n) → P input) (input : List α) :
    P input := by
  induction size : input.length using Nat.strongRecOn generalizing input with
  | _ size' ih =>
    cases found : d.next input with
    | none => exact waits input found
    | some taken =>
      obtain ⟨item, n⟩ := taken
      have bounds := d.progress found
      have shorter : (input.drop n).length < size' := by
        rw [length_drop]
        omega
      exact takes input item n found (ih _ shorter _ rfl)

/-- Draining a longer input is draining its front, and then what that left with the rest. -/
theorem drain_append (input more : List α) : d.drain (input ++ more) =
      ((d.drain input).1 ++ (d.drain ((d.drain input).2 ++ more)).1, (d.drain ((d.drain input).2 ++ more)).2) := by
  induction input using d.drain_induct with
  | waits input none_ => rw [d.drain_none none_, nil_append]
  | takes input item n found ih =>
    have bounds := d.progress found
    rw [d.drain_some found, d.drain_some (d.stable more found), drop_append_of_le_length bounds.2, ih]
    rfl

theorem drain_waits (input : List α) : d.next (d.drain input).2 = none := by
  induction input using d.drain_induct with
  | waits input none_ =>
    rw [d.drain_none none_]
    exact none_
  | takes input item n found ih =>
    rw [d.drain_some found]
    exact ih

theorem drain_shorter (input : List α) : (d.drain input).2.length ≤ input.length := by
  induction input using d.drain_induct with
  | waits input none_ => rw [d.drain_none none_]
  | takes input item n found ih =>
    rw [d.drain_some found]
    exact ih.trans (by rw [length_drop]; omega)

/-- A measure of the items that each taking keeps is kept by draining. -/
theorem drain_covers (raw : β → List α)
    (covers : ∀ {input : List α} {item : β} {n : Nat}, d.next input = some (item, n) → raw item = input.take n)
    (input : List α) : (d.drain input).1.flatMap raw ++ (d.drain input).2 = input := by
  induction input using d.drain_induct with
  | waits input none_ =>
    rw [d.drain_none none_]
    rfl
  | takes input item n found ih =>
    rw [d.drain_some found, flatMap_cons, covers found, append_assoc, ih, take_append_drop]

def turns (input : List α) : List (List α) :=
  match _found : d.next input with
  | none => []
  | some (_, n) => input :: turns (input.drop n)
  termination_by input.length
  decreasing_by
    have taken := d.progress _found
    rw [length_drop]
    omega

theorem turns_none {input : List α} (waits : d.next input = none) : d.turns input = [] := by
  rw [turns]
  split
  · rfl
  · rename_i item n found
    rw [waits] at found
    cases found

theorem turns_some {input : List α} {item : β} {n : Nat} (found : d.next input = some (item, n)) :
    d.turns input = input :: d.turns (input.drop n) := by
  rw [turns]
  split
  · rename_i waits
    rw [found] at waits
    cases waits
  · rename_i item' n' found'
    rw [found] at found'
    cases found'
    rfl

theorem turns_found {input front : List α} (inside : front ∈ d.turns input) :
    ∃ item n, d.next front = some (item, n) := by
  induction input using d.drain_induct with
  | waits input none_ =>
    rw [d.turns_none none_] at inside
    cases inside
  | takes input item n found ih =>
    rw [d.turns_some found, mem_cons] at inside
    rcases inside with rfl | later
    · exact ⟨item, n, found⟩
    · exact ih later

theorem drain_turns {P : β → Prop} (input : List α) : (∀ item ∈ (d.drain input).1, P item) ↔
      ∀ front ∈ d.turns input, ∀ item n, d.next front = some (item, n) → P item := by
  induction input using d.drain_induct with
  | waits input none_ =>
    rw [d.drain_none none_, d.turns_none none_]
    simp
  | takes input item n found ih =>
    rw [d.drain_some found, d.turns_some found, forall_mem_cons, forall_mem_cons, ih]
    refine and_congr_left fun _ => ⟨fun holds item' n' found' => ?_, fun holds => holds item n found⟩
    rw [found] at found'
    cases found'
    exact holds

end Decoder

end Nxt.Lib
