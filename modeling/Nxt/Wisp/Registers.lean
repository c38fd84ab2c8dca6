import Nxt.Lib.Exec
import Nxt.Lib.Meeting
import Nxt.Wisp.Lists
import Nxt.Wisp.Machine

/- The registers of one transition (eval.cpp, `eval_step`) and the operations every evaluator
   function rests on. A condition is thrown with the registers as they are; so is an exception
   of the host, which ends the machine. -/
namespace Nxt.Wisp
open Nxt.Lib

/-- A condition record, named by its type, with its details after it. -/
inductive Condition where
  | named (name : Known) (details : List Word)
  | builtinFailure (jet : Word) (cause : Condition)
  deriving DecidableEq

inductive Stop where
  | signal (c : Condition)
  | host (e : HostError)
  deriving DecidableEq

structure Registers where
  heap : Heap
  exp : Word := nah
  val : Word := nil
  env : Word := nil

abbrev Eval := EStateM Stop Registers

def fail {α : Type} (name : Known) (details : List Word) : Eval α :=
  throw (.signal (.named name details))

def allocate (make : Heap → Except HostError (Word × Heap)) : Eval Word := do
  match make (← get).heap with
  | .ok (x, heap) => do
      modify fun s => { s with heap }
      pure x
  | .error e => throw (.host e)

def give (x : Word) : Eval Unit := modify fun s => { s with exp := nah, val := x }

def enter (x : Word) : Eval Unit := modify fun s => { s with exp := x, val := nah }

def typeKnown : Tag → Option Known
  | .integer => some .integer
  | .chr => some .character
  | .duo => some .cons
  | .sym => some .symbol
  | .func => some .function
  | .jet => some .function
  | .mac => some .macroType
  | .v32 => some .vector
  | .record => some .record
  | .v08 => some .string
  | .pkg => some .package
  | .ktx => some .continuation
  | .run => some .evaluator
  | .ext => some .external
  | .pin => some .pin
  | .sys => none
  | .unknown => none

section Known
variable (known : Known → Word)

def require (x : Word) (type : Tag) : Eval Unit :=
  if tagOf x = type then pure ()
  else fail .typeMismatch [(typeKnown type).elim nil known, x]

/-- More steps than a walk along a list can take before it ends or meets its slow cursor. -/
def scanFuel : Nat := 4 * listFuel

def scanCountLoop : Nat → Word → Word → Nat → Eval Nat
  | 0, _, _, _ => throw (.host .diverged)
  | fuel + 1, slow, x, count => do
      if x = nil then pure count
      else
        require known x .duo
        let h := (← get).heap
        let x := h.get .duo .cdr x
        let slow := if (count + 1) % 2 = 0 then h.get .duo .cdr slow else slow
        if x ≠ nil ∧ x = slow then fail .cyclicList []
        else scanCountLoop fuel slow x (count + 1)

/-- The length of a list, its whole spine checked before any element is used. -/
def scanCount (x : Word) : Eval Nat := scanCountLoop known scanFuel x x 0

end Known

def listOf (xs : List Word) : Eval Word := allocate fun h => h.listOf xs

/-! ### Counting a list -/

def Heap.cdrs (h : Heap) (x : Word) (k : Nat) : Word := (h.get .duo .cdr)^[k] x

/-- What following `cdr` comes to. -/
inductive Spine where
  | proper (n : Nat)
  | cyclic
  | dotted (y : Word)

def Heap.Ends (h : Heap) (x : Word) : Spine → Prop
  | .proper n => (∀ k < n, tagOf (h.cdrs x k) = .duo) ∧ h.cdrs x n = nil
  | .cyclic => ∃ i j, i < j ∧ (∀ k ≤ j, tagOf (h.cdrs x k) = .duo) ∧
      indexOf (h.cdrs x i) = indexOf (h.cdrs x j)
  | .dotted y => ∃ n, (∀ k < n, tagOf (h.cdrs x k) = .duo) ∧ h.cdrs x n = y ∧
      tagOf y ≠ .duo ∧ y ≠ nil

/-- How `scanCount` reports it. -/
def Spine.report (known : Known → Word) (s : Registers) : Spine → EStateM.Result Stop Registers Nat
  | .proper n => .ok n s
  | .cyclic => .error (.signal (.named .cyclicList [])) s
  | .dotted y => .error (.signal (.named .typeMismatch [known .cons, y])) s

section Items
variable {h : Heap} {x : Word} {xs : List Word}

theorem items_nil (items : h.links.Items nil xs) : xs = [] := by
  cases xs with
  | nil => rfl
  | cons y ys => exact absurd items.1 h.links.outside

theorem items_cell (items : h.links.Items x xs) (more : x ≠ nil) :
    ∃ ys, xs = h.get .duo .car x :: ys ∧ tagOf x = .duo ∧ h.links.Items (h.get .duo .cdr x) ys := by
  cases xs with
  | nil => exact absurd items more
  | cons y ys =>
    have item : h.get .duo .car x = y := items.2.1
    exact ⟨ys, by rw [item], items.1, items.2.2⟩

end Items

section Spines
variable {h : Heap} {x : Word} {a b : Spine}

theorem cdrs_succ (k : Nat) : h.cdrs x (k + 1) = h.get .duo .cdr (h.cdrs x k) :=
  Function.iterate_succ_apply' _ k x

theorem cdrs_joined {i j : Nat} (same : indexOf (h.cdrs x i) = indexOf (h.cdrs x j)) (d : Nat) :
    h.cdrs x (i + 1 + d) = h.cdrs x (j + 1 + d) := by
  induction d with
  | zero => simp only [Nat.add_zero, cdrs_succ, Heap.get, Heap.read, same]
  | succ d ih => rw [← Nat.add_assoc, ← Nat.add_assoc, cdrs_succ, cdrs_succ, ih]

theorem cyclic_pairs (again : h.Ends x .cyclic) (k : Nat) : tagOf (h.cdrs x k) = .duo := by
  obtain ⟨i, j, less, pairs, same⟩ := again
  induction k using Nat.strong_induction_on with
  | _ k ih =>
    by_cases near : k ≤ j
    · exact pairs k near
    · have back := cdrs_joined same (k - (j + 1))
      rw [show j + 1 + (k - (j + 1)) = k by omega] at back
      rw [← back]
      exact ih _ (by omega)

theorem ends_atom (ends : h.Ends x a) : a = .cyclic ∨ ∃ n, (∀ k < n, tagOf (h.cdrs x k) = .duo) ∧
    tagOf (h.cdrs x n) ≠ .duo ∧ a = if h.cdrs x n = nil then .proper n else .dotted (h.cdrs x n) := by
  cases a with
  | cyclic => exact Or.inl rfl
  | proper n =>
    have atom : tagOf nil ≠ .duo := by decide
    exact Or.inr ⟨n, ends.1, by rw [ends.2]; exact atom, (if_pos ends.2).symm⟩
  | dotted y =>
    obtain ⟨n, pairs, rfl, atom, some⟩ := ends
    exact Or.inr ⟨n, pairs, atom, (if_neg some).symm⟩

theorem ends_unique (first : h.Ends x a) (second : h.Ends x b) : a = b := by
  rcases ends_atom first with rfl | ⟨n, pairs, atom, rfl⟩ <;>
    rcases ends_atom second with rfl | ⟨m, pairs', atom', rfl⟩
  · rfl
  · exact absurd (cyclic_pairs first m) atom'
  · exact absurd (cyclic_pairs second n) atom
  · have same : n = m := by
      rcases Nat.lt_trichotomy n m with less | same | more
      · exact absurd (pairs' n less) atom
      · exact same
      · exact absurd (pairs m more) atom'
    rw [same]

theorem ends_items {xs : List Word} (items : h.links.Items x xs) : h.Ends x (.proper xs.length) := by
  induction xs generalizing x with
  | nil => exact ⟨nofun, items⟩
  | cons y ys ih =>
    obtain ⟨pairs, last⟩ := ih items.2.2
    refine ⟨fun k less => ?_, last⟩
    cases k with
    | zero => exact items.1
    | succ k => exact pairs k (Nat.lt_of_succ_lt_succ less)

theorem pair_place {c d : Word} (cell : tagOf c = .duo) (cell' : tagOf d = .duo)
    (same : indexOf c * 2 + (eraOf c).toNat = indexOf d * 2 + (eraOf d).toNat) : c = d := by
  have index : indexOf c = indexOf d ∧ eraOf c = eraOf d := by
    revert same
    cases eraOf c <;> cases eraOf d <;> simp <;> omega
  rw [← pointer_eta (k := .duo) cell, ← pointer_eta (k := .duo) cell', index.1, index.2]

theorem pairs_meet (pairs : ∀ k ≤ 2 ^ 27, tagOf (h.cdrs x k) = .duo) :
    ∃ j, 0 < j ∧ j < scanFuel ∧ h.cdrs x j = h.cdrs x (j / 2) := by
  have fuel : 2 * 2 ^ 27 < scanFuel := by decide
  obtain ⟨j, some, bound, met⟩ := meeting (f := h.get .duo .cdr) (x := x) (n := 2 ^ 27)
    (fun c => indexOf c * 2 + (eraOf c).toNat)
    (fun i _ => by
      have index := index_lt (h.cdrs x i)
      have era : (eraOf (h.cdrs x i)).toNat ≤ 1 := by cases eraOf (h.cdrs x i) <;> decide
      change indexOf (h.cdrs x i) * 2 + (eraOf (h.cdrs x i)).toNat < _
      omega)
    (fun i early j late same => pair_place (pairs i early) (pairs j late) same)
  exact ⟨j, some, bound.trans_lt fuel, met⟩

end Spines

section Scan
variable {known : Known → Word} {s : Registers} {x : Word} {xs : List Word}

theorem wp_require {type : Tag} (tag : tagOf x = type) {Q : Unit → Registers → Prop}
    {E : Stop → Registers → Prop} (h : Q () s) : wp (require known x type) Q E s := by
  simpa [require, tag] using h

/-- The slow cursor is at half the count; when the fuel is used up they have never met. -/
theorem scanCountLoop_ends (fuel : Nat) {count : Nat} (pairs : ∀ k < count, tagOf (s.heap.cdrs x k) = .duo) :
    wp (scanCountLoop known fuel (s.heap.cdrs x (count / 2)) (s.heap.cdrs x count) count)
      (fun n s' => ∃ a, s.heap.Ends x a ∧ .ok n s' = a.report known s)
      (fun e s' => (∃ a, s.heap.Ends x a ∧ .error e s' = a.report known s) ∨
        ∀ k < count + fuel, tagOf (s.heap.cdrs x k) = .duo ∧
          (count < k → s.heap.cdrs x k ≠ s.heap.cdrs x (k / 2))) s := by
  induction fuel generalizing count with
  | zero => exact Or.inr fun k less => ⟨pairs k less, fun more => absurd less (Nat.lt_asymm more)⟩
  | succ fuel ih =>
    simp only [scanCountLoop, wp_ite, wp_pure, wp_bind]
    refine ⟨fun done => ⟨.proper count, ⟨pairs, done⟩, rfl⟩, fun some => ?_⟩
    by_cases pair : tagOf (s.heap.cdrs x count) = .duo
    · apply wp_require pair
      have pairs : ∀ k < count + 1, tagOf (s.heap.cdrs x k) = .duo := by
        intro k less
        rcases Nat.lt_succ_iff_lt_or_eq.mp less with before | rfl
        · exact pairs k before
        · exact pair
      have slower : (if (count + 1) % 2 = 0 then s.heap.get .duo .cdr (s.heap.cdrs x (count / 2))
          else s.heap.cdrs x (count / 2)) = s.heap.cdrs x ((count + 1) / 2) := by
        split
        · rw [← cdrs_succ, show count / 2 + 1 = (count + 1) / 2 by omega]
        · rw [show count / 2 = (count + 1) / 2 by omega]
      have behind := pairs ((count + 1) / 2) (by omega)
      rw [wp_get, slower, ← cdrs_succ]
      refine ⟨fun met => Or.inl ⟨.cyclic, ⟨(count + 1) / 2, count + 1, by omega, ?_, ?_⟩, rfl⟩,
        fun apart => wp_mono (ih pairs) (fun _ _ ends => ends) fun e s' failed => ?_⟩
      · intro k near
        rcases Nat.lt_succ_iff_lt_or_eq.mp (Nat.lt_succ_of_le near) with before | rfl
        · exact pairs k before
        · rw [met.2]
          exact behind
      · rw [met.2]
      · refine failed.imp_right fun onward k less => ?_
        obtain ⟨later, never⟩ := onward k (by omega)
        refine ⟨later, fun more met => ?_⟩
        by_cases next : k = count + 1
        · subst next
          exact apart ⟨fun none => absurd (none ▸ later) (by decide), met⟩
        · exact never (by omega) met
    · rw [require, if_neg pair]
      exact Or.inl ⟨.dotted _, ⟨count, pairs, rfl, pair, some⟩, rfl⟩

theorem scanCount_ends : ∃ a, s.heap.Ends x a ∧ scanCount known x s = a.report known s := by
  have counted := @scanCountLoop_ends known s x scanFuel 0 nofun
  change wp (scanCount known x) _ _ s at counted
  unfold wp at counted
  cases run : scanCount known x s with
  | ok n s' =>
    rw [run] at counted
    exact counted
  | error e s' =>
    rw [run] at counted
    rcases counted with ends | onward
    · exact ends
    · have fuel : 2 ^ 27 < 0 + scanFuel := by decide
      obtain ⟨j, some, bound, met⟩ := pairs_meet fun k small => (onward k (by omega)).1
      exact absurd met ((onward j (by omega)).2 some)

theorem scanCount_report (a : Spine) (s' : Registers) :
    scanCount known x s = a.report known s' ↔ s' = s ∧ s.heap.Ends x a := by
  obtain ⟨b, ends, run⟩ := @scanCount_ends known s x
  rw [run]
  constructor
  · intro same
    have both : a = b ∧ s' = s := by cases a <;> cases b <;> cases same <;> exact ⟨rfl, rfl⟩
    rw [both.1, both.2]
    exact ⟨rfl, ends⟩
  · rintro ⟨rfl, other⟩
    rw [ends_unique ends other]

theorem scanCount_items (items : s.heap.links.Items x xs) {Q : Nat → Registers → Prop}
    {E : Stop → Registers → Prop} (h : Q xs.length s) : wp (scanCount known x) Q E s := by
  have run := (@scanCount_report known s x (.proper xs.length) s).mpr ⟨rfl, ends_items items⟩
  rwa [wp_of_ok run]

/-- Counting a list always ends: with the number of pairs of a proper list, with a cyclic list if
    and only if `cdr` leads to a pair again, with a type mismatch if and only if it leads to an
    atom other than `nil`. -/
theorem scanCount_exact (known : Known → Word) (s : Registers) (x : Word) :
    (∀ n s', scanCount known x s = .ok n s' ↔ s' = s ∧ s.heap.Ends x (.proper n)) ∧
    (∀ s', scanCount known x s = .error (.signal (.named .cyclicList [])) s' ↔ s' = s ∧ s.heap.Ends x .cyclic) ∧
    (∀ y s', scanCount known x s = .error (.signal (.named .typeMismatch [known .cons, y])) s' ↔
      s' = s ∧ s.heap.Ends x (.dotted y)) ∧ ∃ a, s.heap.Ends x a ∧ scanCount known x s = a.report known s :=
  ⟨fun n => scanCount_report (.proper n), scanCount_report .cyclic,
    fun y => scanCount_report (.dotted y), scanCount_ends⟩

end Scan
end Nxt.Wisp
