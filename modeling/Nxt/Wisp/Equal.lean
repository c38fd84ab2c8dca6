import Nxt.Wisp.Arithmetic

/- Structural equality (base.wisp, `EQUAL?` and `EQUAL-LISTS?`) over the builtins it calls
   (eval.cpp). Only the heap they read is modelled: the frames and environments their calls
   allocate are no part of any value. -/
namespace Nxt.Wisp
open Nxt.Lib List

section Builtins
variable (known : Known → Word) (h : Heap)

def eqWords (x y : Word) : Word := if x = y then t else nil

def requireTag (x : Word) (type : Tag) : Step Unit :=
  if tagOf x = type then .ok ()
  else signal .typeMismatch [(typeKnown type).elim nil known, x]

/-- A record is named by its first word, or by that of the record which is its first word. -/
def recordName (r : Word) : Word :=
  let type := (h.slice .record r).getD 0 nil
  let type :=
    if tagOf type = .record ∧ (h.slice .record type).length > 1 then
      (h.slice .record type).getD 1 nil
    else type
  if tagOf type = .sym then type else known .record

def typeOf (x : Word) : Step Word :=
  if x = nil then .ok (known .nullType)
  else if x = t then .ok (known .boolean)
  else if x = top then .ok (known .continuation)
  else if tagOf x = .sys then signal .invalidValue [x]
  else if tagOf x = .record then .ok (recordName known h x)
  else .ok ((typeKnown (tagOf x)).elim nil known)

/-- `HEAD` and `TAIL`. -/
def pairPart (f : Field) (x : Word) : Step Word :=
  if x = nil then .ok nil
  else do
    requireTag known x .duo
    return h.get .duo f x

def stringEqual (x y : Word) : Step Word := do
  requireTag known x .v08
  requireTag known y .v08
  return if h.v08slice x = h.v08slice y then t else nil

/-- A builtin called from Wisp code: what it signals is wrapped with its name. -/
def calling (b : Builtin) (outcome : Step Word) : Step Word :=
  match outcome with
  | .error (.signal c) => .error (.signal (.builtinFailure (jetOf b) c))
  | outcome => outcome

/- Both functions take one unit of fuel a call. -/
mutual

def equal : Nat → Word → Word → Step Word
  | 0, _, _ => .error .undefined
  | fuel + 1, x, y =>
      if eqWords x y ≠ nil then .ok t
      else do
        let xt ← calling .typeOf (typeOf known h x)
        let yt ← calling .typeOf (typeOf known h y)
        if eqWords xt yt = nil then .ok nil
        else if eqWords xt (known .cons) ≠ nil then equalLists fuel x y
        else if eqWords xt (known .string) ≠ nil then calling .stringEqual (stringEqual known h x y)
        else .ok (eqWords x y)

def equalLists : Nat → Word → Word → Step Word
  | 0, _, _ => .error .undefined
  | fuel + 1, x, y =>
      if eqWords x nil ≠ nil then .ok (eqWords y nil)
      else if eqWords y nil ≠ nil then .ok nil
      else do
        let a ← calling .head (pairPart known h .car x)
        let b ← calling .head (pairPart known h .car y)
        if (← equal fuel a b) ≠ nil then do
          let a ← calling .tail (pairPart known h .cdr x)
          let b ← calling .tail (pairPart known h .cdr y)
          equalLists fuel a b
        else .ok nil

end

end Builtins

/-- The values the comparison is for. NIL and T are symbols. -/
inductive Tree where
  | fixnum (n : Int)
  | character (n : Nat)
  | symbol (x : Word)
  | string (bytes : List UInt8)
  | pair (a d : Tree)
  deriving DecidableEq

/-- A word stands for a finite value: an acyclic one, whatever it shares. -/
inductive Value (h : Heap) : Word → Tree → Prop where
  | fixnum {x : Word} (tag : tagOf x = .integer) : Value h x (.fixnum (integer x))
  | character {x : Word} (tag : tagOf x = .chr) : Value h x (.character (payloadOf x))
  | symbol {x : Word} (tag : tagOf x = .sym ∨ x = nil ∨ x = t) : Value h x (.symbol x)
  | string {x : Word} (tag : tagOf x = .v08) : Value h x (.string (h.v08slice x))
  | pair {x : Word} {a d : Tree} (tag : tagOf x = .duo) (first : Value h (h.get .duo .car x) a)
      (rest : Value h (h.get .duo .cdr x) d) : Value h x (.pair a d)

def Tree.size : Tree → Nat
  | .pair a d => a.size + d.size + 1
  | _ => 1

/-- The walk along two lists meets a tail that is not a list, opposite one that is not empty. -/
inductive Derails (h : Heap) : Word → Word → Prop where
  | tail {x y : Word} (left : x ≠ nil) (right : y ≠ nil)
      (atom : tagOf x ≠ .duo ∨ tagOf y ≠ .duo) : Derails h x y
  | inside {x y : Word} (left : tagOf x = .duo) (right : tagOf y = .duo)
      (apart : h.get .duo .car x ≠ h.get .duo .car y)
      (first : tagOf (h.get .duo .car x) = .duo) (second : tagOf (h.get .duo .car y) = .duo)
      (head : Derails h (h.get .duo .car x) (h.get .duo .car y)) : Derails h x y
  | later {x y : Word} {a : Tree} (left : tagOf x = .duo) (right : tagOf y = .duo)
      (first : Value h (h.get .duo .car x) a) (second : Value h (h.get .duo .car y) a)
      (rest : Derails h (h.get .duo .cdr x) (h.get .duo .cdr y)) : Derails h x y

section Types
variable {known : Known → Word} {h : Heap} {x y : Word} {a b : Tree}

theorem known_injective (named : ∀ k, h.symbolName (known k) = k.bytes) : Function.Injective known := by
  intro j k same
  apply Known.bytes_injective
  rw [← named j, ← named k, same]

theorem eqWords_ne_nil : eqWords x y ≠ nil ↔ x = y := by
  unfold eqWords
  split
  · rename_i same
    simp [same, show t ≠ nil by decide]
  · rename_i apart
    simp [apart]

theorem eqWords_eq_nil : eqWords x y = nil ↔ x ≠ y := by
  rw [← not_iff_not, not_not]
  exact eqWords_ne_nil

def valueType (x : Word) : Known :=
  if x = nil then .nullType
  else if x = t then .boolean
  else (typeKnown (tagOf x)).getD .bug

theorem valueType_tag (plain : tagOf x ≠ .sys) : valueType x = (typeKnown (tagOf x)).getD .bug := by
  have not_nil : x ≠ nil := by
    rintro rfl
    exact plain (by decide)
  have not_t : x ≠ t := by
    rintro rfl
    exact plain (by decide)
  rw [valueType, if_neg not_nil, if_neg not_t]

theorem typeOf_tag {type : Tag} {k : Known} (tag : tagOf x = type) (name : typeKnown type = some k)
    (plain : type ≠ .record) : typeOf known h x = .ok (known (valueType x)) := by
  have not_sys : tagOf x ≠ .sys := by
    intro system
    rw [← tag, system] at name
    cases name
  have not_word (w : Word) (system : tagOf w = .sys) : x ≠ w := by
    rintro rfl
    exact not_sys system
  rw [typeOf, if_neg (not_word nil (by decide)), if_neg (not_word t (by decide)),
    if_neg (not_word top (by decide)), if_neg not_sys, if_neg (by rw [tag]; exact plain),
    valueType_tag not_sys, tag, name]
  rfl

theorem typeOf_value (value : Value h x a) : typeOf known h x = .ok (known (valueType x)) := by
  cases value with
  | fixnum tag => exact typeOf_tag tag rfl (by decide)
  | character tag => exact typeOf_tag tag rfl (by decide)
  | string tag => exact typeOf_tag tag rfl (by decide)
  | pair tag _ _ => exact typeOf_tag tag rfl (by decide)
  | symbol tag =>
    rcases tag with named | rfl | rfl
    · exact typeOf_tag named rfl (by decide)
    · rfl
    · rfl

theorem valueType_parts (value : Value h x a) :
    (valueType x = .cons ↔ tagOf x = .duo) ∧ (valueType x = .string ↔ tagOf x = .v08) := by
  cases value with
  | fixnum tag => rw [valueType_tag (by rw [tag]; decide), tag]; decide
  | character tag => rw [valueType_tag (by rw [tag]; decide), tag]; decide
  | string tag => rw [valueType_tag (by rw [tag]; decide), tag]; decide
  | pair tag _ _ => rw [valueType_tag (by rw [tag]; decide), tag]; decide
  | symbol tag =>
    rcases tag with named | rfl | rfl
    · rw [valueType_tag (by rw [named]; decide), named]; decide
    · decide
    · decide

theorem integer_injective (left : tagOf x = .integer) (right : tagOf y = .integer)
    (same : integer x = integer y) : x = y := by
  have first := integer_small left
  have second := integer_small right
  rw [← UInt32.toNat_inj]
  unfold integer at same
  omega

theorem character_code (tag : tagOf x = .chr) : x.toNat / 2 ^ 27 = 0x12 := by
  unfold tagOf at tag
  split at tag
  · cases tag
  · unfold Tag.ofCode at tag
    split at tag <;> first | assumption | cases tag

theorem character_injective (left : tagOf x = .chr) (right : tagOf y = .chr)
    (same : payloadOf x = payloadOf y) : x = y := by
  have first := character_code left
  have second := character_code right
  rw [← UInt32.toNat_inj]
  unfold payloadOf at same
  omega

theorem value_word (left : Value h x a) (right : Value h y a) :
    valueType x = valueType y ∧ (tagOf x = .duo ∨ tagOf x = .v08 ∨ x = y) := by
  have tags {type : Tag} (first : tagOf x = type) (second : tagOf y = type) (plain : type ≠ .sys) :
      valueType x = valueType y := by
    rw [valueType_tag (by rw [first]; exact plain), valueType_tag (by rw [second]; exact plain),
      first, second]
  cases left with
  | fixnum tag =>
    generalize value : integer x = n at right
    cases right with
    | fixnum other =>
      exact ⟨tags tag other (by decide), Or.inr (Or.inr (integer_injective tag other value))⟩
  | character tag =>
    generalize value : payloadOf x = n at right
    cases right with
    | character other =>
      exact ⟨tags tag other (by decide), Or.inr (Or.inr (character_injective tag other value))⟩
  | symbol tag =>
    cases right with
    | symbol other => exact ⟨rfl, Or.inr (Or.inr rfl)⟩
  | string tag =>
    generalize h.v08slice x = bytes at right
    cases right with
    | string other => exact ⟨tags tag other (by decide), Or.inr (Or.inl tag)⟩
  | pair tag _ _ =>
    cases right with
    | pair other _ _ => exact ⟨tags tag other (by decide), Or.inl tag⟩

def Tree.tags : Tree → List Tag
  | .fixnum _ => [.integer]
  | .character _ => [.chr]
  | .symbol _ => [.sym, .sys]
  | .string _ => [.v08]
  | .pair _ _ => [.duo]

theorem value_tag (value : Value h x a) : tagOf x ∈ a.tags := by
  cases value with
  | fixnum tag => simp [Tree.tags, tag]
  | character tag => simp [Tree.tags, tag]
  | string tag => simp [Tree.tags, tag]
  | pair tag _ _ => simp [Tree.tags, tag]
  | symbol tag =>
    rcases tag with named | rfl | rfl
    · simp [Tree.tags, named]
    · exact mem_cons_of_mem _ (by decide)
    · exact mem_cons_of_mem _ (by decide)

theorem value_unique (left : Value h x a) (right : Value h x b) : a = b := by
  have tag := value_tag right
  induction left generalizing b with
  | fixnum first => cases right <;> simp_all [Tree.tags]
  | character first => cases right <;> simp_all [Tree.tags]
  | symbol first =>
    have left := value_tag (.symbol first : Value h _ _)
    cases right <;> simp_all [Tree.tags]
  | string first => cases right <;> simp_all [Tree.tags]
  | pair first _ _ ihFirst ihRest =>
    cases right with
    | pair _ second rest => rw [ihFirst second (value_tag second), ihRest rest (value_tag rest)]
    | fixnum other => simp_all
    | character other => simp_all
    | symbol other => simp_all [Tree.tags]
    | string other => simp_all

end Types

section Walk
variable {known : Known → Word} {h : Heap} {x y : Word} {a b : Tree}

def truth (p : Prop) [Decidable p] : Word := if p then t else nil

theorem truth_ne_nil {p : Prop} [Decidable p] : truth p ≠ nil ↔ p := by
  unfold truth
  split
  · rename_i holds
    simp [holds, show t ≠ nil by decide]
  · rename_i fails
    simp [fails]

theorem calling_ok (f : Builtin) (w : Word) : calling f (.ok w) = .ok w := rfl

theorem pairPart_duo (f : Field) (tag : tagOf x = .duo) : pairPart known h f x = .ok (h.get .duo f x) := by
  have cell : x ≠ nil := by
    rintro rfl
    exact absurd tag (by decide)
  rw [pairPart, if_neg cell, requireTag, if_pos tag]
  rfl

theorem pairPart_atom (f : Field) (b : Builtin) (some : x ≠ nil) (atom : tagOf x ≠ .duo) : calling b
    (pairPart known h f x) = .error (.signal (.builtinFailure (jetOf b) (.named .typeMismatch [known .cons, x]))) := by
  rw [pairPart, if_neg some, requireTag, if_neg atom]
  rfl

theorem equal_apart (inj : Function.Injective known) (fuel : Nat) (left : Value h x a)
    (right : Value h y b) (apart : x ≠ y) : equal known h (fuel + 1) x y =
      if valueType x ≠ valueType y then .ok nil else if tagOf x = .duo then equalLists known h fuel x y
      else if tagOf x = .v08 then .ok (truth (h.v08slice x = h.v08slice y)) else .ok nil := by
  have different : eqWords x y = nil := eqWords_eq_nil.mpr apart
  rw [equal, if_neg (by rw [different]; simp), typeOf_value left, typeOf_value right]
  simp only [calling_ok, Bind.bind, Except.bind, eqWords_eq_nil, eqWords_ne_nil, inj.ne_iff, inj.eq_iff]
  split
  · rfl
  · rename_i types
    rw [not_not] at types
    simp only [(valueType_parts left).1, (valueType_parts left).2]
    split
    · rfl
    · split
      · rename_i text
        have other : tagOf y = .v08 := by
          rw [← (valueType_parts right).2, ← types]
          exact (valueType_parts left).2.mpr text
        rw [stringEqual, requireTag, requireTag, if_pos text, if_pos other]
        rfl
      · rw [different]

theorem equalLists_pairs (fuel : Nat) (left : tagOf x = .duo) (right : tagOf y = .duo) :
    equalLists known h (fuel + 1) x y = (do
      if (← equal known h fuel (h.get .duo .car x) (h.get .duo .car y)) ≠ nil then
        equalLists known h fuel (h.get .duo .cdr x) (h.get .duo .cdr y)
      else .ok nil) := by
  have cell {z : Word} (tag : tagOf z = .duo) : ¬ eqWords z nil ≠ nil := by
    rw [eqWords_ne_nil]
    rintro rfl
    exact absurd tag (by decide)
  rw [equalLists, if_neg (cell left), if_neg (cell right)]
  simp only [pairPart_duo _ left, pairPart_duo _ right, calling_ok]
  rfl

theorem truth_congr {p q : Prop} [Decidable p] [Decidable q] (iff : p ↔ q) : truth p = truth q := by
  simp only [truth, iff]

theorem truth_false {p : Prop} [Decidable p] (fails : ¬ p) : nil = truth p := (if_neg fails).symm

theorem value_string (left : Value h x a) (tag : tagOf x = .v08) :
    a = .string (h.v08slice x) := value_unique left (.string tag)

/-- One call of `EQUAL?`: it answers by itself unless both values are pairs. -/
theorem equal_step (inj : Function.Injective known) (fuel : Nat) (left : Value h x a)
    (right : Value h y b) : equal known h (fuel + 1) x y =
      if x ≠ y ∧ tagOf x = .duo ∧ tagOf y = .duo then equalLists known h fuel x y else .ok (truth (a = b)) := by
  by_cases same : x = y
  · subst same
    rw [equal, if_pos (eqWords_ne_nil.mpr rfl), if_neg (by simp), value_unique left right, truth, if_pos rfl]
  · have unequal (other : ¬ (tagOf x = .duo ∨ tagOf x = .v08)) : a ≠ b := by
      rintro rfl
      rcases (value_word left right).2 with pair | text | word
      · exact other (Or.inl pair)
      · exact other (Or.inr text)
      · exact same word
    rw [equal_apart inj fuel left right same]
    by_cases types : valueType x = valueType y
    · have pairs : tagOf x = .duo → tagOf y = .duo := by
        rw [← (valueType_parts left).1, ← (valueType_parts right).1, types]
        exact id
      rw [if_neg (not_not.mpr types)]
      by_cases pair : tagOf x = .duo
      · rw [if_pos pair, if_pos ⟨same, pair, pairs pair⟩]
      · have not_pairs : ¬ (x ≠ y ∧ tagOf x = .duo ∧ tagOf y = .duo) := fun both => pair both.2.1
        rw [if_neg pair, if_neg not_pairs]
        split
        · rename_i text
          have other : tagOf y = .v08 := by
            rw [← (valueType_parts right).2, ← types]
            exact (valueType_parts left).2.mpr text
          rw [value_string left text, value_string right other]
          exact congrArg _ (truth_congr (by simp))
        · rename_i leaf
          exact congrArg _ (truth_false (unequal (not_or.mpr ⟨pair, leaf⟩)))
    · have different : a ≠ b := by
        rintro rfl
        exact types (value_word left right).1
      have not_pairs : ¬ (x ≠ y ∧ tagOf x = .duo ∧ tagOf y = .duo) := by
        rintro ⟨_, first, second⟩
        exact types (((valueType_parts left).1.mpr first).trans ((valueType_parts right).1.mpr second).symm)
      rw [if_pos types, if_neg not_pairs]
      exact congrArg _ (truth_false different)

theorem value_nil (left : Value h nil a) : a = .symbol nil :=
  value_unique left (.symbol (Or.inr (Or.inl rfl)))

theorem symbol_word {w : Word} (value : Value h x (.symbol w)) : x = w := by
  cases value
  rfl

theorem equalLists_end (fuel : Nat) (left : Value h x a) (right : Value h y b)
    (ends : x = nil ∨ y = nil) : equalLists known h (fuel + 1) x y = .ok (truth (a = b)) := by
  rw [equalLists]
  by_cases first : x = nil
  · subst first
    rw [if_pos (eqWords_ne_nil.mpr rfl), value_nil left]
    have same : y = nil ↔ Tree.symbol nil = b := by
      constructor
      · rintro rfl
        exact (value_nil right).symm
      · rintro rfl
        exact symbol_word right
    exact congrArg _ (truth_congr same)
  · obtain rfl : y = nil := ends.resolve_left first
    have different : a ≠ b := by
      rw [value_nil right]
      rintro rfl
      exact first (symbol_word left)
    rw [if_neg (by rw [eqWords_ne_nil]; exact first), if_pos (eqWords_ne_nil.mpr rfl)]
    exact congrArg _ (truth_false different)

theorem equalLists_atom (fuel : Nat) (left : x ≠ nil) (right : y ≠ nil) (atom : tagOf x ≠ .duo ∨ tagOf y ≠ .duo) :
    equalLists known h (fuel + 1) x y = .error (.signal (.builtinFailure (jetOf .head)
      (.named .typeMismatch [known .cons, if tagOf x = .duo then y else x]))) := by
  rw [equalLists, if_neg (by rw [eqWords_ne_nil]; exact left),
    if_neg (by rw [eqWords_ne_nil]; exact right)]
  by_cases pair : tagOf x = .duo
  · rw [pairPart_duo _ pair, calling_ok,
      pairPart_atom .car .head right (atom.resolve_left (not_not.mpr pair)), if_pos pair]
    rfl
  · rw [pairPart_atom .car .head left pair, if_neg pair]
    rfl

theorem value_pair (left : Value h x a) (tag : tagOf x = .duo) :
    ∃ first rest, a = .pair first rest ∧ Value h (h.get .duo .car x) first ∧ Value h (h.get .duo .cdr x) rest := by
  have form := value_tag left
  rw [tag] at form
  cases left with
  | pair _ head tail => exact ⟨_, _, rfl, head, tail⟩
  | fixnum => simp [Tree.tags] at form
  | character => simp [Tree.tags] at form
  | symbol => simp [Tree.tags] at form
  | string => simp [Tree.tags] at form

theorem answers_sound (inj : Function.Injective known) (fuel : Nat) :
    (∀ {x y : Word} {a b : Tree} {r : Word}, Value h x a → Value h y b →
      equal known h fuel x y = .ok r → r = truth (a = b)) ∧
    (∀ {x y : Word} {a b : Tree} {r : Word}, Value h x a → Value h y b →
      equalLists known h fuel x y = .ok r → r = truth (a = b)) := by
  induction fuel with
  | zero =>
    constructor
    · intro x y a b r _ _ answer
      cases answer
    · intro x y a b r _ _ answer
      cases answer
  | succ fuel ih =>
    constructor
    · intro x y a b r left right answer
      rw [equal_step inj fuel left right] at answer
      split at answer
      · exact ih.2 left right answer
      · cases answer
        rfl
    · intro x y a b r left right answer
      by_cases ends : x = nil ∨ y = nil
      · rw [equalLists_end fuel left right ends] at answer
        cases answer
        rfl
      · obtain ⟨first, second⟩ := not_or.mp ends
        by_cases atom : tagOf x ≠ .duo ∨ tagOf y ≠ .duo
        · rw [equalLists_atom fuel first second atom] at answer
          cases answer
        · obtain ⟨pair, other⟩ := not_or.mp atom
          rw [not_not] at pair other
          obtain ⟨a₁, a₂, rfl, head, tail⟩ := value_pair left pair
          obtain ⟨b₁, b₂, rfl, head', tail'⟩ := value_pair right other
          rw [equalLists_pairs fuel pair other] at answer
          obtain ⟨same, heads, answer⟩ := bind_ok answer
          rw [ih.1 head head' heads] at answer
          split at answer
          · rename_i agree
            rw [truth_ne_nil] at agree
            rw [ih.2 tail tail' answer]
            exact truth_congr (by simp [agree])
          · rename_i differ
            rw [truth_ne_nil] at differ
            cases answer
            exact truth_false (by simp [differ])

/-- The comparison of two words as elements reaches such a tail. -/
def Reaches (h : Heap) (x y : Word) : Prop :=
  x ≠ y ∧ tagOf x = .duo ∧ tagOf y = .duo ∧ Derails h x y

theorem Tree.size_pos (a : Tree) : 0 < a.size := by cases a <;> simp [Tree.size]

theorem answers_total (inj : Function.Injective known) (fuel : Nat) :
    (∀ {x y : Word} {a b : Tree}, Value h x a → Value h y b → ¬ Reaches h x y →
      2 * a.size ≤ fuel → ∃ r, equal known h fuel x y = .ok r) ∧
    (∀ {x y : Word} {a b : Tree}, Value h x a → Value h y b → ¬ Derails h x y →
      2 * a.size ≤ fuel + 1 → ∃ r, equalLists known h fuel x y = .ok r) := by
  induction fuel with
  | zero =>
    constructor
    · intro x y a b _ _ _ enough
      have some := a.size_pos
      omega
    · intro x y a b _ _ _ enough
      have some := a.size_pos
      omega
  | succ fuel ih =>
    constructor
    · intro x y a b left right clear enough
      rw [equal_step inj fuel left right]
      split
      · rename_i pairs
        exact ih.2 left right (fun derails => clear ⟨pairs.1, pairs.2.1, pairs.2.2, derails⟩)
          (by omega)
      · exact ⟨_, rfl⟩
    · intro x y a b left right clear enough
      by_cases ends : x = nil ∨ y = nil
      · exact ⟨_, equalLists_end fuel left right ends⟩
      · obtain ⟨first, second⟩ := not_or.mp ends
        by_cases atom : tagOf x ≠ .duo ∨ tagOf y ≠ .duo
        · exact absurd (.tail first second atom) clear
        · obtain ⟨pair, other⟩ := not_or.mp atom
          rw [not_not] at pair other
          obtain ⟨a₁, a₂, rfl, head, tail⟩ := value_pair left pair
          obtain ⟨b₁, b₂, rfl, head', tail'⟩ := value_pair right other
          have size : (Tree.pair a₁ a₂).size = a₁.size + a₂.size + 1 := rfl
          obtain ⟨r, heads⟩ := ih.1 head head'
            (fun reaches => clear (.inside pair other reaches.1 reaches.2.1 reaches.2.2.1
              reaches.2.2.2)) (by omega)
          rw [equalLists_pairs fuel pair other, heads]
          obtain rfl := (answers_sound inj fuel).1 head head' heads
          change ∃ r, (if truth (a₁ = b₁) ≠ nil then _ else _) = Except.ok r
          split
          · rename_i agree
            rw [truth_ne_nil] at agree
            subst agree
            exact ih.2 tail tail' (fun derails => clear (.later pair other head head' derails))
              (by omega)
          · exact ⟨_, rfl⟩

theorem derails_errors (inj : Function.Injective known) (derails : Derails h x y)
    (left : Value h x a) (right : Value h y b) (fuel : Nat) : ∀ r, equalLists known h fuel x y ≠ .ok r := by
  induction derails generalizing a b fuel with
  | tail first second atom =>
    intro r answer
    cases fuel with
    | zero => cases answer
    | succ fuel =>
      rw [equalLists_atom fuel first second atom] at answer
      cases answer
  | inside pair other apart first second _ ih =>
    intro r answer
    cases fuel with
    | zero => cases answer
    | succ fuel =>
      obtain ⟨a₁, a₂, rfl, head, tail⟩ := value_pair left pair
      obtain ⟨b₁, b₂, rfl, head', tail'⟩ := value_pair right other
      rw [equalLists_pairs fuel pair other] at answer
      obtain ⟨same, heads, _⟩ := bind_ok answer
      cases fuel with
      | zero => cases heads
      | succ fuel =>
        rw [equal_step inj fuel head head', if_pos ⟨apart, first, second⟩] at heads
        exact ih head head' fuel same heads
  | later pair other first second _ ih =>
    intro r answer
    cases fuel with
    | zero => cases answer
    | succ fuel =>
      obtain ⟨a₁, a₂, rfl, head, tail⟩ := value_pair left pair
      obtain ⟨b₁, b₂, rfl, head', tail'⟩ := value_pair right other
      obtain rfl := value_unique first head
      obtain rfl := value_unique second head'
      rw [equalLists_pairs fuel pair other] at answer
      obtain ⟨same, heads, answer⟩ := bind_ok answer
      rw [(answers_sound inj fuel).1 head head' heads, if_pos (truth_ne_nil.mpr rfl)] at answer
      exact ih tail tail' fuel r answer

end Walk

/-- `EQUAL?` comes back, whenever it has enough calls, with whether the values are the same. -/
def Decides (known : Known → Word) (h : Heap) (x y : Word) (p : Prop) : Prop :=
  ∃ n, ∀ fuel ≥ n, ∃ r, equal known h fuel x y = .ok r ∧ (r ≠ nil ↔ p)

section Decision
variable {known : Known → Word} {h : Heap} {x y : Word} {a b : Tree}

theorem reaches_undecided (inj : Function.Injective known) (left : Value h x a)
    (right : Value h y b) (reaches : Reaches h x y) : ¬ Decides known h x y (a = b) := by
  obtain ⟨apart, pair, other, derails⟩ := reaches
  rintro ⟨n, decides⟩
  obtain ⟨r, answer, _⟩ := decides (n + 1) (Nat.le_succ n)
  rw [equal_step inj n left right, if_pos ⟨apart, pair, other⟩] at answer
  exact derails_errors inj derails left right n r answer

theorem clear_decided (inj : Function.Injective known) (left : Value h x a)
    (right : Value h y b) (clear : ¬ Reaches h x y) : Decides known h x y (a = b) := by
  refine ⟨2 * a.size, fun fuel enough => ?_⟩
  obtain ⟨r, answer⟩ := (answers_total inj fuel).1 left right clear enough
  refine ⟨r, answer, ?_⟩
  rw [(answers_sound inj fuel).1 left right answer]
  exact truth_ne_nil

end Decision

/-- Structural equality is decided unless two lists of equal elements so far, not the same cell
    to begin with, go on with a tail that is no list opposite one that is not empty. -/
theorem equal_structural (known : Known → Word) (h : Heap) (named : ∀ k, h.symbolName (known k) = k.bytes) (x y : Word)
    (a b : Tree) (left : Value h x a) (right : Value h y b) : Decides known h x y (a = b) ↔ ¬ Reaches h x y := by
  have inj := known_injective named
  exact ⟨fun decides reaches => reaches_undecided inj left right reaches decides, clear_decided inj left right⟩

/-- A machine's names, the symbols in the order of the list, and some pairs. -/
def namedHeap (pairs : Table) : Heap where
  vat := { duo := pairs
           sym := (List.range Known.all.length).map fun i => [pointer .v08 i false]
           v08 := (List.range Known.all.length).map fun i =>
             [UInt32.ofNat ((Known.all.take i).map fun k => k.bytes.length).sum,
              UInt32.ofNat ((Known.all.getD i .quote).bytes.length)] }
  bytes := Known.all.flatMap Known.bytes

def namedKnown (k : Known) : Word := pointer .sym (Known.all.idxOf k) false

def somePairs : Table :=
  [[fixnum 1, fixnum 2], [fixnum 1, fixnum 2], [fixnum 1, nil], [fixnum 1, nil]]

theorem namedHeap_named (k : Known) : (namedHeap somePairs).symbolName (namedKnown k) = k.bytes := by
  have held := Known.mem_all k
  generalize index : Known.all.idxOf k = i
  have place : i < Known.all.length := index ▸ idxOf_lt_length_of_mem held
  have here : Known.all.getD i .quote = k := by
    subst index
    rw [getD_eq_getElem _ _ place, getElem_idxOf]
  have sizes : (Known.all.map fun k => k.bytes.length).sum ≤ 2 ^ 20 ∧ Known.all.length ≤ 2 ^ 20 := by
    simp only [Known.bytes_eq]
    decide +kernel
  have split := congrArg (fun ks => (ks.map fun k => k.bytes.length).sum) (take_append_drop i Known.all)
  have later : Known.all.drop i = k :: Known.all.drop (i + 1) := by
    rw [drop_eq_getElem_cons place, ← getD_eq_getElem _ .quote place, here]
  simp only [later, map_append, sum_append, map_cons, sum_cons] at split
  have small {n : Nat} (bound : n ≤ 2 ^ 20) : (UInt32.ofNat n).toNat = n := by
    rw [UInt32.toNat_ofNat']
    exact Nat.mod_eq_of_lt (by omega)
  have row {f : Nat → Row} : ((List.range Known.all.length).map f).getD i [] = f i := by
    rw [getD_eq_getElem _ _ (by simpa using place), getElem_map, getElem_range]
  have symbol : (namedHeap somePairs).get .sym .str (namedKnown k) = pointer .v08 i false := by
    rw [Heap.get, Heap.read, namedKnown, index, indexOf_pointer .sym false (by omega)]
    exact congrArg (fun data => data.getD 0 0) (row (f := fun i => [pointer .v08 i false]))
  have text : (namedHeap somePairs).read .v08 (pointer .v08 i false) =
      [UInt32.ofNat ((Known.all.take i).map fun k => k.bytes.length).sum, UInt32.ofNat k.bytes.length] := by
    rw [Heap.read, indexOf_pointer .v08 false (by omega)]
    refine (row (f := fun i => [UInt32.ofNat ((Known.all.take i).map fun k => k.bytes.length).sum,
      UInt32.ofNat (Known.all.getD i .quote).bytes.length])).trans ?_
    rw [here]
  have whole : Known.all.flatMap Known.bytes = (Known.all.take i).flatMap Known.bytes ++
      (k.bytes ++ (Known.all.drop (i + 1)).flatMap Known.bytes) := by
    rw [← flatMap_cons, ← later, ← flatMap_append, take_append_drop]
  rw [Heap.symbolName, symbol, Heap.v08slice, Heap.get, Heap.get, text]
  show ((Known.all.flatMap Known.bytes).drop (UInt32.ofNat _).toNat).take (UInt32.ofNat _).toNat = _
  rw [small (by omega), small (by omega), whole, drop_left' length_flatMap, take_left]

theorem value_fixnum (h : Heap) {n : Int} (range : fixnumRange n) : Value h (fixnum n) (.fixnum n) := by
  have value := Value.fixnum (h := h) (tagOf_fixnum n)
  rwa [integer_fixnum range] at value

theorem somePairs_values : ∀ i < 2, Value (namedHeap somePairs) (pointer .duo i false) (.pair (.fixnum 1) (.fixnum 2)) ∧
    Value (namedHeap somePairs) (pointer .duo (i + 2) false) (.pair (.fixnum 1) (.symbol nil)) := by
  intro i bound
  have cells : ∀ i < 2,
      (namedHeap somePairs).read .duo (pointer .duo i false) = [fixnum 1, fixnum 2] ∧
      (namedHeap somePairs).read .duo (pointer .duo (i + 2) false) = [fixnum 1, nil] := by
    decide +kernel
  obtain ⟨dotted, proper⟩ := cells i bound
  have one : fixnumRange 1 := by decide
  have two : fixnumRange 2 := by decide
  constructor
  · apply Value.pair (tagOf_pointer .duo _ (by omega))
    · rw [Heap.get, dotted]
      exact value_fixnum _ one
    · rw [Heap.get, dotted]
      exact value_fixnum _ two
  · apply Value.pair (tagOf_pointer .duo _ (by omega))
    · rw [Heap.get, proper]
      exact value_fixnum _ one
    · rw [Heap.get, proper]
      exact .symbol (Or.inr (Or.inl rfl))

/-- `(equal? '(1 . 2) '(1 . 2))` signals: the walk takes the head of 2. -/
theorem equal_dotted : equal namedKnown (namedHeap somePairs) 3 (pointer .duo 0 false) (pointer .duo 1 false) =
      .error (.signal (.builtinFailure (jetOf .head) (.named .typeMismatch [namedKnown .cons, fixnum 2]))) ∧
    ¬ ∀ (known : Known → Word) (h : Heap), (∀ k, h.symbolName (known k) = k.bytes) →
      ∀ (x y : Word) (a b : Tree), Value h x a → Value h y b → Decides known h x y (a = b) := by
  refine ⟨by decide +kernel, fun claim => ?_⟩
  have inj := known_injective namedHeap_named
  have left := (somePairs_values 0 (by decide)).1
  have right := (somePairs_values 1 (by decide)).1
  have atom : tagOf ((namedHeap somePairs).get .duo .cdr (pointer .duo 0 false)) ≠ .duo ∧
      (namedHeap somePairs).get .duo .cdr (pointer .duo 0 false) ≠ nil ∧
      (namedHeap somePairs).get .duo .cdr (pointer .duo 1 false) ≠ nil := by decide +kernel
  have one := value_fixnum (namedHeap somePairs) (show fixnumRange 1 by decide)
  have heads : (namedHeap somePairs).get .duo .car (pointer .duo 0 false) = fixnum 1 ∧
      (namedHeap somePairs).get .duo .car (pointer .duo 1 false) = fixnum 1 := by decide +kernel
  have reaches : Reaches (namedHeap somePairs) (pointer .duo 0 false) (pointer .duo 1 false) := by
    refine ⟨by decide, by decide, by decide, ?_⟩
    apply Derails.later (a := .fixnum 1) (by decide) (by decide)
    · rw [heads.1]
      exact one
    · rw [heads.2]
      exact one
    · exact .tail atom.2.1 atom.2.2 (Or.inl atom.1)
  exact reaches_undecided inj left right reaches (claim _ _ namedHeap_named _ _ _ _ left right)

theorem derails_some {h : Heap} {x y : Word} (derails : Derails h x y) : x ≠ nil := by
  have pair {z : Word} (tag : tagOf z = .duo) : z ≠ nil := by
    rintro rfl
    exact absurd tag (by decide)
  cases derails with
  | tail left _ _ => exact left
  | inside left _ _ _ _ _ => exact pair left
  | later left _ _ _ _ => exact pair left

/-- Two proper lists of one element are equal. -/
theorem equal_structural_proper :
    Decides namedKnown (namedHeap somePairs) (pointer .duo 2 false) (pointer .duo 3 false) True := by
  have ends : (namedHeap somePairs).get .duo .cdr (pointer .duo 2 false) = nil ∧
      tagOf ((namedHeap somePairs).get .duo .car (pointer .duo 2 false)) = .integer := by
    decide +kernel
  have clear : ¬ Reaches (namedHeap somePairs) (pointer .duo 2 false) (pointer .duo 3 false) := by
    rintro ⟨_, _, _, derails⟩
    cases derails with
    | tail _ _ atom =>
      rcases atom with first | second
      · exact first (by decide)
      · exact second (by decide)
    | inside _ _ _ first _ _ =>
      rw [ends.2] at first
      cases first
    | later _ _ _ _ rest => exact derails_some rest ends.1
  have decides := (equal_structural namedKnown (namedHeap somePairs) namedHeap_named _ _ _ _
    (somePairs_values 0 (by decide)).2 (somePairs_values 1 (by decide)).2).mpr clear
  simpa using decides

end Nxt.Wisp
