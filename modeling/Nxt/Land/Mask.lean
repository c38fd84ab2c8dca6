import Mathlib

/- The mask of land.hpp: a set of indices as a tree of 64-bit words. A bit of a leaf word is an
   index; a bit above says that the word below it is not zero. -/
namespace Nxt.Land
open List

abbrev Word := BitVec 64

/-- The bit for child `j`, counted from the most significant. -/
def bit (j : Nat) : Word := 1#64 <<< (63 - j)

def countlZero (w : Word) : Nat := ((range 64).find? w.getMsbD).getD 64

/-- `mask_layout`, with the first word of each level, the root's first. -/
structure Layout where
  capacity : Nat
  depth : Nat
  words : Nat
  offset : List Nat
  deriving DecidableEq

/-- The words of each level, the leaves first: the loop of `mask_layout::of`. -/
def counts : Nat → Nat → List Nat
  | 0, _ => []
  | fuel + 1, width =>
      let count := if width = 0 then 1 else width
      count :: if count > 1 then counts fuel ((width + 63) / 64) else []

def offsets : Nat → List Nat → List Nat
  | _, [] => []
  | total, count :: rest => total :: offsets (total + count) rest

namespace Layout

def maxDepth : Nat := 6

def maxCapacity : Nat := 2 ^ 36

def levels (capacity : Nat) : List Nat := (counts maxDepth ((capacity + 63) / 64)).reverse

def of (capacity : Nat) : Layout where
  capacity
  depth := (levels capacity).length
  words := (levels capacity).sum
  offset := offsets 0 (levels capacity)

section Words
variable (l : Layout)

/-- Where a word is. -/
def place (level w : Nat) : Nat := l.offset.getD level 0 + w

def peek (words : List Word) : Nat :=
  if words.getD 0 0 = 0 then l.capacity
  else (range l.depth).foldl
    (fun index level => index <<< 6 ||| countlZero (words.getD (l.place level index) 0)) 0

def contains (words : List Word) (index : Nat) : Bool :=
  index < l.capacity &&
    (words.getD (l.place (l.depth - 1) (index / 64)) 0 &&& bit (index % 64)) ≠ 0

/-- The loop of `erase` from a level up to the root. -/
def eraseFrom : Nat → Nat → List Word → List Word
  | 0, _, words => words
  | level + 1, index, words =>
      let here := l.place level (index / 64)
      let word := words.getD here 0 &&& ~~~ bit (index % 64)
      let words := words.set here word
      if word ≠ 0 then words else eraseFrom level (index / 64) words

def erase (words : List Word) (index : Nat) : List Word := l.eraseFrom l.depth index words

/-- The loop of `insert` from a level up to the root. -/
def insertFrom : Nat → Nat → List Word → List Word
  | 0, _, words => words
  | level + 1, index, words =>
      let here := l.place level (index / 64)
      let word := words.getD here 0
      let words := words.set here (word ||| bit (index % 64))
      if word ≠ 0 then words else insertFrom level (index / 64) words

def insert (words : List Word) (index : Nat) : List Word := l.insertFrom l.depth index words

def live (n : Nat) : Word := if n = 64 then BitVec.allOnes 64 else ~~~ (BitVec.allOnes 64 >>> n)

/-- The loop of `fill` from a level up to the root. -/
def fillFrom : Nat → Nat → List Word → List Word
  | 0, _, words => words
  | level + 1, members, words =>
      let count := (members + 63) / 64
      fillFrom level count <| (range count).foldl
        (fun words w => words.set (l.place level w) (live (min 64 (members - w * 64)))) words

def fill (words : List Word) : List Word := l.fillFrom l.depth l.capacity words

end Words
end Layout

structure Mask where
  layout : Layout
  words : List Word
  deriving DecidableEq

namespace Mask

/-- A mask starts empty. -/
def ofCapacity (capacity : Nat) : Mask :=
  let layout := Layout.of capacity
  { layout, words := replicate layout.words 0 }

def empty (m : Mask) : Bool := m.words.getD 0 0 = 0

def peek (m : Mask) : Nat := m.layout.peek m.words

def take (m : Mask) : Nat × Mask :=
  let index := m.peek
  (index, if index ≠ m.layout.capacity then { m with words := m.layout.erase m.words index } else m)

def give (m : Mask) (index : Nat) : Mask := { m with words := m.layout.insert m.words index }

def contains (m : Mask) (index : Nat) : Bool := m.layout.contains m.words index

def fill (m : Mask) : Mask := { m with words := m.layout.fill m.words }

end Mask

/-! ### Bits of a word -/

theorem bit_get : ∀ i < 64, ∀ j < 64, (bit j).getMsbD i = decide (i = j) := by decide +kernel

variable {w : Word} {i j : Nat}

theorem word_zero : w = 0 ↔ ∀ j < 64, w.getMsbD j = false := by
  constructor
  · rintro rfl j -
    exact BitVec.getMsbD_zero
  · intro none
    apply BitVec.eq_of_getMsbD_eq
    intro j small
    rw [none j small]
    exact BitVec.getMsbD_zero.symm

theorem clear_get (first : i < 64) (second : j < 64) :
    (w &&& ~~~ bit j).getMsbD i = (w.getMsbD i && decide (i ≠ j)) := by
  rw [BitVec.getMsbD_and, BitVec.getMsbD_not, bit_get i first j second]
  simp [first]

theorem raise_get (first : i < 64) (second : j < 64) : (w ||| bit j).getMsbD i = (w.getMsbD i || decide (i = j)) := by
  rw [BitVec.getMsbD_or, bit_get i first j second]

theorem test_bit (small : j < 64) : w &&& bit j ≠ 0 ↔ w.getMsbD j = true := by
  rw [Ne, word_zero]
  constructor
  · intro some_bit
    by_contra clear
    apply some_bit
    intro i first
    rw [BitVec.getMsbD_and, bit_get i first j small]
    by_cases same : i = j
    · subst same
      simp [clear]
    · simp [same]
  · intro set none
    have here := none j small
    rw [BitVec.getMsbD_and, bit_get j small j small, set] at here
    simp at here

theorem live_get : ∀ n ≤ 64, ∀ i < 64, (Layout.live n).getMsbD i = decide (i < n) := by
  decide +kernel

theorem countlZero_spec (some_bit : w ≠ 0) : countlZero w < 64 ∧ w.getMsbD (countlZero w) = true ∧
      ∀ j < countlZero w, w.getMsbD j = false := by
  have exists_bit : ∃ j < 64, w.getMsbD j = true := by
    by_contra none
    apply some_bit
    rw [word_zero]
    intro j small
    rw [Bool.eq_false_iff]
    exact fun set => none ⟨j, small, set⟩
  unfold countlZero
  cases found : (range 64).find? w.getMsbD with
  | none =>
    obtain ⟨j, small, set⟩ := exists_bit
    exact absurd set (find?_eq_none.mp found j (mem_range.mpr small))
  | some j =>
    have set := find?_some found
    have small := mem_range.mp (mem_of_find?_eq_some found)
    refine ⟨small, set, fun i before => ?_⟩
    change i < j at before
    rw [find?_range_eq_some] at found
    simpa using found.2.2 i before

end Nxt.Land
