import Nxt.Ui.Columns

/- Clusters counted from the start of a text (utf8.hpp): the index of a byte and the byte of an index, and how these
   and the columns undo each other. -/
namespace Nxt.Ui
open Nxt.Lib

section Counts
variable (u : Utf8proc)

/-- The loop of `count`. -/
def countFrom (text : Bytes) (b n : Nat) : Nat :=
  if _more : b < text.length then countFrom text (next u text b) (n + 1) else n
  termination_by text.length - b
  decreasing_by
    have bounds := next_bounds u _more
    omega

def count (text : Bytes) : Nat := countFrom u text 0 0

/-- The loop of `byte_at` with `cells` more to go. -/
def byteAtFrom (text : Bytes) : Nat → Nat → Nat
  | 0, b => b
  | cells + 1, b => if b < text.length then byteAtFrom text cells (next u text b) else b

def byteAt (text : Bytes) (cell : Nat) : Nat := byteAtFrom u text cell 0

def cellFrom (text : Bytes) (byte b i : Nat) : Nat :=
  if _more : b < byte ∧ b < text.length then cellFrom text byte (next u text b) (i + 1) else i
  termination_by text.length - b
  decreasing_by
    have bounds := next_bounds u _more.2
    omega

def cellAt (text : Bytes) (byte : Nat) : Nat := cellFrom u text (floorBoundary u text byte) 0 0

end Counts

section Steps
variable {u : Utf8proc} {text : Bytes} {b byte : Nat}

theorem byteAtFrom_iterate (cells : Nat) (most : b ≤ text.length) :
    byteAtFrom u text cells b = (next u text)^[cells] b := by
  induction cells generalizing b with
  | zero => rfl
  | succ cells ih =>
    rw [byteAtFrom, Function.iterate_succ_apply]
    by_cases inside : b < text.length
    · rw [if_pos inside]
      exact ih (next_le b)
    · obtain rfl : b = text.length := by omega
      rw [if_neg inside, ← ih (next_le _), next_end le_rfl]
      cases cells with
      | zero => rfl
      | succ cells => rw [byteAtFrom, if_neg inside]

theorem byteAt_iterate (cell : Nat) : byteAt u text cell = (next u text)^[cell] 0 :=
  byteAtFrom_iterate cell (Nat.zero_le _)

theorem byteAt_boundary (cell : Nat) : Boundary u text (byteAt u text cell) := ⟨cell, (byteAt_iterate cell).symm⟩

theorem byteAt_succ (cell : Nat) : byteAt u text (cell + 1) = next u text (byteAt u text cell) := by
  rw [byteAt_iterate, byteAt_iterate, Function.iterate_succ_apply']

theorem Boundary.byteAt (on : Boundary u text b) : ∃ cell, Ui.byteAt u text cell = b := by
  obtain ⟨k, reached⟩ := on
  exact ⟨k, (byteAt_iterate k).trans reached⟩

theorem cellFrom_byteAt {cell first : Nat} (order : first ≤ cell) (inside : ∀ k < cell, byteAt u text k < text.length) :
    cellFrom u text (byteAt u text cell) (byteAt u text first) first = cell := by
  induction order using Nat.decreasingInduction with
  | of_succ k less ih =>
    have more : byteAt u text k < byteAt u text cell := by
      have up := iterate_mono u text (Nat.succ_le_of_lt less)
      have step := (next_bounds u (inside k less)).1
      dsimp only at up
      rw [← byteAt_iterate, ← byteAt_iterate, byteAt_succ] at up
      omega
    rw [cellFrom, dif_pos ⟨more, inside k less⟩, ← byteAt_succ]
    exact ih
  | self => rw [cellFrom, dif_neg fun more => absurd more.1 (lt_irrefl _)]

theorem countFrom_byteAt {cell : Nat} (inside : ∀ k < cell, byteAt u text k < text.length) :
    countFrom u text (byteAt u text cell) cell = count u text := by
  induction cell with
  | zero => rfl
  | succ cell ih =>
    have before := ih fun k less => inside k (by omega)
    rw [countFrom, dif_pos (inside cell (Nat.lt_succ_self _)), ← byteAt_succ] at before
    exact before

theorem countFrom_le (n : Nat) : n ≤ countFrom u text b n := by
  induction b, n using countFrom.induct u text with
  | case1 b n more ih =>
    rw [countFrom, dif_pos more]
    omega
  | case2 b n done => rw [countFrom, dif_neg done]

theorem byteAt_lt_iff (cell : Nat) : byteAt u text cell < text.length ↔ cell < count u text := by
  induction cell using Nat.strongRecOn with
  | _ cell ih =>
    by_cases before : ∀ k < cell, byteAt u text k < text.length
    · have counted := countFrom_byteAt before
      rw [← counted]
      constructor
      · intro inside
        rw [countFrom, dif_pos inside]
        exact Nat.lt_of_succ_le (countFrom_le (cell + 1))
      · intro less
        by_contra done
        rw [countFrom, dif_neg done] at less
        exact absurd less (lt_irrefl _)
    · push Not at before
      obtain ⟨k, less, done⟩ := before
      have stop := (ih k less).not.mp (by omega)
      have up := iterate_mono u text less.le
      dsimp only at up
      rw [← byteAt_iterate, ← byteAt_iterate] at up
      constructor <;> intro <;> omega

theorem count_byteAt : byteAt u text (count u text) = text.length := by
  have most := (@byteAt_boundary u text (count u text)).le
  have done := (@byteAt_lt_iff u text (count u text)).not.mpr (lt_irrefl _)
  omega

theorem cellAt_byteAt {cell : Nat} (most : cell ≤ count u text) : cellAt u text (byteAt u text cell) = cell := by
  have on := @byteAt_boundary u text cell
  rw [cellAt, (floorBoundary_iff on.le).mpr on]
  exact cellFrom_byteAt (Nat.zero_le _) fun k less => (byteAt_lt_iff k).mpr (by omega)

section
variable (on : Boundary u text b)
include on

theorem Boundary.cell : ∃ cell ≤ count u text, Ui.byteAt u text cell = b := by
  obtain ⟨cell, rfl⟩ := on.byteAt
  by_cases most : cell ≤ count u text
  · exact ⟨cell, most, rfl⟩
  · have done := (@byteAt_lt_iff u text cell).not.mpr (by omega)
    have le := on.le
    refine ⟨count u text, le_rfl, ?_⟩
    rw [count_byteAt]
    omega

theorem byteAt_cellAt : byteAt u text (cellAt u text b) = b := by
  obtain ⟨cell, most, rfl⟩ := on.cell
  rw [cellAt_byteAt most]

theorem cellAt_le : cellAt u text b ≤ count u text := by
  obtain ⟨cell, most, rfl⟩ := on.cell
  rw [cellAt_byteAt most]
  exact most

theorem byteAtColumn_columnAt : byteAtColumn u text (columnAt u text b) = b := by
  obtain ⟨there, before, -⟩ := byteAtColumn_spec (u := u) text (columnAt u text b)
  have least := (le_byteAtColumn on (columnAt u text b)).mpr le_rfl
  by_contra other
  have later := columnAt_lt on there (by omega)
  omega

theorem prev_next (inside : b < text.length) : prev u text (next u text b) = b := by
  have step := (next_bounds u inside).1
  obtain ⟨before, back, less⟩ := prev_spec on.step (by omega)
  by_contra other
  rcases Nat.lt_or_gt_of_ne other with early | late
  · have near := before.next_le_of_lt on early
    omega
  · have near := on.next_le_of_lt before late
    omega

theorem le_floorBoundary : b ≤ floorBoundary u text byte ↔ b ≤ byte := by
  by_cases inside : byte < text.length
  · obtain ⟨floor, before, after⟩ := floorBoundary_spec (u := u) inside
    constructor
    · omega
    · intro order
      by_contra late
      have near := floor.next_le_of_lt on (by omega)
      omega
  · have most := on.le
    unfold floorBoundary
    rw [if_pos (by omega)]
    omega

end

end Steps

/-- Offsets, cluster indices and columns of a text agree: moving forth and back, counting and measuring undo each other
    on the boundaries, and rounding down finds the greatest boundary. -/
theorem offsets_agree (u : Utf8proc) (text : Bytes) :
    (∀ b < text.length, b < next u text b ∧ next u text b ≤ text.length) ∧
      (∀ b ≥ text.length, next u text b = text.length) ∧ (∀ byte, Boundary u text (floorBoundary u text byte) ∧
        (∀ b, Boundary u text b → (b ≤ floorBoundary u text byte ↔ b ≤ byte)) ∧ floorBoundary u text byte ≤ byte ∧
        floorBoundary u text (floorBoundary u text byte) = floorBoundary u text byte) ∧
      (∀ b, Boundary u text b → (b < text.length → prev u text (next u text b) = b) ∧
        (0 < b → next u text (prev u text b) = b ∧ Boundary u text (prev u text b)) ∧
        cellAt u text b ≤ count u text ∧ byteAt u text (cellAt u text b) = b ∧
        byteAtColumn u text (columnAt u text b) = b) ∧
      (∀ cell ≤ count u text, Boundary u text (byteAt u text cell) ∧ cellAt u text (byteAt u text cell) = cell) ∧
      displayWidth u text = columnAt u text text.length := by
  refine ⟨fun b inside => next_bounds u inside, fun b past => next_end past, ?_, ?_, ?_, displayWidth_column text⟩
  · intro byte
    have on := @floorBoundary_boundary u text byte
    exact ⟨on, fun b other => le_floorBoundary other, (le_floorBoundary on).mp le_rfl, (floorBoundary_iff on.le).mpr on⟩
  · intro b on
    refine ⟨prev_next on, ?_, cellAt_le on, byteAt_cellAt on, byteAtColumn_columnAt on⟩
    intro some_
    obtain ⟨before, back, -⟩ := prev_spec on some_
    exact ⟨back, before⟩
  · intro cell most
    exact ⟨byteAt_boundary cell, cellAt_byteAt most⟩

end Nxt.Ui
