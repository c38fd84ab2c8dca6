import Nxt.Ui.Boundary
import Nxt.Ui.Written

/- Edits of a text field. Its cursor is a byte of the text, and each edit first brings it back to the boundary before it,
   as what was inserted may have joined the text behind it in one cluster. -/
namespace Nxt.Ui
open Nxt.Lib List

structure TextField where
  text : Bytes := []
  cursorByte : Nat := 0
  deriving DecidableEq

namespace TextField

section Edits
variable (u : Utf8proc)

def insert (field : TextField) (bytes : Bytes) : TextField :=
  let cursor := floorBoundary u field.text field.cursorByte
  { text := field.text.take cursor ++ bytes ++ field.text.drop cursor, cursorByte := cursor + bytes.length }

def eraseLeft (field : TextField) : Bool × TextField :=
  let cursor := floorBoundary u field.text field.cursorByte
  if cursor = 0 then (false, { field with cursorByte := cursor })
  else
    let p := prev u field.text cursor
    (true, { text := field.text.take p ++ field.text.drop cursor, cursorByte := p })

def moveLeft (field : TextField) : Bool × TextField :=
  let cursor := floorBoundary u field.text field.cursorByte
  if cursor = 0 then (false, { field with cursorByte := cursor })
  else (true, { field with cursorByte := prev u field.text cursor })

def moveRight (field : TextField) : Bool × TextField :=
  let cursor := floorBoundary u field.text field.cursorByte
  if field.text.length ≤ cursor then (false, { field with cursorByte := cursor })
  else (true, { field with cursorByte := next u field.text cursor })

end Edits

section Insertion
variable {u : Utf8proc} {field : TextField} {a b : Bytes}

def inserted (field : TextField) (a : Bytes) : Bytes :=
  field.text.take field.cursorByte ++ a ++ field.text.drop field.cursorByte

/-- Inserting in two pieces is inserting at once; after an insertion the left neighbour can be erased, and a move to the
    left and back comes to the cursor or beyond it. -/
structure Composes (u : Utf8proc) (field : TextField) (a b : Bytes) : Prop where
  pieces : (field.insert u a).insert u b = field.insert u (a ++ b)
  erases : a ≠ [] → ((field.insert u a).eraseLeft u).1 = true ∧
    ((field.insert u a).eraseLeft u).2.text.length < (field.insert u a).text.length
  returns : a ≠ [] →
    (field.insert u a).cursorByte ≤ ((((field.insert u a).moveLeft u).2.moveRight u).2).cursorByte

theorem insert_boundary (on : Boundary u field.text field.cursorByte) (a : Bytes) :
    field.insert u a = { text := field.inserted a, cursorByte := field.cursorByte + a.length } := by
  unfold insert inserted
  rw [(floorBoundary_iff on.le).mpr on]

theorem inserted_length (inside : field.cursorByte ≤ field.text.length) (a : Bytes) :
    (field.inserted a).length = field.text.length + a.length := by
  unfold inserted
  rw [length_append, length_append, length_take, length_drop]
  omega

section
variable (on : Boundary u field.text field.cursorByte)
include on

theorem eraseLeft_boundary (some_ : 0 < field.cursorByte) :
    (field.eraseLeft u).1 = true ∧ (field.eraseLeft u).2.text.length < field.text.length := by
  obtain ⟨-, -, before⟩ := prev_spec on some_
  have inside := on.le
  unfold eraseLeft
  dsimp only
  rw [(floorBoundary_iff inside).mpr on, if_neg (by omega)]
  refine ⟨rfl, ?_⟩
  rw [length_append, length_take, length_drop]
  omega

theorem move_back (some_ : 0 < field.cursorByte) :
    (((field.moveLeft u).2.moveRight u).2).cursorByte = field.cursorByte := by
  obtain ⟨left_, after, before⟩ := prev_spec on some_
  have inside := on.le
  have moved : (field.moveLeft u).2 = { field with cursorByte := prev u field.text field.cursorByte } := by
    unfold moveLeft
    dsimp only
    rw [(floorBoundary_iff inside).mpr on, if_neg (by omega)]
  rw [moved]
  unfold moveRight
  dsimp only
  rw [(floorBoundary_iff left_.le).mpr left_, if_neg (by omega)]
  exact after

/-- The second piece goes where the first one ended only if that is a boundary. -/
theorem pieces_iff : (field.insert u a).insert u b = field.insert u
    (a ++ b) ↔ Boundary u (field.inserted a) (field.cursorByte + a.length) := by
  have inside := on.le
  have ends : field.cursorByte + a.length ≤ (field.inserted a).length := by
    rw [inserted_length inside]
    omega
  rw [insert_boundary on, insert_boundary on, ← floorBoundary_iff ends]
  unfold insert
  dsimp only
  constructor
  · intro same
    have cursor := congrArg cursorByte same
    dsimp only at cursor
    rw [length_append] at cursor
    omega
  · intro floor
    have front : (field.inserted a).take (field.cursorByte + a.length) = field.text.take field.cursorByte ++ a := by
      refine take_left' ?_
      rw [length_append, length_take]
      omega
    have back : (field.inserted a).drop (field.cursorByte + a.length) = field.text.drop field.cursorByte := by
      refine drop_left' ?_
      rw [length_append, length_take]
      omega
    rw [floor, front, back, length_append]
    unfold inserted
    rw [append_assoc (field.text.take field.cursorByte), Nat.add_assoc]

end

/-- Insertions compose exactly if what is inserted first ends at a boundary of the new text. -/
theorem insert_composes_iff (on : Boundary u field.text field.cursorByte) :
    Composes u field a b ↔ Boundary u (field.inserted a) (field.cursorByte + a.length) := by
  constructor
  · exact fun composes => (pieces_iff on).mp composes.pieces
  · intro joined
    have there := insert_boundary on a
    refine ⟨(pieces_iff on).mpr joined, ?_, ?_⟩
    · intro some_
      have positive := length_pos_iff.mpr some_
      rw [there]
      exact eraseLeft_boundary joined (by dsimp only; omega)
    · intro some_
      have positive := length_pos_iff.mpr some_
      rw [there]
      exact (move_back joined (by dsimp only; omega)).ge

def accent : TextField := { text := [0xcc, 0x81] }

theorem accent_boundary : Boundary basicUtf8proc accent.text accent.cursorByte := boundary_zero

theorem accent_joins : ¬(accent.insert basicUtf8proc [0x65]).insert basicUtf8proc [0x66] = accent.insert basicUtf8proc
    [0x65, 0x66] ∧ ¬Composes basicUtf8proc accent [0x65] [0x66] := by
  have cluster : next basicUtf8proc [0x65, 0xcc, 0x81] 0 = 3 := by
    simp [next, nextFrom, decode, basicUtf8proc]
  have apart : ¬(accent.insert basicUtf8proc [0x65]).insert basicUtf8proc [0x66] =
      accent.insert basicUtf8proc [0x65, 0x66] := by
    intro same
    have on := (pieces_iff (b := [0x66]) accent_boundary).mp same
    have past := boundary_zero.next_le_of_lt on (show 0 < 1 by decide)
    have short : next basicUtf8proc [0x65, 0xcc, 0x81] 0 ≤ 1 := past
    omega
  exact ⟨apart, fun composes => apart composes.pieces⟩

theorem accent_follows : Composes basicUtf8proc { text := [0x65], cursorByte := 1 } [0xcc, 0x81] [0x66] := by
  have on : Boundary basicUtf8proc [0x65] 1 := boundary_end
  exact (insert_composes_iff on).mpr boundary_end

end Insertion

end TextField
end Nxt.Ui
