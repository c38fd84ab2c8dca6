import Nxt.Lib.Decimal
import Nxt.Ui.Raster

/- A terminal that is sent text and escapes. What a character set draws as one glyph, and how it cuts
   a stretch of text into glyphs, are parameters; what it does with text that it does not draw is
   one too. A cell knows which part of its glyph it shows, and a line holds whole glyphs only. -/
namespace Nxt.Ui
open Nxt.Lib

/-- How many cells a glyph's text takes, for the texts that are drawn. No control byte is drawn, and
    glyphs that are each drawn as text are found again in their concatenation. -/
structure Charset where
  width : Bytes → Option Nat
  segment : Bytes → List Bytes
  positive : ∀ {text w}, width text = some w → 0 < w
  printable : ∀ {text w}, width text = some w → ∀ b ∈ text, 0x20 ≤ b ∧ b ≠ 0x7f
  width_nil : width [] = none
  width_space : width [0x20] = some 1
  segment_flatten : ∀ texts, (∀ text ∈ texts, (width text).isSome) → segment texts.flatten = texts

inductive Color where
  | default | palette (index : UInt8) | rgb (r g b : UInt8)
  deriving DecidableEq

structure Pen where
  fg : Color := .default
  bg : Color := .default
  em : Emphasis := Emphasis.none
  deriving DecidableEq

/-- One part of a drawn glyph; part 0 is its first cell. -/
structure TermCell where
  text : Bytes
  part : Nat
  pen : Pen
  deriving DecidableEq

def TermCell.atPart (cell : TermCell) (part : Nat) : TermCell := { cell with part }

def TermCell.space (pen : Pen) : TermCell := { text := [0x20], part := 0, pen }

/-- The cell at `x` belongs to a glyph that is there as a whole. -/
def Intact (cs : Charset) (cols : Nat) (cell : Nat → TermCell) (x : Nat) : Prop :=
  ∃ w, cs.width (cell x).text = some w ∧ (cell x).part < w ∧ (cell x).part ≤ x ∧
    x - (cell x).part + w ≤ cols ∧ ∀ j < w, cell (x - (cell x).part + j) = (cell x).atPart j

structure Line (cs : Charset) (cols : Nat) where
  cell : Nat → TermCell
  intact : ∀ x < cols, Intact cs cols cell x

namespace Line
variable {cs : Charset} {cols : Nat}

def blank (cs : Charset) (cols : Nat) : Line cs cols where
  cell _ := .space {}
  intact x inside := by
    refine ⟨1, cs.width_space, Nat.one_pos, Nat.zero_le x, inside, ?_⟩
    intro j small
    rw [Nat.lt_one_iff.mp small]
    rfl

/-- Columns from `c` on, `w` of them, hold a part of the glyph that covers `x`. -/
def overlapped (line : Line cs cols) (c w x : Nat) : Bool :=
  decide (x - (line.cell x).part < c + w) &&
    decide (c < x - (line.cell x).part + (cs.width (line.cell x).text).getD 1)

/-- A glyph over `w` columns from `c` on; what it covers only in part turns into spaces. -/
def putCell (line : Line cs cols) (c w : Nat) (text : Bytes) (pen : Pen) (x : Nat) : TermCell :=
  if c ≤ x ∧ x < c + w then { text, part := x - c, pen }
  else if line.overlapped c w x then .space (line.cell x).pen
  else line.cell x

theorem putCell_inside (line : Line cs cols) {c w x : Nat} (text : Bytes) (pen : Pen) (low : c ≤ x)
    (high : x < c + w) : line.putCell c w text pen x = { text, part := x - c, pen } :=
  if_pos ⟨low, high⟩

theorem putCell_erased (line : Line cs cols) {c w x : Nat} (text : Bytes) (pen : Pen) (outside : ¬(c ≤ x ∧ x < c + w))
    (half : line.overlapped c w x) : line.putCell c w text pen x = .space (line.cell x).pen := by
  unfold putCell
  rw [if_neg outside, if_pos half]

theorem putCell_kept (line : Line cs cols) {c w x : Nat} (text : Bytes) (pen : Pen) (outside : ¬(c ≤ x ∧ x < c + w))
    (apart : line.overlapped c w x = false) : line.putCell c w text pen x = line.cell x := by
  unfold putCell
  rw [if_neg outside, if_neg (by simp [apart])]

theorem putCell_intact (line : Line cs cols) {c w : Nat} {text : Bytes} (pen : Pen) (drawn : cs.width text = some w)
    (fits : c + w ≤ cols) {x : Nat} (inside : x < cols) : Intact cs cols (line.putCell c w text pen) x := by
  by_cases own : c ≤ x ∧ x < c + w
  · rw [Intact, putCell_inside line text pen own.1 own.2]
    refine ⟨w, drawn, ?_, ?_, ?_, ?_⟩
    · show x - c < w
      omega
    · show x - c ≤ x
      omega
    · show x - (x - c) + w ≤ cols
      omega
    · intro j small
      have start : x - (x - c) + j = c + j := by omega
      show line.putCell c w text pen (x - (x - c) + j) = { text, part := j, pen }
      rw [start, putCell_inside line text pen (Nat.le_add_right c j) (by omega), Nat.add_sub_cancel_left]
  · cases half : line.overlapped c w x with
    | true =>
      rw [Intact, putCell_erased line text pen own half]
      refine ⟨1, cs.width_space, Nat.one_pos, Nat.zero_le x, inside, ?_⟩
      intro j small
      rw [Nat.lt_one_iff.mp small]
      exact putCell_erased line text pen own half
    | false =>
      -- nothing of this glyph is covered, so none of its other cells changes either
      obtain ⟨v, width, part, before, within, whole⟩ := line.intact x inside
      have same : ∀ j < v, line.putCell c w text pen (x - (line.cell x).part + j) =
          (line.cell x).atPart j := by
        intro j small
        have cell := whole j small
        have apart : line.overlapped c w (x - (line.cell x).part + j) = false := by
          rw [← half]
          unfold overlapped
          rw [cell]
          show (decide (x - (line.cell x).part + j - j < c + w) &&
            decide (c < x - (line.cell x).part + j - j + (cs.width (line.cell x).text).getD 1)) = _
          rw [Nat.add_sub_cancel]
        have off : ¬(c ≤ x - (line.cell x).part + j ∧ x - (line.cell x).part + j < c + w) := by
          rintro ⟨low, high⟩
          unfold overlapped at half
          rw [width] at half
          simp only [Option.getD_some, Bool.and_eq_false_iff, decide_eq_false_iff_not] at half
          omega
        rw [putCell_kept line text pen off apart, cell]
      have here := putCell_kept line text pen own half
      refine ⟨v, ?_, ?_, ?_, ?_, ?_⟩
      · rw [here]
        exact width
      · rw [here]
        exact part
      · rw [here]
        exact before
      · rw [here]
        exact within
      · rw [here]
        exact same

def put (line : Line cs cols) (c : Nat) {w : Nat} {text : Bytes} (pen : Pen)
    (drawn : cs.width text = some w) (fits : c + w ≤ cols) : Line cs cols where
  cell := line.putCell c w text pen
  intact _ := line.putCell_intact pen drawn fits

end Line

/-- The cursor stands past the last column when the next glyph has to wrap. -/
structure Terminal (cs : Charset) (rows cols : Nat) where
  line : Nat → Line cs cols
  cursor : Pos
  pen : Pen := {}
  saved : Option (Pos × Pen) := none

/-- What an attribute's code turns on. -/
def graphicsBit : Nat → Emphasis
  | 1 => 1 | 2 => 2 | 3 => 4 | 4 => 8 | 5 => 16 | 7 => 32 | 8 => 64 | 9 => 128
  | _ => 0

def selectGraphics : List Nat → Pen → Pen
  | [], pen => pen
  | 38 :: 2 :: r :: g :: b :: rest, pen =>
      selectGraphics rest { pen with fg := .rgb (.ofNat r) (.ofNat g) (.ofNat b) }
  | 48 :: 2 :: r :: g :: b :: rest, pen =>
      selectGraphics rest { pen with bg := .rgb (.ofNat r) (.ofNat g) (.ofNat b) }
  | 38 :: 5 :: index :: rest, pen => selectGraphics rest { pen with fg := .palette (.ofNat index) }
  | 48 :: 5 :: index :: rest, pen => selectGraphics rest { pen with bg := .palette (.ofNat index) }
  | 39 :: rest, pen => selectGraphics rest { pen with fg := .default }
  | 49 :: rest, pen => selectGraphics rest { pen with bg := .default }
  | 0 :: rest, _ => selectGraphics rest {}
  | code :: rest, pen => selectGraphics rest { pen with em := pen.em ||| graphicsBit code }

namespace Terminal
variable {cs : Charset} {rows cols : Nat}

def cell (t : Terminal cs rows cols) (y x : Nat) : TermCell := (t.line y).cell x

def setLine (t : Terminal cs rows cols) (y : Nat) (line : Line cs cols) : Terminal cs rows cols :=
  { t with line := fun row => if row = y then line else t.line row }

/-- To the start of the next line; below the last one the screen scrolls. -/
def wrap (t : Terminal cs rows cols) : Terminal cs rows cols :=
  if t.cursor.y + 1 < rows then { t with cursor := ⟨0, t.cursor.y + 1⟩ }
  else
    { t with cursor := ⟨0, t.cursor.y⟩
             line := fun row => if row + 1 < rows then t.line (row + 1) else .blank cs cols }

/-- A glyph at the cursor, which has room for it. -/
def place (t : Terminal cs rows cols) {w : Nat} {text : Bytes} (drawn : cs.width text = some w)
    (fits : t.cursor.x + w ≤ cols) : Terminal cs rows cols :=
  { t.setLine t.cursor.y ((t.line t.cursor.y).put t.cursor.x t.pen drawn fits) with
    cursor := ⟨t.cursor.x + w, t.cursor.y⟩ }

def save (t : Terminal cs rows cols) : Terminal cs rows cols :=
  { t with saved := some (t.cursor, t.pen) }

def restore (t : Terminal cs rows cols) : Terminal cs rows cols :=
  match t.saved with
  | some (cursor, pen) => { t with cursor, pen }
  | none => { t with cursor := ⟨0, 0⟩, pen := {} }

/-- A cursor position with the first row and column counted as 1, or selected graphics. -/
def control (t : Terminal cs rows cols) (params : List Nat) (finalByte : UInt8) : Terminal cs rows cols :=
  if finalByte = 0x48 then
    { t with cursor := ⟨min ((params[1]?).getD 1 - 1) (cols - 1), min ((params[0]?).getD 1 - 1) (rows - 1)⟩ }
  else if finalByte = 0x6d then { t with pen := selectGraphics params t.pen }
  else t

end Terminal

section Receiving
variable {cs : Charset} {rows cols : Nat}
variable (obey : Bytes → Terminal cs rows cols → Terminal cs rows cols)

def Terminal.print (t : Terminal cs rows cols) (text : Bytes) : Terminal cs rows cols :=
  match drawn : cs.width text with
  | none => obey text t
  | some w =>
      if fits : t.cursor.x + w ≤ cols then t.place drawn fits
      else if narrow : t.wrap.cursor.x + w ≤ cols then t.wrap.place drawn narrow
      else t.wrap

def Terminal.write (t : Terminal cs rows cols) (text : Bytes) : Terminal cs rows cols :=
  (cs.segment text).foldl (Terminal.print obey) t

/-- Text not written yet, a started escape, or the parameters of a control sequence. -/
inductive Receiving where
  | text (pending : Bytes) | escape | control (params : Bytes)
  deriving DecidableEq

structure Receiver (cs : Charset) (rows cols : Nat) where
  mode : Receiving
  terminal : Terminal cs rows cols

def Receiver.accept (r : Receiver cs rows cols) (b : UInt8) : Receiver cs rows cols :=
  match r.mode with
  | .text pending =>
      if b = 0x1b then { mode := .escape, terminal := r.terminal.write obey pending }
      else { r with mode := .text (pending ++ [b]) }
  | .escape =>
      if b = 0x37 then { mode := .text [], terminal := r.terminal.save }
      else if b = 0x38 then { mode := .text [], terminal := r.terminal.restore }
      else if b = 0x5b then { r with mode := .control [] }
      else { r with mode := .text [] }
  | .control params =>
      if 0x40 ≤ b ∧ b ≤ 0x7e then
        { mode := .text [], terminal := r.terminal.control ((params.splitOn 0x3b).map readDecimal) b }
      else { r with mode := .control (params ++ [b]) }

def Terminal.receive (t : Terminal cs rows cols) (bytes : Bytes) : Terminal cs rows cols :=
  let last := bytes.foldl (Receiver.accept obey) { mode := .text [], terminal := t }
  match last.mode with
  | .text pending => last.terminal.write obey pending
  | _ => last.terminal

end Receiving
end Nxt.Ui
