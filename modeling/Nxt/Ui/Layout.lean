import Nxt.Ui.FieldCursor
import Nxt.Ui.Words

/- Layouts (layout.hpp, tui.hpp): what each asks for along an axis, and how it is rendered into the part of a raster
   that its parent gives it. Extents are `size_t`, whose sums wrap, and flex factors are exact. -/
namespace Nxt.Ui
open Nxt.Lib List

theorem wrapped_small (n : Nat) : n % 2 ^ 64 < 2 ^ 64 := Nat.mod_lt n (by decide)

structure SizeHint where
  min : Nat
  flex : NNRat
  small : min < 2 ^ 64

namespace SizeHint

/-- A hint of a sum, which wraps. -/
def wrapped (n : Nat) (flex : NNRat) : SizeHint := ⟨n % 2 ^ 64, flex, wrapped_small n⟩

def fixed (n : Nat) : SizeHint := wrapped n 0

def grow (factor : NNRat) : SizeHint := wrapped 0 factor

def add (total hint : SizeHint) : SizeHint := wrapped (total.min + hint.min) (total.flex + hint.flex)

def total (hints : List SizeHint) : SizeHint := hints.foldl add (wrapped 0 0)

def largest (hints : List SizeHint) : Nat := hints.foldl (fun most hint => max most hint.min) 0

end SizeHint

/-- What is left above the sum of the minima is shared by flex, rounded down. -/
def allocateMainExtent (hint total : SizeHint) (available : Nat) : Nat :=
  let leftover := if total.min < available then available - total.min else 0
  if 0 < hint.flex ∧ 0 < total.flex ∧ 0 < leftover then
    (hint.min + ⌊(leftover : NNRat) * (hint.flex / total.flex)⌋₊) % 2 ^ 64
  else hint.min

structure Style where
  fg : Rgba8 := Rgba8.terminalDefault
  bg : Rgba8 := Rgba8.terminalDefault
  em : Emphasis := Emphasis.none
  deriving DecidableEq

structure Span where
  text : Bytes
  style : Style := {}

def Raster.mapCells (raster : Raster) (v : View) (f : Cell → Cell) : Raster where
  width := raster.width
  height := raster.height
  rows := raster.rows.mapIdx fun y row =>
    if v.y ≤ y ∧ y < v.y + v.rows then
      row.mapIdx fun x cell => if v.x ≤ x ∧ x < v.x + v.cols then f cell else cell
    else row
  rows_length := by rw [length_mapIdx, raster.rows_length]
  row_length row inside := by
    obtain ⟨y, small, rfl⟩ := mem_iff_getElem.mp inside
    rw [getElem_mapIdx]
    split
    · rw [length_mapIdx]
      exact raster.row_length _ (getElem_mem _)
    · exact raster.row_length _ (getElem_mem _)

namespace View

def fillGlyphs (v : View) (gid : GlyphId) (raster : Raster) : Raster :=
  raster.mapCells v fun cell => { cell with glyph := gid }

def fillFgs (v : View) (color : Rgba8) (raster : Raster) : Raster := raster.mapCells v fun cell => { cell with fg := color }

def fillBgs (v : View) (color : Rgba8) (raster : Raster) : Raster := raster.mapCells v fun cell => { cell with bg := color }

def fillEms (v : View) (em : Emphasis) (raster : Raster) : Raster := raster.mapCells v fun cell => { cell with em := em }

/-- The channels that a style sets, in every cell. -/
def fillStyle (v : View) (style : Style) (raster : Raster) : Raster :=
  let raster := if style.fg ≠ Rgba8.terminalDefault then v.fillFgs style.fg raster else raster
  let raster := if style.bg ≠ Rgba8.terminalDefault then v.fillBgs style.bg raster else raster
  if style.em ≠ Emphasis.none then v.fillEms style.em raster else raster

/-- The channels that a style sets, in one cell. -/
def setStyle (v : View) (pos : Pos) (style : Style) (raster : Raster) : Raster :=
  let raster := if style.fg ≠ Rgba8.terminalDefault then v.setFg pos style.fg raster else raster
  let raster := if style.bg ≠ Rgba8.terminalDefault then v.setBg pos style.bg raster else raster
  if style.em ≠ Emphasis.none then v.setEm pos style.em raster else raster

end View

section Leaves
variable (u : Utf8proc)

def renderSpan (v : View) (pos : Pos) (span : Span) (s : Raster × GlyphTable) :
    Except String (Nat × Raster × GlyphTable) := do
  let (endX, raster, table) ← writeText u v pos span.text s
  return (endX, (List.range' pos.x (endX - pos.x)).foldl
    (fun raster x => v.setStyle ⟨x, pos.y⟩ span.style raster) raster, table)

def clearLine (v : View) (style : Style) (raster : Raster) : Raster := v.fillStyle style (v.fillGlyphs 32 raster)

def renderLine (v : View) (text : Bytes) (style : Style) (s : Raster × GlyphTable) :
    Except String (Nat × Raster × GlyphTable) :=
  renderSpan u v ⟨0, 0⟩ { text, style } (clearLine v style s.1, s.2)

/-- Spans one behind the other. -/
def renderSpans (v : View) (y : Nat) : List Span → Nat → Raster × GlyphTable → Except String (Raster × GlyphTable)
  | [], _, s => .ok s
  | span :: rest, x, s => do
      let (x, s) ← renderSpan u v ⟨x, y⟩ span s
      renderSpans v y rest x s

/-- The loop of `styled_lines`: lines up to the assigned height. -/
def renderLines (v : View) (size : Size) : List (List Span) → Nat → Raster × GlyphTable →
    Except String (Raster × GlyphTable)
  | [], _, s => .ok s
  | line :: rest, row, s =>
      if size.h ≤ row then .ok s
      else do
        let s ← renderSpans u v row line 0 s
        renderLines v size rest (row + 1) s

end Leaves

inductive Axis where
  | row | column
  deriving DecidableEq

/-- What places several children: `Stack`, `Each` and `List`. -/
inductive Container where
  | stack (axis : Axis)
  | each
  | list
  deriving DecidableEq

/-- A layout tree. `each` and `list` hold the layouts of their items, and `oneOf` the alternative it was built with. -/
inductive Layout where
  | lineText (width : SizeHint) (makeText : Nat → Bytes) (style : Style)
  | styledText (spans : List Span)
  | styledLines (lines : List (List Span)) (clear : Style)
  | fill (color : Rgba8)
  | hfill (width : Nat) (color : Rgba8)
  | flexFill (color : Rgba8)
  | empty
  | container (kind : Container) (children : List Layout)
  | surface (style : Style) (child : Layout)
  | fixedHeight (height : Nat) (child : Layout)
  | fixedWidth (width : Nat) (child : Layout)
  | growWidth (factor : NNRat) (child : Layout)
  | oneOf (chosen : Layout)

def atLeastOne (lines : List (List Span)) : List (List Span) := if lines.isEmpty then [[]] else lines

section Hints
variable (u : Utf8proc)

def lineWidth (spans : List Span) : Nat := spans.foldl (fun width span => width + displayWidth u span.text) 0

mutual

def Layout.widthHint : Layout → SizeHint
  | .lineText width _ _ => width
  | .styledText spans => .fixed (lineWidth u spans)
  | .styledLines lines _ => .fixed ((atLeastOne lines).foldl (fun width line => max width (lineWidth u line)) 0)
  | .fill _ => .grow 1
  | .hfill width _ => .fixed width
  | .flexFill _ => .grow 1
  | .empty => .fixed 0
  | .container (.stack .row) children => .total (widthHints children)
  | .container (.stack .column) children => .wrapped (SizeHint.largest (widthHints children)) 1
  | .container .each children => .wrapped (SizeHint.largest (widthHints children)) 1
  | .container .list _ => .grow 1
  | .surface _ child => child.widthHint
  | .fixedHeight _ child => child.widthHint
  | .fixedWidth width _ => .fixed width
  | .growWidth factor child => { child.widthHint with flex := max child.widthHint.flex factor }
  | .oneOf chosen => chosen.widthHint

def widthHints : List Layout → List SizeHint
  | [] => []
  | child :: rest => child.widthHint :: widthHints rest

end

mutual

def Layout.heightHint : Layout → SizeHint
  | .lineText _ _ _ => .fixed 1
  | .styledText _ => .fixed 1
  | .styledLines lines _ => .fixed (atLeastOne lines).length
  | .fill _ => .grow 1
  | .hfill _ _ => .fixed 1
  | .flexFill _ => .fixed 1
  | .empty => .fixed 0
  | .container (.stack .row) children =>
      .fixed (if 0 < SizeHint.largest (heightHints children) then SizeHint.largest (heightHints children) else 1)
  | .container (.stack .column) children => .total (heightHints children)
  | .container .each children => .fixed (SizeHint.total (heightHints children)).min
  | .container .list children => .fixed children.length
  | .surface _ child => child.heightHint
  | .fixedHeight height _ => .fixed height
  | .fixedWidth _ child => child.heightHint
  | .growWidth _ child => child.heightHint
  | .oneOf chosen => chosen.heightHint

def heightHints : List Layout → List SizeHint
  | [] => []
  | child :: rest => child.heightHint :: heightHints rest

end

namespace Axis

def main (axis : Axis) (child : Layout) : SizeHint :=
  match axis with
  | .row => child.widthHint u
  | .column => child.heightHint

def extent (axis : Axis) (size : Size) : Nat :=
  match axis with
  | .row => size.w
  | .column => size.h

def childSize (axis : Axis) (size : Size) (extent : Nat) : Size :=
  match axis with
  | .row => ⟨extent, size.h⟩
  | .column => ⟨size.w, extent⟩

def pos (axis : Axis) (cursor : Nat) : Pos :=
  match axis with
  | .row => ⟨cursor, 0⟩
  | .column => ⟨0, cursor⟩

end Axis

/-- What a container does about a child: goes on to the next, stops, or renders it with an extent. -/
inductive Turn where
  | skip
  | stop
  | give (extent : Nat)
  deriving DecidableEq

def stackTurn (axis : Axis) (children : List Layout) (size : Size) (child : Layout) (_ : Nat) : Turn :=
  let extent := allocateMainExtent (axis.main u child) (.total (children.map (axis.main u))) (axis.extent size)
  if extent = 0 then .skip else .give extent

def eachTurn (size : Size) (child : Layout) (cursor : Nat) : Turn :=
  let h := child.heightHint.min
  if h = 0 then .skip
  else if size.h < (cursor + h) % 2 ^ 64 then .stop
  else .give h

def listTurn (size : Size) (_ : Layout) (cursor : Nat) : Turn := if size.h ≤ cursor then .stop else .give 1

namespace Container

def axis : Container → Axis
  | .stack axis => axis
  | .each => .column
  | .list => .column

def turn (kind : Container) (children : List Layout) (size : Size) : Layout → Nat → Turn :=
  match kind with
  | .stack axis => stackTurn u axis children size
  | .each => eachTurn size
  | .list => listTurn size

end Container

end Hints

section Rendering
variable (u : Utf8proc)

mutual

def Layout.render : Layout → View → Size → Raster × GlyphTable → Except String (Raster × GlyphTable)
  | .lineText _ makeText style, v, size, s => (renderLine u v (makeText size.w) style s).map fun done => done.2
  | .styledText spans, v, _, s => renderSpans u v 0 spans 0 s
  | .styledLines lines clear, v, size, s => renderLines u v size (atLeastOne lines) 0 (clearLine v clear s.1, s.2)
  | .fill color, v, _, s => .ok (v.fillBgs color s.1, s.2)
  | .hfill _ color, v, _, s => .ok (v.fillBgs color (v.fillGlyphs 32 s.1), s.2)
  | .flexFill color, v, _, s => .ok (v.fillBgs color (v.fillGlyphs 32 s.1), s.2)
  | .empty, _, _, s => .ok s
  | .container kind children, v, size, s => renderChildren kind.axis (kind.turn u children size) v size children 0 s
  | .surface style child, v, size, s =>
      child.render v size (v.fillEms style.em (v.fillBgs style.bg (v.fillFgs style.fg (v.fillGlyphs 32 s.1))), s.2)
  | .fixedHeight _ child, v, size, s => child.render v size s
  | .fixedWidth _ child, v, size, s => child.render v size s
  | .growWidth _ child, v, size, s => child.render v size s
  | .oneOf chosen, v, size, s => chosen.render v size s

/-- The loop of a container, whose parts are those of its own view. -/
def renderChildren (axis : Axis) (turn : Layout → Nat → Turn) (v : View) (size : Size) :
    List Layout → Nat → Raster × GlyphTable → Except String (Raster × GlyphTable)
  | [], _, s => .ok s
  | child :: rest, cursor, s =>
      match turn child cursor with
      | .skip => renderChildren axis turn v size rest cursor s
      | .stop => .ok s
      | .give extent =>
          match v.subraster (axis.pos cursor) (axis.childSize size extent) with
          | none => .error "no such part"
          | some part => do
              let s ← child.render part (axis.childSize size extent) s
              renderChildren axis turn v size rest ((cursor + extent) % 2 ^ 64) s

end

end Rendering

namespace Layout
variable (u : Utf8proc)

def text (s : Bytes) (style : Style) : Layout := lineText (.fixed (displayWidth u s)) (fun _ => s) style

def hruleString (w : Nat) : Bytes := (replicate w [0xe2, 0x94, 0x80]).flatten

def hrule : Layout := lineText (.grow 1) hruleString {}

def row (children : List Layout) : Layout := container (.stack .row) children

end Layout

end Nxt.Ui
