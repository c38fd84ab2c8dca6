import Nxt.Ui.Text

/- Writing text into a raster (raster.cpp, glyph-table.cpp): clusters one after the other, each in its
   first cell and with empty glyphs in its others. A cluster that is too long for the table ends the
   program, as the writing is `noexcept`. -/
namespace Nxt.Ui
open Nxt.Lib List

namespace GlyphTable

theorem none_twice : ([] : List Bytes).Nodup := nodup_nil

theorem none_single : ∀ text ∈ ([] : List Bytes), text.length ≠ 1 := fun _ inside => absurd inside not_mem_nil

def fresh : GlyphTable := ⟨[], none_twice, none_single⟩

def append (table : GlyphTable) (bytes : Bytes) (long : bytes.length ≠ 1) (new : bytes ∉ table.interned) :
    GlyphTable where
  interned := table.interned ++ [bytes]
  nodup := nodup_append.mpr ⟨table.nodup, nodup_singleton bytes, fun a inside b last same => by
    rw [mem_singleton] at last
    exact new (last ▸ same ▸ inside)⟩
  long text inside := by
    rcases mem_append.mp inside with old | last
    · exact table.long text old
    · rw [mem_singleton.mp last]
      exact long

def find (table : GlyphTable) (bytes : Bytes) : Option Nat := table.interned.findIdx? fun text => text = bytes

theorem find_some {table : GlyphTable} {bytes : Bytes} {i : Nat} (found : table.find bytes = some i) :
    table.interned[i]? = some bytes := by
  obtain ⟨inside, same, -⟩ := findIdx?_eq_some_iff_getElem.mp found
  rw [getElem?_eq_getElem inside, of_decide_eq_true same]

theorem find_none {table : GlyphTable} {bytes : Bytes} (missing : table.find bytes = none) :
    bytes ∉ table.interned := fun inside =>
  absurd rfl (of_decide_eq_false (findIdx?_eq_none_iff.mp missing bytes inside))

def intern (table : GlyphTable) (bytes : Bytes) : Except String (GlyphId × GlyphTable) :=
  if single : bytes.length = 1 then .ok ((bytes.headD 0).toNat, table)
  else match known : table.find bytes with
    | some i => .ok (256 + i, table)
    | none =>
        if bytes.length > 255 then .error "Glyph too long (max 255 bytes)"
        else .ok (256 + table.interned.length, table.append bytes single (find_none known))

def interns (table : GlyphTable) (texts : List Bytes) : GlyphTable :=
  texts.foldl (fun table text => match table.intern text with
    | .ok (_, table) => table
    | .error _ => table) table

end GlyphTable

/-- What of a raster a view shows: its first column and row, and its extents. -/
structure View where
  x : Nat
  y : Nat
  cols : Nat
  rows : Nat
  deriving DecidableEq

structure Size where
  w : Nat
  h : Nat
  deriving DecidableEq

namespace Raster

def view (raster : Raster) : View := { x := 0, y := 0, cols := raster.width, rows := raster.height }

def blank (width height : Nat) : Raster where
  width := width
  height := height
  rows := replicate height
    (replicate width { glyph := 32, fg := Rgba8.terminalDefault, bg := Rgba8.terminalDefault, em := Emphasis.none })
  rows_length := length_replicate
  row_length row inside := by
    rw [eq_of_mem_replicate inside]
    exact length_replicate

def setGlyph (raster : Raster) (y x : Nat) (gid : GlyphId) : Raster where
  width := raster.width
  height := raster.height
  rows := raster.rows.modify y fun row => row.modify x fun cell => { cell with glyph := gid }
  rows_length := by rw [length_modify, raster.rows_length]
  row_length row inside := by
    obtain ⟨i, small, rfl⟩ := mem_iff_getElem.mp inside
    rw [getElem_modify]
    split
    · rw [length_modify]
      exact raster.row_length _ (getElem_mem _)
    · exact raster.row_length _ (getElem_mem _)

end Raster

namespace View

/-- The part of a view from an origin on. A sum is a `size_t`, and when it wraps to less than the
    origin there is no such part. -/
def subraster (v : View) (origin : Pos) (size : Size) : Option View :=
  let x0 := min origin.x v.cols
  let y0 := min origin.y v.rows
  let x1 := min ((origin.x + size.w) % 2 ^ 64) v.cols
  let y1 := min ((origin.y + size.h) % 2 ^ 64) v.rows
  if x1 < x0 ∨ y1 < y0 then none
  else some { x := v.x + x0, y := v.y + y0, cols := x1 - x0, rows := y1 - y0 }

def descend (v : View) : List (Pos × Size) → Option View
  | [] => some v
  | (origin, size) :: rest => (v.subraster origin size).bind fun part => part.descend rest

def Within (v : View) (raster : Raster) : Prop := v.x + v.cols ≤ raster.width ∧ v.y + v.rows ≤ raster.height

end View

section Writing
variable (u : Utf8proc)

def writeContinuations (v : View) (y col : Nat) : Nat → Raster × GlyphTable → Except String (Raster × GlyphTable)
  | 0, s => .ok s
  | n + 1, s => do
      let (raster, table) ← writeContinuations v y col n s
      let (gid, table) ← table.intern []
      return (raster.setGlyph (v.y + y) (v.x + (col + (n + 1))) gid, table)

/-- The loop of `write_text`. -/
def writeFrom (v : View) (y : Nat) (text : Bytes) (i col : Nat) (s : Raster × GlyphTable) :
    Except String (Nat × Raster × GlyphTable) :=
  if _more : i < text.length ∧ col < v.cols then
    let clusterEnd := next u text i
    let glyphBytes := (text.drop i).take (clusterEnd - i)
    let cellWidth := clusterWidth u glyphBytes
    if cellWidth > v.cols - col then .ok (col, s)
    else do
      let (gid, table) ← s.2.intern glyphBytes
      let s ← writeContinuations v y col (cellWidth - 1) (s.1.setGlyph (v.y + y) (v.x + col) gid, table)
      writeFrom v y text clusterEnd (col + cellWidth) s
  else .ok (col, s)
  termination_by text.length - i
  decreasing_by
    have bounds := next_bounds u _more.1
    omega

/-- The column after the text, and what is left; an exception ends the program. -/
def writeText (v : View) (pos : Pos) (text : Bytes) (s : Raster × GlyphTable) :
    Except String (Nat × Raster × GlyphTable) :=
  if v.rows ≤ pos.y then .ok (pos.x, s) else writeFrom u v pos.y text 0 pos.x s

def fitting (text : Bytes) (i room : Nat) : List Bytes :=
  if _more : i < text.length ∧ 0 < room then
    let cluster := (text.drop i).take (next u text i - i)
    if clusterWidth u cluster > room then []
    else cluster :: fitting text (next u text i) (room - clusterWidth u cluster)
  else []
  termination_by text.length - i
  decreasing_by
    have bounds := next_bounds u _more.1
    omega

end Writing

end Nxt.Ui
