import Nxt.Lib.Wire

/- The cells of style.hpp, glyph-table.hpp and raster.hpp, and the differences that raster-diff.hpp
   finds between two rasters. A raster is its rows; the four row-major arrays of the source hold the
   same cells. -/
namespace Nxt.Ui
open Nxt.Lib

/-- A palette index up to 0xFF, one of two sentinels, or with a nonzero top byte a true color. -/
structure Rgba8 where
  value : UInt32
  deriving DecidableEq

namespace Rgba8

def terminalDefault : Rgba8 := ⟨0x100⟩

def transparent : Rgba8 := ⟨0x200⟩

def palette (index : UInt8) : Rgba8 := ⟨index.toUInt32⟩

def rgb (r g b : UInt8) : Rgba8 :=
  ⟨r.toUInt32 ||| g.toUInt32 <<< 8 ||| b.toUInt32 <<< 16 ||| (0xff : UInt32) <<< 24⟩

def isPalette (c : Rgba8) : Bool := c.value ≤ 0xff

def isTerminalDefault (c : Rgba8) : Bool := c.value == 0x100

def isTransparent (c : Rgba8) : Bool := c.value == 0x200

def paletteIndex (c : Rgba8) : UInt8 := (c.value &&& 0xff).toUInt8

def r (c : Rgba8) : UInt8 := (c.value &&& 0xff).toUInt8

def g (c : Rgba8) : UInt8 := (c.value >>> 8 &&& 0xff).toUInt8

def b (c : Rgba8) : UInt8 := (c.value >>> 16 &&& 0xff).toUInt8

end Rgba8

/-- Bold, faint, italic, underline, blink, reverse, conceal and strikethrough, from the lowest bit. -/
abbrev Emphasis := BitVec 8

def Emphasis.none : Emphasis := 0

def hasEmphasis (set flag : Emphasis) : Bool := set &&& flag != Emphasis.none

abbrev GlyphId := Nat

structure GlyphTable where
  interned : List Bytes
  nodup : interned.Nodup
  long : ∀ text ∈ interned, text.length ≠ 1

def GlyphTable.get (table : GlyphTable) (id : GlyphId) : Option Bytes :=
  if id ≤ 255 then some [UInt8.ofNat id] else table.interned[id - 256]?

theorem GlyphTable.get_inj (table : GlyphTable) {a b : Nat} {text : Bytes}
    (first : table.get a = some text) (second : table.get b = some text) : a = b := by
  have apart : ∀ {single other : Nat}, single ≤ 255 → ¬other ≤ 255 → table.get single = some text →
      table.get other = some text → False := by
    intro single other low high one more
    unfold GlyphTable.get at one more
    rw [if_pos low] at one
    rw [if_neg high] at more
    cases one
    exact table.long _ (List.mem_of_getElem? more) rfl
  by_cases low : a ≤ 255
  · by_cases other : b ≤ 255
    · unfold GlyphTable.get at first second
      rw [if_pos low] at first
      rw [if_pos other] at second
      have bytes : UInt8.ofNat a = UInt8.ofNat b := by
        have both := first.trans second.symm
        simpa using both
      have values := congrArg UInt8.toNat bytes
      rw [UInt8.toNat_ofNat', UInt8.toNat_ofNat', Nat.mod_eq_of_lt (by omega),
        Nat.mod_eq_of_lt (by omega)] at values
      exact values
    · exact absurd (apart low other first second) id
  · by_cases other : b ≤ 255
    · exact absurd (apart other low second first) id
    · unfold GlyphTable.get at first second
      rw [if_neg low] at first
      rw [if_neg other] at second
      obtain ⟨inside, _⟩ := List.getElem?_eq_some_iff.mp first
      have same := (List.getElem?_inj inside table.nodup).mp (first.trans second.symm)
      omega

structure Cell where
  glyph : GlyphId
  fg : Rgba8
  bg : Rgba8
  em : Emphasis
  deriving DecidableEq

structure IndexedCell extends Cell where
  col : Nat
  deriving DecidableEq

structure Raster where
  width : Nat
  height : Nat
  rows : List (List Cell)
  rows_length : rows.length = height
  row_length : ∀ row ∈ rows, row.length = width

namespace Raster

def cell? (raster : Raster) (y x : Nat) : Option Cell := (raster.rows[y]?).bind (·[x]?)

def row (raster : Raster) (y : Nat) : List IndexedCell :=
  ((raster.rows[y]?).getD []).mapIdx fun x cell => { cell with col := x }

def glyphSpan (raster : Raster) (y x len : Nat) : List GlyphId :=
  ((((raster.rows[y]?).getD []).drop x).take len).map (·.glyph)

end Raster

structure Pos where
  x : Nat
  y : Nat
  deriving DecidableEq

structure RawChange where
  origin : Pos
  glyphs : List GlyphId
  fg : Rgba8
  bg : Rgba8
  em : Emphasis
  deriving DecidableEq

structure ChangeRun where
  origin : Pos
  glyphs : List GlyphId
  fgChange : Option Rgba8 := none
  bgChange : Option Rgba8 := none
  emChange : Option Emphasis := none
  fgReset : Bool := false
  bgReset : Bool := false
  emReset : Bool := false
  deriving DecidableEq

structure StyleState where
  fg : Option Rgba8 := none
  bg : Option Rgba8 := none
  em : Option Emphasis := none
  deriving DecidableEq

def colorDelta (state : Option Rgba8) (color : Rgba8) : Bool × Option Rgba8 × Option Rgba8 :=
  if color.isTerminalDefault && state.isSome then (true, none, none)
  else if !color.isTerminalDefault && some color != state then (false, some color, some color)
  else (false, none, state)

def StyleState.apply (state : StyleState) (raw : RawChange) : ChangeRun × StyleState :=
  let fg := colorDelta state.fg raw.fg
  let bg := colorDelta state.bg raw.bg
  ({ origin := raw.origin, glyphs := raw.glyphs
     fgReset := fg.1, fgChange := fg.2.1
     bgReset := bg.1, bgChange := bg.2.1
     -- SGR parameters only turn attributes on, so dropping one takes a reset first
     emReset := state.em.any fun em => em &&& raw.em != em
     emChange := if raw.em != Emphasis.none && some raw.em != state.em then some raw.em else none },
   { fg := fg.2.2, bg := bg.2.2, em := if raw.em == Emphasis.none then none else some raw.em })

def isChanged (pair : IndexedCell × IndexedCell) : Bool := pair.1.toCell != pair.2.toCell

def sameRun (a b : IndexedCell × IndexedCell) : Bool :=
  isChanged a == isChanged b && a.2.fg == b.2.fg && a.2.bg == b.2.bg && a.2.em == b.2.em

/-- What one chunk of a row's cells reports: nothing when its cells did not change. -/
def chunkChange (y : Nat) (back : Raster) (chunk : List (IndexedCell × IndexedCell)) : Option RawChange :=
  match chunk.head? with
  | some pair =>
      if isChanged pair then
        some { origin := ⟨pair.2.col, y⟩, glyphs := back.glyphSpan y pair.2.col chunk.length
               fg := pair.2.fg, bg := pair.2.bg, em := pair.2.em }
      else none
  | none => none

def rowChanges (y : Nat) (cells : List (IndexedCell × IndexedCell)) (back : Raster) : List RawChange :=
  (cells.splitBy sameRun).filterMap (chunkChange y back)

def rawChanges (front back : Raster) : List RawChange :=
  (List.range back.height).flatMap fun y => rowChanges y ((front.row y).zip (back.row y)) back

/-- The style tracker beside what `emit` keeps. -/
def diffStep {ε σ : Type} (emit : σ → ChangeRun → Except ε σ) (p : StyleState × σ) (raw : RawChange) :
    Except ε (StyleState × σ) := do
  let (run, style) := p.1.apply raw
  let next ← emit p.2 run
  return (style, next)

/-- `emit` for every changed run, row by row and from left to right. -/
def diffRasters {ε σ : Type} (front back : Raster) (emit : σ → ChangeRun → Except ε σ) (s : σ) :
    Except ε σ := do
  let last ← (rawChanges front back).foldlM (diffStep emit) (({} : StyleState), s)
  return last.2

end Nxt.Ui
