import Nxt.Lib.Decimal
import Nxt.Ui.Partition
import Nxt.Ui.Raster

/- The escape writer of ansi.cpp in the mode for terminals, and `present_frame` of compositor.cpp. -/
namespace Nxt.Ui
open Nxt.Lib

namespace Writer

/-- ESC and the bracket, the parameters with semicolons between them, and the final byte. -/
def csi (w : Bytes) (params : List Nat) (finalByte : UInt8) : Bytes :=
  w ++ [0x1b, 0x5b] ++ [(0x3b : UInt8)].intercalate (params.map decimal) ++ [finalByte]

def sgr (w : Bytes) (params : List Nat) : Bytes := csi w params 0x6d

def moveTo (w : Bytes) (pos : Pos) : Bytes := csi w [pos.y + 1, pos.x + 1] 0x48

def saveCursor (w : Bytes) : Bytes := w ++ [0x1b, 0x37]

def restoreCursor (w : Bytes) : Bytes := w ++ [0x1b, 0x38]

def fg (w : Bytes) (r g b : UInt8) : Bytes := sgr w [38, 2, r.toNat, g.toNat, b.toNat]

def bg (w : Bytes) (r g b : UInt8) : Bytes := sgr w [48, 2, r.toNat, g.toNat, b.toNat]

def fgPalette (w : Bytes) (index : UInt8) : Bytes := sgr w [38, 5, index.toNat]

def bgPalette (w : Bytes) (index : UInt8) : Bytes := sgr w [48, 5, index.toNat]

def fgDefault (w : Bytes) : Bytes := sgr w [39]

def bgDefault (w : Bytes) : Bytes := sgr w [49]

def reset (w : Bytes) : Bytes := sgr w [0]

def emphasisCodes : List (Emphasis × Nat) :=
  [(1, 1), (2, 2), (4, 3), (8, 4), (16, 5), (32, 7), (64, 8), (128, 9)]

def style (w : Bytes) (e : Emphasis) : Bytes :=
  emphasisCodes.foldl (fun w p => if hasEmphasis e p.1 then sgr w [p.2] else w) w

end Writer

structure TerminalCompositor where
  front : Raster
  back : Raster
  glyphs : GlyphTable
  partition : ScreenPartition

inductive LogicError where
  | controlCharacter
  deriving DecidableEq

def LogicError.what : LogicError → String
  | .controlCharacter => "terminal raster contains control character glyph"

/-- Newline, carriage return, tab, vertical tab, form feed and escape. -/
def rejected (ch : UInt8) : Bool :=
  match ch with
  | 0x0a | 0x0d | 0x09 | 0x0b | 0x0c | 0x1b => true
  | _ => false

def writeTerminalText (w : Bytes) (text : Bytes) : Except LogicError Bytes :=
  text.foldlM (fun w ch => if rejected ch then .error .controlCharacter else .ok (w ++ [ch])) w

def emitFg (w : Bytes) (c : Rgba8) : Bytes :=
  if c.isPalette then Writer.fgPalette w c.paletteIndex else Writer.fg w c.r c.g c.b

def emitBg (w : Bytes) (c : Rgba8) : Bytes :=
  if c.isPalette then Writer.bgPalette w c.paletteIndex else Writer.bg w c.r c.g c.b

structure Emission where
  w : Bytes
  currentFg : Option Rgba8 := none
  currentBg : Option Rgba8 := none
  deriving DecidableEq

namespace Emission

def afterReset (s : Emission) (emReset : Bool) : Emission :=
  if emReset then
    let w := Writer.reset s.w
    let w := match s.currentFg with
      | some c => emitFg w c
      | none => w
    let w := match s.currentBg with
      | some c => emitBg w c
      | none => w
    { s with w }
  else s

def updateBg (s : Emission) (run : ChangeRun) : Emission :=
  if run.bgReset then { s with w := Writer.bgDefault s.w, currentBg := none }
  else
    match run.bgChange with
    | some c => { s with w := emitBg s.w c, currentBg := run.bgChange }
    | none => s

def updateFg (s : Emission) (run : ChangeRun) : Emission :=
  if run.fgReset then { s with w := Writer.fgDefault s.w, currentFg := none }
  else
    match run.fgChange with
    | some c => { s with w := emitFg s.w c, currentFg := run.fgChange }
    | none => s

def updateEm (s : Emission) (run : ChangeRun) : Emission :=
  match run.emChange with
  | some e => { s with w := Writer.style s.w e }
  | none => s

/-- The escapes of one run, before its text. -/
def styled (s : Emission) (run : ChangeRun) (rowOffset : Nat) : Emission :=
  let s := { s with w := Writer.moveTo s.w ⟨run.origin.x, run.origin.y + rowOffset⟩ }
  (((s.afterReset run.emReset).updateBg run).updateFg run).updateEm run

end Emission

def writeGlyph (glyphs : GlyphTable) (w : Bytes) (gid : GlyphId) : Except LogicError Bytes :=
  match glyphs.get gid with
  | some text => writeTerminalText w text
  | none => .ok w

def emitRun (glyphs : GlyphTable) (rowOffset : Nat) (s : Emission) (run : ChangeRun) :
    Except LogicError Emission := do
  let s := s.styled run rowOffset
  let w ← run.glyphs.foldlM (writeGlyph glyphs) s.w
  return { s with w }

namespace TerminalCompositor

def frame (c : TerminalCompositor) : Except LogicError Bytes := do
  let s ← diffRasters c.front c.back (emitRun c.glyphs c.partition.chromeStart)
    { w := Writer.saveCursor [] }
  return Writer.restoreCursor s.w

/-- The outcome, the compositor afterwards and what was written to the stream. -/
def presentFrame (c : TerminalCompositor) : Except LogicError Unit × TerminalCompositor × Bytes :=
  match c.frame with
  | .error e => (.error e, c, [])
  | .ok buf =>
      let swapped := { c with front := c.back, back := c.front }
      (.ok (), { swapped with back := swapped.front }, buf)

end TerminalCompositor
end Nxt.Ui
