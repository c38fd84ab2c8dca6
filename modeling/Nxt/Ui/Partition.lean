import Mathlib

/- The split of the terminal's rows in regional-tty.hpp: a region that scrolls above a fixed region
   at the bottom. Rows count from zero at the top. -/
namespace Nxt.Ui

inductive PartitionKind where
  | hiddenFixedRegion | windowedFixedRegion | fullscreenFixedRegion
  deriving DecidableEq

structure VerticalRegion where
  top : Nat
  bottomExclusive : Nat
  deriving DecidableEq

def VerticalRegion.height (region : VerticalRegion) : Nat := region.bottomExclusive - region.top

/-- The margins that the terminal is given are both inclusive. -/
structure ScrollRegion where
  rows : VerticalRegion
  deriving DecidableEq

def ScrollRegion.topMargin (region : ScrollRegion) : Nat := region.rows.top

def ScrollRegion.bottomMargin (region : ScrollRegion) : Nat := region.rows.bottomExclusive - 1

structure ScreenPartition where
  terminal : VerticalRegion
  kind : PartitionKind
  scroll : Option ScrollRegion
  bottomFixed : VerticalRegion
  deriving DecidableEq

namespace ScreenPartition

def forBottomFixedHeight (terminalHeight fixedHeight : Nat) : ScreenPartition :=
  let fixed := min fixedHeight terminalHeight
  if fixed = 0 then
    { terminal := ⟨0, terminalHeight⟩, kind := .hiddenFixedRegion, scroll := none
      bottomFixed := ⟨terminalHeight, terminalHeight⟩ }
  else if fixed = terminalHeight then
    { terminal := ⟨0, terminalHeight⟩, kind := .fullscreenFixedRegion, scroll := none
      bottomFixed := ⟨0, terminalHeight⟩ }
  else
    { terminal := ⟨0, terminalHeight⟩, kind := .windowedFixedRegion
      scroll := some ⟨⟨0, terminalHeight - fixed⟩⟩
      bottomFixed := ⟨terminalHeight - fixed, terminalHeight⟩ }

def windowed (partition : ScreenPartition) : Bool := partition.kind == .windowedFixedRegion

def hidden (partition : ScreenPartition) : Bool := partition.kind == .hiddenFixedRegion

def fullscreen (partition : ScreenPartition) : Bool := partition.kind == .fullscreenFixedRegion

def chromeStart (partition : ScreenPartition) : Nat :=
  if partition.windowed then partition.bottomFixed.top
  else if partition.fullscreen then partition.terminal.top
  else partition.terminal.bottomExclusive

def rasterHeightFor (partition : ScreenPartition) : Nat :=
  if partition.hidden then 0
  else if partition.windowed then partition.bottomFixed.height
  else partition.terminal.height

section Kinds
variable {terminalHeight fixedHeight : Nat}

theorem forBottomFixedHeight_hidden (none : min fixedHeight terminalHeight = 0) :
    forBottomFixedHeight terminalHeight fixedHeight =
      { terminal := ⟨0, terminalHeight⟩, kind := .hiddenFixedRegion, scroll := .none
        bottomFixed := ⟨terminalHeight, terminalHeight⟩ } := if_pos none

theorem forBottomFixedHeight_windowed (some : min fixedHeight terminalHeight ≠ 0)
    (part : min fixedHeight terminalHeight ≠ terminalHeight) :
    forBottomFixedHeight terminalHeight fixedHeight =
      { terminal := ⟨0, terminalHeight⟩, kind := .windowedFixedRegion
        scroll := .some ⟨⟨0, terminalHeight - min fixedHeight terminalHeight⟩⟩
        bottomFixed := ⟨terminalHeight - min fixedHeight terminalHeight, terminalHeight⟩ } :=
  (if_neg some).trans (if_neg part)

end Kinds
end ScreenPartition
end Nxt.Ui
