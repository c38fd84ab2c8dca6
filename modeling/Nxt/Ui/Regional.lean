import Nxt.Ui.Partition

/- The programs of regional-tty.hpp as its command lists: the change from one partition of the
   terminal to another, and blocks of lines appended where the cursor stands. A character takes one
   cell. -/
namespace Nxt.Ui.Regional

abbrev Text := List Char

structure Repartition where
  old : Option ScreenPartition
  next : ScreenPartition
  insertionCursor : Option Nat := none
  initialAttachment : Bool := false
  deriving DecidableEq

namespace Repartition

def initial (next : ScreenPartition) (insertionCursor : Option Nat) : Repartition :=
  { old := none, next, insertionCursor, initialAttachment := true }

def from_ (old next : ScreenPartition) : Repartition := { old := some old, next }

end Repartition

def bottomMargin (partition : ScreenPartition) : Nat :=
  (partition.scroll.map ScrollRegion.bottomMargin).getD 0

namespace Repartition

/-- Rows to scroll up before the change. -/
def reservation (change : Repartition) : Nat :=
  if !change.next.windowed then 0
  else if change.initialAttachment then
    match change.insertionCursor with
    | some cursor => if cursor > bottomMargin change.next then cursor - bottomMargin change.next else 0
    | none => 0
  else
    match change.old with
    | none => change.next.bottomFixed.height
    | some old =>
        if !old.windowed then change.next.bottomFixed.height
        else if bottomMargin change.next < bottomMargin old then
          bottomMargin old - bottomMargin change.next
        else 0

/-- Rows that the scroll region gains. -/
def release (change : Repartition) : Nat :=
  if change.initialAttachment then 0
  else
    match change.old with
    | none => 0
    | some old =>
        if !old.windowed then 0
        else if change.next.hidden then old.bottomFixed.height
        else if !change.next.windowed then 0
        else if bottomMargin change.next > bottomMargin old then
          bottomMargin change.next - bottomMargin old
        else 0

def chromeToClear (change : Repartition) : VerticalRegion :=
  let bottom := change.next.terminal.bottomExclusive
  if change.initialAttachment then ⟨bottom, bottom⟩
  else
    match change.old with
    | some old =>
        if change.next.hidden then old.bottomFixed
        else ⟨max change.next.terminal.top (min (min change.next.chromeStart old.chromeStart) bottom), bottom⟩
    | none => ⟨max change.next.terminal.top (min change.next.chromeStart bottom), bottom⟩

end Repartition

inductive Command where
  | saveCursor | restoreCursor | resetGraphics
  | setScrollRegion (region : ScrollRegion)
  | resetScrollRegion
  | scrollUp (rows : Nat) | scrollDown (rows : Nat)
  | moveUp (rows : Nat) | moveDown (rows : Nat)
  | moveToLeft (row : Nat)
  | clearLine | lineFeed
  | text (line : Text)
  deriving DecidableEq

def clearRows (region : VerticalRegion) : List Command :=
  (List.range' region.top (region.bottomExclusive - region.top)).flatMap fun row =>
    [.moveToLeft row, .clearLine]

def marginCommand : Option ScrollRegion → Command
  | some region => .setScrollRegion region
  | none => .resetScrollRegion

def emitRepartition (change : Repartition) : List Command :=
  let reservation := change.reservation
  let clear := change.chromeToClear
  let release := change.release
  [.resetGraphics] ++
    (if reservation > 0 then [.scrollUp reservation, .moveUp reservation] else []) ++
    -- setting the margins homes the cursor, which is where output goes on
    [.saveCursor, marginCommand change.next.scroll, .restoreCursor] ++
    (if clear.top = clear.bottomExclusive then []
      else [.saveCursor] ++ clearRows clear ++ [.restoreCursor]) ++
    (if release > 0 && change.next.hidden then [.scrollDown release, .moveDown release] else [])

/-- The lines of a block with a line feed after each but the last. -/
def emitLines : List Text → List Command
  | [] => []
  | [line] => if line.isEmpty then [] else [.text line]
  | line :: rest => (if line.isEmpty then [] else [.text line]) ++ [.lineFeed] ++ emitLines rest

structure ScrollbackAppendState where
  afterBlock : Bool := false
  deriving DecidableEq

def ScrollbackAppendState.appendBlock (state : ScrollbackAppendState) (block : Text) :
    List Command × ScrollbackAppendState :=
  if block.isEmpty then ([], state)
  else
    ([.resetGraphics] ++ (if state.afterBlock then [.lineFeed] else []) ++ emitLines (block.splitOn '\n'),
      { afterBlock := true })

/-- A terminal with `cols` columns that takes margins around at least `least` rows. Lines that
    scroll off the top row go to the history. -/
structure Tty where
  history : List Text
  screen : List Text
  row : Nat
  col : Nat
  saved : Nat × Nat := (0, 0)
  top : Nat
  bottom : Nat
  deriving DecidableEq

namespace Tty

def withRow (t : Tty) (row : Nat) : Tty := { t with row }

def region (t : Tty) : List Text := (t.screen.take (t.bottom + 1)).drop t.top

def scrollUp (t : Tty) (rows : Nat) : Tty :=
  let lost := min rows t.region.length
  { t with
    history := if t.top = 0 then t.history ++ t.region.take lost else t.history
    screen := t.screen.take t.top ++ (t.region.drop lost ++ List.replicate lost []) ++
      t.screen.drop (t.bottom + 1) }

def scrollDown (t : Tty) (rows : Nat) : Tty :=
  let lost := min rows t.region.length
  { t with
    screen := t.screen.take t.top ++ (List.replicate lost [] ++ t.region.take (t.region.length - lost)) ++
      t.screen.drop (t.bottom + 1) }

def lineFeed (t : Tty) : Tty :=
  if t.row = t.bottom then { t.scrollUp 1 with col := 0 }
  else if t.row + 1 < t.screen.length then { t with row := t.row + 1, col := 0 }
  else { t with col := 0 }

/-- One character over a line, which is as long as what was written on it. -/
def overlay (line : Text) (col : Nat) (c : Char) : Text :=
  line.take col ++ List.replicate (col - line.length) ' ' ++ [c] ++ line.drop (col + 1)

def put (cols : Nat) (t : Tty) (c : Char) : Tty :=
  let t := if t.col < cols then t else t.lineFeed
  { t with screen := t.screen.modify t.row fun line => overlay line t.col c, col := t.col + 1 }

def exec (least cols : Nat) (t : Tty) : Command → Tty
  | .saveCursor => { t with saved := (t.row, t.col) }
  | .restoreCursor => { t with row := t.saved.1, col := t.saved.2 }
  | .resetGraphics => t
  | .setScrollRegion region =>
      if region.topMargin + least ≤ region.bottomMargin + 1 ∧ region.bottomMargin < t.screen.length then
        { t with top := region.topMargin, bottom := region.bottomMargin, row := 0, col := 0 }
      else t
  | .resetScrollRegion => { t with top := 0, bottom := t.screen.length - 1, row := 0, col := 0 }
  | .scrollUp rows => t.scrollUp rows
  | .scrollDown rows => t.scrollDown rows
  | .moveUp rows => { t with row := if t.top ≤ t.row then max (t.row - rows) t.top else t.row - rows }
  | .moveDown rows =>
      { t with row := if t.row ≤ t.bottom then min (t.row + rows) t.bottom
                      else min (t.row + rows) (t.screen.length - 1) }
  | .moveToLeft row => { t with row := min row (t.screen.length - 1), col := 0 }
  | .clearLine => { t with screen := t.screen.set t.row [] }
  | .lineFeed => t.lineFeed
  | .text line => line.foldl (put cols) t

def run (least cols : Nat) (t : Tty) (program : List Command) : Tty := program.foldl (exec least cols) t

end Tty

def shown (line : Text) : Bool := line.any (· != ' ')

/-- The terminal with what was written on it, the current partition and whether a block was
    appended before. -/
structure Session where
  tty : Tty
  partition : ScreenPartition
  append : ScrollbackAppendState := {}
  written : List Text

/-- A change to a fixed region of some height, a block, or the fixed region drawn anew. -/
inductive Step where
  | repartition (fixedHeight : Nat)
  | block (text : Text)
  | paint (rows : List Text)

/-- The fixed region's rows from `top` on. -/
def paintRows (screen rows : List Text) (top : Nat) : List Text :=
  screen.mapIdx fun y line => if top ≤ y then (rows[y - top]?).getD line else line

namespace Session

/-- The first fixed region, with the row that the cursor stands in. -/
def attach (least cols terminalHeight fixedHeight : Nat) (t : Tty) (before : List Text) : Session :=
  let next := ScreenPartition.forBottomFixedHeight terminalHeight fixedHeight
  { tty := t.run least cols (emitRepartition (.initial next (some t.row)))
    partition := next, written := before }

def step (least cols terminalHeight : Nat) (s : Session) : Step → Session
  | .repartition fixedHeight =>
      let next := ScreenPartition.forBottomFixedHeight terminalHeight fixedHeight
      { s with tty := s.tty.run least cols (emitRepartition (.from_ s.partition next)), partition := next }
  | .block text =>
      let (program, append) := s.append.appendBlock text
      { s with tty := s.tty.run least cols program, append
               written := s.written ++ if text.isEmpty then [] else text.splitOn '\n' }
  | .paint rows =>
      { s with tty := { s.tty with screen := paintRows s.tty.screen rows s.partition.chromeStart } }

def run (least cols terminalHeight : Nat) (s : Session) (steps : List Step) : Session :=
  steps.foldl (step least cols terminalHeight) s

end Session
end Nxt.Ui.Regional
