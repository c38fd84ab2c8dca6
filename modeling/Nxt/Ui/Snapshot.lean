import Nxt.Ui.Runs

/- Snapshots of a raster (ansi.cpp, `render_raster`), read back by a terminal. Trailing blanks are cut, a style is written
   as a reset and what differs from the default, and every row forgets the style of the row before. -/
namespace Nxt.Ui
open Nxt.Lib List

namespace Snapshot

structure CellStyle where
  fg : Rgba8
  bg : Rgba8
  em : Emphasis
  deriving DecidableEq

def isVisibleTrailingCell (cell : Cell) : Bool :=
  cell.glyph != 0x20 || !cell.bg.isTerminalDefault || cell.em != Emphasis.none

def emitFg (w : Bytes) (c : Rgba8) : Bytes :=
  if c.isTerminalDefault || c.isTransparent then Writer.fgDefault w
  else if c.isPalette then Writer.fgPalette w c.paletteIndex
  else Writer.fg w c.r c.g c.b

def emitBg (w : Bytes) (c : Rgba8) : Bytes :=
  if c.isTerminalDefault || c.isTransparent then Writer.bgDefault w
  else if c.isPalette then Writer.bgPalette w c.paletteIndex
  else Writer.bg w c.r c.g c.b

/-- The escapes that make `desired` of the current style. -/
def applyStyle (w : Bytes) (current : Option CellStyle) (desired : CellStyle) : Bytes :=
  if current = some desired then w
  else
    let w := Writer.reset w
    let w := if desired.fg.isTerminalDefault then w else emitFg w desired.fg
    let w := if desired.bg.isTerminalDefault then w else emitBg w desired.bg
    if desired.em = Emphasis.none then w else Writer.style w desired.em

/-- One past the last cell that has to be drawn. -/
def lastVisible (row : List Cell) : Nat :=
  row.zipIdx.foldl (fun last p => if isVisibleTrailingCell p.1 then p.2 + 1 else last) 0

structure Output where
  w : Bytes := []
  currentStyle : Option CellStyle := none
  emittedRow : Bool := false
  deriving DecidableEq

def emitCell (glyphs : GlyphTable) (s : Output) (cell : Cell) : Output :=
  let desired : CellStyle := { fg := cell.fg, bg := cell.bg, em := cell.em }
  { s with
    w := applyStyle s.w s.currentStyle desired ++ (glyphs.get cell.glyph).getD [0x20]
    currentStyle := some desired }

def startRow (s : Output) : Output :=
  if s.emittedRow then { s with w := Writer.reset s.w ++ [0x0a], currentStyle := none } else s

def emitRow (glyphs : GlyphTable) (s : Output) (row : List Cell) : Output :=
  { (row.take (lastVisible row)).foldl (emitCell glyphs) (startRow s) with emittedRow := true }

def renderRaster (glyphs : GlyphTable) (raster : Raster) : Bytes :=
  Writer.reset (raster.rows.foldl (emitRow glyphs) {}).w

end Snapshot

open Snapshot

section Trailing
variable {row : List Cell} {x : Nat}

/-- From column `x` on the row holds blanks on the default background, without emphasis. -/
def Untouched (row : List Cell) (x : Nat) : Prop := ∀ x' cell, x ≤ x' → row[x']? = some cell →
  cell.glyph = 0x20 ∧ cell.bg = .terminalDefault ∧ cell.em = Emphasis.none

theorem not_visible_iff (cell : Cell) : isVisibleTrailingCell cell = false ↔
    cell.glyph = 0x20 ∧ cell.bg = .terminalDefault ∧ cell.em = Emphasis.none := by
  have default : cell.bg.isTerminalDefault = true ↔ cell.bg = .terminalDefault := by
    unfold Rgba8.isTerminalDefault Rgba8.terminalDefault
    rw [beq_iff_eq]
    exact ⟨fun value => congrArg Rgba8.mk value, fun same => by rw [same]⟩
  unfold isVisibleTrailingCell
  simp only [Bool.or_eq_false_iff, bne_eq_false_iff_eq, Bool.not_eq_false', default, and_assoc]

theorem lastVisible_append (row : List Cell) (cell : Cell) : lastVisible (row ++ [cell]) =
    if isVisibleTrailingCell cell then row.length + 1 else lastVisible row := by
  unfold lastVisible
  rw [zipIdx_append, foldl_append]
  simp

theorem lastVisible_le (row : List Cell) : lastVisible row ≤ row.length := by
  induction row using List.reverseRecOn with
  | nil => exact Nat.le_refl 0
  | append_singleton row cell ih =>
    rw [lastVisible_append, length_append, length_singleton]
    split <;> omega

theorem untouched_iff (row : List Cell) (x : Nat) : Untouched row x ↔ lastVisible row ≤ x := by
  induction row using List.reverseRecOn with
  | nil => exact iff_of_true (fun _ _ _ at_ => by cases at_) (Nat.zero_le x)
  | append_singleton row cell ih =>
    have split : Untouched (row ++ [cell]) x ↔
        Untouched row x ∧ (x ≤ row.length → isVisibleTrailingCell cell = false) := by
      constructor
      · intro untouched
        refine ⟨fun x' other low at_ => untouched x' other low ?_, fun low => ?_⟩
        · rw [getElem?_append_left (List.getElem?_eq_some_iff.mp at_).1]
          exact at_
        · exact (not_visible_iff cell).mpr (untouched row.length cell low (getElem?_concat_length ..))
      · rintro ⟨before, last⟩ x' other low at_
        rcases Nat.lt_or_ge x' row.length with inside | past
        · rw [getElem?_append_left inside] at at_
          exact before x' other low at_
        · have end_ := (List.getElem?_eq_some_iff.mp at_).1
          rw [length_append, length_singleton] at end_
          obtain rfl : x' = row.length := by omega
          rw [getElem?_concat_length] at at_
          obtain rfl := Option.some.inj at_
          exact (not_visible_iff _).mp (last low)
    rw [split, lastVisible_append, ih]
    cases visible : isVisibleTrailingCell cell with
    | false => simp
    | true =>
      rw [if_pos rfl]
      constructor
      · rintro ⟨-, outside⟩
        by_contra inside
        cases outside (by omega)
      · intro past
        have bound := lastVisible_le row
        exact ⟨by omega, fun inside => by omega⟩

end Trailing

variable {cs : Charset} {rows cols : Nat}
variable {obey : Bytes → Terminal cs rows cols → Terminal cs rows cols}

def Snapshot.CellStyle.pen (style : CellStyle) : Pen :=
  { fg := shownColor style.fg, bg := shownColor style.bg, em := style.em }

namespace Written
variable {start t : Terminal cs rows cols} {w : Bytes}

theorem reset (reads : Reads obey start w t) : Written obey start (Writer.reset w) { t with pen := {} } :=
  ⟨[], _, (fun _ none => absurd none not_mem_nil), reads.csi (cons_ne_nil _ _) (by decide), rfl⟩

section
variable (written : Written obey start w t)
include written

theorem snapshotFg (c : Rgba8) :
    Written obey start (Snapshot.emitFg w c) { t with pen := { t.pen with fg := shownColor c } } := by
  unfold Snapshot.emitFg shownColor
  split
  · exact written.sgr (cons_ne_nil _ _) rfl
  · exact written.emitFg c

theorem snapshotBg (c : Rgba8) :
    Written obey start (Snapshot.emitBg w c) { t with pen := { t.pen with bg := shownColor c } } := by
  unfold Snapshot.emitBg shownColor
  split
  · exact written.sgr (cons_ne_nil _ _) rfl
  · exact written.emitBg c

theorem fgAfterReset (plain : t.pen.fg = .default) (c : Rgba8) :
    Written obey start (if c.isTerminalDefault then w else Snapshot.emitFg w c)
      { t with pen := { t.pen with fg := shownColor c } } := by
  split
  · next default =>
    have shown : shownColor c = t.pen.fg := by
      unfold shownColor
      rw [default, plain]
      rfl
    rw [shown]
    exact written
  · exact written.snapshotFg c

theorem bgAfterReset (plain : t.pen.bg = .default) (c : Rgba8) :
    Written obey start (if c.isTerminalDefault then w else Snapshot.emitBg w c)
      { t with pen := { t.pen with bg := shownColor c } } := by
  split
  · next default =>
    have shown : shownColor c = t.pen.bg := by
      unfold shownColor
      rw [default, plain]
      rfl
    rw [shown]
    exact written
  · exact written.snapshotBg c

end

end Written

section Cells
variable {start t : Terminal cs rows cols} {s : Output} {glyphs : GlyphTable} {row : List Cell}

structure Follows (obey : Bytes → Terminal cs rows cols → Terminal cs rows cols) (start : Terminal cs rows cols)
    (s : Output) (t : Terminal cs rows cols) : Prop where
  reads : Reads obey start s.w t
  styled : ∀ style, s.currentStyle = some style → Written obey start s.w t ∧ t.pen = style.pen

theorem applyStyle_written (follows : Follows obey start s t) (desired : CellStyle) :
    Written obey start (applyStyle s.w s.currentStyle desired) { t with pen := desired.pen } := by
  unfold applyStyle
  by_cases same : s.currentStyle = some desired
  · rw [if_pos same]
    obtain ⟨written, pen⟩ := follows.styled desired same
    rw [← pen]
    exact written
  · rw [if_neg same]
    have colors := ((Written.reset follows.reads).fgAfterReset rfl desired.fg).bgAfterReset rfl desired.bg
    simp only
    split
    · next none_ =>
      have pen : desired.pen = { fg := shownColor desired.fg, bg := shownColor desired.bg } := by
        unfold CellStyle.pen
        rw [none_]
      rw [pen]
      exact colors
    · have styled := colors.style desired.em
      have joined : (Emphasis.none ||| desired.em : Emphasis) = desired.em := BitVec.zero_or
      have pen : desired.pen = ⟨shownColor desired.fg, shownColor desired.bg, Emphasis.none ||| desired.em⟩ := by
        rw [joined]
        rfl
      rw [pen]
      exact styled

/-- What the terminal has to show in column `x`: its part of the glyph there, in the style of the glyph's first cell. -/
def Drawn (cs : Charset) (glyphs : GlyphTable) (row : List Cell) (x : Nat) (shown : TermCell) : Prop :=
  ∃ a w lead text, a ≤ x ∧ x < a + w ∧ row[a]? = some lead ∧ glyphs.get lead.glyph = some text ∧
    cs.width text = some w ∧ shown = { text, part := x - a, pen := shownPen lead }

theorem Drawn.at_lead {a x w : Nat} {lead : Cell} {text : Bytes} (low : a ≤ x) (high : x < a + w)
    (at_ : row[a]? = some lead) (get : glyphs.get lead.glyph = some text) (drawn : cs.width text = some w) :
    Drawn cs glyphs row x { text, part := x - a, pen := shownPen lead } :=
  ⟨a, w, lead, text, low, high, at_, get, drawn, rfl⟩

/-- The first `k` cells of a row are written, on a line that was blank: the cursor stands at the next glyph. -/
structure Reached (glyphs : GlyphTable) (row : List Cell) (y k : Nat) (before t : Terminal cs rows cols) : Prop where
  line : t.cursor.y = y
  ahead : k ≤ t.cursor.x
  inside : t.cursor.x ≤ row.length
  next : t.cursor.x < row.length → ∃ v, Leads cs glyphs row t.cursor.x v
  between : ∀ a v, k ≤ a → a < t.cursor.x → ¬Leads cs glyphs row a v
  drawn : ∀ x < t.cursor.x, Drawn cs glyphs row x (t.cell y x)
  blank : ∀ x, t.cursor.x ≤ x → t.cell y x = .space {}
  others : ∀ other, other ≠ y → t.line other = before.line other

variable {y k : Nat} {before : Terminal cs rows cols}

theorem Reached.restyle (reached : Reached glyphs row y k before t) (pen : Pen) :
    Reached glyphs row y k before { t with pen } :=
  ⟨reached.line, reached.ahead, reached.inside, reached.next, reached.between, reached.drawn, reached.blank,
    reached.others⟩

theorem Reached.apart (reached : Reached glyphs row y k before t) (followed : Followed cs glyphs row) {w x : Nat}
    (leads : Leads cs glyphs row t.cursor.x w) (outside : ¬(t.cursor.x ≤ x ∧ x < t.cursor.x + w)) :
    (t.line t.cursor.y).overlapped t.cursor.x w x = false := by
  unfold Line.overlapped
  rcases Nat.lt_or_ge x t.cursor.x with before_ | after
  · obtain ⟨a, v, lead, text, low, high, at_, get, drawn, shown⟩ := reached.drawn x before_
    have apart := followed.apart ⟨lead, text, at_, get, drawn⟩ leads (by omega)
    have cell : (t.line t.cursor.y).cell x = { text, part := x - a, pen := shownPen lead } := by
      rw [reached.line]
      exact shown
    rw [cell]
    simp only [drawn, Option.getD_some, Bool.and_eq_false_iff, decide_eq_false_iff_not]
    omega
  · have cell : (t.line t.cursor.y).cell x = .space {} := by
      rw [reached.line]
      exact reached.blank x after
    rw [cell]
    refine Bool.and_eq_false_iff.mpr (.inl (decide_eq_false ?_))
    show ¬(x - 0 < t.cursor.x + w)
    omega

theorem Reached.place (reached : Reached glyphs row y k before t) (followed : Followed cs glyphs row)
    (covered : Covered cs glyphs row) {w : Nat} {cell : Cell} {text : Bytes} (here : t.cursor.x = k)
    (at_ : row[k]? = some cell) (get : glyphs.get cell.glyph = some text) (drawn : cs.width text = some w)
    (fits : t.cursor.x + w ≤ cols) (pen : t.pen = shownPen cell) :
    Reached glyphs row y (k + 1) before (t.place drawn fits) := by
  have leads : Leads cs glyphs row t.cursor.x w := ⟨cell, text, here ▸ at_, get, drawn⟩
  have positive := cs.positive drawn
  have end_ := followed.fits leads
  have line : (t.place drawn fits).line y = (t.line y).put t.cursor.x t.pen drawn fits := by
    rw [← reached.line]
    exact place_line t drawn fits
  have kept : ∀ x, ¬(t.cursor.x ≤ x ∧ x < t.cursor.x + w) → (t.place drawn fits).cell y x = t.cell y x := by
    intro x outside
    have apart := reached.apart followed leads outside
    rw [reached.line] at apart
    unfold Terminal.cell
    rw [line]
    exact Line.putCell_kept _ text t.pen outside apart
  refine ⟨reached.line, ?_, end_, ?_, ?_, ?_, ?_, ?_⟩
  · show k + 1 ≤ t.cursor.x + w
    omega
  · exact followed.next covered leads
  · intro a v after before_ other
    have apart := followed.apart leads other (by omega)
    have cursor : a < t.cursor.x + w := before_
    omega
  · intro x before_
    have small : x < t.cursor.x + w := before_
    by_cases own : t.cursor.x ≤ x ∧ x < t.cursor.x + w
    · have shown : (t.place drawn fits).cell y x = { text, part := x - t.cursor.x, pen := shownPen cell } := by
        unfold Terminal.cell
        rw [line]
        refine (Line.putCell_inside _ text t.pen own.1 own.2).trans ?_
        rw [pen]
      rw [shown]
      exact Drawn.at_lead own.1 own.2 (here ▸ at_) get drawn
    · rw [kept x own]
      exact reached.drawn x (by omega)
  · intro x after
    have past : t.cursor.x + w ≤ x := after
    rw [kept x (by omega)]
    exact reached.blank x (by omega)
  · intro other apart
    refine Eq.trans ?_ (reached.others other apart)
    exact if_neg (reached.line ▸ apart)

theorem emitCell_follows {cell : Cell} {text : Bytes} (get : glyphs.get cell.glyph = some text)
    (written : Written obey start (applyStyle s.w s.currentStyle ⟨cell.fg, cell.bg, cell.em⟩ ++ text) t)
    (pen : t.pen = shownPen cell) : Follows obey start (emitCell glyphs s cell) t := by
  unfold emitCell
  rw [get]
  refine ⟨written.reads, fun style same => ?_⟩
  obtain rfl := Option.some.inj same
  exact ⟨written, pen⟩

theorem emitCell_written (followed : Followed cs glyphs row) (covered : Covered cs glyphs row)
    (within : row.length ≤ cols) {cell : Cell} (at_ : row[k]? = some cell) (follows : Follows obey start s t)
    (reached : Reached glyphs row y k before t) :
    ∃ t', Follows obey start (emitCell glyphs s cell) t' ∧ Reached glyphs row y (k + 1) before t' := by
  have inside := (List.getElem?_eq_some_iff.mp at_).1
  have styled : Written obey start (applyStyle s.w s.currentStyle ⟨cell.fg, cell.bg, cell.em⟩)
      { t with pen := shownPen cell } := applyStyle_written follows _
  have reached' := reached.restyle (shownPen cell)
  rcases covered k inside with ⟨w, leads⟩ | ⟨⟨other, other_at, empty⟩, -⟩
  · have here : t.cursor.x = k := by
      by_contra differ
      have ahead := reached.ahead
      exact reached.between k w le_rfl (by omega) leads
    have fits : t.cursor.x + w ≤ cols := by
      have end_ := followed.fits leads
      omega
    obtain ⟨other, text, other_at, get, drawn⟩ := leads
    obtain rfl : cell = other := Option.some.inj (at_.symm.trans other_at)
    have written := styled.text drawn
    rw [Terminal.print_place { t with pen := shownPen cell } drawn fits] at written
    exact ⟨_, emitCell_follows get written rfl, reached'.place followed covered here at_ get drawn fits rfl⟩
  · obtain rfl : cell = other := Option.some.inj (at_.symm.trans other_at)
    have past : k < t.cursor.x := by
      by_contra not_past
      have ahead := reached.ahead
      have here : t.cursor.x = k := by omega
      obtain ⟨v, leads⟩ := reached.next (by omega)
      exact (here ▸ leads).not_empty at_ empty
    exact ⟨_, emitCell_follows empty (by rw [append_nil]; exact styled) rfl, reached'.line, past, reached'.inside,
      reached'.next, fun a v after => reached'.between a v (by omega), reached'.drawn, reached'.blank, reached'.others⟩

theorem emitCells_written (followed : Followed cs glyphs row) (covered : Covered cs glyphs row)
    (within : row.length ≤ cols) {len : Nat} (inside : k + len ≤ row.length) (follows : Follows obey start s t)
    (reached : Reached glyphs row y k before t) : ∃ t', Follows obey start
    (((row.drop k).take len).foldl (emitCell glyphs) s) t' ∧ Reached glyphs row y (k + len) before t' := by
  induction len generalizing k s t with
  | zero => exact ⟨t, follows, reached⟩
  | succ len ih =>
    have here : k < row.length := by omega
    obtain ⟨t', follows', reached'⟩ :=
      emitCell_written followed covered within (getElem?_eq_getElem here) follows reached
    rw [drop_eq_getElem_cons here, take_succ_cons, foldl_cons,
      show k + (len + 1) = k + 1 + len by omega]
    exact ih (by omega) follows' reached'

/-- The line of a row: trailing blanks are left, the rest is drawn. -/
def RowShown (glyphs : GlyphTable) (row : List Cell) (line : Line cs cols) : Prop :=
  ∀ x, (Untouched row x → line.cell x = .space {}) ∧ (¬Untouched row x → Drawn cs glyphs row x (line.cell x))

theorem Reached.shown (reached : Reached glyphs row y (lastVisible row) before t) (covered : Covered cs glyphs row) :
    RowShown glyphs row (t.line y) := by
  have stands : t.cursor.x = lastVisible row := by
    by_contra differ
    have ahead := reached.ahead
    have inside := reached.inside
    rcases covered (lastVisible row) (by omega) with ⟨w, leads⟩ | ⟨⟨cell, at_, empty⟩, -⟩
    · exact reached.between _ w le_rfl (by omega) leads
    · have blank := (untouched_iff row _).mpr le_rfl _ cell le_rfl at_
      rw [blank.1] at empty
      exact absurd (Option.some.inj empty) (by decide)
  intro x
  rw [untouched_iff, Nat.not_le, ← stands]
  exact ⟨reached.blank x, reached.drawn x⟩

end Cells

section Rows
variable {start t : Terminal cs rows cols} {s : Output} {glyphs : GlyphTable}

structure FeedsLines (obey : Bytes → Terminal cs rows cols → Terminal cs rows cols) : Prop where
  alone : cs.segment [0x0a] = [[0x0a]]
  next : ∀ t : Terminal cs rows cols, t.cursor.y + 1 < rows →
    obey [0x0a] t = { t with cursor := { x := 0, y := t.cursor.y + 1 } }

theorem FeedsLines.reads (feeds : FeedsLines obey) {w : Bytes} (reads : Reads obey start w t)
    (room : t.cursor.y + 1 < rows) : Reads obey start (Writer.reset w ++ [0x0a])
      { t with pen := {}, cursor := { x := 0, y := t.cursor.y + 1 } } := by
  have undrawn : cs.width [0x0a] = none := by
    cases width : cs.width [0x0a] with
    | none => rfl
    | some w => exact absurd (cs.printable width _ mem_cons_self).1 (by decide)
  have reset := @Reads.csi _ _ _ _ _ _ _ reads [0] (cons_ne_nil _ _) 0x6d (by decide)
  refine ⟨[0x0a], { t with pen := {} }, ?_, ?_⟩
  · rw [foldl_append]
    show List.foldl _ (List.foldl _ _ (Writer.csi w [0] 0x6d)) _ = _
    rw [reset]
    rfl
  · unfold Terminal.write
    rw [feeds.alone]
    show Terminal.print obey _ _ = _
    unfold Terminal.print
    split
    · exact feeds.next _ room
    · next drawn => rw [undrawn] at drawn; cases drawn

structure RowsShown (glyphs : GlyphTable) (done : List (List Cell)) (s : Output) (t : Terminal cs rows cols) : Prop where
  started : s.emittedRow = false → done = [] ∧ t.cursor = { x := 0, y := 0 }
  last : s.emittedRow = true → t.cursor.y + 1 = done.length
  shown : ∀ y row, done[y]? = some row → RowShown glyphs row (t.line y)
  blank : ∀ y, done.length ≤ y → t.line y = .blank cs cols

theorem startRow_written (feeds : FeedsLines obey) {done : List (List Cell)} (room : done.length < rows)
    (follows : Follows obey start s t) (rows_ : RowsShown glyphs done s t) :
    ∃ t', Follows obey start (startRow s) t' ∧ t'.cursor = { x := 0, y := done.length } ∧ t'.line = t.line := by
  unfold startRow
  cases emitted : s.emittedRow with
  | false =>
    obtain ⟨rfl, cursor⟩ := rows_.started emitted
    exact ⟨t, follows, cursor, rfl⟩
  | true =>
    have last := rows_.last emitted
    refine ⟨_, ⟨feeds.reads follows.reads (by omega), ?_⟩, ?_, rfl⟩
    · rintro style none_
      cases none_
    · show ({ x := 0, y := t.cursor.y + 1 } : Pos) = _
      rw [last]

theorem emitRow_written (feeds : FeedsLines obey) {done : List (List Cell)} {row : List Cell}
    (followed : Followed cs glyphs row) (covered : Covered cs glyphs row) (within : row.length ≤ cols)
    (room : done.length < rows) (follows : Follows obey start s t) (rows_ : RowsShown glyphs done s t) :
    ∃ t', Follows obey start (emitRow glyphs s row) t' ∧ RowsShown glyphs (done ++ [row]) (emitRow glyphs s row) t' := by
  obtain ⟨t₁, follows₁, cursor, lines⟩ := startRow_written feeds room follows rows_
  have blank : t₁.line done.length = .blank cs cols := lines ▸ rows_.blank _ le_rfl
  have reached : Reached glyphs row done.length 0 t₁ t₁ := by
    have column : t₁.cursor.x = 0 := by rw [cursor]
    refine ⟨by rw [cursor], Nat.zero_le _, by omega, ?_, fun a v _ before => by omega, fun x before => by omega,
      fun x _ => ?_, fun _ _ => rfl⟩
    · rw [column]
      intro some_
      rcases covered 0 some_ with leads | ⟨-, a, w, before, -⟩
      · exact leads
      · omega
    · unfold Terminal.cell
      rw [blank]
      rfl
  obtain ⟨t₂, follows₂, reached₂⟩ := emitCells_written followed covered within
    (show 0 + lastVisible row ≤ row.length by rw [Nat.zero_add]; exact lastVisible_le row) follows₁ reached
  rw [Nat.zero_add] at reached₂
  rw [drop_zero] at follows₂
  refine ⟨t₂, ⟨follows₂.reads, follows₂.styled⟩, ?_, ?_, ?_, ?_⟩
  · intro none_
    cases none_
  · intro _
    rw [length_append, length_singleton, reached₂.line]
  · intro y other at_
    rcases Nat.lt_or_ge y done.length with before | after
    · rw [getElem?_append_left before] at at_
      rw [reached₂.others y (by omega), lines]
      exact rows_.shown y other at_
    · have end_ := (List.getElem?_eq_some_iff.mp at_).1
      rw [length_append, length_singleton] at end_
      obtain rfl : y = done.length := by omega
      rw [getElem?_concat_length] at at_
      obtain rfl := Option.some.inj at_
      exact reached₂.shown covered
  · intro y after
    rw [length_append, length_singleton] at after
    rw [reached₂.others y (by omega), lines]
    exact rows_.blank y (by omega)

theorem emitRows_written (feeds : FeedsLines obey) {rest done : List (List Cell)}
    (followed : ∀ row ∈ rest, Followed cs glyphs row) (covered : ∀ row ∈ rest, Covered cs glyphs row)
    (within : ∀ row ∈ rest, row.length ≤ cols) (room : done.length + rest.length ≤ rows)
    (follows : Follows obey start s t) (rows_ : RowsShown glyphs done s t) : ∃ t', Follows obey start
    (rest.foldl (emitRow glyphs) s) t' ∧ RowsShown glyphs (done ++ rest) (rest.foldl (emitRow glyphs) s) t' := by
  induction rest generalizing done s t with
  | nil => exact ⟨t, follows, by rw [append_nil]; exact rows_⟩
  | cons row rest ih =>
    rw [length_cons] at room
    obtain ⟨t₁, follows₁, rows₁⟩ := emitRow_written feeds (followed row mem_cons_self)
      (covered row mem_cons_self) (within row mem_cons_self) (by omega) follows rows_
    obtain ⟨t₂, follows₂, rows₂⟩ := ih (fun other inside => followed other (mem_cons_of_mem _ inside))
      (fun other inside => covered other (mem_cons_of_mem _ inside))
      (fun other inside => within other (mem_cons_of_mem _ inside))
      (by rw [length_append, length_singleton]; omega) follows₁ rows₁
    refine ⟨t₂, follows₂, ?_⟩
    rw [append_assoc] at rows₂
    exact rows₂

end Rows

/-- A blank screen with the cursor at the origin and a default pen. -/
def Terminal.blank (cs : Charset) (rows cols : Nat) : Terminal cs rows cols where
  line _ := .blank cs cols
  cursor := { x := 0, y := 0 }

/-- The terminal shows a raster: its trailing blanks untouched, every other cell with its part of a glyph in the style
    of the glyph's first cell, and nothing else. -/
structure ShowsSnapshot (glyphs : GlyphTable) (raster : Raster) (t : Terminal cs rows cols) : Prop where
  cells : ∀ y x row cell, raster.rows[y]? = some row → row[x]? = some cell → y < rows ∧ x < cols ∧
    (Untouched row x → t.cell y x = .space {}) ∧ (¬Untouched row x → Drawn cs glyphs row x (t.cell y x))
  others : ∀ y x, raster.cell? y x = none → t.cell y x = .space {}
  pen : t.pen = {}

/-- A snapshot fed to a blank terminal shows the raster. -/
theorem renderRaster_shown (feeds : FeedsLines obey) {glyphs : GlyphTable} {raster : Raster}
    (followed : ∀ row ∈ raster.rows, Followed cs glyphs row) (covered : ∀ row ∈ raster.rows, Covered cs glyphs row)
    (tall : raster.height ≤ rows) (wide : raster.width ≤ cols) :
    ShowsSnapshot glyphs raster ((Terminal.blank cs rows cols).receive obey (renderRaster glyphs raster)) := by
  have start : Follows obey (Terminal.blank cs rows cols) {} (Terminal.blank cs rows cols) :=
    ⟨Written.nil.reads, fun style none_ => by cases none_⟩
  have none_ : RowsShown glyphs [] {} (Terminal.blank cs rows cols) :=
    ⟨fun _ => ⟨rfl, rfl⟩, (fun wrong => by cases wrong), (fun y row at_ => by cases at_), fun y _ => rfl⟩
  obtain ⟨t, follows, shown⟩ := emitRows_written feeds followed covered
    (fun row inside => by rw [raster.row_length row inside]; exact wide)
    (by rw [raster.rows_length, length_nil, Nat.zero_add]; exact tall) start none_
  rw [nil_append] at shown
  have received : (Terminal.blank cs rows cols).receive obey (renderRaster glyphs raster) = { t with pen := {} } :=
    (Written.reset follows.reads).received
  rw [received]
  refine ⟨fun y x row cell row_at cell_at => ?_, fun y x outside => ?_, rfl⟩
  · have row_inside := (List.getElem?_eq_some_iff.mp row_at).1
    have cell_inside := (List.getElem?_eq_some_iff.mp cell_at).1
    rw [raster.rows_length] at row_inside
    rw [raster.row_length row (mem_of_getElem? row_at)] at cell_inside
    exact ⟨by omega, by omega, shown.shown y row row_at x⟩
  · show (t.line y).cell x = _
    unfold Raster.cell? at outside
    cases row_at : raster.rows[y]? with
    | none =>
      rw [shown.blank y (getElem?_eq_none_iff.mp row_at)]
      rfl
    | some row =>
      rw [row_at] at outside
      refine (shown.shown y row row_at x).1 fun x' cell low at_ => ?_
      have past := getElem?_eq_none_iff.mp outside
      have inside := (List.getElem?_eq_some_iff.mp at_).1
      omega

/-- A line feed goes to the start of the next row; other text is ignored. -/
def feedLine (text : Bytes) (t : Terminal wideBytes rows cols) : Terminal wideBytes rows cols :=
  if text = [0x0a] then { t with cursor := { x := 0, y := t.cursor.y + 1 } } else t

theorem feedLine_feeds : FeedsLines (feedLine : Bytes → Terminal wideBytes rows cols → Terminal wideBytes rows cols) :=
  ⟨rfl, fun _ _ => if_pos rfl⟩

/-- A wide glyph in default style, over a continuation cell that is bold. -/
def halfBold : List Cell :=
  [{ glyph := 0xff, fg := .terminalDefault, bg := .terminalDefault, em := Emphasis.none },
    { glyph := 256, fg := .terminalDefault, bg := .terminalDefault, em := 1 }]

def halfBoldRaster : Raster where
  width := 2
  height := 2
  rows := [halfBold, halfBold]
  rows_length := rfl
  row_length row inside := by
    simp only [mem_cons, not_mem_nil, or_false, or_self] at inside
    rw [inside]
    rfl

theorem halfBold_leads {a w : Nat} (leads : Leads wideBytes emptyGlyph halfBold a w) : a = 0 ∧ w = 2 := by
  obtain ⟨cell, text, at_, get, drawn⟩ := leads
  match a with
  | 0 =>
    cases at_
    cases get
    cases drawn
    exact ⟨rfl, rfl⟩
  | 1 =>
    cases at_
    cases get
    cases drawn
  | a + 2 => cases at_

theorem halfBold_followed : Followed wideBytes emptyGlyph halfBold := by
  intro a w leads j positive small
  obtain ⟨rfl, rfl⟩ := halfBold_leads leads
  obtain rfl : j = 1 := by omega
  exact ⟨_, rfl, rfl⟩

theorem halfBold_covered : Covered wideBytes emptyGlyph halfBold := by
  have leads : Leads wideBytes emptyGlyph halfBold 0 2 := ⟨_, [0xff], rfl, rfl, rfl⟩
  intro x inside
  match x with
  | 0 => exact .inl ⟨2, leads⟩
  | 1 => exact .inr ⟨⟨_, rfl, rfl⟩, 0, 2, Nat.zero_lt_one, by decide, leads⟩
  | x + 2 => exact absurd inside (by simp [halfBold])

theorem halfBold_rows {P : List Cell → Prop} (one : P halfBold) : ∀ row ∈ halfBoldRaster.rows, P row := by
  intro row inside
  simp only [halfBoldRaster, mem_cons, not_mem_nil, or_false, or_self] at inside
  rw [inside]
  exact one

theorem halfBold_shown : ShowsSnapshot emptyGlyph halfBoldRaster
    ((Terminal.blank wideBytes 3 4).receive feedLine (renderRaster emptyGlyph halfBoldRaster)) :=
  renderRaster_shown feedLine_feeds (halfBold_rows halfBold_followed) (halfBold_rows halfBold_covered)
    (by decide) (by decide)

/-- The second half of the wide glyph is shown in the style of the first, not in its own cell's. -/
theorem halfBold_not_bold : (∀ row ∈ halfBoldRaster.rows, Followed wideBytes emptyGlyph row) ∧
    (∀ row ∈ halfBoldRaster.rows, Covered wideBytes emptyGlyph row) ∧
    ∃ cell, halfBoldRaster.cell? 0 1 = some cell ∧ cell.em = 1 ∧
      (((Terminal.blank wideBytes 3 4).receive feedLine (renderRaster emptyGlyph halfBoldRaster)).cell 0 1).pen.em =
        Emphasis.none :=
  ⟨halfBold_rows halfBold_followed, halfBold_rows halfBold_covered, _, rfl, rfl, by decide +kernel⟩

end Nxt.Ui
