import Nxt.Ui.Columns
import Nxt.Ui.TextField

/- The leaf that draws a text field (text_field.hpp). The cell of the cursor is counted in columns from the scroll column,
   and the text is drawn from the start of the cluster that covers that column. -/
namespace Nxt.Ui
open Nxt.Lib List

def Emphasis.reverse : Emphasis := 0x20

def Raster.setCell (raster : Raster) (y x : Nat) (f : Cell → Cell) : Raster where
  width := raster.width
  height := raster.height
  rows := raster.rows.modify y fun row => row.modify x f
  rows_length := by rw [length_modify, raster.rows_length]
  row_length row inside := by
    obtain ⟨i, small, rfl⟩ := mem_iff_getElem.mp inside
    rw [getElem_modify]
    split
    · rw [length_modify]
      exact raster.row_length _ (getElem_mem _)
    · exact raster.row_length _ (getElem_mem _)

namespace View

/-- The setters ignore what is out of bounds. -/
def setCell (v : View) (pos : Pos) (f : Cell → Cell) (raster : Raster) : Raster :=
  if v.cols ≤ pos.x ∨ v.rows ≤ pos.y then raster else raster.setCell (v.y + pos.y) (v.x + pos.x) f

def setFg (v : View) (pos : Pos) (color : Rgba8) : Raster → Raster := v.setCell pos fun cell => { cell with fg := color }

def setBg (v : View) (pos : Pos) (color : Rgba8) : Raster → Raster := v.setCell pos fun cell => { cell with bg := color }

def setEm (v : View) (pos : Pos) (em : Emphasis) : Raster → Raster := v.setCell pos fun cell => { cell with em := em }

end View

structure TextFieldStyle where
  fg : Rgba8 := Rgba8.terminalDefault
  bg : Rgba8 := Rgba8.terminalDefault
  prefixFg : Rgba8 := Rgba8.terminalDefault
  placeholderFg : Rgba8 := Rgba8.terminalDefault

structure TextFieldRender extends TextField where
  prefix_ : Bytes := []
  placeholder : Bytes := []
  style : TextFieldStyle := {}
  focused : Bool := true

/-- The first column that is shown. -/
def scrollForCursor (cursorCell fieldW : Nat) : Nat :=
  if fieldW = 0 ∨ cursorCell < fieldW then 0 else cursorCell - fieldW + 1

def setFgs (v : View) (columns : List Nat) (color : Rgba8) (raster : Raster) : Raster :=
  columns.foldl (fun raster x => v.setFg ⟨x, 0⟩ color raster) raster

section Drawing
variable (u : Utf8proc)

namespace TextFieldRender

def prefixW (r : TextFieldRender) (size : Size) : Nat := min (displayWidth u r.prefix_) size.w

def fieldW (r : TextFieldRender) (size : Size) : Nat := size.w - r.prefixW u size

def cursorCell (r : TextFieldRender) : Nat := columnAt u r.text r.cursorByte

def scrollCell (r : TextFieldRender) (size : Size) : Nat := scrollForCursor (r.cursorCell u) (r.fieldW u size)

def startByte (r : TextFieldRender) (size : Size) : Nat := byteAtColumn u r.text (r.scrollCell u size)

def endByte (r : TextFieldRender) (size : Size) : Nat :=
  byteAtColumn u r.text (r.scrollCell u size + r.fieldW u size)

/-- The part of the text that is written. -/
def visible (r : TextFieldRender) (size : Size) : Bytes :=
  slice r.text (r.startByte u size) (r.endByte u size - r.startByte u size)

end TextFieldRender

/-- `write_text`, of which the column is not used. -/
def drawText (v : View) (pos : Pos) (text : Bytes) (s : Raster × GlyphTable) : Except String (Raster × GlyphTable) := do
  let written ← writeText u v pos text s
  return written.2

def drawPrefix (v : View) (size : Size) (r : TextFieldRender) (s : Raster × GlyphTable) :
    Except String (Raster × GlyphTable) :=
  if r.prefixW u size > 0 then
    drawText u v ⟨0, 0⟩ r.prefix_ (setFgs v (range (r.prefixW u size)) r.style.prefixFg s.1, s.2)
  else .ok s

def drawContent (v : View) (size : Size) (r : TextFieldRender) (s : Raster × GlyphTable) :
    Except String (Raster × GlyphTable) :=
  let prefixW := r.prefixW u size
  let fieldW := r.fieldW u size
  if r.text.isEmpty && !r.placeholder.isEmpty && 0 < fieldW then
    drawText u v ⟨prefixW, 0⟩ r.placeholder
      (setFgs v (List.range' prefixW (size.w - prefixW)) r.style.placeholderFg s.1, s.2)
  else if 0 < fieldW then drawText u v ⟨prefixW, 0⟩ (r.visible u size) s
  else .ok s

def drawCursor (v : View) (size : Size) (r : TextFieldRender) (raster : Raster) : Raster :=
  if r.focused && 0 < r.fieldW u size then
    let visibleCursor := r.cursorCell u - r.scrollCell u size
    let cursorX := min (r.prefixW u size + visibleCursor) (size.w - 1)
    v.setEm ⟨cursorX, 0⟩ Emphasis.reverse raster
  else raster

def textField (v : View) (size : Size) (r : TextFieldRender) (s : Raster × GlyphTable) :
    Except String (Raster × GlyphTable) :=
  if size.w = 0 then .ok s
  else do
    let raster := (range size.w).foldl
      (fun raster x => v.setFg ⟨x, 0⟩ r.style.fg (v.setBg ⟨x, 0⟩ r.style.bg raster)) s.1
    let s ← drawPrefix u v size r (raster, s.2)
    let s ← drawContent u v size r s
    return (drawCursor u v size r s.1, s.2)

end Drawing

section Restyling

theorem Raster.cell?_setCell (raster : Raster) (y x : Nat) (f : Cell → Cell) (y' x' : Nat) :
    (raster.setCell y x f).cell? y' x' = if y' = y ∧ x' = x then (raster.cell? y' x').map f else raster.cell? y' x' :=
  modify_cell raster.rows y x f y' x'

structure Recolored (raster later : Raster) : Prop where
  width : later.width = raster.width
  height : later.height = raster.height
  cells : ∀ y x, (later.cell? y x).map (fun cell => (cell.glyph, cell.em)) =
    (raster.cell? y x).map fun cell => (cell.glyph, cell.em)

namespace Recolored
variable {raster later last : Raster} {v : View}

theorem refl (raster : Raster) : Recolored raster raster := ⟨rfl, rfl, fun _ _ => rfl⟩

theorem trans (first : Recolored raster later) (second : Recolored later last) : Recolored raster last :=
  ⟨second.width.trans first.width, second.height.trans first.height,
    fun y x => (second.cells y x).trans (first.cells y x)⟩

theorem setCell (v : View) (pos : Pos) {f : Cell → Cell}
    (keeps : ∀ cell, (f cell).glyph = cell.glyph ∧ (f cell).em = cell.em) (raster : Raster) :
    Recolored raster (v.setCell pos f raster) := by
  unfold View.setCell
  split
  · exact refl raster
  · refine ⟨rfl, rfl, ?_⟩
    intro y x
    rw [Raster.cell?_setCell]
    split
    · rw [Option.map_map]
      congr 1
      funext cell
      exact Prod.ext (keeps cell).1 (keeps cell).2
    · rfl

theorem setFg (v : View) (pos : Pos) (color : Rgba8) (raster : Raster) : Recolored raster (v.setFg pos color raster) := by
  unfold View.setFg
  refine setCell v pos ?_ raster
  exact fun _ => ⟨rfl, rfl⟩

theorem setBg (v : View) (pos : Pos) (color : Rgba8) (raster : Raster) : Recolored raster (v.setBg pos color raster) := by
  unfold View.setBg
  refine setCell v pos ?_ raster
  exact fun _ => ⟨rfl, rfl⟩

theorem foldl {step : Raster → Nat → Raster} (recolors : ∀ raster x, Recolored raster (step raster x))
    (columns : List Nat) (raster : Raster) : Recolored raster (columns.foldl step raster) := by
  induction columns generalizing raster with
  | nil => exact refl raster
  | cons x rest ih => exact (recolors raster x).trans (ih _)

theorem within (recolored : Recolored raster later) (within : v.Within raster) : v.Within later := by
  unfold View.Within
  rw [recolored.width, recolored.height]
  exact within

end Recolored

/-- Glyphs of a row from a column up to another may differ, and colours, but no emphasis. -/
structure Inked (y a b : Nat) (raster later : Raster) : Prop where
  width : later.width = raster.width
  height : later.height = raster.height
  glyphs : ∀ y' x', y' ≠ y ∨ x' < a ∨ b ≤ x' → (later.cell? y' x').map Cell.glyph = (raster.cell? y' x').map Cell.glyph
  ems : ∀ y' x', (later.cell? y' x').map Cell.em = (raster.cell? y' x').map Cell.em

namespace Inked
variable {raster later last : Raster} {y a b c : Nat}

theorem of_recolored (recolored : Recolored raster later) : Inked y a a raster later where
  width := recolored.width
  height := recolored.height
  glyphs y' x' _ := by
    have same := congrArg (Option.map Prod.fst) (recolored.cells y' x')
    rwa [Option.map_map, Option.map_map] at same
  ems y' x' := by
    have same := congrArg (Option.map Prod.snd) (recolored.cells y' x')
    rwa [Option.map_map, Option.map_map] at same

theorem of_wrote (wrote : Wrote y a b raster later) : Inked y a b raster later where
  width := wrote.width
  height := wrote.height
  glyphs y' x' out := by rw [wrote.outside y' x' out]
  ems y' x' := by
    have same := congrArg (Option.map fun style => style.2.2) (wrote.styles y' x')
    rwa [Option.map_map, Option.map_map] at same

theorem trans (first : Inked y a b raster later) (second : Inked y b c later last) (ab : a ≤ b) (bc : b ≤ c) :
    Inked y a c raster last where
  width := second.width.trans first.width
  height := second.height.trans first.height
  glyphs y' x' out := (second.glyphs y' x' (by omega)).trans (first.glyphs y' x' (by omega))
  ems y' x' := (second.ems y' x').trans (first.ems y' x')

theorem widen (inked : Inked y a b raster later) (bc : b ≤ c) : Inked y a c raster later where
  width := inked.width
  height := inked.height
  glyphs y' x' out := inked.glyphs y' x' (by omega)
  ems := inked.ems

end Inked

end Restyling

section Run
variable {u : Utf8proc} {v : View} {raster : Raster} {table : GlyphTable} {size : Size} {r : TextFieldRender}

def TextFieldRender.drawn (u : Utf8proc) (r : TextFieldRender) (size : Size) : List Bytes :=
  fitting u (r.visible u size) 0 (r.fieldW u size)

theorem drawText_cases (within : v.Within raster) (row : 0 < v.rows) (short : table.Short) (x : Nat) (text : Bytes) :
    ((∀ cluster ∈ fitting u text 0 (v.cols - x), cluster.length ≤ 255) ∧
      ∃ later grown, drawText u v ⟨x, 0⟩ text (raster, table) = .ok (later, grown) ∧
        Inked v.y (v.x + x) (v.x + x + extent u (fitting u text 0 (v.cols - x))) raster later ∧ v.Within later ∧
        Placed u grown later v.y (v.x + x) (fitting u text 0 (v.cols - x)) ∧
        table.interned <+: grown.interned ∧ grown.Short) ∨
    ((∃ cluster ∈ fitting u text 0 (v.cols - x), 255 < cluster.length) ∧
      ∃ e, drawText u v ⟨x, 0⟩ text (raster, table) = .error e) := by
  have clusters : written u v ⟨x, 0⟩ text = fitting u text 0 (v.cols - x) := if_pos row
  rw [← clusters]
  unfold drawText
  rcases @writeText_cases u v raster table ⟨x, 0⟩ text within short with
    ⟨fit, col, later, grown, done, left_, more, short'⟩ | ⟨long, e, failed⟩
  · refine .inl ⟨fit, later, grown, by rw [done]; rfl, ?_, left_.wrote.within within, left_.placed, more, short'⟩
    have inked := Inked.of_wrote left_.wrote
    rw [left_.returned] at inked
    rw [Nat.add_assoc]
    exact inked
  · exact .inr ⟨long, e, by rw [failed]; rfl⟩

theorem fitting_displayWidth (local_ : u.Local) (text : Bytes) (room : Nat) :
    extent u (fitting u text 0 room) ≤ displayWidth u text := by
  have whole : slice text 0 (text.length - 0) = text := by
    unfold slice
    rw [drop_zero, Nat.sub_zero, take_length]
  have split : fitting u (slice text 0 (text.length - 0)) (0 - 0) room = fitting u text 0 room ++ [] := by
    rw [whole, append_nil]
  obtain ⟨there, -, -, column⟩ :=
    fitting_splits local_ boundary_end (Nat.zero_le _) boundary_zero (Nat.zero_le _) (Nat.zero_le _) split
  rw [columnAt_zero] at column
  have most := columnAt_mono there boundary_end there.le
  rw [displayWidth_column]
  omega

theorem displayWidth_zero {text : Bytes} (none_ : displayWidth u text = 0) : text = [] := by
  rw [displayWidth_column] at none_
  by_contra some_
  have less := columnAt_lt boundary_zero (boundary_end (u := u)) (length_pos_iff.mpr some_)
  omega

theorem Raster.text?_glyphs {later : Raster} {y x : Nat}
    (same : (later.cell? y x).map Cell.glyph = (raster.cell? y x).map Cell.glyph) :
    later.text? table y x = raster.text? table y x := by
  have glyph (raster : Raster) : raster.text? table y x = ((raster.cell? y x).map Cell.glyph).bind table.get := by
    unfold Raster.text?
    rw [Option.bind_map]
    rfl
  rw [glyph, glyph, same]

theorem Placed.same {later : Raster} {y : Nat} (same : ∀ x, later.text? table y x = raster.text? table y x) {x : Nat}
    {clusters : List Bytes} (placed : Placed u table raster y x clusters) : Placed u table later y x clusters := by
  induction clusters generalizing x with
  | nil => trivial
  | cons cluster rest ih =>
    refine ⟨(same x).trans placed.1, fun k some_ small => ?_, ih placed.2.2⟩
    rw [same]
    exact placed.2.1 k some_ small

/-- What is left when all was drawn: the text's clusters from the field's first column on, every cell of the row behind
    them as before, and the emphasis of one cell. -/
structure Field (u : Utf8proc) (v : View) (size : Size) (r : TextFieldRender) (raster later : Raster)
    (grown : GlyphTable) : Prop where
  placed : Placed u grown later v.y (v.x + r.prefixW u size) (r.drawn u size)
  behind : ∀ x, r.prefixW u size + extent u (r.drawn u size) ≤ x →
    (later.cell? v.y (v.x + x)).map Cell.glyph = (raster.cell? v.y (v.x + x)).map Cell.glyph
  ems : ∀ x, x < v.cols → (later.cell? v.y (v.x + x)).map Cell.em =
    if x = r.prefixW u size + (r.cursorCell u - r.scrollCell u size) then
      (raster.cell? v.y (v.x + x)).map fun _ => Emphasis.reverse
    else (raster.cell? v.y (v.x + x)).map Cell.em

theorem scroll_cursor {cursorCell fieldW : Nat} (room : 0 < fieldW) :
    scrollForCursor cursorCell fieldW ≤ cursorCell ∧ cursorCell - scrollForCursor cursorCell fieldW < fieldW := by
  unfold scrollForCursor
  split <;> omega

theorem setEm_cases (x : Nat) (inside : x < v.cols) (row : 0 < v.rows) (raster : Raster) (y' x' : Nat) :
    (v.setEm ⟨x, 0⟩ Emphasis.reverse raster).cell? y' x' =
      if y' = v.y ∧ x' = v.x + x then (raster.cell? y' x').map fun cell => { cell with em := Emphasis.reverse }
      else raster.cell? y' x' := by
  have open_ : ¬(v.cols ≤ x ∨ v.rows ≤ 0) := by omega
  unfold View.setEm View.setCell
  rw [if_neg open_, Raster.cell?_setCell]
  rfl

theorem fitting_nil (room : Nat) : fitting u [] 0 room = [] := by
  rw [fitting, dif_neg fun more => absurd more.1 (Nat.not_lt_zero _)]

theorem prefix_cases (local_ : u.Local) (within : v.Within raster) (row : 0 < v.rows) (wide : v.cols = size.w)
    (display : r.prefixW u size = displayWidth u r.prefix_) (short : table.Short) :
    ((∀ cluster ∈ fitting u r.prefix_ 0 size.w, cluster.length ≤ 255) ∧
      ∃ later grown, drawPrefix u v size r (raster, table) = .ok (later, grown) ∧
        Inked v.y v.x (v.x + r.prefixW u size) raster later ∧ v.Within later ∧ grown.Short) ∨
    ((∃ cluster ∈ fitting u r.prefix_ 0 size.w, 255 < cluster.length) ∧
      ∃ e, drawPrefix u v size r (raster, table) = .error e) := by
  unfold drawPrefix
  by_cases some_ : r.prefixW u size > 0
  · rw [if_pos some_]
    have recolored : Recolored raster (setFgs v (range (r.prefixW u size)) r.style.prefixFg raster) :=
      Recolored.foldl (fun raster x => Recolored.setFg v ⟨x, 0⟩ r.style.prefixFg raster) _ raster
    have cases_ := drawText_cases (u := u) (recolored.within within) row short 0 r.prefix_
    rw [Nat.sub_zero, wide, Nat.add_zero] at cases_
    rcases cases_ with ⟨fit, later, grown, done, inked, within', -, -, short'⟩ | bad
    · have most := fitting_displayWidth local_ r.prefix_ size.w
      refine .inl ⟨fit, later, grown, done, ?_, within', short'⟩
      exact ((Inked.of_recolored recolored).trans inked (le_refl _) (Nat.le_add_right _ _)).widen (by omega)
    · exact .inr bad
  · have none_ : r.prefix_ = [] := displayWidth_zero (u := u) (by omega)
    rw [if_neg some_, none_, fitting_nil]
    refine .inl ⟨fun _ inside => absurd inside not_mem_nil, raster, table, rfl, ?_, within, short⟩
    exact (Inked.of_recolored (Recolored.refl raster)).widen (Nat.le_add_right _ _)

theorem textField_cases (local_ : u.Local) (within : v.Within raster) (row : 0 < v.rows) (wide : v.cols = size.w)
    (room : 0 < r.fieldW u size) (focused : r.focused = true) (shown : r.text ≠ [] ∨ r.placeholder = [])
    (short : table.Short) : ((∀ cluster ∈ fitting u r.prefix_ 0 size.w ++ r.drawn u size, cluster.length ≤ 255) ∧
      ∃ later grown, textField u v size r (raster, table) = .ok (later, grown) ∧ Field u v size r raster later grown) ∨
    ((∃ cluster ∈ fitting u r.prefix_ 0 size.w ++ r.drawn u size, 255 < cluster.length) ∧
      ∃ e, textField u v size r (raster, table) = .error e) := by
  have display : r.prefixW u size = displayWidth u r.prefix_ ∧ r.prefixW u size + r.fieldW u size = size.w := by
    unfold TextFieldRender.fieldW TextFieldRender.prefixW at room ⊢
    omega
  have total : size.w ≠ 0 := by omega
  have plain : ¬(r.text.isEmpty && !r.placeholder.isEmpty && 0 < r.fieldW u size) = true := by
    rcases shown with some_ | none_
    · simp [some_]
    · simp [none_]
  have ends : (r.focused && 0 < r.fieldW u size) = true := by
    rw [focused, decide_eq_true room]
    rfl
  have cursor := @scroll_cursor (r.cursorCell u) _ room
  have cursorX : min (r.prefixW u size + (r.cursorCell u - r.scrollCell u size)) (size.w - 1) =
      r.prefixW u size + (r.cursorCell u - r.scrollCell u size) := by
    unfold TextFieldRender.scrollCell
    omega
  unfold textField
  rw [if_neg total]
  generalize fills : (range size.w).foldl
    (fun raster x => v.setFg ⟨x, 0⟩ r.style.fg (v.setBg ⟨x, 0⟩ r.style.bg raster)) raster = filled
  have first : Recolored raster filled := by
    rw [← fills]
    exact Recolored.foldl (fun raster x => (Recolored.setBg v _ _ raster).trans (Recolored.setFg v _ _ _)) _ raster
  rcases prefix_cases local_ (first.within within) row wide display.1 short with
    ⟨fit, raster₂, table₂, done, inked, within₂, short₂⟩ | ⟨⟨cluster, inside, long⟩, e, failed⟩
  · have left_ : v.cols - r.prefixW u size = r.fieldW u size := by omega
    have cases_ := drawText_cases (u := u) within₂ row short₂ (r.prefixW u size) (r.visible u size)
    have content : drawContent u v size r (raster₂, table₂) =
        drawText u v ⟨r.prefixW u size, 0⟩ (r.visible u size) (raster₂, table₂) := by
      unfold drawContent
      dsimp only
      rw [if_neg plain, if_pos room]
    dsimp only
    rw [left_, ← content] at cases_
    rw [done, ok_bind]
    rcases cases_ with ⟨fit', raster₃, table₃, done', inked', within₃, placed, -, -⟩ | ⟨⟨cluster, inside, long⟩, e, failed⟩
    · rw [done', ok_bind]
      refine .inl ⟨forall_mem_append.mpr ⟨fit, fit'⟩, _, _, rfl, ?_⟩
      have whole := (((Inked.of_recolored first).trans inked le_rfl (Nat.le_add_right _ _)).trans inked'
        (Nat.le_add_right _ _) (Nat.le_add_right _ _))
      have cursor_ : drawCursor u v size r raster₃ =
          v.setEm ⟨r.prefixW u size + (r.cursorCell u - r.scrollCell u size), 0⟩ Emphasis.reverse raster₃ := by
        unfold drawCursor
        dsimp only
        rw [if_pos ends, cursorX]
      have set_ := fun y' x' => setEm_cases (r.prefixW u size + (r.cursorCell u - r.scrollCell u size))
        (by unfold TextFieldRender.scrollCell; omega) row raster₃ y' x'
      rw [← cursor_] at set_
      have glyphs : ∀ y' x', ((drawCursor u v size r raster₃).cell? y' x').map Cell.glyph =
          (raster₃.cell? y' x').map Cell.glyph := by
        intro y' x'
        rw [set_]
        split
        · rw [Option.map_map]
          rfl
        · rfl
      refine ⟨Placed.same (fun x => Raster.text?_glyphs (glyphs v.y x)) placed, ?_, ?_⟩
      · intro x past
        rw [glyphs]
        exact whole.glyphs v.y (v.x + x) (.inr (.inr (by unfold TextFieldRender.drawn at past; omega)))
      · intro x inside
        rw [set_]
        by_cases here : x = r.prefixW u size + (r.cursorCell u - r.scrollCell u size)
        · rw [if_pos ⟨rfl, by rw [here]⟩, if_pos here, Option.map_map]
          have same := congrArg (Option.map fun _ => Emphasis.reverse) (whole.ems v.y (v.x + x))
          rw [Option.map_map, Option.map_map] at same
          exact same
        · rw [if_neg (fun both => here (Nat.add_left_cancel both.2)), if_neg here]
          exact whole.ems v.y (v.x + x)
    · rw [failed]
      exact .inr ⟨⟨cluster, mem_append_right _ inside, long⟩, e, rfl⟩
  · dsimp only
    rw [failed]
    exact .inr ⟨⟨cluster, mem_append_left _ inside, long⟩, e, rfl⟩

end Run

section Cursor
variable {u : Utf8proc} {v : View} {raster : Raster} {table : GlyphTable} {size : Size} {r : TextFieldRender}

theorem extent_append (u : Utf8proc) (a b : List Bytes) : extent u (a ++ b) = extent u a + extent u b := by
  unfold extent
  rw [map_append, sum_append]

/-- One cell of the row is reversed: the first of the cluster at the cursor, or with the cursor at the end of the text the
    blank one behind the last cluster. -/
structure Marks (u : Utf8proc) (v : View) (size : Size) (r : TextFieldRender) (later : Raster) (grown : GlyphTable)
    (x : Nat) : Prop where
  inside : x < v.cols
  reversed : ∀ x', x' < v.cols → (later.cell? v.y (v.x + x')).map Cell.em =
    some (if x' = x then Emphasis.reverse else Emphasis.none)
  placed : Placed u grown later v.y (v.x + r.prefixW u size) (r.drawn u size)
  at_ : ∃ pre post, r.drawn u size = pre ++ post ∧ r.startByte u size + pre.flatten.length = r.cursorByte ∧
    x = r.prefixW u size + extent u pre ∧ (r.cursorByte < r.text.length → post ≠ []) ∧
      (r.cursorByte = r.text.length → post = [])
  blank : r.cursorByte = r.text.length → later.text? grown v.y (v.x + x) = some [0x20]

/-- The scroll column is the first of a cluster or the end of the text, and the cluster at the cursor has room behind
    it. -/
def CursorShows (u : Utf8proc) (size : Size) (r : TextFieldRender) : Prop :=
  (∃ b, Boundary u r.text b ∧ columnAt u r.text b = r.scrollCell u size) ∧
    (r.cursorByte < r.text.length →
      r.cursorCell u - r.scrollCell u size + clusterWidth u (cluster u r.text r.cursorByte) ≤ r.fieldW u size)

theorem startByte_spec (u : Utf8proc) (size : Size) (r : TextFieldRender) : Boundary u r.text (r.startByte u size) ∧
    columnAt u r.text (r.startByte u size) ≤ r.scrollCell u size :=
  ⟨(byteAtColumn_spec r.text _).1, (byteAtColumn_spec r.text _).2.1⟩

theorem endByte_boundary (u : Utf8proc) (size : Size) (r : TextFieldRender) : Boundary u r.text (r.endByte u size) :=
  (byteAtColumn_spec r.text _).1

theorem start_le_end (u : Utf8proc) (size : Size) (r : TextFieldRender) : r.startByte u size ≤ r.endByte u size := by
  obtain ⟨first, before⟩ := startByte_spec u size r
  exact (le_byteAtColumn first _).mpr (before.trans (Nat.le_add_right _ _))

theorem drawn_splits (local_ : u.Local) {pre post : List Bytes} (split : r.drawn u size = pre ++ post) :
    Boundary u r.text (r.startByte u size + pre.flatten.length) ∧
      r.startByte u size + pre.flatten.length ≤ r.endByte u size ∧ extent u pre ≤ r.fieldW u size ∧
      columnAt u r.text (r.startByte u size) + extent u pre =
        columnAt u r.text (r.startByte u size + pre.flatten.length) := by
  have start := (startByte_spec u size r).1
  have order := start_le_end u size r
  unfold TextFieldRender.drawn TextFieldRender.visible at split
  rw [← Nat.sub_self (r.startByte u size)] at split
  exact fitting_splits local_ (endByte_boundary u size r) order start le_rfl order split

theorem drawn_reaches (local_ : u.Local) {c : Nat} (target : Boundary u r.text c) (after : r.startByte u size ≤ c)
    (fits : columnAt u r.text c ≤ columnAt u r.text (r.startByte u size) + r.fieldW u size) :
    ∃ pre post, r.drawn u size = pre ++ post ∧ r.startByte u size + pre.flatten.length = c ∧
      columnAt u r.text (r.startByte u size) + extent u pre = columnAt u r.text c := by
  obtain ⟨start, before⟩ := startByte_spec u size r
  have most : c ≤ r.endByte u size := (le_byteAtColumn target _).mpr (by omega)
  have reaches := @fitting_reaches u r.text (r.startByte u size) (r.endByte u size) _ local_ (endByte_boundary u size r)
    (start_le_end u size r) start le_rfl c (r.fieldW u size) target after most (by omega)
  rw [Nat.sub_self] at reaches
  exact reaches

theorem marked_shows (local_ : u.Local) (on : Boundary u r.text r.cursorByte) (room : 0 < r.fieldW u size) {x : Nat}
    {pre post : List Bytes} (split : r.drawn u size = pre ++ post)
    (reach : r.startByte u size + pre.flatten.length = r.cursorByte)
    (column : x = r.prefixW u size + extent u pre) (more : r.cursorByte < r.text.length → post ≠ [])
    (cell : x = r.prefixW u size + (r.cursorCell u - r.scrollCell u size)) : CursorShows u size r := by
  obtain ⟨first, before⟩ := startByte_spec u size r
  have scroll : r.scrollCell u size ≤ r.cursorCell u := (scroll_cursor room).1
  obtain ⟨-, -, -, columns⟩ := drawn_splits local_ split
  rw [reach] at columns
  have cursor : columnAt u r.text r.cursorByte = r.cursorCell u := rfl
  have start : columnAt u r.text (r.startByte u size) = r.scrollCell u size := by omega
  refine ⟨⟨r.startByte u size, first, start⟩, fun inside => ?_⟩
  obtain ⟨c, rest, rfl⟩ := exists_cons_of_ne_nil (more inside)
  have split' : r.drawn u size = (pre ++ [c]) ++ rest := by rw [split, append_assoc, singleton_append]
  obtain ⟨there, -, narrow, columns'⟩ := drawn_splits local_ split'
  have one : extent u [c] = clusterWidth u c := by rw [extent_cons]; rfl
  rw [extent_append, one] at columns' narrow
  have positive := clusterWidth_pos u c
  have later : r.cursorByte < r.startByte u size + (pre ++ [c]).flatten.length := by
    by_contra back
    have mono := columnAt_mono there on (by omega)
    omega
  have near := columnAt_mono on.step there (on.next_le_of_lt there later)
  have step := columnAt_next on inside
  omega

theorem shown_marks (local_ : u.Local) (on : Boundary u r.text r.cursorByte) (room : 0 < r.fieldW u size)
    (shows_ : CursorShows u size r) :
    ∃ pre post, r.drawn u size = pre ++ post ∧ r.startByte u size + pre.flatten.length = r.cursorByte ∧
      r.cursorCell u - r.scrollCell u size = extent u pre ∧ (r.cursorByte < r.text.length → post ≠ []) ∧
      (r.cursorByte = r.text.length → post = []) := by
  obtain ⟨first, before⟩ := startByte_spec u size r
  obtain ⟨scroll, near⟩ : r.scrollCell u size ≤ r.cursorCell u ∧
    r.cursorCell u - r.scrollCell u size < r.fieldW u size := scroll_cursor room
  obtain ⟨⟨b, boundary, column⟩, fits⟩ := shows_
  have cursor : columnAt u r.text r.cursorByte = r.cursorCell u := rfl
  have start : columnAt u r.text (r.startByte u size) = r.scrollCell u size := by
    have order : b ≤ r.startByte u size := (le_byteAtColumn boundary _).mpr column.le
    have mono := columnAt_mono boundary first order
    omega
  have after : r.startByte u size ≤ r.cursorByte := by
    by_contra past
    have less := columnAt_lt on first (Nat.lt_of_not_le past)
    omega
  obtain ⟨pre, post, split, reach, columns⟩ := @drawn_reaches u size r local_ _ on after (by omega)
  refine ⟨pre, post, split, reach, by omega, fun inside empty => ?_, fun end_ => ?_⟩
  · have step := columnAt_next on inside
    have room := fits inside
    have past := (next_bounds u inside).1
    obtain ⟨pre', post', split', reach', -⟩ := @drawn_reaches u size r local_ _ on.step (by omega) (by omega)
    have same := congrArg (fun clusters => clusters.flatten.length) (split'.symm.trans split)
    rw [empty] at same
    simp only [append_nil, flatten_append, length_append] at same
    omega
  · have whole : r.drawn u size = (pre ++ post) ++ [] := by rw [split, append_nil]
    obtain ⟨there, -, -, columns'⟩ := drawn_splits local_ whole
    have most := columnAt_mono there boundary_end there.le
    rw [← end_] at most
    rw [extent_append] at columns'
    cases post with
    | nil => rfl
    | cons c rest =>
      have positive := clusterWidth_pos u c
      rw [extent_cons] at columns'
      omega

def BlankRow (v : View) (raster : Raster) : Prop :=
  ∀ x, x < v.cols → ∃ cell, raster.cell? v.y (v.x + x) = some cell ∧ cell.glyph = 32 ∧ cell.em = Emphasis.none

theorem Field.cell {later : Raster} {grown : GlyphTable} (field : Field u v size r raster later grown)
    (blank : BlankRow v raster) {x : Nat} (inside : x < v.cols)
    (reversed : ∀ x', x' < v.cols → (later.cell? v.y (v.x + x')).map Cell.em =
      some (if x' = x then Emphasis.reverse else Emphasis.none)) :
    x = r.prefixW u size + (r.cursorCell u - r.scrollCell u size) := by
  by_contra other
  obtain ⟨cell, at_, -, em⟩ := blank x inside
  have marked := reversed x inside
  rw [if_pos rfl, field.ems x inside, if_neg other, at_] at marked
  have wrong : cell.em = Emphasis.reverse := Option.some.inj marked
  rw [em] at wrong
  exact absurd wrong (by decide)

theorem marks_shows (local_ : u.Local) (on : Boundary u r.text r.cursorByte) (room : 0 < r.fieldW u size)
    (blank : BlankRow v raster) {later : Raster} {grown : GlyphTable} (field : Field u v size r raster later grown)
    {x : Nat} (marks : Marks u v size r later grown x) : CursorShows u size r := by
  obtain ⟨pre, post, split, reach, column, more, -⟩ := marks.at_
  exact marked_shows local_ on room split reach column more (field.cell blank marks.inside marks.reversed)

theorem shows_marks (local_ : u.Local) (on : Boundary u r.text r.cursorByte) (wide : v.cols = size.w)
    (room : 0 < r.fieldW u size) (blank : BlankRow v raster) {later : Raster} {grown : GlyphTable}
    (field : Field u v size r raster later grown) (shows_ : CursorShows u size r) :
    Marks u v size r later grown (r.prefixW u size + (r.cursorCell u - r.scrollCell u size)) := by
  obtain ⟨pre, post, split, reach, column, more, done⟩ := shown_marks local_ on room shows_
  have near : r.cursorCell u - r.scrollCell u size < r.fieldW u size := (scroll_cursor room).2
  have inside : r.prefixW u size + (r.cursorCell u - r.scrollCell u size) < v.cols := by
    have total : r.fieldW u size = size.w - r.prefixW u size := rfl
    omega
  refine ⟨inside, fun x' inside' => ?_, field.placed, ⟨pre, post, split, reach, by rw [column], more, done⟩, fun end_ => ?_⟩
  · obtain ⟨cell, at_, -, em⟩ := blank x' inside'
    rw [field.ems x' inside', at_]
    split
    · rfl
    · rw [← em]
      rfl
  · obtain ⟨cell, at_, glyph, -⟩ := blank _ inside
    have behind := field.behind (r.prefixW u size + (r.cursorCell u - r.scrollCell u size)) (by
      rw [split, done end_, append_nil, column])
    rw [Raster.text?_glyphs behind]
    unfold Raster.text?
    rw [at_, Option.bind_some, glyph]
    rfl

/-- The cursor marks the right cell just when the scroll column starts a cluster, the cluster at the cursor has room, and
    no cluster is too long to be drawn. -/
theorem cursor_marks_iff (local_ : u.Local) (on : Boundary u r.text r.cursorByte) (within : v.Within raster)
    (row : 0 < v.rows) (wide : v.cols = size.w) (room : 0 < r.fieldW u size) (focused : r.focused = true)
    (shown : r.text ≠ [] ∨ r.placeholder = []) (blank : BlankRow v raster) (history : List Bytes) :
    (∃ later grown x, textField u v size r (raster, GlyphTable.fresh.interns history) = .ok (later, grown) ∧
      Marks u v size r later grown x) ↔
    (∀ cluster ∈ fitting u r.prefix_ 0 size.w ++ r.drawn u size, cluster.length ≤ 255) ∧ CursorShows u size r := by
  have short := GlyphTable.interns_short GlyphTable.fresh_short history
  rcases textField_cases local_ within row wide room focused shown short with
    ⟨fit, later, grown, done, field⟩ | ⟨⟨cluster, inside, long⟩, e, failed⟩
  · rw [and_iff_right fit]
    constructor
    · rintro ⟨later', grown', x, done', marks⟩
      rw [done] at done'
      cases done'
      exact marks_shows local_ on room blank field marks
    · exact fun shows_ => ⟨later, grown, _, done, shows_marks local_ on wide room blank field shows_⟩
  · refine iff_of_false ?_ fun both => ?_
    · rintro ⟨later, grown, x, done, -⟩
      rw [failed] at done
      cases done
    · have fits := both.1 cluster inside
      omega

end Cursor

section Cases

theorem blank_row (width : Nat) : BlankRow (Raster.blank width 1).view (Raster.blank width 1) := by
  intro x inside
  refine ⟨{ glyph := 32, fg := Rgba8.terminalDefault, bg := Rgba8.terminalDefault, em := Emphasis.none }, ?_, rfl, rfl⟩
  have small : x < width := inside
  show ((replicate 1 (replicate width _))[0 + 0]?).bind (·[0 + x]?) = _
  simp [small]

/-- A wide letter and a narrow one in two columns, with the cursor at the second. -/
def wideField : TextFieldRender := { text := [0xe3, 0x81, 0x82, 0x62], cursorByte := 3 }

theorem wideField_missed : ¬∃ later grown x,
    textField basicUtf8proc (Raster.blank 2 1).view { w := 2, h := 1 } wideField
      (Raster.blank 2 1, GlyphTable.fresh) = .ok (later, grown) ∧
    Marks basicUtf8proc (Raster.blank 2 1).view { w := 2, h := 1 } wideField later grown x := by
  have second : next basicUtf8proc wideField.text 0 = 3 := by decide +kernel
  have width : clusterWidth basicUtf8proc (cluster basicUtf8proc wideField.text 0) = 2 := by decide +kernel
  have scroll : wideField.scrollCell basicUtf8proc { w := 2, h := 1 } = 1 := by decide +kernel
  rintro ⟨later, grown, x, done, marks⟩
  rcases @textField_cases basicUtf8proc (Raster.blank 2 1).view (Raster.blank 2 1) GlyphTable.fresh { w := 2, h := 1 }
      wideField basicUtf8proc_local (View.whole_within _) Nat.one_pos rfl (by decide +kernel) rfl (.inr rfl)
      GlyphTable.fresh_short with ⟨-, later', grown', done', field⟩ | ⟨-, e, failed⟩
  · rw [done] at done'
    cases done'
    have boundary : Boundary basicUtf8proc wideField.text wideField.cursorByte := ⟨1, second⟩
    obtain ⟨⟨b, on, column⟩, -⟩ :=
      marks_shows basicUtf8proc_local boundary (by decide +kernel) (blank_row 2) field marks
    rw [scroll] at column
    rcases Nat.eq_zero_or_pos b with rfl | some_
    · rw [columnAt_zero] at column
      cases column
    · have first := @columnAt_next basicUtf8proc wideField.text 0 boundary_zero (by decide)
      have past := columnAt_mono boundary_zero.step on (boundary_zero.next_le_of_lt on some_)
      rw [columnAt_zero, width] at first
      omega
  · rw [failed] at done
    cases done

theorem narrowField_marked : ∃ later grown x,
    textField basicUtf8proc (Raster.blank 3 1).view { w := 3, h := 1 } { text := [0x61, 0x62], cursorByte := 1 }
      (Raster.blank 3 1, GlyphTable.fresh.interns []) = .ok (later, grown) ∧
    Marks basicUtf8proc (Raster.blank 3 1).view { w := 3, h := 1 } { text := [0x61, 0x62], cursorByte := 1 }
      later grown x := by
  refine (@cursor_marks_iff basicUtf8proc (Raster.blank 3 1).view (Raster.blank 3 1) { w := 3, h := 1 }
    { text := [0x61, 0x62], cursorByte := 1 } basicUtf8proc_local ⟨1, by decide +kernel⟩ (View.whole_within _)
    Nat.one_pos rfl (by decide +kernel) rfl (.inr rfl) (blank_row 3) []).mpr ⟨by decide +kernel, ⟨0, boundary_zero, ?_⟩, by decide +kernel⟩
  rw [columnAt_zero]
  decide +kernel

end Cases

end Nxt.Ui
