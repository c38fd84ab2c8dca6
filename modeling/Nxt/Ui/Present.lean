import Nxt.Ui.Rejects

/- A presented frame against the terminal. It throws on the six rejected bytes; otherwise the
   terminal shows the new raster exactly when its glyphs can be drawn, no changed cell is
   transparent and no changed run starts inside a wide glyph and goes on past it. -/
namespace Nxt.Ui
open Nxt.Lib List
variable {cs : Charset} {rows cols : Nat}

/-- The terminal shows a raster from row `top` on. -/
def Shows (glyphs : GlyphTable) (raster : Raster) (top : Nat) (t : Terminal cs rows cols) : Prop :=
  ∀ y x cell, raster.cell? y x = some cell → top + y < rows ∧ x < cols ∧
    ShowsGlyph glyphs cell (t.cell (top + y) x) ∧ (t.cell (top + y) x).pen = shownPen cell

/-- Each wide glyph is followed by its continuation cells in the same style. -/
def Raster.Whole (cs : Charset) (glyphs : GlyphTable) (raster : Raster) : Prop :=
  ∀ row ∈ raster.rows, Ui.Whole cs glyphs row

def Presented (obey : Bytes → Terminal cs rows cols → Terminal cs rows cols) (c : TerminalCompositor)
    (t : Terminal cs rows cols) : Prop :=
  ((∃ e, c.presentFrame.1 = .error e) ∧ c.presentFrame.2.1 = c ∧ c.presentFrame.2.2 = [] ∧
    ∃ y x cell, ChangedCell c.front c.back y x cell ∧
      ∀ text, c.glyphs.get cell.glyph = some text → cs.width text = none) ∨
  (c.presentFrame.1 = .ok () ∧ Shows c.glyphs c.back c.partition.chromeStart (t.receive obey c.presentFrame.2.2) ∧
    (t.receive obey c.presentFrame.2.2).cursor = t.cursor ∧ (t.receive obey c.presentFrame.2.2).pen = t.pen ∧
    (∀ y, y < c.partition.chromeStart ∨ c.partition.chromeStart + c.back.height ≤ y →
      (t.receive obey c.presentFrame.2.2).line y = t.line y) ∧
    c.presentFrame.2.1.front = c.back ∧ c.presentFrame.2.1.back = c.back)

/-- Every cell is drawn or continues a drawn glyph, no changed cell is transparent, and no changed
    run starts inside a glyph and goes on past it. -/
structure Presentable (cs : Charset) (c : TerminalCompositor) : Prop where
  covered : ∀ row ∈ c.back.rows, Covered cs c.glyphs row
  opaque_ : ∀ y x cell, ChangedCell c.front c.back y x cell →
    cell.fg.isTransparent = false ∧ cell.bg.isTransparent = false
  whole_runs : ∀ (y : Nat) (f b : List Cell), c.front.rows[y]? = some f → c.back.rows[y]? = some b →
    ∀ s e, ¬TornAt c.glyphs f b s e

theorem drawnColor_shown (c : Rgba8) : drawnColor c = shownColor c ↔ c.isTransparent = false := by
  unfold drawnColor shownColor
  cases default : c.isTerminalDefault with
  | true =>
    have value : c.value = 0x100 := beq_iff_eq.mp default
    refine iff_of_true rfl ?_
    unfold Rgba8.isTransparent
    rw [value]
    rfl
  | false =>
    cases c.isTransparent with
    | false => exact iff_of_true rfl rfl
    | true =>
      refine iff_of_false ?_ (by decide)
      show ¬emittedColor c = .default
      unfold emittedColor
      split <;> intro never <;> cases never

theorem drawnPen_shown (cell : Cell) :
    drawnPen cell = shownPen cell ↔ cell.fg.isTransparent = false ∧ cell.bg.isTransparent = false := by
  unfold drawnPen shownPen
  rw [Pen.mk.injEq, drawnColor_shown, drawnColor_shown]
  exact ⟨fun ⟨fg, bg, _⟩ => ⟨fg, bg⟩, fun ⟨fg, bg⟩ => ⟨fg, bg, rfl⟩⟩

section Lines
variable {glyphs : GlyphTable} {f b : List Cell} {line : Line cs cols}

def ShowsRow (glyphs : GlyphTable) (row : List Cell) (line : Line cs cols) : Prop :=
  ∀ x cell, row[x]? = some cell → ShowsGlyph glyphs cell (line.cell x) ∧ (line.cell x).pen = shownPen cell

theorem wanted_shown {x : Nat} {cell : Cell} {pen : Pen} (at_ : b[x]? = some cell)
    (free : ¬Under cs glyphs f b x) (shown : pen = shownPen cell) : Wanted cs glyphs f b x pen := by
  intro other here
  rw [at_] at here
  cases here
  exact ⟨fun held => absurd held free, fun _ => shown⟩

theorem ShowsRow.covered (shows_ : ShowsRow glyphs b line) (within : b.length ≤ cols) : Covered cs glyphs b := by
  intro x inside
  have at_ : b[x]? = some b[x] := getElem?_eq_getElem inside
  obtain ⟨v, width, part, before, _, whole⟩ := line.intact x (by omega)
  obtain ⟨⟨text, get, shown⟩, _⟩ := shows_ x _ at_
  rcases shown with ⟨rfl, later⟩ | ⟨_, _, same⟩
  · refine .inr ⟨⟨_, at_, get⟩, x - (line.cell x).part, v, by omega, by omega, ?_⟩
    have first := whole 0 (by omega)
    rw [Nat.add_zero] at first
    obtain ⟨d, first_at⟩ := row_at (b := b) (x := x - (line.cell x).part) (by omega)
    obtain ⟨⟨other, other_get, other_shown⟩, _⟩ := shows_ _ d first_at
    rw [first] at other_shown
    rcases other_shown with ⟨_, not_first⟩ | ⟨_, _, same⟩
    · exact absurd rfl not_first
    · exact ⟨d, other, first_at, other_get, same ▸ width⟩
  · exact .inl ⟨v, _, text, at_, get, same ▸ width⟩

theorem ShowsRow.progress (shows_ : ShowsRow glyphs f line) (covered : Covered cs glyphs b) (whole : Whole cs glyphs b)
    (within : b.length ≤ cols) : Progress glyphs b (Changed f b) (Wanted cs glyphs f b) line 0 := by
  intro x inside
  by_cases under : Under cs glyphs f b x
  · obtain ⟨a, w, low, high, leads, change⟩ := under
    exact .inr ⟨a, w, Nat.zero_le a, low, high, leads, change⟩
  have kept : ∀ a w, a ≤ x → x < a + w → Leads cs glyphs b a w → f[a]? = b[a]? := by
    intro a w low high leads
    by_contra change
    exact under ⟨a, w, low, high, leads, change⟩
  left
  intro cell at_
  rcases covered x inside with ⟨w, leads⟩ | ⟨⟨c, c_at, empty⟩, a, w, low, high, leads⟩
  · have positive : 0 < w := by
      obtain ⟨_, _, _, _, drawn⟩ := leads
      exact cs.positive drawn
    obtain ⟨glyph, pen⟩ := shows_ x cell ((kept x w le_rfl (by omega) leads).trans at_)
    exact ⟨glyph, wanted_shown at_ under pen⟩
  · obtain ⟨ca, text, a_at, get, drawn⟩ := id leads
    obtain ⟨⟨text', get', shown⟩, pen⟩ := shows_ a ca ((kept a w low.le high leads).trans a_at)
    rw [get] at get'
    cases get'
    rcases shown with ⟨rfl, _⟩ | ⟨_, part, same⟩
    · exact absurd rfl (width_ne_nil drawn)
    obtain ⟨v, width, _, _, _, parts⟩ := line.intact a (by have := leads.inside; omega)
    rw [same, drawn] at width
    cases width
    have here := parts (x - a) (by omega)
    rw [part, Nat.sub_zero, Nat.add_sub_cancel' low.le] at here
    rw [at_] at c_at
    cases c_at
    rw [here]
    refine ⟨⟨[], empty, .inl ⟨rfl, ?_⟩⟩, wanted_shown at_ under ?_⟩
    · show x - a ≠ 0
      omega
    · show (line.cell a).pen = shownPen cell
      obtain ⟨fg, bg, em⟩ := whole.style leads low.le high a_at at_
      rw [pen]
      unfold shownPen
      rw [fg, bg, em]

theorem changed_under (covered : Covered cs glyphs b) (whole : Whole cs glyphs b) (front : Whole cs glyphs f) {x : Nat}
    (inside : x < b.length) (change : Changed f b x) : Under cs glyphs f b x := by
  rcases covered x inside with ⟨w, leads⟩ | ⟨⟨c, c_at, empty⟩, a, w, low, high, leads⟩
  · obtain ⟨_, _, _, _, drawn⟩ := id leads
    have positive := cs.positive drawn
    exact ⟨x, w, le_rfl, by omega, leads, change⟩
  · refine ⟨a, w, low.le, high, leads, ?_⟩
    intro unchanged
    obtain ⟨ca, text, a_at, get, drawn⟩ := id leads
    obtain ⟨next, next_at, next_empty, fg, bg, em⟩ := front a w
      ⟨ca, text, unchanged.trans a_at, get, drawn⟩ ca (unchanged.trans a_at) (x - a) (by omega) (by omega)
    rw [Nat.add_sub_cancel' low.le] at next_at
    obtain ⟨fg', bg', em'⟩ := whole.style leads low.le high a_at c_at
    refine change ?_
    rw [next_at, c_at]
    have glyph := glyphs.get_inj next_empty empty
    cases next
    cases c
    simp only at glyph fg bg em fg' bg' em'
    rw [glyph, fg, bg, em, fg', bg', em']

end Lines

section Frames
variable {obey : Bytes → Terminal cs rows cols → Terminal cs rows cols}

/-- What the rows from `y` on do to the terminal. -/
structure FrameDone (c : TerminalCompositor) (y : Nat) (t t' : Terminal cs rows cols) : Prop where
  saved : t'.saved = t.saved
  lines : ∀ other, other < c.partition.chromeStart + y ∨
    c.partition.chromeStart + c.back.height ≤ other → t'.line other = t.line other
  torn : ∀ z f b s e, y ≤ z → c.front.rows[z]? = some f → c.back.rows[z]? = some b →
    TornAt c.glyphs f b s e → (t'.cell (z + c.partition.chromeStart) s).part = 0
  progress : ∀ z f b, y ≤ z → c.front.rows[z]? = some f → c.back.rows[z]? = some b →
    (∀ s e, ¬TornAt c.glyphs f b s e) →
    Progress c.glyphs b (Changed f b) (Wanted cs c.glyphs f b) (t.line (z + c.partition.chromeStart)) 0 →
    Progress c.glyphs b (Changed f b) (Wanted cs c.glyphs f b) (t'.line (z + c.partition.chromeStart)) b.length

theorem rows_written {c : TerminalCompositor} (width : c.front.width = c.back.width)
    (height : c.front.height = c.back.height) (whole : c.back.Whole cs c.glyphs)
    (covered : ∀ row ∈ c.back.rows, Covered cs c.glyphs row)
    (visible : ∀ y, y < c.back.height → 0 < c.back.width → y + c.partition.chromeStart < rows)
    (narrow : 0 < c.back.height → c.back.width ≤ cols) {n y : Nat} (bottom : y + n = c.back.height)
    {start t : Terminal cs rows cols} {s : Emission} {style : StyleState}
    (written : Written obey start s.w t) (tracks : Tracks s style t) : ∃ style' s' t', ((List.range' y n).flatMap
        fun z => rowChanges z ((c.front.row z).zip (c.back.row z)) c.back).foldlM
          (diffStep (emitRun c.glyphs c.partition.chromeStart)) (style, s) = .ok (style', s') ∧
      Written obey start s'.w t' ∧ Tracks s' style' t' ∧ FrameDone c y t t' := by
  induction n generalizing y s style t with
  | zero =>
    refine ⟨style, s, t, rfl, written, tracks, rfl, (fun _ _ => rfl), ?_, ?_⟩
    · intro z f b _ _ low _ back_at
      have inside := Raster.row_inside back_at
      omega
    · intro z f b low _ back_at
      have inside := Raster.row_inside back_at
      omega
  | succ n ih =>
    have front_inside : y < c.front.height := by omega
    have back_inside : y < c.back.height := by omega
    obtain ⟨f, front_at⟩ := Raster.row_some front_inside
    obtain ⟨b, back_at⟩ := Raster.row_some back_inside
    have b_width := Raster.row_width back_at
    have same : f.length = b.length := by rw [Raster.row_width front_at, b_width, width]
    have b_in := mem_of_getElem? back_at
    obtain ⟨style1, s1, t1, row_ok, written1, tracks1, done⟩ := row_runs same (covered b b_in)
      (whole b b_in) (by rw [b_width]; exact narrow (by omega)) back_at
      (fun some_ => visible y (by omega) (by omega)) (splitBy_cuts sameRun (pairs f b)) (.inl rfl)
      written tracks
    obtain ⟨style', s', t', rest_ok, written', tracks', rest⟩ := ih (y := y + 1) (by omega) written1 tracks1
    refine ⟨style', s', t', ?_, written', tracks', rest.saved.trans done.saved, ?_, ?_, ?_⟩
    · rw [List.range'_succ, flatMap_cons, foldlM_append, zip_pairs front_at back_at]
      unfold rowChanges at rest_ok ⊢
      rw [row_ok]
      exact rest_ok
    · intro other away
      rw [rest.lines other (by omega), done.lines other (by omega)]
    · intro z f' b' s e low front_at' back_at' torn
      by_cases here : z = y
      · subst here
        rw [front_at] at front_at'
        rw [back_at] at back_at'
        cases front_at'
        cases back_at'
        unfold Terminal.cell
        rw [rest.lines _ (by omega)]
        exact done.torn s e (Nat.zero_le s) torn
      · exact rest.torn z f' b' s e (by omega) front_at' back_at' torn
    · intro z f' b' low front_at' back_at' whole_runs progress
      by_cases here : z = y
      · subst here
        rw [front_at] at front_at'
        rw [back_at] at back_at'
        cases front_at'
        cases back_at'
        rw [rest.lines _ (by omega)]
        exact done.progress whole_runs progress
      · refine rest.progress z f' b' (by omega) front_at' back_at' whole_runs ?_
        rw [done.lines _ (by omega)]
        exact progress

theorem frame_written {c : TerminalCompositor} (width : c.front.width = c.back.width)
    (height : c.front.height = c.back.height) (whole : c.back.Whole cs c.glyphs)
    (covered : ∀ row ∈ c.back.rows, Covered cs c.glyphs row)
    (visible : ∀ y, y < c.back.height → 0 < c.back.width → y + c.partition.chromeStart < rows)
    (narrow : 0 < c.back.height → c.back.width ≤ cols) {t : Terminal cs rows cols} (pen : t.pen = {}) :
    ∃ bytes t', c.frame = .ok bytes ∧ t.receive obey bytes = { t' with cursor := t.cursor, pen := t.pen } ∧
      FrameDone c 0 t.save t' := by
  have saved : Written obey t (Writer.saveCursor []) t.save := Written.nil.saveCursor
  have tracks : Tracks { w := Writer.saveCursor [] } ({} : StyleState) t.save := ⟨rfl, rfl, pen⟩
  obtain ⟨style', s', t', ok, written, _, done⟩ := rows_written width height whole covered visible narrow
    (Nat.zero_add c.back.height) saved tracks
  refine ⟨Writer.restoreCursor s'.w, t', ?_, ?_, done⟩
  · unfold TerminalCompositor.frame diffRasters rawChanges
    rw [range_eq_range', ok]
    rfl
  · rw [written.restoreCursor.received]
    unfold Terminal.restore
    rw [done.saved]
    rfl

end Frames

section Showing
variable {c : TerminalCompositor} {raster : Raster} {glyphs : GlyphTable} {top : Nat}
variable {t : Terminal cs rows cols}

theorem Shows.visible (shows_ : Shows glyphs raster top t) {y : Nat} (inside : y < raster.height)
    (some_ : 0 < raster.width) : y + top < rows := by
  obtain ⟨row, at_⟩ := Raster.row_some inside
  obtain ⟨cell, cell_at⟩ := row_at (b := row) (x := 0) (by rw [Raster.row_width at_]; exact some_)
  have visible := (shows_ y 0 cell (by rw [Raster.row_cell at_]; exact cell_at)).1
  omega

theorem Shows.narrow (shows_ : Shows glyphs raster top t) (some_ : 0 < raster.height) : raster.width ≤ cols := by
  by_cases none : raster.width = 0
  · omega
  obtain ⟨row, at_⟩ := Raster.row_some some_
  obtain ⟨cell, cell_at⟩ := row_at (b := row) (x := raster.width - 1)
    (by rw [Raster.row_width at_]; omega)
  have visible := (shows_ 0 _ cell (by rw [Raster.row_cell at_]; exact cell_at)).2.1
  omega

theorem Shows.row (shows_ : Shows glyphs raster top t) {y : Nat} {row : List Cell}
    (at_ : raster.rows[y]? = some row) : ShowsRow glyphs row (t.line (y + top)) := by
  intro x cell cell_at
  obtain ⟨_, _, glyph, pen⟩ := shows_ y x cell (by rw [Raster.row_cell at_]; exact cell_at)
  rw [Nat.add_comm top y] at glyph pen
  exact ⟨glyph, pen⟩

theorem shows_of_progress {f b : List Cell} {line : Line cs cols}
    (progress : Progress glyphs b (Changed f b) (Wanted cs glyphs f b) line b.length) (whole : Whole cs glyphs b)
    (plain : ∀ x cell, b[x]? = some cell → Changed f b x → drawnPen cell = shownPen cell) : ShowsRow glyphs b line := by
  intro x cell at_
  have inside := (List.getElem?_eq_some_iff.mp at_).1
  rcases progress x inside with settled | ⟨a, w, low, high, _⟩
  · obtain ⟨glyph, wanted⟩ := settled cell at_
    refine ⟨glyph, ?_⟩
    obtain ⟨drawn, shown⟩ := wanted cell at_
    by_cases under : Under cs glyphs f b x
    · rw [drawn under]
      obtain ⟨a, w, low, high, leads, change⟩ := under
      obtain ⟨ca, a_at⟩ := row_at leads.inside
      have pens := plain a ca a_at change
      obtain ⟨fg, bg, em⟩ := whole.style leads low high a_at at_
      rw [drawnPen_shown, ← fg, ← bg]
      exact (drawnPen_shown ca).mp pens
    · exact shown under
  · omega

end Showing

section Main
variable {obey : Bytes → Terminal cs rows cols → Terminal cs rows cols} {c : TerminalCompositor}
variable {t : Terminal cs rows cols}

theorem presentFrame_error {e : LogicError} (failed : c.frame = .error e) : c.presentFrame = (.error e, c, []) := by
  unfold TerminalCompositor.presentFrame
  rw [failed]

theorem presentFrame_ok {bytes : Bytes} (ok : c.frame = .ok bytes) :
    c.presentFrame = (.ok (), { c with front := c.back }, bytes) := by
  unfold TerminalCompositor.presentFrame
  rw [ok]

theorem rejects_undrawn (cs : Charset) (rejects : Rejects c) : ∃ y x cell, ChangedCell c.front c.back y x cell ∧
    ∀ text, c.glyphs.get cell.glyph = some text → cs.width text = none := by
  obtain ⟨y, x, cell, change, text, get, b, inside, bad⟩ := rejects
  refine ⟨y, x, cell, change, ?_⟩
  intro other same
  rw [get] at same
  cases same
  by_contra drawn
  obtain ⟨w, width⟩ := Option.ne_none_iff_exists'.mp drawn
  rw [drawn_plain width b inside] at bad
  cases bad

/-- A frame is presented as promised exactly when it is rejected or can be presented. -/
theorem presentFrame_faithful (width : c.front.width = c.back.width) (height : c.front.height = c.back.height)
    (front : c.front.Whole cs c.glyphs) (back : c.back.Whole cs c.glyphs) (pen : t.pen = {})
    (shown : Shows c.glyphs c.front c.partition.chromeStart t) : Presented obey c t ↔ Rejects c ∨ Presentable cs c := by
  have visible : ∀ y, y < c.back.height → 0 < c.back.width → y + c.partition.chromeStart < rows := by
    intro y inside some_
    exact shown.visible (by omega) (by omega)
  have narrow : 0 < c.back.height → c.back.width ≤ cols := by
    intro some_
    have fits := shown.narrow (by omega)
    omega
  have starts : ∀ y f b, c.front.rows[y]? = some f → c.back.rows[y]? = some b → Covered cs c.glyphs b →
      Progress c.glyphs b (Changed f b) (Wanted cs c.glyphs f b) (t.line (y + c.partition.chromeStart)) 0 := by
    intro y f b front_at back_at covered
    have inside := Raster.row_inside back_at
    refine (shown.row front_at).progress covered (back b (mem_of_getElem? back_at)) ?_
    rw [Raster.row_width back_at]
    exact narrow (by omega)
  constructor
  · rintro (⟨⟨e, failed⟩, _⟩ | ⟨ok, showing, _⟩)
    · left
      cases run : c.frame with
      | error e => exact (frame_error_iff width height).mp ⟨e, run⟩
      | ok bytes =>
        rw [presentFrame_ok run] at failed
        cases failed
    · right
      have covered : ∀ row ∈ c.back.rows, Covered cs c.glyphs row := by
        intro b inside
        obtain ⟨y, at_⟩ := getElem?_of_mem inside
        refine (showing.row at_).covered ?_
        have y_inside := Raster.row_inside at_
        rw [Raster.row_width at_]
        exact narrow (by omega)
      obtain ⟨bytes, t', run, received, done⟩ := frame_written width height back covered
        visible narrow pen
      rw [presentFrame_ok run] at showing
      rw [received] at showing
      have whole_runs : ∀ (y : Nat) (f b : List Cell), c.front.rows[y]? = some f → c.back.rows[y]? = some b →
          ∀ s e, ¬TornAt c.glyphs f b s e := by
        intro y f b front_at back_at s e torn
        have part := done.torn y f b s e (Nat.zero_le y) front_at back_at torn
        obtain ⟨cell, at_, empty⟩ := torn.continuation
        obtain ⟨⟨text, get, glyph⟩, _⟩ := showing.row back_at s cell at_
        rw [empty] at get
        cases get
        rcases glyph with ⟨_, later⟩ | ⟨some_, _⟩
        · exact later part
        · exact some_ rfl
      refine ⟨covered, ?_, whole_runs⟩
      rintro y x cell ⟨at_, differ⟩
      obtain ⟨b, back_at, b_at⟩ := Raster.cell_row at_
      obtain ⟨f, front_at⟩ := Raster.row_some (height ▸ Raster.row_inside back_at)
      have inside := (List.getElem?_eq_some_iff.mp b_at).1
      have b_in := mem_of_getElem? back_at
      have change : Changed f b x := by
        unfold Changed
        rw [b_at, ← Raster.row_cell front_at]
        exact differ
      have under := changed_under (covered b b_in) (back b b_in)
        (front f (mem_of_getElem? front_at)) inside change
      have progress := done.progress y f b (Nat.zero_le y) front_at back_at
        (whole_runs y f b front_at back_at) (starts y f b front_at back_at (covered b b_in))
      obtain ⟨_, pen_shown⟩ := showing.row back_at x cell b_at
      rcases progress x inside with settled | ⟨a, w, low, high, _⟩
      · obtain ⟨_, wanted⟩ := settled cell b_at
        have pens : drawnPen cell = shownPen cell := ((wanted cell b_at).1 under).symm.trans pen_shown
        exact (drawnPen_shown cell).mp pens
      · omega
  · rintro (rejects | presentable)
    · left
      obtain ⟨e, failed⟩ := (frame_error_iff width height).mpr rejects
      rw [presentFrame_error failed]
      exact ⟨⟨e, rfl⟩, rfl, rfl, rejects_undrawn cs rejects⟩
    · right
      obtain ⟨bytes, t', run, received, done⟩ := frame_written width height back
        presentable.covered visible narrow pen
      rw [presentFrame_ok run]
      rw [received]
      refine ⟨rfl, ?_, rfl, rfl, ?_, rfl, rfl⟩
      · intro y x cell at_
        obtain ⟨b, back_at, b_at⟩ := Raster.cell_row at_
        obtain ⟨f, front_at⟩ := Raster.row_some (height ▸ Raster.row_inside back_at)
        have inside := (List.getElem?_eq_some_iff.mp b_at).1
        have b_in := mem_of_getElem? back_at
        have y_inside := Raster.row_inside back_at
        have b_width := Raster.row_width back_at
        have progress := done.progress y f b (Nat.zero_le y) front_at back_at
          (presentable.whole_runs y f b front_at back_at)
          (starts y f b front_at back_at (presentable.covered b b_in))
        have plain : ∀ x cell, b[x]? = some cell → Changed f b x → drawnPen cell = shownPen cell := by
          intro x cell b_at change
          refine (drawnPen_shown cell).mpr (presentable.opaque_ y x cell ⟨?_, ?_⟩)
          · rw [Raster.row_cell back_at]
            exact b_at
          · rw [Raster.row_cell front_at, ← b_at]
            exact change
        obtain ⟨glyph, pen_shown⟩ := shows_of_progress progress (back b b_in) plain x cell b_at
        have tall := visible y y_inside (by omega)
        have wide := narrow (by omega)
        rw [Nat.add_comm c.partition.chromeStart y]
        exact ⟨tall, by omega, glyph, pen_shown⟩
      · intro y away
        exact done.lines y (by omega)

end Main

def spaceCell : Cell := { glyph := 0x20, fg := .terminalDefault, bg := .terminalDefault, em := Emphasis.none }

/-- A raster of one row. -/
def oneRow (row : List Cell) : Raster where
  width := row.length
  height := 1
  rows := [row]
  rows_length := rfl
  row_length _ inside := by rw [mem_singleton.mp inside]

/-- A row over spaces, at the bottom of three. -/
def rowCompositor (row : List Cell) : TerminalCompositor where
  front := oneRow (row.map fun _ => spaceCell)
  back := oneRow row
  glyphs := emptyGlyph
  partition := .forBottomFixedHeight 3 1

def blankTerminal (cols : Nat) : Terminal wideBytes 3 cols where
  line _ := .blank wideBytes cols
  cursor := ⟨0, 0⟩

theorem oneRow_at {row : List Cell} {y x : Nat} {cell : Cell} (at_ : (oneRow row).cell? y x = some cell) :
    y = 0 ∧ row[x]? = some cell := by
  obtain ⟨line, line_at, cell_at⟩ := Raster.cell_row at_
  cases y with
  | zero =>
    cases line_at
    exact ⟨rfl, cell_at⟩
  | succ y => cases line_at

theorem narrow_whole {glyphs : GlyphTable} {row : List Cell}
    (narrow : ∀ cell ∈ row, ((glyphs.get cell.glyph).bind wideBytes.width).getD 1 = 1) :
    (oneRow row).Whole wideBytes glyphs := by
  intro line inside
  rw [mem_singleton.mp inside]
  rintro a w ⟨cell, text, at_, get, width⟩ _ _ j positive small
  have one := narrow cell (mem_of_getElem? at_)
  rw [get, Option.bind_some, width] at one
  have single : w = 1 := one
  omega

theorem spaces_whole (row : List Cell) : (oneRow (row.map fun _ => spaceCell)).Whole wideBytes emptyGlyph :=
  narrow_whole fun cell inside => by
    obtain ⟨_, _, rfl⟩ := mem_map.mp inside
    rfl

theorem blank_shows (row : List Cell) : Shows (rowCompositor row).glyphs (rowCompositor row).front
    (rowCompositor row).partition.chromeStart (blankTerminal row.length) := by
  intro y x cell at_
  obtain ⟨rfl, cell_at⟩ := oneRow_at at_
  have inside := (List.getElem?_eq_some_iff.mp cell_at).1
  rw [length_map] at inside
  obtain ⟨_, _, rfl⟩ := mem_map.mp (mem_of_getElem? cell_at)
  exact ⟨Nat.lt_succ_self 2, inside, ⟨[0x20], rfl, .inr ⟨by decide, rfl, rfl⟩⟩, rfl⟩

/-- A wide glyph in bold red on blue. -/
def wideRow : List Cell :=
  [{ glyph := 0xff, fg := .palette 1, bg := .rgb 0 0 255, em := 1 },
    { glyph := 256, fg := .palette 1, bg := .rgb 0 0 255, em := 1 }]

theorem wideRow_whole : (oneRow wideRow).Whole wideBytes emptyGlyph := by
  intro line inside
  rw [mem_singleton.mp inside]
  rintro a w ⟨cell, text, at_, get, width⟩ first first_at j positive small
  match a with
  | 0 =>
    cases at_
    cases get
    cases width
    obtain rfl : j = 1 := by omega
    cases first_at
    exact ⟨_, rfl, rfl, rfl, rfl, rfl⟩
  | 1 =>
    cases at_
    cases get
    cases width
  | a + 2 => cases at_

/-- A wide glyph in colours over a blank screen. -/
theorem letter_presented : Presented (fun _ t => t) (rowCompositor wideRow) (blankTerminal 2) := by
  refine (presentFrame_faithful (c := rowCompositor wideRow) rfl rfl (spaces_whole wideRow) wideRow_whole rfl
    (blank_shows wideRow)).mpr (.inr ⟨?_, ?_, ?_⟩)
  · intro row inside x low
    have row_eq := mem_singleton.mp inside
    subst row_eq
    have leads : Leads wideBytes emptyGlyph wideRow 0 2 := ⟨_, [0xff], rfl, rfl, rfl⟩
    match x with
    | 0 => exact .inl ⟨2, leads⟩
    | 1 => exact .inr ⟨⟨_, rfl, rfl⟩, 0, 2, Nat.zero_lt_one, by decide, leads⟩
    | x + 2 => exact absurd low (by simp [wideRow])
  · rintro y x cell ⟨at_, _⟩
    have seen : ∀ cell ∈ wideRow, cell.fg.isTransparent = false ∧ cell.bg.isTransparent = false := by decide
    exact seen cell (mem_of_getElem? (oneRow_at at_).2)
  · intro y f b _ back_at s e torn
    have row_eq := mem_singleton.mp (mem_of_getElem? back_at)
    subst row_eq
    have first := torn.first
    have order := torn.order
    have inside : e < 2 := torn.inside
    omega

def bellRow : List Cell := [{ spaceCell with glyph := 7 }]

/-- A changed cell holds the bell: nothing is thrown, and no terminal shows it. -/
theorem bell_unpresented : (rowCompositor bellRow).front.Whole wideBytes (rowCompositor bellRow).glyphs ∧
    (rowCompositor bellRow).back.Whole wideBytes (rowCompositor bellRow).glyphs ∧
    Shows (rowCompositor bellRow).glyphs (rowCompositor bellRow).front
      (rowCompositor bellRow).partition.chromeStart (blankTerminal 1) ∧
    (rowCompositor bellRow).presentFrame.1 = .ok () ∧
    ∀ obey, ¬Presented obey (rowCompositor bellRow) (blankTerminal 1) := by
  refine ⟨spaces_whole bellRow, narrow_whole (by decide), blank_shows bellRow, by decide +kernel, ?_⟩
  rintro obey (⟨⟨e, failed⟩, _⟩ | ⟨_, showing, _⟩)
  · have ok : (rowCompositor bellRow).presentFrame.1 = .ok () := by decide +kernel
    rw [ok] at failed
    cases failed
  · have shown := @Shows.row _ _ _ _ _ _ _ showing 0 _ rfl
    have covered := shown.covered le_rfl
    rcases covered 0 Nat.one_pos with ⟨w, cell, text, at_, get, width⟩ | ⟨⟨cell, at_, empty⟩, _⟩
    · cases at_
      cases get
      cases width
    · cases at_
      cases empty

end Nxt.Ui
