import Nxt.Ui.Leaves

/- Rendering a layout tree in a view of spaces: no cell outside the view changes, and the rows of the view are whole. A
   container leaves its view whole up to its cursor and blank from there on. -/
namespace Nxt.Ui
open Nxt.Lib List

/-- What rendering in a view gives: whole rows of the view and no change elsewhere, or a glyph is too long. -/
def Rendered (u : Utf8proc) (v : View) (s : Raster × GlyphTable) (result : Except String (Raster × GlyphTable)) : Prop :=
  (∃ later, result = .ok later ∧ Redrawn v s later ∧ v.Closed u later) ∨ result = .error tooLong

namespace Rendered
variable {u : Utf8proc} {v part : View} {s later : Raster × GlyphTable}
  {result : Except String (Raster × GlyphTable)}

theorem widen (rendered : Rendered u part s result) (inside : part.Inside v) (blank : v.Blank s.1) :
    Rendered u v s result := by
  rcases rendered with ⟨later, done, drawn, closed⟩ | failed
  · exact .inl ⟨later, done, drawn.widen inside, closed.widen drawn inside blank⟩
  · exact .inr failed

theorem after (rendered : Rendered u v later result) (drawn : Redrawn v s later) : Rendered u v s result := by
  rcases rendered with ⟨last, done, more, closed⟩ | failed
  · exact .inl ⟨last, done, drawn.trans more, closed⟩
  · exact .inr failed

theorem tinted {raster : Raster} {table : GlyphTable} {colored : Raster} (tinted : Tinted v raster colored)
    (blank : v.Blank raster) : Rendered u v (raster, table) (.ok (colored, table)) :=
  .inl ⟨_, rfl, tinted.drawn table, tinted.closed blank.closed⟩

end Rendered

structure WholeUpTo (u : Utf8proc) (axis : Axis) (v : View) (c : Nat) (s : Raster × GlyphTable) : Prop where
  most : c ≤ axis.edge v
  closed : (axis.strip v 0 c).Closed u s
  blank : (axis.strip v c (axis.edge v)).Blank s.1

namespace WholeUpTo
variable {u : Utf8proc} {axis : Axis} {v part : View} {c d : Nat} {s later : Raster × GlyphTable}

theorem start (blank : v.Blank s.1) : WholeUpTo u axis v 0 s where
  most := Nat.zero_le _
  closed := by
    intro y top_ bottom_
    cases axis
    · exact .nil
    · dsimp only [Axis.strip] at top_ bottom_
      omega
  blank := by
    rw [Axis.strip_all]
    exact blank

theorem whole (progress : WholeUpTo u axis v c s) : v.Closed u s := by
  have joined := Axis.strip_join (Nat.zero_le c) progress.most progress.closed progress.blank.closed
  rwa [Axis.strip_all] at joined

theorem next (progress : WholeUpTo u axis v c s) (cd : c ≤ d) (most : d ≤ axis.edge v)
    (inside : part.Inside (axis.strip v c d)) (drawn : Redrawn part s later) (closed : part.Closed u later) :
    WholeUpTo u axis v d later where
  most := most
  closed := by
    have old := progress.closed.keep drawn fun y x has other => Axis.strip_apart le_rfl has (inside.has other)
    have blank := progress.blank.inside (Axis.strip_inside le_rfl cd most)
    exact Axis.strip_join (Nat.zero_le c) cd old (closed.widen drawn inside blank)
  blank := (progress.blank.inside (Axis.strip_inside cd most le_rfl)).keep drawn
    fun y x has other => Axis.strip_apart' le_rfl has (inside.has other)

theorem part_inside (progress : WholeUpTo u axis v c s) (cd : c ≤ d) (most : d ≤ axis.edge v)
    (inside : part.Inside (axis.strip v c d)) : part.Inside v ∧ part.Blank s.1 := by
  refine ⟨?_, (progress.blank.inside (Axis.strip_inside le_rfl cd most)).inside inside⟩
  have strip := inside.trans (Axis.strip_inside (Nat.zero_le c) cd most)
  rwa [Axis.strip_all] at strip

end WholeUpTo

section Trees
variable {u : Utf8proc} {v : View}

theorem renderSpans_rendered (spans : List Span) {s : Raster × GlyphTable} (within : v.Within s.1)
    (short : s.2.Short) (blank : v.Blank s.1) : Rendered u v s (renderSpans u v 0 spans 0 s) := by
  have most : min (0 + 1) v.rows ≤ Axis.column.edge v := Nat.min_le_right _ _
  have start : WholeUpTo u .column v (min 0 v.rows) s := by
    rw [Nat.zero_min]
    exact .start blank
  obtain ⟨inside, line_blank⟩ := start.part_inside (by omega) most (.refl (v.line 0))
  exact Rendered.widen (renderSpans_cases within short spans (.start line_blank)) inside blank

theorem renderLine_spans (text : Bytes) (style : Style) (s : Raster × GlyphTable) : (renderLine u v text style s).map
    (fun done => done.2) = renderSpans u v 0 [{ text, style }] 0 (clearLine v style s.1, s.2) := by
  unfold renderLine
  rw [renderSpans]
  cases renderSpan u v ⟨0, 0⟩ { text, style } (clearLine v style s.1, s.2) with
  | error e => rfl
  | ok done => rfl

theorem renderLines_cases (size : Size) (lines : List (List Span)) {row : Nat} {s : Raster × GlyphTable}
    (within : v.Within s.1) (short : s.2.Short) (progress : WholeUpTo u .column v (min row v.rows) s) :
    Rendered u v s (renderLines u v size lines row s) := by
  induction lines generalizing row s with
  | nil => exact .inl ⟨s, rfl, .refl v s, progress.whole⟩
  | cons line rest ih =>
    rw [renderLines]
    split
    · exact .inl ⟨s, rfl, .refl v s, progress.whole⟩
    · have step : min row v.rows ≤ min (row + 1) v.rows := by omega
      have most : min (row + 1) v.rows ≤ Axis.column.edge v := Nat.min_le_right _ _
      obtain ⟨inside, blank⟩ := progress.part_inside step most (.refl (v.line row))
      rcases renderSpans_cases within short line (.start blank) with ⟨later, done, drawn, closed⟩ | failed
      · rw [done, ok_bind]
        have next := progress.next step most (.refl (v.line row)) drawn closed
        exact (ih (drawn.within within) (drawn.short short) next).after (drawn.widen inside)
      · rw [failed]
        exact .inr rfl

mutual

theorem Layout.rendered : ∀ (layout : Layout) (v : View) (size : Size) {s : Raster × GlyphTable},
    (∀ call ∈ layout.calls u v size, call.Inside u) → v.Within s.1 → s.2.Short → v.Blank s.1 →
      Rendered u v s (layout.render u v size s)
  | .lineText _ makeText style, v, size, s, _, within, short, _ => by
      obtain ⟨cleared, blank⟩ := clearLine_drawn style within
      rw [Layout.render, renderLine_spans]
      exact (renderSpans_rendered _ (cleared.within within) (cleared.short short) blank).after cleared
  | .styledText spans, _, _, _, _, within, short, blank => renderSpans_rendered spans within short blank
  | .styledLines lines clear, v, size, s, _, within, short, _ => by
      obtain ⟨cleared, blank⟩ := clearLine_drawn clear within
      have progress : WholeUpTo u .column v (min 0 v.rows) (clearLine v clear s.1, s.2) := by
        rw [Nat.zero_min]
        exact .start blank
      exact (renderLines_cases size (atLeastOne lines) (cleared.within within) (cleared.short short) progress).after
        cleared
  | .fill color, v, _, s, _, _, _, blank => .tinted (.fillBgs v color s.1) blank
  | .hfill _ color, v, _, s, _, within, _, _ => by
      obtain ⟨filled, blank⟩ := fillGlyphs_drawn within
      exact (Rendered.tinted (.fillBgs v color _) blank).after filled
  | .flexFill color, v, _, s, _, within, _, _ => by
      obtain ⟨filled, blank⟩ := fillGlyphs_drawn within
      exact (Rendered.tinted (.fillBgs v color _) blank).after filled
  | .empty, v, _, s, _, _, _, blank => .inl ⟨s, rfl, .refl v s, blank.closed⟩
  | .container kind children, v, size, s, inside, within, short, blank => by
      rw [Layout.calls] at inside
      obtain ⟨own, others⟩ := forall_mem_cons.mp inside
      rw [Layout.render]
      refine renderChildren_rendered kind.axis v size children 0 own.parts others within short ?_
      rw [Nat.zero_min]
      exact .start blank
  | .surface style child, v, size, s, inside, within, short, _ => by
      obtain ⟨filled, blank⟩ := fillGlyphs_drawn within
      have tinted : Tinted v (v.fillGlyphs 32 s.1)
          (v.fillEms style.em (v.fillBgs style.bg (v.fillFgs style.fg (v.fillGlyphs 32 s.1)))) :=
        ((Tinted.fillFgs v style.fg _).trans (.fillBgs v style.bg _)).trans (.fillEms v style.em _)
      have drawn := filled.trans (tinted.drawn s.2)
      exact (child.rendered v size inside (drawn.within within) (drawn.short short) (tinted.blank blank)).after drawn
  | .fixedHeight _ child, v, size, _, inside, within, short, blank => child.rendered v size inside within short blank
  | .fixedWidth _ child, v, size, _, inside, within, short, blank => child.rendered v size inside within short blank
  | .growWidth _ child, v, size, _, inside, within, short, blank => child.rendered v size inside within short blank
  | .oneOf chosen, v, size, _, inside, within, short, blank => chosen.rendered v size inside within short blank

theorem renderChildren_rendered (axis : Axis) {turn : Layout → Nat → Turn} (v : View) (size : Size) :
    ∀ (children : List Layout) (cursor : Nat) {s : Raster × GlyphTable},
      (∀ slot ∈ slots turn children cursor, ∃ part,
        v.subraster (axis.pos slot.1) (axis.childSize size slot.2) = some part) →
      (∀ call ∈ childrenCalls u axis turn v size children cursor, call.Inside u) → v.Within s.1 → s.2.Short →
      WholeUpTo u axis v (min cursor (axis.edge v)) s →
        Rendered u v s (renderChildren u axis turn v size children cursor s)
  | [], _, s, _, _, _, _, progress => .inl ⟨s, rfl, .refl v s, progress.whole⟩
  | child :: rest, cursor, s, parts, inside, within, short, progress => by
      rw [slots] at parts
      rw [childrenCalls] at inside
      rw [renderChildren]
      cases given : turn child cursor with
      | skip =>
        rw [given] at parts inside
        exact renderChildren_rendered axis v size rest cursor parts inside within short progress
      | stop => exact .inl ⟨s, rfl, .refl v s, progress.whole⟩
      | give extent =>
        rw [given] at parts inside
        dsimp only at parts inside ⊢
        obtain ⟨⟨part, made⟩, others⟩ := forall_mem_cons.mp parts
        dsimp only at made
        rw [made] at inside ⊢
        dsimp only at inside ⊢
        obtain ⟨own, more⟩ := forall_mem_append.mp inside
        obtain ⟨step, strip⟩ := Axis.strip_subraster made
        have most := Nat.min_le_right ((cursor + extent) % 2 ^ 64) (axis.edge v)
        obtain ⟨part_inside, blank⟩ := progress.part_inside step most strip
        rcases child.rendered part (axis.childSize size extent) own (part_inside.within within) short blank with
          ⟨later, done, drawn, closed⟩ | failed
        · rw [done, ok_bind]
          have next := progress.next step most strip drawn closed
          exact (renderChildren_rendered axis v size rest _ others more (drawn.within within) (drawn.short short)
            next).after (drawn.widen part_inside)
        · rw [failed]
          exact .inr rfl

end

theorem blank_view (width height : Nat) : (Raster.blank width height).view.Blank (Raster.blank width height) := by
  intro y x has
  unfold View.Has at has
  obtain ⟨-, row, -, column⟩ := has
  have row_ : y < height := (Nat.zero_add height).symm ▸ row
  have column_ : x < width := (Nat.zero_add width).symm ▸ column
  unfold Raster.cell? Raster.blank
  dsimp only
  rw [getElem?_replicate_of_lt row_, Option.bind_some, getElem?_replicate_of_lt column_]
  rfl

theorem View.descend_inside {v part : View} {path : List (Pos × Size)} (made : v.descend path = some part) :
    part.Inside v := by
  induction path generalizing v with
  | nil =>
    cases made
    exact .refl _
  | cons step rest ih =>
    obtain ⟨middle, first, made⟩ := Option.bind_eq_some_iff.mp made
    have inside := subraster_inside first
    exact (ih made).trans ⟨inside.1, inside.2.1, inside.2.2.1, inside.2.2.2⟩

theorem View.Closed.formed {s : Raster × GlyphTable} (closed : s.1.view.Closed u s) : Formed u s.2 s.1 := by
  intro y small
  have piece := closed y (Nat.zero_le y) (by
    show y < 0 + s.1.height
    omega)
  rw [show s.1.view.x + s.1.view.cols = s.1.width from Nat.zero_add _] at piece
  exact ⟨piece.formedRow, fun x text lead => piece.formedRow.drawn lead⟩

/-- What rendering a layout tree should give: rectangles of containers that are in order, apart, in the extent there is
    and parts of their view, and with no change outside the view a raster whose glyphs are whole, unless a glyph is too
    long. -/
structure Contained (u : Utf8proc) (layout : Layout) (v : View) (size : Size) (s : Raster × GlyphTable) : Prop where
  placed : ∀ call ∈ layout.calls u v size, call.Inside u
  result : (∃ later, layout.render u v size s = .ok later ∧
      (∀ y x, ¬v.Has y x → later.1.cell? y x = s.1.cell? y x) ∧ Formed u later.2 later.1) ∨
    layout.render u v size s = .error tooLong

end Trees

/-- A layout tree is rendered in its rectangles just when in its containers no start of a child of a stack wraps, and no
    end that is in view. -/
theorem render_contained_iff (u : Utf8proc) (layout : Layout) (width height : Nat) (history : List Bytes)
    (path : List (Pos × Size)) (v : View) (view : (Raster.blank width height).view.descend path = some v) (size : Size)
    (w : size.w < 2 ^ 64) (h : size.h < 2 ^ 64) :
    Contained u layout v size (Raster.blank width height, GlyphTable.fresh.interns history) ↔
      ∀ call ∈ layout.calls u v size, call.Unwrapped u := by
  have sizes := layout.calls_small (u := u) v w h
  constructor
  · intro contained call held
    exact (Call.inside_iff (sizes call held).1 (sizes call held).2).mp (contained.placed call held)
  · intro unwrapped
    have placed : ∀ call ∈ layout.calls u v size, call.Inside u := fun call held =>
      (Call.inside_iff (sizes call held).1 (sizes call held).2).mpr (unwrapped call held)
    refine ⟨placed, ?_⟩
    have inside := View.descend_inside view
    have blank := blank_view width height
    have within : v.Within (Raster.blank width height) :=
      View.descend_within (View.whole_within _) view
    have short := GlyphTable.interns_short GlyphTable.fresh_short history
    rcases @Layout.rendered u layout v size (Raster.blank width height, GlyphTable.fresh.interns history) placed within
      short (blank.inside inside) with ⟨later, done, drawn, closed⟩ | failed
    · refine .inl ⟨later, done, drawn.outside, ?_⟩
      have whole := closed.widen drawn inside blank
      have same : later.1.view = (Raster.blank width height).view := by
        unfold Raster.view
        rw [drawn.width, drawn.height]
      rw [← same] at whole
      exact whole.formed
    · exact .inr failed

def glyphAndRule : Call where
  kind := .stack .row
  children := [.text basicUtf8proc [0xe3, 0x81, 0x82] {}, .hrule]
  view := ⟨0, 0, 5, 1⟩
  size := ⟨5, 1⟩

theorem glyphAndRule_contained : Contained basicUtf8proc (.row glyphAndRule.children) ⟨0, 0, 5, 1⟩ ⟨5, 1⟩
    (Raster.blank 5 1, GlyphTable.fresh.interns []) := by
  refine (render_contained_iff basicUtf8proc _ 5 1 [] [] ⟨0, 0, 5, 1⟩ rfl ⟨5, 1⟩ (by decide) (by decide)).mpr ?_
  have inner : (childrenCalls basicUtf8proc .row (stackTurn basicUtf8proc .row glyphAndRule.children ⟨5, 1⟩)
      ⟨0, 0, 5, 1⟩ ⟨5, 1⟩ glyphAndRule.children 0).length = 0 := by
    decide +kernel
  have placed : glyphAndRule.slots basicUtf8proc = [(0, 2), (2, 3)] := by decide +kernel
  refine forall_mem_cons.mpr ⟨?_, fun call held => ?_⟩
  · show glyphAndRule.Unwrapped basicUtf8proc
    refine ⟨fun axis _ k inside => ?_, fun k inside => ?_⟩
    · unfold Call.before
      rw [placed] at inside ⊢
      revert k
      decide
    · unfold Call.before
      rw [placed] at inside ⊢
      revert k
      decide
  · have none_ := length_eq_zero_iff.mp inner
    exact absurd (none_ ▸ held) not_mem_nil

/-- A letter in a column that is half of all columns. -/
def halfWide : Layout := .fixedWidth (2 ^ 63) (.text basicUtf8proc [0x61] {})

def threeHalves : Call where
  kind := .stack .row
  children := [halfWide, halfWide, halfWide]
  view := (Raster.blank 4 1).view
  size := ⟨4, 1⟩

/-- The third child starts where the first does. -/
theorem third_over_first : ¬Contained basicUtf8proc (.row threeHalves.children) (Raster.blank 4 1).view ⟨4, 1⟩
    (Raster.blank 4 1, GlyphTable.fresh.interns []) := by
  intro contained
  have placed : threeHalves.slots basicUtf8proc = [(0, 2 ^ 63), (2 ^ 63, 2 ^ 63), (0, 2 ^ 63)] := by decide +kernel
  have apart := (contained.placed threeHalves mem_cons_self).apart .row rfl
  rw [placed] at apart
  revert apart
  decide

end Nxt.Ui
