import Nxt.Ui.Pieces

/- What the leaves of a layout draw: colours and spaces in their view, and spans of text whose clusters are whole. -/
namespace Nxt.Ui
open Nxt.Lib

section Tinting

theorem Raster.cell?_mapCells (raster : Raster) (v : View) (f : Cell → Cell) (y x : Nat) :
    (v.Has y x → (raster.mapCells v f).cell? y x = (raster.cell? y x).map f) ∧
      (¬v.Has y x → (raster.mapCells v f).cell? y x = raster.cell? y x) := by
  unfold cell? mapCells View.Has
  dsimp only
  rw [List.getElem?_mapIdx]
  cases raster.rows[y]? with
  | none => exact ⟨fun _ => rfl, fun _ => rfl⟩
  | some row =>
    simp only [Option.map_some, Option.bind_some]
    by_cases rows : v.y ≤ y ∧ y < v.y + v.rows
    · rw [if_pos rows, List.getElem?_mapIdx]
      refine ⟨fun has => ?_, fun out => ?_⟩
      · simp only [has.2.2, and_self, if_true]
      · have apart : ¬(v.x ≤ x ∧ x < v.x + v.cols) := fun columns => out ⟨rows.1, rows.2, columns⟩
        simp only [apart, if_false, Option.map_id']
    · rw [if_neg rows]
      exact ⟨fun has => absurd ⟨has.1, has.2.1⟩ rows, fun _ => rfl⟩

theorem Raster.text?_glyph {raster later : Raster} {y x : Nat}
    (same : (later.cell? y x).map Cell.glyph = (raster.cell? y x).map Cell.glyph) (table : GlyphTable) :
    later.text? table y x = raster.text? table y x := by
  have through : ∀ r : Raster, r.text? table y x = ((r.cell? y x).map Cell.glyph).bind table.get := by
    intro r
    unfold Raster.text?
    rw [Option.bind_map]
    rfl
  rw [through, through, same]

def View.line (v : View) (y : Nat) : View := Axis.column.strip v (min y v.rows) (min (y + 1) v.rows)

/-- Cells of a view may have other colours and another emphasis. -/
structure Tinted (v : View) (raster later : Raster) : Prop where
  width : later.width = raster.width
  height : later.height = raster.height
  outside : ∀ y x, ¬v.Has y x → later.cell? y x = raster.cell? y x
  glyphs : ∀ y x, (later.cell? y x).map Cell.glyph = (raster.cell? y x).map Cell.glyph

namespace Tinted
variable {v : View} {raster later last : Raster}

theorem refl (v : View) (raster : Raster) : Tinted v raster raster := ⟨rfl, rfl, fun _ _ _ => rfl, fun _ _ => rfl⟩

theorem trans (first : Tinted v raster later) (second : Tinted v later last) : Tinted v raster last where
  width := second.width.trans first.width
  height := second.height.trans first.height
  outside y x out := (second.outside y x out).trans (first.outside y x out)
  glyphs y x := (second.glyphs y x).trans (first.glyphs y x)

theorem foldl {step : Raster → Nat → Raster} (tints : ∀ raster x, Tinted v raster (step raster x)) (columns : List Nat)
    (raster : Raster) : Tinted v raster (columns.foldl step raster) := by
  induction columns generalizing raster with
  | nil => exact refl v raster
  | cons x rest ih => exact (tints raster x).trans (ih _)

theorem mapCells (v : View) {f : Cell → Cell} (keeps : ∀ cell, (f cell).glyph = cell.glyph) (raster : Raster) :
    Tinted v raster (raster.mapCells v f) where
  width := rfl
  height := rfl
  outside y x out := (raster.cell?_mapCells v f y x).2 out
  glyphs y x := by
    by_cases has : v.Has y x
    · rw [(raster.cell?_mapCells v f y x).1 has, Option.map_map]
      congr 1
      funext cell
      exact keeps cell
    · rw [(raster.cell?_mapCells v f y x).2 has]

theorem fillFgs (v : View) (color : Rgba8) (raster : Raster) : Tinted v raster (v.fillFgs color raster) := by
  unfold View.fillFgs
  refine mapCells v ?_ raster
  exact fun _ => rfl

theorem fillBgs (v : View) (color : Rgba8) (raster : Raster) : Tinted v raster (v.fillBgs color raster) := by
  unfold View.fillBgs
  refine mapCells v ?_ raster
  exact fun _ => rfl

theorem fillEms (v : View) (em : Emphasis) (raster : Raster) : Tinted v raster (v.fillEms em raster) := by
  unfold View.fillEms
  refine mapCells v ?_ raster
  exact fun _ => rfl

theorem when_ {condition : Prop} [Decidable condition] (tints : Tinted v raster later) :
    Tinted v raster (if condition then later else raster) := by
  split
  · exact tints
  · exact refl v raster

theorem fillStyle (v : View) (style : Style) (raster : Raster) : Tinted v raster (v.fillStyle style raster) := by
  unfold View.fillStyle
  exact ((when_ (fillFgs v style.fg raster)).trans (when_ (fillBgs v style.bg _))).trans (when_ (fillEms v style.em _))

theorem setCell (v : View) (x y : Nat) {f : Cell → Cell} (keeps : ∀ cell, (f cell).glyph = cell.glyph)
    (raster : Raster) : Tinted (v.line y) raster (v.setCell ⟨x, y⟩ f raster) := by
  unfold View.setCell
  split
  · exact refl _ raster
  · rename_i inside
    dsimp only at inside ⊢
    have here : (v.line y).Has (v.y + y) (v.x + x) := by
      unfold View.Has View.line
      dsimp only [Axis.strip]
      omega
    refine ⟨rfl, rfl, fun y' x' out => ?_, fun y' x' => ?_⟩
    · rw [Raster.cell?_setCell, if_neg]
      rintro ⟨rfl, rfl⟩
      exact out here
    · rw [Raster.cell?_setCell]
      split
      · rw [Option.map_map]
        congr 1
        funext cell
        exact keeps cell
      · rfl

theorem setStyle (v : View) (x y : Nat) (style : Style) (raster : Raster) :
    Tinted (v.line y) raster (v.setStyle ⟨x, y⟩ style raster) := by
  unfold View.setStyle
  refine ((when_ (setCell v x y ?_ _)).trans (when_ (setCell v x y ?_ _))).trans (when_ (setCell v x y ?_ _))
  · exact fun _ => rfl
  · exact fun _ => rfl
  · exact fun _ => rfl

section
variable (tinted : Tinted v raster later)
include tinted

theorem drawn (table : GlyphTable) : Redrawn v (raster, table) (later, table) :=
  ⟨tinted.width, tinted.height, tinted.outside, List.prefix_refl _, id⟩

theorem blank {part : View} (blank : part.Blank raster) : part.Blank later := by
  intro y x has
  rw [tinted.glyphs]
  exact blank y x has

theorem text? (table : GlyphTable) (y x : Nat) :
    later.text? table y x = raster.text? table y x := Raster.text?_glyph (tinted.glyphs y x) table

theorem closed {u : Utf8proc} {table : GlyphTable} {part : View}
    (closed : part.Closed u (raster, table)) : part.Closed u (later, table) := fun y top_ bottom_ =>
  (closed y top_ bottom_).keep fun x _ _ _ at_ => (tinted.text? table y x).trans at_

end

end Tinted

theorem fillGlyphs_drawn {v : View} {s : Raster × GlyphTable} (within : v.Within s.1) :
    Redrawn v s (v.fillGlyphs 32 s.1, s.2) ∧ v.Blank (v.fillGlyphs 32 s.1) := by
  have cells := s.1.cell?_mapCells v fun cell => { cell with glyph := 32 }
  refine ⟨⟨rfl, rfl, fun y x out => (cells y x).2 out, List.prefix_refl _, id⟩, ?_⟩
  intro y x has
  unfold View.Has at has
  unfold View.Within at within
  obtain ⟨cell, at_⟩ := Raster.cell?_inside (show y < s.1.height by omega) (show x < s.1.width by omega)
  unfold View.fillGlyphs
  rw [(cells y x).1 has, at_]
  rfl

theorem clearLine_drawn {v : View} (style : Style) {s : Raster × GlyphTable} (within : v.Within s.1) :
    Redrawn v s (clearLine v style s.1, s.2) ∧ v.Blank (clearLine v style s.1) := by
  obtain ⟨filled, spaces⟩ := fillGlyphs_drawn within
  have tinted := Tinted.fillStyle v style (v.fillGlyphs 32 s.1)
  exact ⟨filled.trans (tinted.drawn s.2), tinted.blank spaces⟩

end Tinting

section Failures
variable (u : Utf8proc)

def tooLong : String := "Glyph too long (max 255 bytes)"

theorem intern_fails (table : GlyphTable) (bytes : Bytes) : Fails (table.intern bytes) (· = tooLong) := by
  unfold GlyphTable.intern
  split
  · exact fails_ok _
  · split
    · exact fails_ok _
    · split
      · exact fails_error rfl
      · exact fails_ok _

theorem writeContinuations_fails (v : View) (y col n : Nat) (s : Raster × GlyphTable) :
    Fails (writeContinuations v y col n s) (· = tooLong) := by
  induction n with
  | zero => exact fails_ok _
  | succ n ih =>
    rw [writeContinuations]
    refine fails_bind ih fun later _ => ?_
    exact fails_bind (intern_fails later.2 []) fun _ _ => fails_ok _

theorem writeFrom_fails (v : View) (y : Nat) (text : Bytes) (i col : Nat) (s : Raster × GlyphTable) :
    Fails (writeFrom u v y text i col s) (· = tooLong) := by
  induction size : text.length - i using Nat.strongRecOn generalizing i col s with
  | _ size' ih =>
    rw [writeFrom]
    split
    · rename_i more
      have bounds := next_bounds u more.1
      dsimp only
      split
      · exact fails_ok _
      · refine fails_bind (intern_fails s.2 _) fun found _ => ?_
        refine fails_bind (writeContinuations_fails v y col _ _) fun later _ => ?_
        exact ih _ (by omega) _ _ _ rfl
    · exact fails_ok _

theorem writeText_fails (v : View) (pos : Pos) (text : Bytes) (s : Raster × GlyphTable) :
    Fails (writeText u v pos text s) (· = tooLong) := by
  unfold writeText
  split
  · exact fails_ok _
  · exact writeFrom_fails u v pos.y text 0 pos.x s

end Failures

section Spans
variable {u : Utf8proc} {v : View} {s : Raster × GlyphTable} {x y : Nat}

/-- What a span leaves: whole glyphs from its column up to the one that is returned, and the others of its row. -/
structure Spanned (u : Utf8proc) (v : View) (x y : Nat) (s : Raster × GlyphTable) (col : Nat)
    (later : Raster × GlyphTable) : Prop where
  least : x ≤ col
  room : x < col → y < v.rows ∧ col ≤ v.cols
  drawn : Redrawn (v.line y) s later
  kept : ∀ x', x' < v.x + x ∨ v.x + col ≤ x' →
    (later.1.cell? (v.y + y) x').map Cell.glyph = (s.1.cell? (v.y + y) x').map Cell.glyph
  piece : FormedPiece u later.2 later.1 (v.y + y) (v.x + x) (v.x + col)

theorem renderSpan_cases (within : v.Within s.1) (short : s.2.Short) (x y : Nat) (span : Span) :
    (∃ col later, renderSpan u v ⟨x, y⟩ span s = .ok (col, later) ∧ Spanned u v x y s col later) ∨
      renderSpan u v ⟨x, y⟩ span s = .error tooLong := by
  rcases @writeText_cases u v s.1 s.2 ⟨x, y⟩ span.text within short with
    ⟨-, col, raster, grown, wrote, left_, more, short'⟩ | ⟨-, e, failed⟩
  · refine .inl ⟨col, ((List.range' x (col - x)).foldl
      (fun raster x => v.setStyle ⟨x, y⟩ span.style raster) raster, grown), ?_, ?_⟩
    · unfold renderSpan
      rw [wrote]
      rfl
    · have least : x ≤ col := by
        have returned := left_.returned
        dsimp only at returned
        omega
      have room := left_.inside
      have written : Redrawn (v.line y) s (raster, grown) := by
        refine ⟨left_.wrote.width, left_.wrote.height, fun y' x' out => left_.wrote.outside y' x' ?_, more,
          fun _ => short'⟩
        unfold View.Has View.line at out
        dsimp only [Axis.strip] at out room ⊢
        omega
      have tinted : Tinted (v.line y) raster ((List.range' x (col - x)).foldl
          (fun raster x => v.setStyle ⟨x, y⟩ span.style raster) raster) :=
        .foldl (fun raster x => .setStyle v x y span.style raster) _ raster
      refine ⟨least, room, written.trans (tinted.drawn grown), fun x' out => ?_, ?_⟩
      · rw [tinted.glyphs, left_.wrote.outside _ x' (.inr out)]
      · have placed := FormedPiece.of_placed left_.placed (written_some v ⟨x, y⟩ span.text)
        rw [Nat.add_assoc, ← left_.returned] at placed
        exact placed.keep fun x' _ _ _ at_ => (tinted.text? grown _ x').trans at_
  · refine .inr ?_
    rw [writeText_fails u v ⟨x, y⟩ span.text s e failed] at failed
    unfold renderSpan
    rw [failed]
    rfl

/-- What a view looks like while spans are drawn in a row: whole up to a column, and spaces from there on. -/
structure Spanning (u : Utf8proc) (v : View) (x y : Nat) (s : Raster × GlyphTable) : Prop where
  room : x ≤ v.cols
  piece : y < v.rows → FormedPiece u s.2 s.1 (v.y + y) v.x (v.x + x)
  spaces : y < v.rows → ∀ x', v.x + x ≤ x' → x' < v.x + v.cols → (s.1.cell? (v.y + y) x').map Cell.glyph = some 32

theorem Spanning.start (blank : (v.line y).Blank s.1) : Spanning u v 0 y s where
  room := Nat.zero_le _
  piece _ := .nil
  spaces small x' from_ to_ := by
    refine blank _ x' ?_
    unfold View.Has View.line
    dsimp only [Axis.strip]
    omega

theorem Spanning.closed (spanning : Spanning u v x y s) : (v.line y).Closed u s := by
  intro y' top_ bottom_
  unfold View.line at top_ bottom_ ⊢
  dsimp only [Axis.strip] at top_ bottom_ ⊢
  have small : y < v.rows := by omega
  have here : y' = v.y + y := by omega
  subst here
  refine (spanning.piece small).append (.of_spaces fun x' from_ to_ => ?_) (by omega)
    (Nat.add_le_add_left spanning.room _)
  exact View.space_text? (spanning.spaces small x' from_ to_) s.2

theorem Spanning.next {col : Nat} {later : Raster × GlyphTable} (spanning : Spanning u v x y s)
    (spanned : Spanned u v x y s col later) : Spanning u v col y later where
  room := by
    by_cases some_ : x < col
    · exact (spanned.room some_).2
    · have stays := spanned.least
      have room := spanning.room
      omega
  piece small := by
    refine FormedPiece.append ((spanning.piece small).keep fun x' from_ to_ text at_ => ?_) spanned.piece (by omega)
      (Nat.add_le_add_left spanned.least _)
    refine Raster.text?_grown spanned.drawn.more ?_
    rw [Raster.text?_glyph (spanned.kept x' (.inl to_))]
    exact at_
  spaces small x' from_ to_ := by
    rw [spanned.kept x' (.inr from_)]
    have least := spanned.least
    exact spanning.spaces small x' (by omega) to_

theorem renderSpans_cases (within : v.Within s.1) (short : s.2.Short) (spans : List Span)
    (spanning : Spanning u v x y s) :
    (∃ later, renderSpans u v y spans x s = .ok later ∧ Redrawn (v.line y) s later ∧ (v.line y).Closed u later) ∨
      renderSpans u v y spans x s = .error tooLong := by
  induction spans generalizing x s with
  | nil => exact .inl ⟨s, rfl, .refl _ s, spanning.closed⟩
  | cons span rest ih =>
    rw [renderSpans]
    rcases @renderSpan_cases u v s within short x y span with ⟨col, later, done, spanned⟩ | failed
    · rw [done, ok_bind]
      rcases ih (spanned.drawn.within within) (spanned.drawn.short short) (spanning.next spanned) with
        ⟨last, finished, drawn, closed⟩ | failed
      · exact .inl ⟨last, finished, spanned.drawn.trans drawn, closed⟩
      · exact .inr failed
    · rw [failed]
      exact .inr rfl

end Spans

end Nxt.Ui
