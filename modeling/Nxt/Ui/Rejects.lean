import Nxt.Ui.Runs

/- When a frame throws: exactly when a changed cell's glyph holds one of the rejected bytes. -/
namespace Nxt.Ui
open Nxt.Lib List

theorem foldlM_error_iff {ε σ α : Type} {f : σ → α → Except ε σ} {bad : α → Prop}
    (step : ∀ s a, (∃ e, f s a = .error e) ↔ bad a) (l : List α) (s : σ) :
    (∃ e, l.foldlM f s = .error e) ↔ ∃ a ∈ l, bad a := by
  induction l generalizing s with
  | nil =>
    constructor
    · rintro ⟨e, never⟩
      cases never
    · rintro ⟨a, never, _⟩
      cases never
  | cons a rest ih =>
    rw [foldlM_cons]
    cases run : f s a with
    | error e =>
      have here : bad a := (step s a).mp ⟨e, run⟩
      exact iff_of_true ⟨e, rfl⟩ ⟨a, mem_cons_self, here⟩
    | ok s' =>
      have fine : ¬bad a := by
        intro here
        obtain ⟨e, failed⟩ := (step s a).mpr here
        rw [run] at failed
        cases failed
      show (∃ e, rest.foldlM f s' = .error e) ↔ _
      rw [ih s']
      constructor
      · rintro ⟨b, inside, here⟩
        exact ⟨b, mem_cons_of_mem _ inside, here⟩
      · rintro ⟨b, inside, here⟩
        rcases mem_cons.mp inside with rfl | tail
        · exact absurd here fine
        · exact ⟨b, tail, here⟩

def RejectedGlyph (glyphs : GlyphTable) (gid : GlyphId) : Prop :=
  ∃ text, glyphs.get gid = some text ∧ ∃ b ∈ text, rejected b = true

theorem writeTerminalText_error (text w : Bytes) :
    (∃ e, writeTerminalText w text = .error e) ↔ ∃ b ∈ text, rejected b = true := by
  refine foldlM_error_iff ?_ text w
  intro w b
  split
  · next bad => exact iff_of_true ⟨_, rfl⟩ bad
  · next fine => exact iff_of_false (by rintro ⟨e, never⟩; cases never) fine

theorem writeGlyph_error (glyphs : GlyphTable) (w : Bytes) (gid : GlyphId) :
    (∃ e, writeGlyph glyphs w gid = .error e) ↔ RejectedGlyph glyphs gid := by
  unfold writeGlyph RejectedGlyph
  cases glyphs.get gid with
  | none => exact iff_of_false (by rintro ⟨e, never⟩; cases never) (by rintro ⟨_, none, _⟩; cases none)
  | some text =>
    refine (writeTerminalText_error text w).trans ?_
    constructor
    · exact fun bad => ⟨text, rfl, bad⟩
    · rintro ⟨_, same, bad⟩
      cases same
      exact bad

theorem emitRun_error (glyphs : GlyphTable) (rowOffset : Nat) (p : StyleState × Emission) (raw : RawChange) :
    (∃ e, diffStep (emitRun glyphs rowOffset) p raw = .error e) ↔ ∃ gid ∈ raw.glyphs, RejectedGlyph glyphs gid := by
  rw [← foldlM_error_iff (writeGlyph_error glyphs) raw.glyphs
    (p.2.styled (p.1.apply raw).1 rowOffset).w]
  have unfolded : diffStep (emitRun glyphs rowOffset) p raw =
      (raw.glyphs.foldlM (writeGlyph glyphs) (p.2.styled (p.1.apply raw).1 rowOffset).w).bind
        fun w => .ok ((p.1.apply raw).2, { p.2.styled (p.1.apply raw).1 rowOffset with w }) := by
    unfold diffStep emitRun
    have glyphs_of : (p.1.apply raw).1.glyphs = raw.glyphs := rfl
    simp only [glyphs_of]
    cases raw.glyphs.foldlM (writeGlyph glyphs) (p.2.styled (p.1.apply raw).1 rowOffset).w <;> rfl
  rw [unfolded]
  cases raw.glyphs.foldlM (writeGlyph glyphs) (p.2.styled (p.1.apply raw).1 rowOffset).w with
  | error e => exact iff_of_true ⟨e, rfl⟩ ⟨e, rfl⟩
  | ok w => exact iff_of_false (by rintro ⟨e, no⟩; cases no) (by rintro ⟨e, no⟩; cases no)

section Cells
variable {front back : Raster}

def ChangedCell (front back : Raster) (y x : Nat) (cell : Cell) : Prop :=
  back.cell? y x = some cell ∧ front.cell? y x ≠ some cell

variable {raster : Raster} {y : Nat} {row : List Cell}

theorem Raster.row_cell {x : Nat} (at_ : raster.rows[y]? = some row) : raster.cell? y x = row[x]? := by
  unfold Raster.cell?
  rw [at_]
  rfl

theorem Raster.cell_row {x : Nat} {cell : Cell} (at_ : raster.cell? y x = some cell) :
    ∃ row, raster.rows[y]? = some row ∧ row[x]? = some cell := Option.bind_eq_some_iff.mp at_

theorem Raster.row_width (at_ : raster.rows[y]? = some row) :
    row.length = raster.width := raster.row_length row (mem_of_getElem? at_)

theorem Raster.row_some (inside : y < raster.height) : ∃ row, raster.rows[y]? = some row :=
  ⟨_, getElem?_eq_getElem (raster.rows_length.symm ▸ inside)⟩

theorem Raster.row_inside (at_ : raster.rows[y]? = some row) :
    y < raster.height := raster.rows_length ▸ (List.getElem?_eq_some_iff.mp at_).1

theorem zip_pairs {f b : List Cell} (front_at : front.rows[y]? = some f)
    (back_at : back.rows[y]? = some b) : (front.row y).zip (back.row y) = pairs f b := by
  unfold Raster.row pairs
  rw [front_at, back_at]
  rfl

theorem span_getElem? {b : List Cell} {k len j : Nat} (small : j < len) {cell : Cell}
    (at_ : b[k + j]? = some cell) : cell.glyph ∈ span b k len := by
  unfold span
  refine mem_map.mpr ⟨cell, mem_of_getElem? (i := j) ?_, rfl⟩
  rw [getElem?_take, if_pos small, getElem?_drop, at_]

theorem rawChanges_glyphs (width : front.width = back.width) (height : front.height = back.height)
    (bad : GlyphId → Prop) : (∃ raw ∈ rawChanges front back, ∃ gid ∈ raw.glyphs, bad gid) ↔
      ∃ y x cell, ChangedCell front back y x cell ∧ bad cell.glyph := by
  constructor
  · rintro ⟨raw, inside, gid, member, here⟩
    obtain ⟨y, low, raw_in⟩ := mem_flatMap.mp inside
    have y_inside := mem_range.mp low
    obtain ⟨f, front_at⟩ := Raster.row_some (height ▸ y_inside)
    obtain ⟨b, back_at⟩ := Raster.row_some y_inside
    have same : f.length = b.length := by
      rw [Raster.row_width front_at, Raster.row_width back_at, width]
    rw [zip_pairs front_at back_at] at raw_in
    obtain ⟨g, piece, report⟩ := mem_filterMap.mp raw_in
    obtain ⟨k, some_, within, shape, linked⟩ := (splitBy_cuts sameRun (pairs f b)).position piece
    have len_pos := length_pos_iff.mpr some_
    have inside_b := within
    rw [pairs_length same] at inside_b
    obtain ⟨d, first⟩ := row_at (b := b) (x := k) (by omega)
    obtain ⟨c, first_front⟩ := row_at (b := f) (x := k) (by omega)
    rw [shape, chunkChange_run back_at first_front first len_pos within] at report
    split at report
    · next change =>
      have change_first := (isChanged_iff first_front first).mp change
      cases report
      have member' : gid ∈ span b k g.length := member
      unfold span at member'
      obtain ⟨cell, in_, rfl⟩ := mem_map.mp member'
      obtain ⟨j, at_⟩ := getElem?_of_mem in_
      obtain ⟨small, _⟩ := List.getElem?_eq_some_iff.mp at_
      rw [length_take, length_drop] at small
      rw [getElem?_take, if_pos (by omega), getElem?_drop] at at_
      have changed := (run_uniform same inside_b linked (j := j) (by omega) first at_).1.mp change_first
      refine ⟨y, k + j, cell, ⟨?_, ?_⟩, here⟩
      · rw [Raster.row_cell back_at]
        exact at_
      · rw [Raster.row_cell front_at, ← at_]
        exact changed
    · cases report
  · rintro ⟨y, x, cell, ⟨at_, differ⟩, here⟩
    obtain ⟨b, back_at, b_at⟩ := Raster.cell_row at_
    have y_inside := Raster.row_inside back_at
    obtain ⟨f, front_at⟩ := Raster.row_some (height ▸ y_inside)
    have same : f.length = b.length := by
      rw [Raster.row_width front_at, Raster.row_width back_at, width]
    have x_inside := (List.getElem?_eq_some_iff.mp b_at).1
    obtain ⟨g, piece, k, ⟨some_, within, shape, linked⟩, low, high⟩ :=
      (splitBy_cuts sameRun (pairs f b)).containing (Nat.zero_le x) (by rw [pairs_length same]; exact x_inside)
    have inside_b := within
    rw [pairs_length same] at inside_b
    have len_pos := length_pos_iff.mpr some_
    obtain ⟨d, first⟩ := row_at (b := b) (x := k) (by omega)
    obtain ⟨c, first_front⟩ := row_at (b := f) (x := k) (by omega)
    have b_at' : b[k + (x - k)]? = some cell := by rw [Nat.add_sub_cancel' low]; exact b_at
    have iff := (run_uniform same inside_b linked (j := x - k) (by omega) first b_at').1
    rw [Nat.add_sub_cancel' low] at iff
    have changed : Changed f b x := by
      unfold Changed
      rw [b_at, ← Raster.row_cell front_at]
      exact differ
    have report := chunkChange_run back_at first_front first len_pos within
    rw [← shape, if_pos ((isChanged_iff first_front first).mpr (iff.mpr changed))] at report
    refine ⟨runChange y k g.length b d, ?_, cell.glyph, span_getElem? (j := x - k) (by omega) b_at', here⟩
    refine mem_flatMap.mpr ⟨y, mem_range.mpr y_inside, ?_⟩
    rw [zip_pairs front_at back_at]
    exact mem_filterMap.mpr ⟨g, piece, report⟩

end Cells

def Rejects (c : TerminalCompositor) : Prop :=
  ∃ y x cell, ChangedCell c.front c.back y x cell ∧ RejectedGlyph c.glyphs cell.glyph

theorem frame_error_iff {c : TerminalCompositor} (width : c.front.width = c.back.width)
    (height : c.front.height = c.back.height) : (∃ e, c.frame = .error e) ↔ Rejects c := by
  unfold Rejects
  rw [← rawChanges_glyphs width height,
    ← foldlM_error_iff (emitRun_error c.glyphs c.partition.chromeStart) (rawChanges c.front c.back)
      (({} : StyleState), { w := Writer.saveCursor [] })]
  unfold TerminalCompositor.frame diffRasters
  cases (rawChanges c.front c.back).foldlM (diffStep (emitRun c.glyphs c.partition.chromeStart))
    (({} : StyleState), { w := Writer.saveCursor [] }) with
  | error e => exact iff_of_true ⟨e, rfl⟩ ⟨e, rfl⟩
  | ok last => exact iff_of_false (by rintro ⟨e, no⟩; cases no) (by rintro ⟨e, no⟩; cases no)

end Nxt.Ui
