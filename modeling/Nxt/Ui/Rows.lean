import Nxt.Lib.Runs
import Nxt.Ui.Glyphs

/- The changed runs of one row, written from left to right. -/
namespace Nxt.Ui
open Nxt.Lib List
variable {cs : Charset} {rows cols : Nat}
variable {obey : Bytes → Terminal cs rows cols → Terminal cs rows cols}

def pairs (f b : List Cell) : List (IndexedCell × IndexedCell) :=
  (f.mapIdx fun x cell => { cell with col := x }).zip (b.mapIdx fun x cell => { cell with col := x })

section Pairs
variable {f b : List Cell}

def Changed (f b : List Cell) (x : Nat) : Prop := f[x]? ≠ b[x]?

def SameStyle (c d : Cell) : Prop := c.fg = d.fg ∧ c.bg = d.bg ∧ c.em = d.em

theorem pairs_length (same : f.length = b.length) : (pairs f b).length = b.length := by
  unfold pairs
  rw [length_zip, length_mapIdx, length_mapIdx, same, Nat.min_self]

variable {x : Nat} {c d e : Cell}

theorem pairs_getElem? (front : f[x]? = some c) (back : b[x]? = some d) :
    (pairs f b)[x]? = some ({ c with col := x }, { d with col := x }) := by
  unfold pairs
  rw [getElem?_zip_eq_some, getElem?_mapIdx, getElem?_mapIdx, front, back]
  exact ⟨rfl, rfl⟩

theorem row_at (inside : x < b.length) : ∃ d, b[x]? = some d :=
  ⟨_, getElem?_eq_getElem inside⟩

theorem isChanged_iff (front : f[x]? = some c) (back : b[x]? = some d) :
    isChanged ({ c with col := x }, { d with col := x }) = true ↔ Changed f b x := by
  unfold isChanged Changed
  rw [front, back, bne_iff_ne, ne_eq, ne_eq, Option.some_inj]

theorem linked_iff (same : f.length = b.length) (inside : x + 1 < b.length)
    (here : b[x]? = some d) (next : b[x + 1]? = some e) :
    Linked sameRun (pairs f b) x ↔ (Changed f b x ↔ Changed f b (x + 1)) ∧ SameStyle d e := by
  obtain ⟨c, front⟩ := row_at (b := f) (x := x) (by omega)
  obtain ⟨c', front'⟩ := row_at (b := f) (x := x + 1) (by omega)
  unfold Linked
  rw [pairs_getElem? front here, pairs_getElem? front' next, ← isChanged_iff front here,
    ← isChanged_iff front' next]
  unfold sameRun SameStyle
  constructor
  · rintro ⟨_, _, same_here, same_next, linked⟩
    cases same_here
    cases same_next
    simp only [Bool.and_eq_true, beq_iff_eq] at linked
    obtain ⟨⟨⟨change, fg⟩, bg⟩, em⟩ := linked
    exact ⟨by rw [change], fg, bg, em⟩
  · rintro ⟨change, fg, bg, em⟩
    refine ⟨_, _, rfl, rfl, ?_⟩
    simp only [Bool.and_eq_true, beq_iff_eq]
    exact ⟨⟨⟨Bool.eq_iff_iff.mpr change, fg⟩, bg⟩, em⟩

theorem run_uniform (same : f.length = b.length) {k len : Nat} (inside : k + len ≤ b.length)
    (within : ∀ x, k ≤ x → x + 1 < k + len → Linked sameRun (pairs f b) x) {j : Nat} (small : j < len)
    (first : b[k]? = some d) (here : b[k + j]? = some e) : (Changed f b k ↔ Changed f b (k + j)) ∧ SameStyle d e := by
  induction j generalizing e with
  | zero =>
    rw [Nat.add_zero] at here
    rw [first] at here
    cases here
    exact ⟨Iff.rfl, rfl, rfl, rfl⟩
  | succ j ih =>
    obtain ⟨e', before⟩ := row_at (b := b) (x := k + j) (by omega)
    obtain ⟨change, fg, bg, em⟩ := ih (by omega) before
    obtain ⟨step, fg', bg', em'⟩ :=
      (linked_iff same (by omega) before here).mp (within (k + j) (by omega) (by omega))
    exact ⟨change.trans step, fg.trans fg', bg.trans bg', em.trans em'⟩

end Pairs

def runChange (y k len : Nat) (b : List Cell) (d : Cell) : RawChange :=
  { origin := ⟨k, y⟩, glyphs := span b k len, fg := d.fg, bg := d.bg, em := d.em }

theorem chunkChange_run {back : Raster} {f b : List Cell} {y k len : Nat} (row : back.rows[y]? = some b)
    {c d : Cell} (front : f[k]? = some c) (at_ : b[k]? = some d) (some_ : 0 < len)
    (inside : k + len ≤ (pairs f b).length) :
    chunkChange y back (((pairs f b).drop k).take len) =
      if isChanged ({ c with col := k }, { d with col := k }) then some (runChange y k len b d)
      else none := by
  have head : (((pairs f b).drop k).take len).head? = some ({ c with col := k }, { d with col := k }) := by
    rw [head?_take, if_neg (by omega), head?_drop, pairs_getElem? front at_]
  unfold chunkChange
  rw [head]
  have length : (((pairs f b).drop k).take len).length = len := by
    rw [length_take, length_drop]
    omega
  simp only [length]
  unfold runChange Raster.glyphSpan span
  rw [row]
  rfl

def drawnPen (cell : Cell) : Pen := { fg := drawnColor cell.fg, bg := drawnColor cell.bg, em := cell.em }

section Emitting
variable {glyphs : GlyphTable} {start t : Terminal cs rows cols} {s : Emission} {style : StyleState}
variable {f b : List Cell}

theorem span_known (covered : Covered cs glyphs b) {k len : Nat} : ∀ gid ∈ span b k len, glyphs.get gid = some [] ∨
      ∃ text w, glyphs.get gid = some text ∧ cs.width text = some w := by
  intro gid inside
  unfold span at inside
  obtain ⟨cell, in_, rfl⟩ := mem_map.mp inside
  obtain ⟨x, at_⟩ := getElem?_of_mem (mem_of_mem_drop (mem_of_mem_take in_))
  rcases covered x (List.getElem?_eq_some_iff.mp at_).1 with ⟨w, other, text, here, get, drawn⟩ |
      ⟨⟨other, here, empty⟩, _⟩
  · rw [at_] at here
    cases here
    exact .inr ⟨text, w, get, drawn⟩
  · rw [at_] at here
    cases here
    exact .inl empty

theorem run_written (covered : Covered cs glyphs b) (whole : Whole cs glyphs b) (within : b.length ≤ cols)
    {y k len rowOffset : Nat} (inside : k + len ≤ b.length) (some_ : 0 < len) {d : Cell}
    (row : y + rowOffset < rows) (written : Written obey start s.w t) (tracks : Tracks s style t) :
    ∃ style' s', diffStep (emitRun glyphs rowOffset) (style, s) (runChange y k len b d) =
        .ok (style', s') ∧
      let t' := painted obey glyphs b k len { t with cursor := ⟨k, y + rowOffset⟩, pen := drawnPen d }
      Written obey start s'.w t' ∧ Tracks s' style' t' := by
  obtain ⟨styled, tracks'⟩ := styled_written written tracks (runChange y k len b d)
    row (by show k < cols; omega)
  have known := @span_known _ _ _ covered k len
  obtain ⟨w', glyphs_ok, glyphs_written⟩ := writeGlyphs_written known styled
  have pen : (painted obey glyphs b k len
      { t with cursor := ⟨k, y + rowOffset⟩, pen := drawnPen d }).pen = drawnPen d := by
    refine (painted_kept covered whole within inside ?_).pen
    intro a v from_ _
    exact from_
  refine ⟨(style.apply (runChange y k len b d)).2,
    { (s.styled (style.apply (runChange y k len b d)).1 rowOffset) with w := w' }, ?_, glyphs_written, ?_⟩
  · unfold diffStep emitRun
    have glyphs_of : (style.apply (runChange y k len b d)).1.glyphs = span b k len := rfl
    simp only [glyphs_of]
    rw [glyphs_ok]
    rfl
  · exact ⟨tracks'.fg, tracks'.bg, pen.trans tracks'.pen⟩

end Emitting
end Nxt.Ui
