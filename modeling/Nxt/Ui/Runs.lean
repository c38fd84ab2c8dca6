import Nxt.Ui.Rows

/- All the runs of a row. Only their line changes, left of the first run no glyph starts to be
   continued, and unless a run starts inside a glyph and goes on past it, every column ends up as
   the row wants it. -/
namespace Nxt.Ui
open Nxt.Lib
variable {cs : Charset} {rows cols : Nat}
variable {obey : Bytes → Terminal cs rows cols → Terminal cs rows cols}

/-- The colour that stands for a cell's colour on a terminal, as `render_raster` has it. -/
def shownColor (c : Rgba8) : Color :=
  if c.isTerminalDefault || c.isTransparent then .default else emittedColor c

def shownPen (cell : Cell) : Pen := { fg := shownColor cell.fg, bg := shownColor cell.bg, em := cell.em }

/-- A changed run that starts at the continuation cell `s` and holds the glyph of column `e`. -/
structure TornAt (glyphs : GlyphTable) (f b : List Cell) (s e : Nat) : Prop where
  first : 0 < s
  order : s < e
  inside : e < b.length
  before : ¬Changed f b (s - 1)
  continuation : ∃ c, b[s]? = some c ∧ glyphs.get c.glyph = some []
  changed : ∀ x, s ≤ x → x ≤ e → Changed f b x
  style : ∀ x, s ≤ x → x ≤ e → ∀ c d, b[s]? = some c → b[x]? = some d → SameStyle c d
  glyph : ∃ d, b[e]? = some d ∧ glyphs.get d.glyph ≠ some []

section Rows
variable (cs) (glyphs : GlyphTable) (f b : List Cell)

/-- Column `x` is under a glyph that changed. -/
def Under (x : Nat) : Prop := ∃ a w, a ≤ x ∧ x < a + w ∧ Leads cs glyphs b a w ∧ Changed f b a

def Wanted (x : Nat) (pen : Pen) : Prop := ∀ cell, b[x]? = some cell →
  (Under cs glyphs f b x → pen = drawnPen cell) ∧ (¬Under cs glyphs f b x → pen = shownPen cell)

end Rows

theorem Whole.style {glyphs : GlyphTable} {row : List Cell} (whole : Whole cs glyphs row) {a w x : Nat}
    (leads : Leads cs glyphs row a w) (low : a ≤ x) (high : x < a + w) {c d : Cell}
    (first : row[a]? = some c) (here : row[x]? = some d) : SameStyle c d := by
  by_cases same : x = a
  · subst same
    rw [first] at here
    cases here
    exact ⟨rfl, rfl, rfl⟩
  · obtain ⟨next, at_, _, fg, bg, em⟩ := whole a w leads c first (x - a) (by omega) (by omega)
    rw [Nat.add_sub_cancel' low, here] at at_
    cases at_
    exact ⟨fg.symm, bg.symm, em.symm⟩

theorem painted_none {glyphs : GlyphTable} {row : List Cell} (covered : Covered cs glyphs row) {len p : Nat}
    (inside : p + len ≤ row.length) (none : ∀ a v, p ≤ a → a < p + len → ¬Leads cs glyphs row a v)
    (t : Terminal cs rows cols) : painted obey glyphs row p len t = t := by
  induction len generalizing p with
  | zero => rfl
  | succ len ih =>
    rcases covered p (by omega) with ⟨w, leads⟩ | ⟨⟨cell, at_, empty⟩, _⟩
    · exact absurd leads (none p w le_rfl (by omega))
    · rw [painted_empty at_ empty]
      exact ih (by omega) fun a v low high => none a v (by omega) (by omega)

/-- What the runs from column `k` on do to the line of their row. -/
structure RowDone (glyphs : GlyphTable) (f b : List Cell) (y k : Nat) (t t' : Terminal cs rows cols) :
    Prop where
  saved : t'.saved = t.saved
  lines : ∀ other, other ≠ y → t'.line other = t.line other
  firsts : ∀ x < k, (t.cell y x).part = 0 → (t'.cell y x).part = 0
  torn : ∀ s e, k ≤ s → TornAt glyphs f b s e → (t'.cell y s).part = 0
  progress : (∀ s e, ¬TornAt glyphs f b s e) →
    Progress glyphs b (Changed f b) (Wanted cs glyphs f b) (t.line y) k →
    Progress glyphs b (Changed f b) (Wanted cs glyphs f b) (t'.line y) b.length

section Runs
variable {glyphs : GlyphTable} {f b : List Cell} (same : f.length = b.length)
variable (covered : Covered cs glyphs b) (whole : Whole cs glyphs b) (within : b.length ≤ cols)
include same covered whole within

theorem run_progress {k len : Nat} (some_ : 0 < len) (inside : k + len ≤ b.length)
    (linked : ∀ x, k ≤ x → x + 1 < k + len → Linked sameRun (pairs f b) x)
    (cut : k = 0 ∨ b.length ≤ k ∨ ¬Linked sameRun (pairs f b) (k - 1)) {d : Cell}
    (first : b[k]? = some d) (change : Changed f b k) (whole_runs : ∀ s e, ¬TornAt glyphs f b s e)
    {t : Terminal cs rows cols} {y : Nat}
    (progress : Progress glyphs b (Changed f b) (Wanted cs glyphs f b) (t.line y) k) :
    Progress glyphs b (Changed f b) (Wanted cs glyphs f b)
      ((painted obey glyphs b k len { t with cursor := ⟨k, y⟩, pen := drawnPen d }).line y) (k + len) := by
  have uniform := fun {j : Nat} (small : j < len) {e : Cell} (here : b[k + j]? = some e) =>
    run_uniform same inside linked small first here
  by_cases none : ∀ a v, k ≤ a → a < k + len → ¬Leads cs glyphs b a v
  · rw [painted_none covered inside none]
    exact progress.skip fun a low high v leads => absurd leads (none a v low high)
  · push Not at none
    obtain ⟨e, v, low, high, leads⟩ := none
    have lead : ∃ v, Leads cs glyphs b k v := by
      rcases covered k (by omega) with lead | ⟨empty, a, w, before, under, other⟩
      · exact lead
      · -- otherwise the run would be torn
        exfalso
        have later : k < e := by
          by_contra not_later
          have here : e = k := by omega
          subst here
          obtain ⟨c, at_, none⟩ := empty
          exact leads.not_empty at_ none
        refine whole_runs k e ⟨by omega, later, leads.inside, ?_, empty, ?_, ?_, ?_⟩
        · intro change_before
          rcases cut with zero | end_ | apart
          · omega
          · omega
          · obtain ⟨c0, lead_at⟩ := row_at other.inside
            obtain ⟨c, before_at⟩ := row_at (b := b) (x := k - 1) (by omega)
            have here : b[k - 1 + 1]? = some d := by rw [Nat.sub_add_cancel (by omega)]; exact first
            refine apart ((linked_iff same (by omega) before_at here).mpr ⟨?_, ?_⟩)
            · rw [Nat.sub_add_cancel (by omega)]
              exact iff_of_true change_before change
            · obtain ⟨fg, bg, em⟩ := whole.style other (by omega) (by omega) lead_at before_at
              obtain ⟨fg', bg', em'⟩ := whole.style other (by omega) (by omega) lead_at first
              exact ⟨fg.symm.trans fg', bg.symm.trans bg', em.symm.trans em'⟩
        · intro x from_ to_
          obtain ⟨c, at_⟩ := row_at (b := b) (x := k + (x - k)) (by omega)
          have iff := (uniform (by omega) at_).1
          rw [Nat.add_sub_cancel' from_] at iff
          exact iff.mp change
        · intro x from_ to_ c c' at_ at'
          rw [first] at at_
          cases at_
          exact (uniform (j := x - k) (by omega) (by rw [Nat.add_sub_cancel' from_]; exact at')).2
        · obtain ⟨c, at_⟩ := row_at leads.inside
          exact ⟨c, at_, leads.not_empty at_⟩
    refine painted_progress covered whole within (t := { t with cursor := ⟨k, y⟩, pen := drawnPen d })
      inside le_rfl ?_ (fun _ => lead) ?_ progress
    · intro a v low high
      have before : a < k := high
      omega
    · intro a v low high other j small cell at_
      obtain ⟨c, lead_at⟩ := row_at other.inside
      have in_run := @uniform (a - k) (by omega) c (by rw [Nat.add_sub_cancel' low]; exact lead_at)
      have a_change : Changed f b a := by
        have iff := in_run.1
        rw [Nat.add_sub_cancel' low] at iff
        exact iff.mp change
      constructor
      · intro _
        obtain ⟨fg, bg, em⟩ := in_run.2
        obtain ⟨fg', bg', em'⟩ := whole.style other (Nat.le_add_right a j) (by omega) lead_at at_
        show drawnPen d = drawnPen cell
        unfold drawnPen
        rw [fg, bg, em, fg', bg', em']
      · intro not_under
        exact absurd ⟨a, v, Nat.le_add_right a j, by omega, other, a_change⟩ not_under

theorem row_runs {back : Raster} {y rowOffset : Nat} (row : back.rows[y]? = some b)
    (visible : 0 < b.length → y + rowOffset < rows) {pieces : List (List (IndexedCell × IndexedCell))} {k : Nat}
    (cuts : Cuts sameRun (pairs f b) k pieces) (cut : k = 0 ∨ b.length ≤ k ∨ ¬Linked sameRun (pairs f b) (k - 1))
    {start t : Terminal cs rows cols} {s : Emission} {style : StyleState}
    (written : Written obey start s.w t) (tracks : Tracks s style t) :
    ∃ style' s' t', (pieces.filterMap (chunkChange y back)).foldlM (diffStep (emitRun glyphs rowOffset))
        (style, s) = .ok (style', s') ∧ Written obey start s'.w t' ∧ Tracks s' style' t' ∧
      RowDone glyphs f b (y + rowOffset) k t t' := by
  induction pieces generalizing k s style t with
  | nil =>
    have end_ : k = b.length := cuts.trans (pairs_length same)
    refine ⟨style, s, t, rfl, written, tracks, rfl, (fun _ _ => rfl), (fun _ _ first => first), ?_, ?_⟩
    · intro s e from_ torn
      have inside := torn.inside
      have order := torn.order
      omega
    · rw [end_]
      exact fun _ progress => progress
  | cons g rest ih =>
    obtain ⟨some_, inside, shape, linked, apart, later⟩ := cuts
    rw [pairs_length same] at inside apart
    have len_pos := List.length_pos_iff.mpr some_
    obtain ⟨d, first⟩ := row_at (b := b) (x := k) (by omega)
    obtain ⟨c, front⟩ := row_at (b := f) (x := k) (by omega)
    have report := chunkChange_run row front first len_pos (by rw [pairs_length same]; exact inside)
    rw [← shape] at report
    have uniform := fun {j : Nat} (small : j < g.length) {e : Cell} (here : b[k + j]? = some e) =>
      run_uniform same inside linked small first here
    have next_cut : k + g.length = 0 ∨ b.length ≤ k + g.length ∨
        ¬Linked sameRun (pairs f b) (k + g.length - 1) := by
      by_cases more : k + g.length < b.length
      · exact .inr (.inr (apart more))
      · exact .inr (.inl (by omega))
    by_cases change : Changed f b k
    · rw [if_pos ((isChanged_iff front first).mpr change)] at report
      obtain ⟨style1, s1, step, written1, tracks1⟩ := run_written covered whole within inside len_pos
        (d := d) (visible (by omega)) written tracks
      obtain ⟨style', s', t', rest_ok, written', tracks', done⟩ := ih later next_cut written1 tracks1
      refine ⟨style', s', t', ?_, written', tracks', ?_⟩
      · rw [List.filterMap_cons, report, List.foldlM_cons, step]
        exact rest_ok
      have kept : Kept (y + rowOffset) k { t with cursor := ⟨k, y + rowOffset⟩, pen := drawnPen d }
          (painted obey glyphs b k g.length { t with cursor := ⟨k, y + rowOffset⟩, pen := drawnPen d }) :=
        painted_kept covered whole within
          (t := { t with cursor := ⟨k, y + rowOffset⟩, pen := drawnPen d }) inside
          fun a v from_ _ => from_
      refine ⟨done.saved.trans kept.saved, ?_, ?_, ?_, ?_⟩
      · exact fun other away => (done.lines other away).trans (kept.lines other away)
      · exact fun x left_ part => done.firsts x (by omega) (kept.firsts x left_ part)
      · intro s e from_ torn
        by_cases past : k + g.length ≤ s
        · exact done.torn s e past torn
        have at_start : s = k := by
          by_contra differ
          have before := torn.before
          obtain ⟨e1, at1⟩ := row_at (b := b) (x := k + (s - 1 - k)) (by omega)
          have iff := (uniform (by omega) at1).1
          rw [show k + (s - 1 - k) = s - 1 by omega] at iff
          exact before (iff.mp change)
        subst at_start
        have e_inside := torn.inside
        have order := torn.order
        have e_in_run : e < s + g.length := by
          by_contra beyond
          obtain ⟨e1, at1⟩ := row_at (b := b) (x := s + g.length - 1) (by omega)
          obtain ⟨e2, at2⟩ := row_at (b := b) (x := s + g.length - 1 + 1) (by omega)
          refine apart (by omega) ((linked_iff same (by omega) at1 at2).mpr ⟨?_, ?_⟩)
          · exact iff_of_true (torn.changed _ (by omega) (by omega)) (torn.changed _ (by omega) (by omega))
          · obtain ⟨fg, bg, em⟩ := torn.style _ (by omega) (by omega) _ _ first at1
            obtain ⟨fg', bg', em'⟩ := torn.style _ (by omega) (by omega) _ _ first at2
            exact ⟨fg.symm.trans fg', bg.symm.trans bg', em.symm.trans em'⟩
        obtain ⟨v, leads⟩ : ∃ v, Leads cs glyphs b e v := by
          rcases covered e e_inside with lead | ⟨⟨c', at_, empty⟩, _⟩
          · exact lead
          · obtain ⟨c'', at', glyph⟩ := torn.glyph
            rw [at_] at at'
            cases at'
            exact absurd empty glyph
        refine done.firsts s (by omega) ?_
        exact painted_first covered whole within inside
          (t := { t with cursor := ⟨s, y + rowOffset⟩, pen := drawnPen d }) (fun a v from_ _ => from_)
          leads order.le e_in_run
      · intro whole_runs progress
        exact done.progress whole_runs
          (run_progress same covered whole within len_pos inside linked cut first change whole_runs progress)
    · rw [if_neg (fun changed => change ((isChanged_iff front first).mp changed))] at report
      obtain ⟨style', s', t', rest_ok, written', tracks', done⟩ := ih later next_cut written tracks
      have unchanged : ∀ x, k ≤ x → x < k + g.length → ¬Changed f b x := by
        intro x low high
        obtain ⟨e1, at1⟩ := row_at (b := b) (x := k + (x - k)) (by omega)
        have iff := (uniform (by omega) at1).1
        rw [Nat.add_sub_cancel' low] at iff
        exact fun changed => change (iff.mpr changed)
      refine ⟨style', s', t', ?_, written', tracks', done.saved, done.lines, ?_, ?_, ?_⟩
      · rw [List.filterMap_cons, report]
        exact rest_ok
      · exact fun x left_ part => done.firsts x (by omega) part
      · intro s e from_ torn
        refine done.torn s e ?_ torn
        by_contra early
        exact unchanged s from_ (by omega) (torn.changed s le_rfl torn.order.le)
      · intro whole_runs progress
        exact done.progress whole_runs
          (progress.skip fun a low high v _ => unchanged a low high)

end Runs

/-- One byte a glyph: printable ASCII is narrow, what is above it takes two cells. -/
def byteWidth (b : UInt8) : Option Nat :=
  if 0x80 ≤ b then some 2 else if 0x20 ≤ b ∧ b < 0x7f then some 1 else none

def wideBytes : Charset where
  width text :=
    match text with
    | [b] => byteWidth b
    | _ => none
  segment text := text.map fun b => [b]
  positive := by
    intro text w drawn
    split at drawn
    · unfold byteWidth at drawn
      split_ifs at drawn
      all_goals
        cases drawn
        decide
    · cases drawn
  printable := by
    intro text w drawn b inside
    split at drawn
    · rw [List.mem_singleton.mp inside]
      unfold byteWidth at drawn
      split_ifs at drawn with high low
      · exact ⟨UInt8.le_trans (by decide) high, by rintro rfl; exact absurd high (by decide)⟩
      · exact ⟨low.1, by rintro rfl; exact absurd low.2 (by decide)⟩
    · cases drawn
  width_nil := rfl
  width_space := rfl
  segment_flatten := by
    intro texts drawn
    induction texts with
    | nil => rfl
    | cons text rest ih =>
      rw [List.flatten_cons, List.map_append, ih fun other inside => drawn other (List.mem_cons_of_mem _ inside)]
      have here := drawn text List.mem_cons_self
      split at here
      · rfl
      · cases here

/-- The empty text is interned first. -/
def emptyGlyph : GlyphTable where
  interned := [[]]
  nodup := by decide
  long := by decide

end Nxt.Ui
