import Nxt.Ui.Styles

/- One row of a raster against one line of the terminal. Drawing the changed glyphs from left to
   right leaves every column either as the row wants it or under a changed glyph still to come,
   also where a drawn glyph erased halves of what stood there. -/
namespace Nxt.Ui
open Nxt.Lib

section Rows
variable (cs : Charset) (glyphs : GlyphTable) (row : List Cell)

/-- The glyph at column `x` is drawn, in `w` cells. -/
def Leads (x w : Nat) : Prop :=
  ∃ cell text, row[x]? = some cell ∧ glyphs.get cell.glyph = some text ∧ cs.width text = some w

/-- Column `x` holds the empty glyph inside a drawn one. -/
def Continues (x : Nat) : Prop :=
  (∃ cell, row[x]? = some cell ∧ glyphs.get cell.glyph = some []) ∧
    ∃ a w, a < x ∧ x < a + w ∧ Leads cs glyphs row a w

/-- Every glyph that is drawn wide is followed by its continuation cells in its style. -/
def Whole : Prop := ∀ a w, Leads cs glyphs row a w → ∀ cell, row[a]? = some cell → ∀ j, 0 < j → j < w →
  ∃ next, row[a + j]? = some next ∧ glyphs.get next.glyph = some [] ∧
    next.fg = cell.fg ∧ next.bg = cell.bg ∧ next.em = cell.em

/-- Every glyph that is drawn wide is followed by its continuation cells, in whatever style. -/
def Followed : Prop := ∀ a w, Leads cs glyphs row a w → ∀ j, 0 < j → j < w →
  ∃ next, row[a + j]? = some next ∧ glyphs.get next.glyph = some []

/-- Every cell is a glyph that is drawn or continues one. -/
def Covered : Prop := ∀ x < row.length, (∃ w, Leads cs glyphs row x w) ∨ Continues cs glyphs row x

def ShowsGlyph (cell : Cell) (t : TermCell) : Prop :=
  ∃ text, glyphs.get cell.glyph = some text ∧
    ((text = [] ∧ t.part ≠ 0) ∨ (text ≠ [] ∧ t.part = 0 ∧ t.text = text))

end Rows

section Rows
variable {cs : Charset} {glyphs : GlyphTable} {row : List Cell} {x a b w v : Nat}

theorem width_ne_nil {text : Bytes} (drawn : cs.width text = some w) : text ≠ [] := by
  rintro rfl
  rw [cs.width_nil] at drawn
  cases drawn

theorem Leads.inside (leads : Leads cs glyphs row x w) : x < row.length := by
  obtain ⟨cell, _, at_, _⟩ := leads
  exact (List.getElem?_eq_some_iff.mp at_).1

theorem Leads.unique (first : Leads cs glyphs row x w) (second : Leads cs glyphs row x v) : w = v := by
  obtain ⟨cell, text, at_, get, width⟩ := first
  obtain ⟨cell', text', at', get', width'⟩ := second
  rw [at_] at at'
  cases at'
  rw [get] at get'
  cases get'
  exact Option.some.inj (width.symm.trans width')

theorem Leads.not_empty (leads : Leads cs glyphs row x w) {cell : Cell} (at_ : row[x]? = some cell) :
    glyphs.get cell.glyph ≠ some [] := by
  obtain ⟨other, text, here, get, width⟩ := leads
  rw [at_] at here
  cases here
  rw [get]
  intro empty
  exact width_ne_nil width (Option.some.inj empty)

theorem Followed.apart (followed : Followed cs glyphs row) (first : Leads cs glyphs row a w)
    (second : Leads cs glyphs row b v) (before : a < b) : a + w ≤ b := by
  by_contra overlap
  obtain ⟨next, next_at, empty⟩ := followed a w first (b - a) (by omega) (by omega)
  rw [Nat.add_sub_cancel' before.le] at next_at
  exact second.not_empty next_at empty

theorem Followed.fits (followed : Followed cs glyphs row) (leads : Leads cs glyphs row a w) : a + w ≤ row.length := by
  have inside := leads.inside
  obtain ⟨cell, text, at_, get, width⟩ := id leads
  have positive := cs.positive width
  by_cases one : w = 1
  · omega
  · obtain ⟨next, next_at, _⟩ := followed a w leads (w - 1) (by omega) (by omega)
    have last := (List.getElem?_eq_some_iff.mp next_at).1
    omega

theorem Followed.next (followed : Followed cs glyphs row) (covered : Covered cs glyphs row)
    (leads : Leads cs glyphs row a w) (more : a + w < row.length) : ∃ v, Leads cs glyphs row (a + w) v := by
  rcases covered (a + w) more with next | ⟨_, c, v, before, under, other⟩
  · exact next
  · rcases Nat.lt_trichotomy c a with earlier | rfl | later
    · have apart := followed.apart other leads earlier
      omega
    · have same := leads.unique other
      omega
    · have apart := followed.apart leads other later
      omega

theorem Whole.followed (whole : Whole cs glyphs row) : Followed cs glyphs row := by
  intro a w leads j positive small
  obtain ⟨cell, text, at_, get, drawn⟩ := id leads
  obtain ⟨next, next_at, empty, _⟩ := whole a w leads cell at_ j positive small
  exact ⟨next, next_at, empty⟩

theorem Whole.apart (whole : Whole cs glyphs row) (first : Leads cs glyphs row a w)
    (second : Leads cs glyphs row b v) (before : a < b) : a + w ≤ b := whole.followed.apart first second before

theorem Whole.fits (whole : Whole cs glyphs row) (leads : Leads cs glyphs row a w) : a + w ≤ row.length :=
  whole.followed.fits leads

theorem Covered.next (covered : Covered cs glyphs row) (whole : Whole cs glyphs row)
    (leads : Leads cs glyphs row a w) (more : a + w < row.length) : ∃ v, Leads cs glyphs row (a + w) v :=
  whole.followed.next covered leads more

end Rows

section Progress
variable {cs : Charset} {cols : Nat}
variable (glyphs : GlyphTable) (row : List Cell) (changed : Nat → Prop) (wanted : Nat → Pen → Prop)

/-- Column `x` shows what the row has there, in the pen wanted. -/
def Settled (line : Line cs cols) (x : Nat) : Prop :=
  ∀ cell, row[x]? = some cell → ShowsGlyph glyphs cell (line.cell x) ∧ wanted x (line.cell x).pen

/-- Column `x` is under a changed glyph that starts at column `k` or later. -/
def Pending (cs : Charset) (k x : Nat) : Prop :=
  ∃ a w, k ≤ a ∧ a ≤ x ∧ x < a + w ∧ Leads cs glyphs row a w ∧ changed a

def Progress (line : Line cs cols) (k : Nat) : Prop :=
  ∀ x < row.length, Settled glyphs row wanted line x ∨ Pending glyphs row changed cs k x

variable {glyphs row changed wanted} {line : Line cs cols} {k : Nat}

theorem Progress.skip (progress : Progress glyphs row changed wanted line k)
    {k' : Nat} (unchanged : ∀ a, k ≤ a → a < k' → ∀ w, Leads cs glyphs row a w → ¬changed a) :
    Progress glyphs row changed wanted line k' := by
  intro x inside
  rcases progress x inside with settled | ⟨a, w, from_, before, under, leads, change⟩
  · exact .inl settled
  · refine .inr ⟨a, w, ?_, before, under, leads, change⟩
    by_contra early
    exact unchanged a from_ (by omega) w leads change

theorem Settled.leads {x : Nat} (settled : Settled glyphs row wanted line x) (inside : x < row.length)
    (first : (line.cell x).part = 0) {w : Nat} (width : cs.width (line.cell x).text = some w) :
    Leads cs glyphs row x w := by
  have at_ : row[x]? = some row[x] := List.getElem?_eq_getElem inside
  obtain ⟨⟨text, get, shown⟩, _⟩ := settled _ at_
  rcases shown with ⟨_, later⟩ | ⟨_, _, same⟩
  · exact absurd first later
  · exact ⟨_, text, at_, get, same ▸ width⟩

theorem Settled.empty {x : Nat} (settled : Settled glyphs row wanted line x) (inside : x < row.length)
    (later : (line.cell x).part ≠ 0) : ∀ w, ¬Leads cs glyphs row x w := by
  have at_ : row[x]? = some row[x] := List.getElem?_eq_getElem inside
  obtain ⟨⟨text, get, shown⟩, _⟩ := settled _ at_
  rintro w leads
  rcases shown with ⟨rfl, _⟩ | ⟨_, first, _⟩
  · exact leads.not_empty at_ get
  · exact later first

theorem Progress.draw (covered : Covered cs glyphs row) (whole : Whole cs glyphs row)
    (within : row.length ≤ cols) (progress : Progress glyphs row changed wanted line k) {w : Nat}
    {cell : Cell} {text : Bytes} (at_ : row[k]? = some cell) (get : glyphs.get cell.glyph = some text)
    (drawn : cs.width text = some w) (fits : k + w ≤ cols) {pen : Pen} (wants : ∀ j < w, wanted (k + j) pen) :
    Progress glyphs row changed wanted (line.put k pen drawn fits) (k + 1) := by
  have leads : Leads cs glyphs row k w := ⟨cell, text, at_, get, drawn⟩
  intro x inside
  by_cases own : k ≤ x ∧ x < k + w
  · left
    intro other here
    show ShowsGlyph glyphs other (line.putCell k w text pen x) ∧ wanted x (line.putCell k w text pen x).pen
    rw [line.putCell_inside text pen own.1 own.2]
    constructor
    · by_cases first : x = k
      · subst first
        rw [at_] at here
        cases here
        exact ⟨text, get, .inr ⟨width_ne_nil drawn, Nat.sub_self x, rfl⟩⟩
      · obtain ⟨next, next_at, empty, _⟩ := whole k w leads cell at_ (x - k) (by omega) (by omega)
        rw [Nat.add_sub_cancel' own.1, here] at next_at
        cases next_at
        exact ⟨[], empty, .inl ⟨rfl, by show x - k ≠ 0; omega⟩⟩
    · have wants := wants (x - k) (by omega)
      rw [Nat.add_sub_cancel' own.1] at wants
      exact wants
  · have later : ∀ a v, k ≤ a → a ≤ x → x < a + v → Leads cs glyphs row a v → k + 1 ≤ a := by
      intro a v from_ before under other
      by_contra same
      have here : a = k := by omega
      subst here
      have width := leads.unique other
      omega
    rcases progress x inside with settled | ⟨a, v, from_, before, under, other, change⟩
    · cases half : line.overlapped k w x with
      | false =>
        left
        intro other here
        show ShowsGlyph glyphs other (line.putCell k w text pen x) ∧
          wanted x (line.putCell k w text pen x).pen
        rw [line.putCell_kept text pen own half]
        exact settled other here
      | true =>
        -- `x` is erased: the glyph over it reaches into the columns drawn
        right
        obtain ⟨v, width, part, before, _, parts⟩ := line.intact x (by omega)
        unfold Line.overlapped at half
        rw [width] at half
        simp only [Option.getD_some, Bool.and_eq_true, decide_eq_true_eq] at half
        obtain ⟨left_, right_⟩ := half
        have cell_at : ∀ j < v, line.cell (x - (line.cell x).part + j) = (line.cell x).atPart j := parts
        by_cases low : x < k
        · -- to the left all is settled, and no settled glyph reaches column `k`
          exfalso
          have start := cell_at 0 (by omega)
          rw [Nat.add_zero] at start
          have first_inside : x - (line.cell x).part < row.length := by omega
          rcases progress _ first_inside with first | ⟨a, _, from_, before', _⟩
          · have first_leads := first.leads first_inside (by rw [start]; rfl) (w := v)
              (by rw [start]; exact width)
            have apart := whole.apart first_leads leads (by omega)
            omega
          · omega
        · -- to the right `x` continues a glyph that has to be drawn as well
          have later_part : (line.cell x).part ≠ 0 := by omega
          have empty := settled.empty inside later_part
          rcases covered x inside with ⟨u, lead⟩ | ⟨_, a, u, before', under, other⟩
          · exact absurd lead (empty u)
          · have past : k + w ≤ a := by
              rcases Nat.lt_trichotomy a k with earlier | rfl | after
              · have apart := whole.apart other leads earlier
                omega
              · have same := leads.unique other
                omega
              · exact whole.apart leads other after
            have a_cell := cell_at (a - (x - (line.cell x).part)) (by omega)
            rw [Nat.add_sub_cancel' (by omega)] at a_cell
            have a_inside := other.inside
            rcases progress a a_inside with a_settled | ⟨c, u', from_, c_before, c_under, c_leads, change⟩
            · refine absurd other (a_settled.empty a_inside ?_ u)
              rw [a_cell]
              show a - (x - (line.cell x).part) ≠ 0
              omega
            · have same : c = a := by
                by_contra differ
                have apart := whole.apart c_leads other (by omega)
                omega
              subst same
              have positive := cs.positive drawn
              exact ⟨c, u, by omega, before'.le, under, other, change⟩
    · exact .inr ⟨a, v, later a v from_ before under other, before, under, other, change⟩

end Progress
end Nxt.Ui
