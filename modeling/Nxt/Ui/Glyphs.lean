import Nxt.Ui.Paint

/- The glyphs of a run, written one after the other from the run's column on. They stay within
   their line, and when the run starts at a glyph each one lands in its own column. -/
namespace Nxt.Ui
open Nxt.Lib List
variable {cs : Charset} {rows cols : Nat}
variable {obey : Bytes → Terminal cs rows cols → Terminal cs rows cols}

def glyphTexts (glyphs : GlyphTable) (gids : List GlyphId) : List Bytes :=
  gids.filterMap fun gid => (glyphs.get gid).filter fun text => !text.isEmpty

variable {glyphs : GlyphTable} {text : Bytes} {w : Nat}

theorem glyphTexts_empty {gid : GlyphId} (empty : glyphs.get gid = some [])
    (rest : List GlyphId) : glyphTexts glyphs (gid :: rest) = glyphTexts glyphs rest := by
  unfold glyphTexts
  rw [filterMap_cons, empty]
  rfl

theorem glyphTexts_cons {gid : GlyphId} (get : glyphs.get gid = some text) (some_ : text ≠ []) (rest : List GlyphId) :
    glyphTexts glyphs (gid :: rest) = text :: glyphTexts glyphs rest := by
  have kept : (some text).filter (fun text => !text.isEmpty) = some text := by
    cases text with
    | nil => exact absurd rfl some_
    | cons b more => rfl
  unfold glyphTexts
  rw [filterMap_cons, get, kept]

theorem writeTerminalText_plain (plain : ∀ b ∈ text, rejected b = false) (w : Bytes) :
    writeTerminalText w text = .ok (w ++ text) := by
  unfold writeTerminalText
  induction text generalizing w with
  | nil => rw [append_nil]; rfl
  | cons b rest ih =>
    rw [foldlM_cons, if_neg (by simp [plain b mem_cons_self])]
    show rest.foldlM _ (w ++ [b]) = _
    rw [ih (fun c inside => plain c (mem_cons_of_mem _ inside)), append_assoc]
    rfl

theorem drawn_plain (drawn : cs.width text = some w) : ∀ b ∈ text, rejected b = false := by
  intro b inside
  have low := (cs.printable drawn b inside).1
  unfold rejected
  split
  all_goals first
    | exact absurd low (by decide)
    | rfl

theorem writeGlyphs_written {start : Terminal cs rows cols} {gids : List GlyphId}
    (known : ∀ gid ∈ gids, glyphs.get gid = some [] ∨ ∃ text w, glyphs.get gid = some text ∧ cs.width text = some w)
    {w : Bytes} {t : Terminal cs rows cols} (written : Written obey start w t) :
    ∃ w', gids.foldlM (writeGlyph glyphs) w = .ok w' ∧
      Written obey start w' ((glyphTexts glyphs gids).foldl (Terminal.print obey) t) := by
  induction gids generalizing w t with
  | nil => exact ⟨w, rfl, written⟩
  | cons gid rest ih =>
    have later := fun {w : Bytes} {t : Terminal cs rows cols} (written : Written obey start w t) =>
      ih (fun other inside => known other (mem_cons_of_mem _ inside)) written
    rw [foldlM_cons]
    rcases known gid mem_cons_self with empty | ⟨text, width, get, drawn⟩
    · rw [glyphTexts_empty empty]
      have step : writeGlyph glyphs w gid = .ok w := by
        unfold writeGlyph
        rw [empty]
        rfl
      rw [step]
      exact later written
    · rw [glyphTexts_cons get (width_ne_nil drawn)]
      have step : writeGlyph glyphs w gid = .ok (w ++ text) := by
        unfold writeGlyph
        rw [get]
        exact writeTerminalText_plain (drawn_plain drawn) w
      rw [step]
      exact later (written.text drawn)

theorem Terminal.print_place (t : Terminal cs rows cols)
    (drawn : cs.width text = some w) (fits : t.cursor.x + w ≤ cols) : t.print obey text = t.place drawn fits := by
  unfold Terminal.print
  split
  · next none => rw [drawn] at none; cases none
  · next v width =>
    rw [drawn] at width
    cases width
    rw [dif_pos fits]

/-- Only line `y` changed, and the first cells of glyphs left of column `z` still are such cells. -/
structure Kept (y z : Nat) (t t' : Terminal cs rows cols) : Prop where
  pen : t'.pen = t.pen
  saved : t'.saved = t.saved
  lines : ∀ other, other ≠ y → t'.line other = t.line other
  firsts : ∀ x < z, (t.cell y x).part = 0 → (t'.cell y x).part = 0

theorem Kept.refl (y z : Nat) (t : Terminal cs rows cols) : Kept y z t t :=
  ⟨rfl, rfl, (fun _ _ => rfl), (fun _ _ first => first)⟩

theorem Kept.trans {y z v : Nat} {t t' t'' : Terminal cs rows cols} (first : Kept y z t t')
    (second : Kept y v t' t'') (further : z ≤ v) : Kept y z t t'' where
  pen := second.pen.trans first.pen
  saved := second.saved.trans first.saved
  lines other apart := (second.lines other apart).trans (first.lines other apart)
  firsts x left_ part := second.firsts x (left_.trans_le further) (first.firsts x left_ part)

section
variable (t : Terminal cs rows cols) (drawn : cs.width text = some w) (fits : t.cursor.x + w ≤ cols)
include t drawn fits

theorem place_line : (t.place drawn fits).line t.cursor.y = (t.line t.cursor.y).put t.cursor.x t.pen drawn fits :=
  if_pos rfl

theorem place_kept : Kept t.cursor.y t.cursor.x t (t.place drawn fits) where
  pen := rfl
  saved := rfl
  lines _ apart := if_neg apart
  firsts x left_ part := by
    unfold Terminal.cell
    rw [place_line]
    show ((t.line t.cursor.y).putCell t.cursor.x w text t.pen x).part = 0
    have outside : ¬(t.cursor.x ≤ x ∧ x < t.cursor.x + w) := by omega
    cases half : (t.line t.cursor.y).overlapped t.cursor.x w x with
    | true => rw [Line.putCell_erased _ text t.pen outside half]; rfl
    | false => rw [Line.putCell_kept _ text t.pen outside half]; exact part

theorem place_first : ((t.place drawn fits).cell t.cursor.y t.cursor.x).part = 0 := by
  have positive := cs.positive drawn
  unfold Terminal.cell
  rw [place_line]
  show ((t.line t.cursor.y).putCell t.cursor.x w text t.pen t.cursor.x).part = 0
  rw [Line.putCell_inside _ text t.pen le_rfl (by omega)]
  exact Nat.sub_self _

end

section Cells
variable {glyphs : GlyphTable} {row : List Cell}

/-- The glyph ids of `len` columns from `p` on. -/
def span (row : List Cell) (p len : Nat) : List GlyphId := ((row.drop p).take len).map (·.glyph)

variable {p len : Nat} {cell : Cell} {t : Terminal cs rows cols}

theorem span_succ (at_ : row[p]? = some cell) : span row p (len + 1) = cell.glyph :: span row (p + 1) len := by
  obtain ⟨inside, rfl⟩ := List.getElem?_eq_some_iff.mp at_
  unfold span
  rw [drop_eq_getElem_cons inside]
  rfl

def painted (obey : Bytes → Terminal cs rows cols → Terminal cs rows cols) (glyphs : GlyphTable)
    (row : List Cell) (p len : Nat) (t : Terminal cs rows cols) : Terminal cs rows cols :=
  (glyphTexts glyphs (span row p len)).foldl (Terminal.print obey) t

theorem painted_empty (at_ : row[p]? = some cell) (empty : glyphs.get cell.glyph = some []) :
    painted obey glyphs row p (len + 1) t = painted obey glyphs row (p + 1) len t := by
  unfold painted
  rw [span_succ at_, glyphTexts_empty empty]

theorem painted_glyph {w : Nat} {text : Bytes} (at_ : row[p]? = some cell) (get : glyphs.get cell.glyph = some text)
    (drawn : cs.width text = some w) (fits : t.cursor.x + w ≤ cols) : painted obey glyphs row p (len + 1) t =
      painted obey glyphs row (p + 1) len (t.place drawn fits) := by
  unfold painted
  rw [span_succ at_, glyphTexts_cons get (width_ne_nil drawn), foldl_cons, Terminal.print_place]

variable (covered : Covered cs glyphs row) (whole : Whole cs glyphs row) (within : row.length ≤ cols)
include covered whole within

theorem painted_kept (inside : p + len ≤ row.length)
    (behind : ∀ a v, p ≤ a → Leads cs glyphs row a v → t.cursor.x ≤ a) :
    Kept t.cursor.y t.cursor.x t (painted obey glyphs row p len t) := by
  induction len generalizing p t with
  | zero => exact Kept.refl _ _ t
  | succ len ih =>
    rcases covered p (by omega) with ⟨w, leads⟩ | ⟨⟨cell, at_, empty⟩, _⟩
    · have fits : t.cursor.x + w ≤ cols := by
        have at_glyph := behind p w le_rfl leads
        have end_ := whole.fits leads
        omega
      obtain ⟨cell, text, at_, get, drawn⟩ := id leads
      rw [painted_glyph at_ get drawn fits]
      refine (place_kept t drawn fits).trans (ih (p := p + 1) (t := t.place drawn fits) (by omega) ?_) ?_
      · intro a v from_ other
        have at_glyph := behind p w le_rfl leads
        have apart := whole.apart leads other (by omega)
        show t.cursor.x + w ≤ a
        omega
      · show t.cursor.x ≤ t.cursor.x + w
        omega
    · rw [painted_empty at_ empty]
      exact ih (by omega) fun a v from_ => behind a v (by omega)

/-- A run that starts inside a glyph writes its next glyph too far to the left. -/
theorem painted_first {b : Nat} (inside : p + len ≤ row.length)
    (behind : ∀ a v, p ≤ a → Leads cs glyphs row a v → t.cursor.x ≤ a) {v : Nat} (other : Leads cs glyphs row b v)
    (from_ : p ≤ b) (to_ : b < p + len) : ((painted obey glyphs row p len t).cell t.cursor.y t.cursor.x).part = 0 := by
  induction len generalizing p t with
  | zero => omega
  | succ len ih =>
    rcases covered p (by omega) with ⟨w, leads⟩ | ⟨⟨cell, at_, empty⟩, _⟩
    · have at_glyph := behind p w le_rfl leads
      have fits : t.cursor.x + w ≤ cols := by
        have end_ := whole.fits leads
        omega
      obtain ⟨cell, text, at_, get, drawn⟩ := id leads
      have positive := cs.positive drawn
      rw [painted_glyph at_ get drawn fits]
      have rest : Kept t.cursor.y (t.cursor.x + w) (t.place drawn fits)
          (painted obey glyphs row (p + 1) len (t.place drawn fits)) := by
        refine painted_kept covered whole within (p := p + 1) (t := t.place drawn fits) (by omega) ?_
        intro a v after next
        have apart := whole.apart leads next (by omega)
        show t.cursor.x + w ≤ a
        omega
      exact rest.firsts t.cursor.x (by show t.cursor.x < t.cursor.x + w; omega)
        (place_first t drawn fits)
    · have further : p + 1 ≤ b := by
        by_contra same
        have here : b = p := by omega
        subst here
        exact other.not_empty at_ empty
      rw [painted_empty at_ empty]
      exact ih (by omega) (fun a v after => behind a v (by omega)) further (by omega)

theorem painted_progress {changed : Nat → Prop} {wanted : Nat → Pen → Prop} (inside : p + len ≤ row.length)
    (ready : p ≤ t.cursor.x) (none : ∀ a v, p ≤ a → a < t.cursor.x → ¬Leads cs glyphs row a v)
    (next : t.cursor.x < row.length → ∃ v, Leads cs glyphs row t.cursor.x v)
    (wants : ∀ a v, p ≤ a → a < p + len → Leads cs glyphs row a v → ∀ j < v, wanted (a + j) t.pen)
    (progress : Progress glyphs row changed wanted (t.line t.cursor.y) p) :
    Progress glyphs row changed wanted ((painted obey glyphs row p len t).line t.cursor.y) (p + len) := by
  induction len generalizing p t with
  | zero => exact progress
  | succ len ih =>
    rw [show p + (len + 1) = p + 1 + len by omega]
    rcases covered p (by omega) with ⟨w, leads⟩ | ⟨⟨cell, at_, empty⟩, _⟩
    · have here : t.cursor.x = p := by
        by_contra differ
        exact none p w le_rfl (by omega) leads
      have end_ := whole.fits leads
      have fits : t.cursor.x + w ≤ cols := by omega
      obtain ⟨cell, text, at_, get, drawn⟩ := id leads
      have positive := cs.positive drawn
      rw [painted_glyph at_ get drawn fits]
      refine ih (by omega) (t := t.place drawn fits) ?_ ?_ ?_ ?_ ?_
      · show p + 1 ≤ t.cursor.x + w
        omega
      · intro a v after before other
        have apart := whole.apart leads other (by omega)
        have cursor : a < t.cursor.x + w := before
        omega
      · intro more
        show ∃ v, Leads cs glyphs row (t.cursor.x + w) v
        rw [here]
        exact covered.next whole leads (by rw [← here]; exact more)
      · intro a v after before other
        exact wants a v (by omega) (by omega) other
      · show Progress glyphs row changed wanted ((t.place drawn fits).line t.cursor.y) (p + 1)
        have pens := wants p w le_rfl (by omega) leads
        rw [place_line]
        subst here
        exact progress.draw covered whole within at_ get drawn fits pens
    · have before : p < t.cursor.x := by
        by_contra not_before
        have here : t.cursor.x = p := by omega
        obtain ⟨v, leads⟩ := next (by omega)
        rw [here] at leads
        exact leads.not_empty at_ empty
      rw [painted_empty at_ empty]
      refine ih (by omega) before (fun a v after => none a v (by omega)) next
        (fun a v after before => wants a v (by omega) (by omega)) (progress.skip ?_)
      intro a from_ to_ w leads
      have here : a = p := by omega
      subst here
      exact absurd empty (leads.not_empty at_)

end Cells
end Nxt.Ui
