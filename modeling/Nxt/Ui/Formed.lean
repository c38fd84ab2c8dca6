import Nxt.Ui.Written

/- Rows of whole glyphs: each empty glyph lies behind a glyph that covers it, and each glyph has all
   its empty ones. Writing keeps this as long as it cuts no glyph that is there. -/
namespace Nxt.Ui
open Nxt.Lib List

section Rows
variable (u : Utf8proc) (table : GlyphTable) (raster : Raster) (y : Nat)

def LeadAt (x : Nat) (text : Bytes) : Prop := raster.text? table y x = some text ∧ text ≠ []

def EmptyAt (x : Nat) : Prop := raster.text? table y x = some []

instance (x : Nat) : Decidable (EmptyAt table raster y x) := inferInstanceAs (Decidable (_ = _))

structure FormedRow : Prop where
  known : ∀ x < raster.width, ∃ text, raster.text? table y x = some text
  covered : ∀ x, EmptyAt table raster y x → ∃ a text, a < x ∧ LeadAt table raster y a text ∧
    x < a + clusterWidth u text ∧ ∀ k, a < k → k < x → EmptyAt table raster y k
  whole : ∀ x text, LeadAt table raster y x text → x + clusterWidth u text ≤ raster.width ∧
    ∀ k, x < k → k < x + clusterWidth u text → EmptyAt table raster y k

/-- In a piece of a row each empty glyph lies behind a glyph of the piece that covers it, and each glyph has all its
    empty ones there. -/
structure FormedPiece (a b : Nat) : Prop where
  known : ∀ x, a ≤ x → x < b → ∃ text, raster.text? table y x = some text
  covered : ∀ x, a ≤ x → x < b → EmptyAt table raster y x → ∃ lead text, a ≤ lead ∧ lead < x ∧
    LeadAt table raster y lead text ∧ x < lead + clusterWidth u text ∧
      ∀ k, lead < k → k < x → EmptyAt table raster y k
  whole : ∀ x text, a ≤ x → x < b → LeadAt table raster y x text → x + clusterWidth u text ≤ b ∧
    ∀ k, x < k → k < x + clusterWidth u text → EmptyAt table raster y k

/-- The columns that the glyphs before a column take when they are drawn one after the other. -/
def drawnWidth : Nat → Nat
  | 0 => 0
  | x + 1 => drawnWidth x + match raster.text? table y x with
      | some text => if text = [] then 0 else clusterWidth u text
      | none => 0

/-- Every row is whole, and each glyph is drawn in its own column. -/
def Formed : Prop := ∀ y < raster.height, FormedRow u table raster y ∧
  ∀ x text, LeadAt table raster y x text → drawnWidth u table raster y x = x

end Rows

section Drawing
variable {u : Utf8proc} {table : GlyphTable} {raster : Raster} {y : Nat}

theorem LeadAt.not_empty {x : Nat} {text : Bytes} (lead : LeadAt table raster y x text) : ¬EmptyAt table raster y x := by
  intro empty
  exact lead.2 (Option.some.inj (lead.1.symm.trans empty))

theorem drawnWidth_empties {a n : Nat} (empties : ∀ k, a ≤ k → k < a + n → EmptyAt table raster y k) :
    drawnWidth u table raster y (a + n) = drawnWidth u table raster y a := by
  induction n with
  | zero => rfl
  | succ n ih =>
    have here : raster.text? table y (a + n) = some [] := empties (a + n) (by omega) (by omega)
    rw [← Nat.add_assoc, drawnWidth, ih fun k from_ to_ => empties k from_ (by omega), here]
    rfl

theorem FormedRow.drawn (formed : FormedRow u table raster y) {x : Nat} {text : Bytes}
    (lead : LeadAt table raster y x text) : drawnWidth u table raster y x = x := by
  induction x using Nat.strongRecOn generalizing text with
  | _ x ih =>
    cases x with
    | zero => rfl
    | succ x =>
      -- the glyph before this one starts here or covers the cell before
      have wide := (formed.whole (x + 1) text lead).1
      have positive := clusterWidth_pos u text
      obtain ⟨before, at_⟩ := formed.known x (by omega)
      have start : ∃ a text', a ≤ x ∧ LeadAt table raster y a text' ∧ x < a + clusterWidth u text' := by
        by_cases empty : before = []
        · subst empty
          obtain ⟨a, text', left_, leads, covers, -⟩ := formed.covered x at_
          exact ⟨a, text', by omega, leads, covers⟩
        · exact ⟨x, before, le_rfl, ⟨at_, empty⟩, Nat.lt_add_of_pos_right (clusterWidth_pos u before)⟩
      obtain ⟨a, text', left_, leads, covers⟩ := start
      have whole := (formed.whole a text' leads).2
      have ends : x + 1 = a + clusterWidth u text' := by
        by_contra other
        exact lead.not_empty (whole (x + 1) (by omega) (by omega))
      have own := ih a (by omega) leads
      have positive' := clusterWidth_pos u text'
      have first : drawnWidth u table raster y (a + 1) = a + clusterWidth u text' := by
        rw [drawnWidth, own, leads.1]
        exact congrArg (a + ·) (if_neg leads.2)
      have rest := @drawnWidth_empties u table raster y (a + 1) (clusterWidth u text' - 1)
        fun k from_ to_ => whole k (by omega) (by omega)
      rw [first, show a + 1 + (clusterWidth u text' - 1) = x + 1 by omega] at rest
      rw [rest, ends]

end Drawing

section Writing
variable {u : Utf8proc} {table grown : GlyphTable} {raster later : Raster} {y : Nat}

theorem text?_width {x : Nat} {text : Bytes} (at_ : raster.text? table y x = some text) : x < raster.width := by
  obtain ⟨cell, here, -⟩ := Option.bind_eq_some_iff.mp at_
  obtain ⟨row, inside, at_⟩ := Option.bind_eq_some_iff.mp here
  have member := raster.row_length row (mem_of_getElem? inside)
  have small := (List.getElem?_eq_some_iff.mp at_).1
  omega

theorem text?_kept {a b Y : Nat} (formed : FormedRow u table raster y) (wrote : Wrote Y a b raster later)
    (more : table.interned <+: grown.interned) {x : Nat} (out : y ≠ Y ∨ x < a ∨ b ≤ x) :
    later.text? grown y x = raster.text? table y x := by
  rw [wrote.text? grown out]
  by_cases inside : x < raster.width
  · obtain ⟨text, at_⟩ := formed.known x inside
    rw [at_]
    exact Raster.text?_grown more at_
  · have none_ : ∀ t : GlyphTable, raster.text? t y x = none := by
      intro t
      rw [Option.eq_none_iff_forall_ne_some]
      exact fun text at_ => inside (text?_width at_)
    rw [none_, none_]

theorem FormedRow.congr (formed : FormedRow u table raster y) (width : later.width = raster.width)
    (same : ∀ x, later.text? grown y x = raster.text? table y x) : FormedRow u grown later y where
  known x inside := by
    rw [same]
    exact formed.known x (width ▸ inside)
  covered x empty := by
    unfold EmptyAt LeadAt at *
    simp only [same] at empty ⊢
    exact formed.covered x empty
  whole x text lead := by
    unfold EmptyAt LeadAt at *
    simp only [same, width] at lead ⊢
    exact formed.whole x text lead

theorem Placed.at {a x : Nat} {clusters : List Bytes} (placed : Placed u table raster y a clusters) (from_ : a ≤ x)
    (to_ : x < a + extent u clusters) : ∃ lead cluster, cluster ∈ clusters ∧ a ≤ lead ∧ lead ≤ x ∧
      x < lead + clusterWidth u cluster ∧ lead + clusterWidth u cluster ≤ a + extent u clusters ∧
      raster.text? table y lead = some cluster ∧
      ∀ k, lead < k → k < lead + clusterWidth u cluster → EmptyAt table raster y k := by
  induction clusters generalizing a with
  | nil => exact absurd to_ (by simp only [extent, map_nil, sum_nil]; omega)
  | cons cluster rest ih =>
    rw [extent_cons] at to_ ⊢
    obtain ⟨first, empties, others⟩ := placed
    by_cases here : x < a + clusterWidth u cluster
    · refine ⟨a, cluster, mem_cons_self, le_rfl, from_, here, by omega, first, fun k after before => ?_⟩
      have empty := empties (k - a) (by omega) (by omega)
      rwa [Nat.add_sub_cancel' (by omega)] at empty
    · obtain ⟨lead, other, inside, after, before, covers, ends, at_, behind⟩ := ih others (by omega) (by omega)
      exact ⟨lead, other, mem_cons_of_mem _ inside, by omega, before, covers, by omega, at_, behind⟩

namespace FormedPiece
variable {a b c : Nat}

theorem nil : FormedPiece u table raster y a a :=
  ⟨fun x from_ to_ => by omega, fun x from_ to_ => by omega, fun x _ from_ to_ => by omega⟩

theorem append (first : FormedPiece u table raster y a b) (second : FormedPiece u table raster y b c) (ab : a ≤ b)
    (bc : b ≤ c) : FormedPiece u table raster y a c where
  known x from_ to_ := by
    by_cases left_ : x < b
    · exact first.known x from_ left_
    · exact second.known x (by omega) to_
  covered x from_ to_ empty := by
    by_cases left_ : x < b
    · exact first.covered x from_ left_ empty
    · obtain ⟨lead, text, after, rest⟩ := second.covered x (by omega) to_ empty
      exact ⟨lead, text, by omega, rest⟩
  whole x text from_ to_ lead := by
    by_cases left_ : x < b
    · obtain ⟨fits, behind⟩ := first.whole x text from_ left_ lead
      exact ⟨by omega, behind⟩
    · exact second.whole x text (by omega) to_ lead

theorem keep (piece : FormedPiece u table raster y a b)
    (same : ∀ x, a ≤ x → x < b → ∀ text, raster.text? table y x = some text → later.text? grown y x = some text) :
    FormedPiece u grown later y a b := by
  have back : ∀ {x : Nat} {text : Bytes}, a ≤ x → x < b → later.text? grown y x = some text →
      raster.text? table y x = some text := by
    intro x text from_ to_ at_
    obtain ⟨old, known⟩ := piece.known x from_ to_
    rw [known, ← same x from_ to_ old known, at_]
  refine ⟨fun x from_ to_ => ?_, fun x from_ to_ empty => ?_, fun x text from_ to_ lead => ?_⟩
  · obtain ⟨old, known⟩ := piece.known x from_ to_
    exact ⟨old, same x from_ to_ old known⟩
  · obtain ⟨lead, text, after, before, leads, covers, between⟩ := piece.covered x from_ to_ (back from_ to_ empty)
    refine ⟨lead, text, after, before, ⟨same lead after (by omega) text leads.1, leads.2⟩, covers, fun k low high => ?_⟩
    exact same k (by omega) (by omega) [] (between k low high)
  · obtain ⟨fits, behind⟩ := piece.whole x text from_ to_ ⟨back from_ to_ lead.1, lead.2⟩
    exact ⟨fits, fun k low high => same k (by omega) (by omega) [] (behind k low high)⟩

theorem of_spaces (spaces : ∀ x, a ≤ x → x < b → raster.text? table y x = some [0x20]) :
    FormedPiece u table raster y a b where
  known x from_ to_ := ⟨_, spaces x from_ to_⟩
  covered x from_ to_ empty := by
    cases (spaces x from_ to_).symm.trans empty
  whole x text from_ to_ lead := by
    cases (spaces x from_ to_).symm.trans lead.1
    rw [clusterWidth_space]
    exact ⟨by omega, fun k low high => by omega⟩

theorem of_placed {clusters : List Bytes} (placed : Placed u table raster y a clusters)
    (some_ : ∀ cluster ∈ clusters, cluster ≠ []) : FormedPiece u table raster y a (a + extent u clusters) where
  known x from_ to_ := by
    obtain ⟨lead, cluster, -, -, before, covers, -, at_, behind⟩ := placed.at from_ to_
    by_cases here : lead = x
    · exact ⟨cluster, here ▸ at_⟩
    · exact ⟨[], behind x (by omega) covers⟩
  covered x from_ to_ empty := by
    obtain ⟨lead, cluster, held, after, before, covers, -, at_, behind⟩ := placed.at from_ to_
    have apart : lead ≠ x := by
      rintro rfl
      exact some_ cluster held (Option.some.inj (at_.symm.trans empty))
    exact ⟨lead, cluster, after, by omega, ⟨at_, some_ cluster held⟩, covers, fun k low high => behind k low (by omega)⟩
  whole x text from_ to_ lead := by
    obtain ⟨start, cluster, -, -, before, covers, ends, at_, behind⟩ := placed.at from_ to_
    have here : start = x := by
      by_contra apart
      exact lead.not_empty (behind x (by omega) covers)
    subst here
    have same : cluster = text := Option.some.inj (at_.symm.trans lead.1)
    subst same
    exact ⟨by omega, behind⟩

theorem formedRow (piece : FormedPiece u table raster y 0 raster.width) : FormedRow u table raster y where
  known x inside := piece.known x (Nat.zero_le x) inside
  covered x empty := by
    obtain ⟨lead, text, -, rest⟩ := piece.covered x (Nat.zero_le x) (text?_width empty) empty
    exact ⟨lead, text, rest⟩
  whole x text lead := piece.whole x text (Nat.zero_le x) (text?_width lead.1) lead

end FormedPiece

theorem FormedRow.piece {a b : Nat} (formed : FormedRow u table raster y) (inside : b ≤ raster.width)
    (start_uncut : ¬EmptyAt table raster y a) (end_uncut : ¬EmptyAt table raster y b) :
    FormedPiece u table raster y a b where
  known x _ to_ := formed.known x (by omega)
  covered x from_ to_ empty := by
    obtain ⟨lead, text, before, leads, covers, between⟩ := formed.covered x empty
    refine ⟨lead, text, ?_, before, leads, covers, between⟩
    by_contra cut
    by_cases first : x = a
    · exact start_uncut (first ▸ empty)
    · exact start_uncut (between a (by omega) (by omega))
  whole x text _ to_ lead := by
    obtain ⟨-, behind⟩ := formed.whole x text lead
    refine ⟨?_, behind⟩
    by_contra cut
    exact end_uncut (behind b to_ (by omega))

theorem FormedRow.first_uncut (formed : FormedRow u table raster y) : ¬EmptyAt table raster y 0 := by
  intro empty
  obtain ⟨lead, text, before, -⟩ := formed.covered 0 empty
  exact Nat.not_lt_zero lead before

theorem FormedRow.write {a b : Nat} {clusters : List Bytes} (formed : FormedRow u table raster y)
    (wrote : Wrote y a b raster later) (more : table.interned <+: grown.interned)
    (placed : Placed u grown later y a clusters) (ends : b = a + extent u clusters) (inside : b ≤ raster.width)
    (some_ : ∀ cluster ∈ clusters, cluster ≠ []) (start_uncut : ¬EmptyAt table raster y a)
    (end_uncut : ¬EmptyAt table raster y b) : FormedRow u grown later y := by
  subst ends
  have stays : ∀ {x : Nat} {text : Bytes}, x < a ∨ a + extent u clusters ≤ x →
      raster.text? table y x = some text → later.text? grown y x = some text :=
    fun out at_ => (text?_kept formed wrote more (.inr out)).trans at_
  have last_uncut : ¬EmptyAt table raster y raster.width := fun empty => lt_irrefl _ (text?_width empty)
  have left_ : FormedPiece u grown later y 0 a :=
    (formed.piece (by omega) formed.first_uncut start_uncut).keep fun x _ to_ _ at_ => stays (.inl to_) at_
  have right_ : FormedPiece u grown later y (a + extent u clusters) raster.width :=
    (formed.piece le_rfl end_uncut last_uncut).keep fun x from_ _ _ at_ => stays (.inr from_) at_
  refine FormedPiece.formedRow ?_
  rw [wrote.width]
  exact (left_.append (.of_placed placed some_) (Nat.zero_le a) (by omega)).append right_ (Nat.zero_le _) inside

end Writing

/-- A call of `write_text` through a part of a raster. -/
structure Write where
  path : List (Pos × Size)
  pos : Pos
  text : Bytes
  deriving DecidableEq

section Runs
variable (u : Utf8proc)

def Write.run (w : Write) (s : Raster × GlyphTable) : Except String (Raster × GlyphTable) :=
  match s.1.view.descend w.path with
  | none => .error "no such part"
  | some v => (writeText u v w.pos w.text s).map fun done => done.2

def runWrites (writes : List Write) (s : Raster × GlyphTable) : Except String (Raster × GlyphTable) :=
  writes.foldlM (fun s w => w.run u s) s

/-- A write that puts nothing, or that starts and ends between the glyphs of its row. -/
def Uncut (w : Write) (s : Raster × GlyphTable) : Prop :=
  ∀ v, s.1.view.descend w.path = some v → written u v w.pos w.text = [] ∨
    ¬EmptyAt s.2 s.1 (v.y + w.pos.y) (v.x + w.pos.x) ∧
      ¬EmptyAt s.2 s.1 (v.y + w.pos.y) (v.x + w.pos.x + extent u (written u v w.pos w.text))

/-- Every write of a run meets the condition in the state it is made in. -/
def AllUncut : List Write → Raster × GlyphTable → Prop
  | [], _ => True
  | w :: rest, s => Uncut u w s ∧ ∀ later, w.run u s = .ok later → AllUncut rest later

variable {u}

instance (w : Write) (s : Raster × GlyphTable) : Decidable (Uncut u w s) :=
  match view : s.1.view.descend w.path with
  | none => .isTrue fun _ seen => nomatch view.symm.trans seen
  | some v => decidable_of_iff (written u v w.pos w.text = [] ∨ ¬EmptyAt s.2 s.1 (v.y + w.pos.y) (v.x + w.pos.x) ∧
      ¬EmptyAt s.2 s.1 (v.y + w.pos.y) (v.x + w.pos.x + extent u (written u v w.pos w.text)))
      ⟨fun here _ seen => Option.some.inj (view.symm.trans seen) ▸ here, fun all => all v view⟩

instance decAllUncut : ∀ (writes : List Write) (s : Raster × GlyphTable), Decidable (AllUncut u writes s)
  | [], _ => .isTrue trivial
  | w :: rest, s =>
      match run : w.run u s with
      | .error _ => decidable_of_iff (Uncut u w s)
          ⟨fun first => ⟨first, fun _ done => nomatch run.symm.trans done⟩, And.left⟩
      | .ok later =>
          have := decAllUncut rest later
          decidable_of_iff (Uncut u w s ∧ AllUncut u rest later)
            ⟨fun both => ⟨both.1, fun _ done => Except.ok.inj (run.symm.trans done) ▸ both.2⟩,
              fun both => ⟨both.1, both.2 later run⟩⟩

end Runs

section Whole
variable {u : Utf8proc}

theorem fitting_some (text : Bytes) (i room : Nat) : ∀ cluster ∈ fitting u text i room, cluster ≠ [] := by
  induction i, room using fitting.induct u text with
  | case1 i room more cluster wide =>
    rw [fitting, dif_pos more, if_pos wide]
    exact fun _ inside => absurd inside not_mem_nil
  | case2 i room more cluster fits ih =>
    rw [fitting, dif_pos more, if_neg fits]
    refine forall_mem_cons.mpr ⟨fun empty => ?_, ih⟩
    have bounds := next_bounds u more.1
    have length := congrArg List.length empty
    rw [length_take, length_drop, length_nil] at length
    omega
  | case3 i room done =>
    rw [fitting, dif_neg done]
    exact fun _ inside => absurd inside not_mem_nil

theorem written_some (v : View) (pos : Pos) (text : Bytes) : ∀ cluster ∈ written u v pos text, cluster ≠ [] := by
  unfold written
  split
  · exact fitting_some text 0 _
  · exact fun _ inside => absurd inside not_mem_nil

structure WholeRows (u : Utf8proc) (s : Raster × GlyphTable) : Prop where
  rows : ∀ y < s.1.height, FormedRow u s.2 s.1 y
  short : s.2.Short

theorem Write.run_wholeRows {w : Write} {s later : Raster × GlyphTable} (kept : WholeRows u s) (uncut : Uncut u w s)
    (done : w.run u s = .ok later) : WholeRows u later := by
  unfold Write.run at done
  split at done
  · cases done
  · rename_i v view
    have within := View.descend_within (View.whole_within s.1) view
    rcases @writeText_cases u v s.1 s.2 w.pos w.text within kept.short with
      ⟨-, col, raster, grown, wrote, left_, more, short⟩ | ⟨-, e, failed⟩
    · rw [wrote] at done
      cases done
      refine ⟨fun y small => ?_, short⟩
      have formed := kept.rows y (left_.wrote.height ▸ small)
      by_cases here : y = v.y + w.pos.y
      · subst here
        rcases uncut v view with nothing | ⟨start_uncut, end_uncut⟩
        · have stays := left_.wrote
          rw [left_.returned, nothing] at stays
          exact formed.congr stays.width fun x => text?_kept formed stays more (.inr (by
            show x < v.x + w.pos.x ∨ v.x + (w.pos.x + 0) ≤ x
            omega))
        · by_cases some_ : w.pos.x < col
          · refine formed.write left_.wrote more left_.placed ?_ ?_ (written_some v w.pos w.text) start_uncut ?_
            · rw [left_.returned, Nat.add_assoc]
            · have inside := (left_.inside some_).2
              unfold View.Within at within
              omega
            · rw [left_.returned, ← Nat.add_assoc]
              exact end_uncut
          · have stays := left_.wrote
            exact formed.congr stays.width fun x => text?_kept formed stays more (.inr (by omega))
      · exact formed.congr left_.wrote.width fun x => text?_kept formed left_.wrote more (.inl here)
    · rw [failed] at done
      cases done

theorem runWrites_wholeRows {writes : List Write} {s later : Raster × GlyphTable} (kept : WholeRows u s)
    (uncut : AllUncut u writes s) (done : runWrites u writes s = .ok later) : WholeRows u later := by
  induction writes generalizing s with
  | nil =>
    cases done
    exact kept
  | cons w rest ih =>
    obtain ⟨middle, first, done⟩ := bind_ok done
    exact ih (w.run_wholeRows kept uncut.1 first) (uncut.2 middle first) done

theorem blank_text (width height : Nat) (table : GlyphTable) {y x : Nat} {text : Bytes}
    (at_ : (Raster.blank width height).text? table y x = some text) : text = [0x20] := by
  obtain ⟨cell, here, get⟩ := Option.bind_eq_some_iff.mp at_
  obtain ⟨row, line, cell_at⟩ := Option.bind_eq_some_iff.mp here
  have row_eq := eq_of_mem_replicate (mem_of_getElem? line)
  subst row_eq
  have cell_eq := eq_of_mem_replicate (mem_of_getElem? cell_at)
  subst cell_eq
  cases get
  rfl

theorem blank_wholeRows (width height : Nat) (history : List Bytes) :
    WholeRows u (Raster.blank width height, GlyphTable.fresh.interns history) := by
  refine ⟨fun y small => ⟨fun x inside => ?_, fun x empty => ?_, fun x text lead => ?_⟩,
    GlyphTable.interns_short GlyphTable.fresh_short history⟩
  · obtain ⟨cell, at_⟩ := Raster.cell?_inside small inside
    refine ⟨[0x20], ?_⟩
    obtain ⟨row, line, cell_at⟩ := Option.bind_eq_some_iff.mp at_
    have row_eq := eq_of_mem_replicate (mem_of_getElem? line)
    subst row_eq
    have cell_eq := eq_of_mem_replicate (mem_of_getElem? cell_at)
    subst cell_eq
    unfold Raster.text?
    rw [at_]
    rfl
  · cases blank_text width height _ empty
  · have space := blank_text width height _ lead.1
    have inside := text?_width lead.1
    subst space
    rw [clusterWidth_space]
    exact ⟨inside, fun k after before => by omega⟩

end Whole

/-- Writes that start and end between the glyphs of their rows leave a raster whose rows are whole and whose
    glyphs are drawn in their own columns. -/
theorem runWrites_formed (u : Utf8proc) (width height : Nat) (history : List Bytes) (writes : List Write)
    (uncut : AllUncut u writes (Raster.blank width height, GlyphTable.fresh.interns history)) (s : Raster × GlyphTable)
    (done : runWrites u writes (Raster.blank width height, GlyphTable.fresh.interns history) = .ok s) :
    Formed u s.2 s.1 := by
  have kept := runWrites_wholeRows (blank_wholeRows width height history) uncut done
  intro y small
  exact ⟨kept.rows y small, fun x text lead => (kept.rows y small).drawn lead⟩

/-- A wide glyph, a letter beside it, and two letters in the glyph's place. -/
def besideWide : List Write := [⟨[], ⟨1, 0⟩, [0xe3, 0x81, 0x82]⟩, ⟨[], ⟨3, 0⟩, [0x61]⟩, ⟨[], ⟨1, 0⟩, [0x78, 0x79]⟩]

theorem runWrites_letter : ∃ s, runWrites basicUtf8proc besideWide (Raster.blank 5 1, GlyphTable.fresh.interns []) =
    .ok s ∧ Formed basicUtf8proc s.2 s.1 := by
  have done : (runWrites basicUtf8proc besideWide (Raster.blank 5 1, GlyphTable.fresh.interns [])).isOk = true := by
    decide +kernel
  have uncut : AllUncut basicUtf8proc besideWide (Raster.blank 5 1, GlyphTable.fresh.interns []) := by
    decide +kernel
  cases made : runWrites basicUtf8proc besideWide (Raster.blank 5 1, GlyphTable.fresh.interns []) with
  | error e =>
    rw [made] at done
    cases done
  | ok s => exact ⟨s, rfl, runWrites_formed basicUtf8proc 5 1 [] _ uncut s made⟩

/-- A letter over the first half of a wide glyph leaves the other half alone. -/
theorem orphaned_half : ¬∀ s, runWrites basicUtf8proc [⟨[], ⟨0, 0⟩, [0xe3, 0x81, 0x82]⟩, ⟨[], ⟨0, 0⟩, [0x78]⟩]
    (Raster.blank 3 1, GlyphTable.fresh.interns []) = .ok s → Formed basicUtf8proc s.2 s.1 := by
  intro formed
  have seen : ((runWrites basicUtf8proc [⟨[], ⟨0, 0⟩, [0xe3, 0x81, 0x82]⟩, ⟨[], ⟨0, 0⟩, [0x78]⟩]
      (Raster.blank 3 1, GlyphTable.fresh.interns [])).toOption.map fun s =>
        (s.1.height, s.1.text? s.2 0 0, s.1.text? s.2 0 1)) = some (1, some [0x78], some []) := by
    decide +kernel
  cases done : runWrites basicUtf8proc [⟨[], ⟨0, 0⟩, [0xe3, 0x81, 0x82]⟩, ⟨[], ⟨0, 0⟩, [0x78]⟩]
      (Raster.blank 3 1, GlyphTable.fresh.interns []) with
  | error e =>
    rw [done] at seen
    cases seen
  | ok s =>
    rw [done] at seen
    simp only [Except.toOption, Option.map_some, Option.some.injEq, Prod.mk.injEq] at seen
    obtain ⟨height, letter, half⟩ := seen
    obtain ⟨a, text, before, lead, covers, -⟩ := (formed s done 0 (by omega)).1.covered 1 half
    have first : a = 0 := by omega
    subst first
    have same : [0x78] = text := Option.some.inj (letter.symm.trans lead.1)
    subst same
    have narrow : clusterWidth basicUtf8proc [0x78] = 1 := by decide +kernel
    omega

end Nxt.Ui
