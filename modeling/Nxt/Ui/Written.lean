import Nxt.Ui.WriteText

/- What writing a text leaves: only cells of its row from its column on change, and they hold its
   clusters, each in its first cell and with empty glyphs behind. It is left when every cluster that
   has room fits the table. -/
namespace Nxt.Ui
open Nxt.Lib List

namespace GlyphTable
variable {table later : GlyphTable} {bytes text : Bytes} {gid : GlyphId}

def Short (table : GlyphTable) : Prop := ∀ text ∈ table.interned, text.length ≤ 255

theorem intern_ok (made : table.intern bytes = .ok (gid, later)) :
    later.get gid = some bytes ∧ table.interned <+: later.interned ∧ (table.Short → later.Short) := by
  unfold intern at made
  split at made
  · rename_i single
    cases made
    obtain ⟨b, rfl⟩ := length_eq_one_iff.mp single
    refine ⟨?_, prefix_refl _, id⟩
    unfold GlyphTable.get
    rw [headD_cons, if_pos (Nat.le_of_lt_succ (UInt8.toNat_lt b)), UInt8.ofNat_toNat]
  · split at made
    · rename_i i known
      cases made
      refine ⟨?_, prefix_refl _, id⟩
      unfold GlyphTable.get
      rw [if_neg (show ¬256 + i ≤ 255 by omega), Nat.add_sub_cancel_left]
      exact find_some known
    · split at made
      · cases made
      · rename_i fits
        cases made
        refine ⟨?_, prefix_append _ _, fun short text inside => ?_⟩
        · unfold GlyphTable.get append
          rw [if_neg (show ¬256 + table.interned.length ≤ 255 by omega), Nat.add_sub_cancel_left]
          exact getElem?_concat_length
        · rcases mem_append.mp inside with old | last
          · exact short text old
          · rw [mem_singleton.mp last]
            omega

theorem intern_short (table : GlyphTable) (fits : bytes.length ≤ 255) :
    ∃ gid later, table.intern bytes = .ok (gid, later) := by
  unfold intern
  split
  · exact ⟨_, _, rfl⟩
  · split
    · exact ⟨_, _, rfl⟩
    · rw [if_neg (by omega)]
      exact ⟨_, _, rfl⟩

theorem intern_long (short : table.Short) (long : 255 < bytes.length) :
    table.intern bytes = .error "Glyph too long (max 255 bytes)" := by
  unfold intern
  rw [dif_neg (by omega)]
  split
  · rename_i i known
    have few := short bytes (mem_of_getElem? (find_some known))
    omega
  · exact if_pos long

theorem get_grown (grown : table.interned <+: later.interned) (at_ : table.get gid = some text) :
    later.get gid = some text := by
  unfold GlyphTable.get at at_ ⊢
  split at at_
  · rename_i single
    rw [if_pos single]
    exact at_
  · rename_i other
    rw [if_neg other]
    obtain ⟨more, same⟩ := grown
    rw [← same, getElem?_append_left (List.getElem?_eq_some_iff.mp at_).1]
    exact at_

theorem interns_short (short : table.Short) (texts : List Bytes) : (table.interns texts).Short := by
  unfold interns
  induction texts generalizing table with
  | nil => exact short
  | cons text rest ih =>
    rw [foldl_cons]
    refine ih ?_
    split
    · rename_i gid later made
      exact (intern_ok made).2.2 short
    · exact short

theorem fresh_short : fresh.Short := fun _ inside => absurd inside not_mem_nil

end GlyphTable

namespace Raster
variable {raster : Raster} {table : GlyphTable}

theorem modify_cell (rows : List (List Cell)) (y x : Nat) (f : Cell → Cell) (y' x' : Nat) :
    ((rows.modify y fun row => row.modify x f)[y']?.bind (·[x']?)) =
      if y' = y ∧ x' = x then (rows[y']?.bind (·[x']?)).map f else rows[y']?.bind (·[x']?) := by
  rw [getElem?_modify]
  cases rows[y']? with
  | none => simp
  | some row =>
    simp only [Option.map_eq_map, Option.map_some, Option.bind_some]
    by_cases here : y = y'
    · rw [if_pos here, getElem?_modify]
      by_cases at_ : x = x'
      · simp [here, at_]
      · simp [at_, Ne.symm at_]
    · rw [if_neg here, if_neg (fun both => here both.1.symm)]

theorem cell?_setGlyph (raster : Raster) (y x : Nat) (gid : GlyphId) (y' x' : Nat) :
    (raster.setGlyph y x gid).cell? y' x' =
      if y' = y ∧ x' = x then (raster.cell? y' x').map fun cell => { cell with glyph := gid }
      else raster.cell? y' x' :=
  modify_cell raster.rows y x (fun cell => { cell with glyph := gid }) y' x'

theorem cell?_inside {y x : Nat} (row : y < raster.height) (column : x < raster.width) :
    ∃ cell, raster.cell? y x = some cell := by
  have tall : y < raster.rows.length := by rw [raster.rows_length]; exact row
  have wide : x < raster.rows[y].length := by
    rw [raster.row_length _ (getElem_mem tall)]
    exact column
  refine ⟨raster.rows[y][x], ?_⟩
  unfold cell?
  rw [getElem?_eq_getElem tall, Option.bind_some, getElem?_eq_getElem wide]

def text? (raster : Raster) (table : GlyphTable) (y x : Nat) : Option Bytes :=
  (raster.cell? y x).bind fun cell => table.get cell.glyph

theorem text?_setGlyph {y x : Nat} (row : y < raster.height) (column : x < raster.width) {gid : GlyphId}
    {text : Bytes} (get : table.get gid = some text) : (raster.setGlyph y x gid).text? table y x = some text := by
  obtain ⟨cell, at_⟩ := cell?_inside row column
  unfold text?
  rw [cell?_setGlyph, if_pos ⟨rfl, rfl⟩, at_]
  exact get

theorem text?_grown {later : GlyphTable} (grown : table.interned <+: later.interned) {y x : Nat} {text : Bytes}
    (at_ : raster.text? table y x = some text) : raster.text? later y x = some text := by
  unfold text? at at_ ⊢
  obtain ⟨cell, here, get⟩ := Option.bind_eq_some_iff.mp at_
  rw [here]
  exact GlyphTable.get_grown grown get

end Raster

/-- The cells of a row from a column up to another may have other glyphs, and nothing else changed. -/
structure Wrote (y a b : Nat) (raster later : Raster) : Prop where
  width : later.width = raster.width
  height : later.height = raster.height
  outside : ∀ y' x', y' ≠ y ∨ x' < a ∨ b ≤ x' → later.cell? y' x' = raster.cell? y' x'
  styles : ∀ y' x', (later.cell? y' x').map (fun cell => (cell.fg, cell.bg, cell.em)) =
    (raster.cell? y' x').map fun cell => (cell.fg, cell.bg, cell.em)

namespace Wrote
variable {raster later last : Raster} {y a b c : Nat}

theorem refl (y a : Nat) (raster : Raster) : Wrote y a a raster raster :=
  ⟨rfl, rfl, fun _ _ _ => rfl, fun _ _ => rfl⟩

theorem trans (first : Wrote y a b raster later) (second : Wrote y b c later last) (ab : a ≤ b) (bc : b ≤ c) :
    Wrote y a c raster last where
  width := second.width.trans first.width
  height := second.height.trans first.height
  outside y' x' out := (second.outside y' x' (by omega)).trans (first.outside y' x' (by omega))
  styles y' x' := (second.styles y' x').trans (first.styles y' x')

theorem setGlyph (raster : Raster) (y x : Nat) (gid : GlyphId) : Wrote y x (x + 1) raster (raster.setGlyph y x gid) where
  width := rfl
  height := rfl
  outside y' x' out := by
    rw [Raster.cell?_setGlyph, if_neg (by omega)]
  styles y' x' := by
    rw [Raster.cell?_setGlyph]
    split
    · rw [Option.map_map]
      rfl
    · rfl

theorem within (wrote : Wrote y a b raster later) {v : View} (within : v.Within raster) : v.Within later := by
  unfold View.Within
  rw [wrote.width, wrote.height]
  exact within

theorem text? (wrote : Wrote y a b raster later) (table : GlyphTable) {y' x' : Nat} (out : y' ≠ y ∨ x' < a ∨ b ≤ x') :
    later.text? table y' x' = raster.text? table y' x' := by
  unfold Raster.text?
  rw [wrote.outside y' x' out]

end Wrote

section Clusters
variable (u : Utf8proc)

/-- How many columns some clusters take. -/
def extent (clusters : List Bytes) : Nat := (clusters.map (clusterWidth u)).sum

theorem extent_cons (cluster : Bytes) (rest : List Bytes) :
    extent u (cluster :: rest) = clusterWidth u cluster + extent u rest := rfl

/-- The clusters stand in a row one behind the other, with empty glyphs behind the wide ones. -/
def Placed (table : GlyphTable) (raster : Raster) (y : Nat) : Nat → List Bytes → Prop
  | _, [] => True
  | x, cluster :: rest =>
      raster.text? table y x = some cluster ∧
        (∀ k, 0 < k → k < clusterWidth u cluster → raster.text? table y (x + k) = some []) ∧
          Placed table raster y (x + clusterWidth u cluster) rest

theorem fitting_extent (text : Bytes) (i room : Nat) : extent u (fitting u text i room) ≤ room := by
  induction i, room using fitting.induct u text with
  | case1 i room more cluster wide =>
    rw [fitting, dif_pos more, if_pos wide]
    exact Nat.zero_le _
  | case2 i room more cluster fits ih =>
    rw [fitting, dif_pos more, if_neg fits, extent_cons]
    show clusterWidth u cluster + extent u (fitting u text (next u text i) (room - clusterWidth u cluster)) ≤ room
    omega
  | case3 i room done =>
    rw [fitting, dif_neg done]
    exact Nat.zero_le _

end Clusters

section Writing
variable {u : Utf8proc} {v : View} {raster : Raster} {table : GlyphTable} {y : Nat}

theorem writeContinuations_wrote (within : v.Within raster) (row : y < v.rows) {col n : Nat} (fits : col + n < v.cols)
    (short : table.Short) : ∃ later grown, writeContinuations v y col n (raster, table) = .ok (later, grown) ∧ Wrote
    (v.y + y) (v.x + col + 1) (v.x + col + 1 + n) raster later ∧ table.interned <+: grown.interned ∧ grown.Short ∧ ∀ k,
    0 < k → k ≤ n → later.text? grown (v.y + y) (v.x + col + k) = some [] := by
  induction n with
  | zero =>
    exact ⟨raster, table, rfl, Wrote.refl _ _ raster, prefix_refl _, short, fun k positive small => by omega⟩
  | succ n ih =>
    obtain ⟨later, grown, done, wrote, more, short', empties⟩ := ih (by omega)
    obtain ⟨gid, last, made⟩ := @GlyphTable.intern_short [] grown (Nat.zero_le 255)
    obtain ⟨get, more', short''⟩ := GlyphTable.intern_ok made
    have step := Wrote.setGlyph later (v.y + y) (v.x + (col + (n + 1))) gid
    have place : v.x + (col + (n + 1)) = v.x + col + 1 + n := by omega
    have inside : v.Within later := wrote.within within
    unfold View.Within at inside
    refine ⟨later.setGlyph (v.y + y) (v.x + (col + (n + 1))) gid, last, ?_, ?_, more.trans more', short'' short', ?_⟩
    · rw [writeContinuations, done]
      show (grown.intern []).bind _ = _
      rw [made]
      rfl
    · nth_rewrite 1 2 [place] at step
      exact wrote.trans step (by omega) (by omega)
    · intro k positive small
      by_cases here : k = n + 1
      · rw [show v.x + col + k = v.x + (col + (n + 1)) by omega]
        exact Raster.text?_setGlyph (by omega) (by omega) get
      · refine Raster.text?_grown more' ?_
        rw [step.text? grown (.inr (.inl (by omega)))]
        exact empties k positive (by omega)

theorem writeFrom_cases (text : Bytes) {i c : Nat} (within : v.Within raster) (row : y < v.rows)
    (short : table.Short) :
    let clusters := fitting u text i (v.cols - c)
    ((∀ cluster ∈ clusters, cluster.length ≤ 255) ∧
      ∃ later grown, writeFrom u v y text i c (raster, table) = .ok (c + extent u clusters, later, grown) ∧
        Wrote (v.y + y) (v.x + c) (v.x + (c + extent u clusters)) raster later ∧
        table.interned <+: grown.interned ∧ grown.Short ∧ Placed u grown later (v.y + y) (v.x + c) clusters) ∨
    ((∃ cluster ∈ clusters, 255 < cluster.length) ∧ ∃ e, writeFrom u v y text i c (raster, table) = .error e) := by
  induction size : text.length - i using Nat.strongRecOn generalizing i c raster table with
  | _ size' ih =>
    by_cases more : i < text.length ∧ c < v.cols
    · have room : i < text.length ∧ 0 < v.cols - c := ⟨more.1, by omega⟩
      rw [fitting, dif_pos room, writeFrom, dif_pos more]
      dsimp only
      generalize bytes : (text.drop i).take (next u text i - i) = cluster
      by_cases wide : clusterWidth u cluster > v.cols - c
      · rw [if_pos wide, if_pos wide]
        refine .inl ⟨fun _ inside => absurd inside not_mem_nil, raster, table, rfl, Wrote.refl _ _ raster,
          prefix_refl _, short, trivial⟩
      · rw [if_neg wide, if_neg wide]
        by_cases long : 255 < cluster.length
        · refine .inr ⟨⟨cluster, mem_cons_self, long⟩, "Glyph too long (max 255 bytes)", ?_⟩
          rw [GlyphTable.intern_long short long]
          rfl
        · have bounds := next_bounds u more.1
          have positive := clusterWidth_pos u cluster
          obtain ⟨gid, table₁, made⟩ := GlyphTable.intern_short table (Nat.le_of_not_lt long)
          obtain ⟨get, more₁, short₁⟩ := GlyphTable.intern_ok made
          have first := Wrote.setGlyph raster (v.y + y) (v.x + c) gid
          have inside := first.within within
          obtain ⟨raster₂, table₂, done, wrote, more₂, short₂, empties⟩ :=
            @writeContinuations_wrote v _ _ y inside row c (clusterWidth u cluster - 1) (by omega) (short₁ short)
          have lead : (raster.setGlyph (v.y + y) (v.x + c) gid).text? table₁ (v.y + y) (v.x + c) = some cluster := by
            unfold View.Within at within
            exact Raster.text?_setGlyph (by omega) (by omega) get
          have here : raster₂.text? table₂ (v.y + y) (v.x + c) = some cluster := by
            refine Raster.text?_grown more₂ ?_
            rw [wrote.text? table₁ (.inr (.inl (by omega)))]
            exact lead
          have both : Wrote (v.y + y) (v.x + c) (v.x + (c + clusterWidth u cluster)) raster raster₂ := by
            have joined := first.trans wrote (by omega) (by omega)
            rwa [show v.x + c + 1 + (clusterWidth u cluster - 1) = v.x + (c + clusterWidth u cluster) by omega]
              at joined
          have rest := ih (text.length - next u text i) (by omega) (i := next u text i)
            (c := c + clusterWidth u cluster) (both.within within) short₂ rfl
          rw [← Nat.sub_sub] at rest
          dsimp only at rest
          rw [made, ok_bind]
          dsimp only
          rw [done, ok_bind]
          rcases rest with ⟨fit, later, grown, finished, wrote₃, more₃, short₃, placed⟩ | ⟨⟨other, held, tooLong⟩, e, failed⟩
          · refine .inl ⟨forall_mem_cons.mpr ⟨Nat.le_of_not_lt long, fit⟩, later, grown, ?_, ?_, ?_, short₃, ?_⟩
            · rw [finished, extent_cons, Nat.add_assoc]
            · rw [extent_cons, ← Nat.add_assoc c]
              exact both.trans wrote₃ (by omega) (by omega)
            · exact (more₁.trans more₂).trans more₃
            · have same : ∀ {x : Nat} {text : Bytes}, x < v.x + (c + clusterWidth u cluster) →
                  raster₂.text? table₂ (v.y + y) x = some text → later.text? grown (v.y + y) x = some text := by
                intro x text before at_
                refine Raster.text?_grown more₃ ?_
                rw [wrote₃.text? table₂ (.inr (.inl before))]
                exact at_
              refine ⟨same (by omega) here, fun k some_ small => ?_, ?_⟩
              · exact same (by omega) (empties k some_ (by omega))
              · rw [Nat.add_assoc]
                exact placed
          · exact .inr ⟨⟨other, mem_cons_of_mem _ held, tooLong⟩, e, failed⟩
    · have closed : ¬(i < text.length ∧ 0 < v.cols - c) := fun room => more ⟨room.1, by omega⟩
      rw [fitting, dif_neg closed, writeFrom, dif_neg more]
      exact .inl ⟨fun _ inside => absurd inside not_mem_nil, raster, table, rfl, Wrote.refl _ _ raster,
        prefix_refl _, short, trivial⟩

def written (u : Utf8proc) (v : View) (pos : Pos) (text : Bytes) : List Bytes :=
  if pos.y < v.rows then fitting u text 0 (v.cols - pos.x) else []

/-- What writing a text leaves: the column after it, no change but of glyphs of its row in the view from its
    column on, and its clusters in their columns. -/
structure Left (u : Utf8proc) (v : View) (pos : Pos) (text : Bytes) (before : Raster) (col : Nat) (later : Raster)
    (grown : GlyphTable) : Prop where
  returned : col = pos.x + extent u (written u v pos text)
  inside : pos.x < col → pos.y < v.rows ∧ col ≤ v.cols
  wrote : Wrote (v.y + pos.y) (v.x + pos.x) (v.x + col) before later
  placed : Placed u grown later (v.y + pos.y) (v.x + pos.x) (written u v pos text)

theorem writeText_cases {pos : Pos} (text : Bytes) (within : v.Within raster) (short : table.Short) :
    ((∀ cluster ∈ written u v pos text, cluster.length ≤ 255) ∧
      ∃ col later grown, writeText u v pos text (raster, table) = .ok (col, later, grown) ∧
        Left u v pos text raster col later grown ∧ table.interned <+: grown.interned ∧ grown.Short) ∨
    ((∃ cluster ∈ written u v pos text, 255 < cluster.length) ∧
      ∃ e, writeText u v pos text (raster, table) = .error e) := by
  by_cases row : pos.y < v.rows
  · have clusters : written u v pos text = fitting u text 0 (v.cols - pos.x) := if_pos row
    rw [clusters, writeText, if_neg (by omega)]
    rcases @writeFrom_cases u v raster table pos.y text 0 pos.x within row short with
      ⟨fit, later, grown, done, wrote, more, short', placed⟩ | bad
    · refine .inl ⟨fit, _, later, grown, done, ⟨?_, fun some_ => ⟨row, ?_⟩, wrote, ?_⟩, more, short'⟩
      · rw [clusters]
      · have most := fitting_extent u text 0 (v.cols - pos.x)
        omega
      · rw [clusters]
        exact placed
    · exact .inr bad
  · have clusters : written u v pos text = [] := if_neg row
    rw [clusters, writeText, if_pos (by omega)]
    refine .inl ⟨fun _ inside => absurd inside not_mem_nil, pos.x, raster, table, rfl,
      ⟨?_, fun more => absurd more (lt_irrefl _), Wrote.refl _ _ raster, ?_⟩, prefix_refl _, short⟩
    · rw [clusters]
      rfl
    · rw [clusters]
      trivial

end Writing

namespace View

theorem subraster_inside {v part : View} {origin : Pos} {size : Size} (made : v.subraster origin size = some part) :
    v.x ≤ part.x ∧ part.x + part.cols ≤ v.x + v.cols ∧ v.y ≤ part.y ∧ part.y + part.rows ≤ v.y + v.rows := by
  unfold subraster at made
  dsimp only at made
  split at made
  · cases made
  · cases made
    dsimp only
    omega

theorem descend_within {raster : Raster} {v part : View} {path : List (Pos × Size)} (within : v.Within raster)
    (made : v.descend path = some part) : part.Within raster := by
  induction path generalizing v with
  | nil =>
    cases made
    exact within
  | cons step rest ih =>
    obtain ⟨middle, first, made⟩ := Option.bind_eq_some_iff.mp made
    refine ih ?_ made
    have inside := subraster_inside first
    unfold Within at within ⊢
    omega

theorem whole_within (raster : Raster) : raster.view.Within raster :=
  ⟨Nat.le_of_eq (Nat.zero_add _), Nat.le_of_eq (Nat.zero_add _)⟩

end View

/-- A text is written through a view of a raster just when each of its clusters that has room fits the table. -/
theorem writeText_iff (u : Utf8proc) (raster : Raster) (history : List Bytes) (path : List (Pos × Size)) (v : View)
    (view : raster.view.descend path = some v) (pos : Pos) (text : Bytes) :
    (∃ col later grown, writeText u v pos text (raster, GlyphTable.fresh.interns history) = .ok (col, later, grown) ∧
      Left u v pos text raster col later grown) ↔ ∀ cluster ∈ written u v pos text, cluster.length ≤ 255 := by
  have within := View.descend_within (View.whole_within raster) view
  have short := GlyphTable.interns_short GlyphTable.fresh_short history
  rcases @writeText_cases u v raster _ pos text within short with
    ⟨fit, col, later, grown, done, left_, -⟩ | ⟨⟨cluster, inside, long⟩, e, failed⟩
  · exact iff_of_true ⟨col, later, grown, done, left_⟩ fit
  · refine iff_of_false ?_ fun fit => ?_
    · rintro ⟨col, later, grown, done, -⟩
      rw [failed] at done
      cases done
    · have fits := fit cluster inside
      omega

/-- Code points of up to three bytes: combining marks stay with what is before them, and kana are wide. -/
def basicUtf8proc : Utf8proc where
  iterate
    | [] => none
    | a :: rest =>
        if a < 0x80 then some (1, a.toNat)
        else match rest with
          | b :: more =>
              if 0xc2 ≤ a && a ≤ 0xdf && 0x80 ≤ b && b ≤ 0xbf then some (2, (a.toNat - 0xc0) * 64 + (b.toNat - 0x80))
              else match more with
                | c :: _ =>
                    if 0xe1 ≤ a && a ≤ 0xec && 0x80 ≤ b && b ≤ 0xbf && 0x80 ≤ c && c ≤ 0xbf then
                      some (3, ((a.toNat - 0xe0) * 64 + (b.toNat - 0x80)) * 64 + (c.toNat - 0x80))
                    else none
                | [] => none
          | [] => none
  graphemeBreak _ second state := (!(0x300 ≤ second && second ≤ 0x36f), state)
  charwidth cp :=
    if cp < 0x20 || (0x300 ≤ cp && cp ≤ 0x36f) then 0 else if 0x3041 ≤ cp && cp ≤ 0x3096 then 2 else 1
  iterate_length := by
    intro text len cp some_ found
    cases text with
    | nil => exact absurd rfl some_
    | cons a rest =>
      simp only at found
      split at found
      · cases found
        simp
      · split at found
        · split at found
          · cases found
            simp
          · split at found
            · split at found
              · cases found
                simp
              · cases found
            · cases found
        · cases found
  iterate_space := rfl
  charwidth_space := rfl

/-- A wide glyph and a letter in the second row of a part of the raster; the last wide glyph has no room. -/
theorem writeText_letter : ∃ col later grown,
    writeText basicUtf8proc { x := 1, y := 1, cols := 4, rows := 2 } ⟨0, 1⟩
      [0xe3, 0x81, 0x82, 0x61, 0xe3, 0x81, 0x82] (Raster.blank 6 3, GlyphTable.fresh.interns [[0xc3, 0xa9]]) =
        .ok (col, later, grown) ∧
    Left basicUtf8proc { x := 1, y := 1, cols := 4, rows := 2 } ⟨0, 1⟩
      [0xe3, 0x81, 0x82, 0x61, 0xe3, 0x81, 0x82] (Raster.blank 6 3) col later grown :=
  (writeText_iff basicUtf8proc (Raster.blank 6 3) [[0xc3, 0xa9]] [(⟨1, 1⟩, ⟨4, 2⟩)]
    { x := 1, y := 1, cols := 4, rows := 2 } rfl ⟨0, 1⟩ [0xe3, 0x81, 0x82, 0x61, 0xe3, 0x81, 0x82]).mpr
    (by decide +kernel)

/-- A letter with 128 accents on it is one cluster of 257 bytes. -/
theorem long_cluster_refused : ¬∃ col later grown, writeText basicUtf8proc (Raster.blank 1 1).view ⟨0, 0⟩
    (0x61 :: (replicate 128 [0xcc, 0x81]).flatten) (Raster.blank 1 1, GlyphTable.fresh) = .ok (col, later, grown) := by
  have failed : (writeText basicUtf8proc (Raster.blank 1 1).view ⟨0, 0⟩
      (0x61 :: (replicate 128 [0xcc, 0x81]).flatten) (Raster.blank 1 1, GlyphTable.fresh)).isOk = false := by
    decide +kernel
  rintro ⟨col, later, grown, done⟩
  rw [done] at failed
  cases failed

end Nxt.Ui
