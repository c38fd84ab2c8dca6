import Nxt.Ui.Escapes

/- The style tracker beside the terminal's pen: after the escapes of a run, the pen is that of the
   run's cells, whatever was selected, changed or reset before. -/
namespace Nxt.Ui
open Nxt.Lib List
variable {cs : Charset} {rows cols : Nat}
variable {obey : Bytes → Terminal cs rows cols → Terminal cs rows cols}

/-- The colour that the escape for `c` selects. -/
def emittedColor (c : Rgba8) : Color :=
  if c.isPalette then .palette c.paletteIndex else .rgb c.r c.g c.b

/-- The colour that a run of cells with colour `c` is drawn in. -/
def drawnColor (c : Rgba8) : Color := if c.isTerminalDefault then .default else emittedColor c

def StyleState.pen (style : StyleState) : Pen :=
  { fg := (style.fg.map emittedColor).getD .default, bg := (style.bg.map emittedColor).getD .default
    em := style.em.getD Emphasis.none }

namespace Written
variable {start t : Terminal cs rows cols} {w : Bytes}

theorem sgr (written : Written obey start w t) {params : List Nat} (some : params ≠ []) {pen : Pen}
    (selected : selectGraphics params t.pen = pen) :
    Written obey start (Writer.sgr w params) { t with pen } := by
  subst selected
  exact written.csi some (by decide)

theorem emitFg (written : Written obey start w t) (c : Rgba8) :
    Written obey start (emitFg w c) { t with pen := { t.pen with fg := emittedColor c } } := by
  unfold Ui.emitFg emittedColor
  split
  · refine written.sgr (cons_ne_nil _ _) ?_
    simp only [selectGraphics, UInt8.ofNat_toNat]
  · refine written.sgr (cons_ne_nil _ _) ?_
    simp only [selectGraphics, UInt8.ofNat_toNat]

theorem emitBg (written : Written obey start w t) (c : Rgba8) :
    Written obey start (emitBg w c) { t with pen := { t.pen with bg := emittedColor c } } := by
  unfold Ui.emitBg emittedColor
  split
  · refine written.sgr (cons_ne_nil _ _) ?_
    simp only [selectGraphics, UInt8.ofNat_toNat]
  · refine written.sgr (cons_ne_nil _ _) ?_
    simp only [selectGraphics, UInt8.ofNat_toNat]

end Written

/-- The attributes that are on once the codes of `e` among `codes` have been sent. -/
def turnedOn (codes : List (Emphasis × Nat)) (e before : Emphasis) : Emphasis :=
  codes.foldl (fun em p => if hasEmphasis e p.1 then em ||| graphicsBit p.2 else em) before

theorem turnedOn_joins (codes : List (Emphasis × Nat)) (e before : Emphasis) :
    turnedOn codes e before = before ||| turnedOn codes e 0 := by
  unfold turnedOn
  induction codes generalizing before with
  | nil => exact (BitVec.or_zero).symm
  | cons p rest ih =>
    rw [foldl_cons, foldl_cons, ih, ih (if hasEmphasis e p.1 then 0 ||| _ else 0)]
    split
    · simp only [BitVec.ofNat_eq_ofNat, BitVec.zero_or, BitVec.or_assoc]
    · simp only [BitVec.ofNat_eq_ofNat, BitVec.zero_or]

theorem turnedOn_emphasis (e : Emphasis) : turnedOn Writer.emphasisCodes e 0 = e := by
  revert e
  decide +kernel

theorem Written.codes {start : Terminal cs rows cols} (e : Emphasis) {list : List (Emphasis × Nat)}
    (known : ∀ p ∈ list, p ∈ Writer.emphasisCodes) {w : Bytes} {t : Terminal cs rows cols}
    (written : Written obey start w t) :
    Written obey start (list.foldl (fun w p => if hasEmphasis e p.1 then Writer.sgr w [p.2] else w) w)
      { t with pen := { t.pen with em := turnedOn list e t.pen.em } } := by
  induction list generalizing w t with
  | nil => exact written
  | cons p rest ih =>
    have tail := fun {w : Bytes} {t : Terminal cs rows cols} (written : Written obey start w t) =>
      ih (fun q later => known q (mem_cons_of_mem _ later)) written
    unfold turnedOn
    rw [foldl_cons, foldl_cons]
    split
    · have code : selectGraphics [p.2] t.pen = { t.pen with em := t.pen.em ||| graphicsBit p.2 } := by
        have one := known p mem_cons_self
        simp only [Writer.emphasisCodes, mem_cons, not_mem_nil, or_false] at one
        rcases one with rfl | rfl | rfl | rfl | rfl | rfl | rfl | rfl <;> rfl
      exact tail (written.sgr (cons_ne_nil _ _) code)
    · exact tail written

theorem Written.style {start t : Terminal cs rows cols} {w : Bytes} (written : Written obey start w t)
    (e : Emphasis) :
    Written obey start (Writer.style w e) { t with pen := { t.pen with em := t.pen.em ||| e } } := by
  have all := @Written.codes _ _ _ _ _ e Writer.emphasisCodes (fun _ inside => inside) _ _ written
  rw [turnedOn_joins, turnedOn_emphasis] at all
  exact all

structure Tracks (s : Emission) (style : StyleState) (t : Terminal cs rows cols) : Prop where
  fg : s.currentFg = style.fg
  bg : s.currentBg = style.bg
  pen : t.pen = style.pen

def RawChange.pen (raw : RawChange) : Pen :=
  { fg := drawnColor raw.fg, bg := drawnColor raw.bg, em := raw.em }

theorem colorDelta_cases (state : Option Rgba8) (c : Rgba8) :
    colorDelta state c = (true, none, none) ∨ colorDelta state c = (false, some c, some c) ∨
      colorDelta state c = (false, none, state) := by
  unfold colorDelta
  split_ifs
  · exact .inl rfl
  · exact .inr (.inl rfl)
  · exact .inr (.inr rfl)

theorem colorDelta_drawn (state : Option Rgba8) (c : Rgba8) :
    ((colorDelta state c).2.2.map emittedColor).getD .default = drawnColor c := by
  unfold colorDelta drawnColor
  cases default : c.isTerminalDefault with
  | true => cases state <;> rfl
  | false =>
    by_cases same : some c = state
    · subst same
      simp
    · simp [same]

theorem apply_pen (style : StyleState) (raw : RawChange) : (style.apply raw).2.pen = raw.pen := by
  unfold StyleState.pen RawChange.pen
  have fg : (style.apply raw).2.fg = (colorDelta style.fg raw.fg).2.2 := rfl
  have bg : (style.apply raw).2.bg = (colorDelta style.bg raw.bg).2.2 := rfl
  have em : (style.apply raw).2.em.getD Emphasis.none = raw.em := by
    show (if raw.em == Emphasis.none then none else some raw.em).getD Emphasis.none = raw.em
    by_cases none : raw.em = Emphasis.none
    · rw [if_pos (beq_iff_eq.mpr none), none]
      rfl
    · rw [if_neg (fun same => none (beq_iff_eq.mp same))]
      rfl
  rw [fg, bg, em, colorDelta_drawn, colorDelta_drawn]

theorem emphasis_absorbs {a b : Emphasis} (inside : a &&& b = a) : a ||| b = b := by
  rw [← inside]
  ext i low
  simp

section Runs
variable {start t : Terminal cs rows cols} {s : Emission} {style : StyleState}

section
variable (written : Written obey start s.w t)
include written

theorem afterReset_written (tracks : Tracks s style t)
    (emReset : Bool) :
    ∃ t', Written obey start (s.afterReset emReset).w t' ∧ t' = { t with pen := { t.pen with
      em := if emReset then Emphasis.none else t.pen.em } } ∧
      (s.afterReset emReset).currentFg = s.currentFg ∧
      (s.afterReset emReset).currentBg = s.currentBg := by
  cases emReset with
  | false => exact ⟨t, written, rfl, rfl, rfl⟩
  | true =>
    refine ⟨_, ?_, rfl, rfl, rfl⟩
    have cleared : Written obey start (Writer.reset s.w) { t with pen := {} } :=
      written.sgr (cons_ne_nil _ _) rfl
    have colors := tracks.pen
    unfold StyleState.pen at colors
    rw [← tracks.fg, ← tracks.bg] at colors
    rw [colors]
    unfold Emission.afterReset
    cases s.currentFg with
    | none =>
      cases s.currentBg with
      | none => exact cleared
      | some bg => exact cleared.emitBg bg
    | some fg =>
      cases s.currentBg with
      | none => exact cleared.emitFg fg
      | some bg => exact (cleared.emitFg fg).emitBg bg

theorem updateBg_written {raw : RawChange}
    (bg : s.currentBg = style.bg) (pen : t.pen.bg = (style.bg.map emittedColor).getD .default) :
    Written obey start (s.updateBg (style.apply raw).1).w
        { t with pen := { t.pen with bg := drawnColor raw.bg } } ∧
      (s.updateBg (style.apply raw).1).currentBg = (style.apply raw).2.bg ∧
      (s.updateBg (style.apply raw).1).currentFg = s.currentFg := by
  have reset : (style.apply raw).1.bgReset = (colorDelta style.bg raw.bg).1 := rfl
  have change : (style.apply raw).1.bgChange = (colorDelta style.bg raw.bg).2.1 := rfl
  have next : (style.apply raw).2.bg = (colorDelta style.bg raw.bg).2.2 := rfl
  have drawn := colorDelta_drawn style.bg raw.bg
  unfold Emission.updateBg
  rw [reset, change, next]
  rcases colorDelta_cases style.bg raw.bg with delta | delta | delta
  · rw [delta] at drawn ⊢
    rw [← drawn]
    exact ⟨written.sgr (cons_ne_nil _ _) rfl, rfl, rfl⟩
  · rw [delta] at drawn ⊢
    rw [← drawn]
    exact ⟨written.emitBg raw.bg, rfl, rfl⟩
  · rw [delta] at drawn ⊢
    rw [← drawn, ← pen]
    exact ⟨written, bg, rfl⟩

theorem updateFg_written {raw : RawChange}
    (fg : s.currentFg = style.fg) (pen : t.pen.fg = (style.fg.map emittedColor).getD .default) :
    Written obey start (s.updateFg (style.apply raw).1).w
        { t with pen := { t.pen with fg := drawnColor raw.fg } } ∧
      (s.updateFg (style.apply raw).1).currentFg = (style.apply raw).2.fg ∧
      (s.updateFg (style.apply raw).1).currentBg = s.currentBg := by
  have reset : (style.apply raw).1.fgReset = (colorDelta style.fg raw.fg).1 := rfl
  have change : (style.apply raw).1.fgChange = (colorDelta style.fg raw.fg).2.1 := rfl
  have next : (style.apply raw).2.fg = (colorDelta style.fg raw.fg).2.2 := rfl
  have drawn := colorDelta_drawn style.fg raw.fg
  unfold Emission.updateFg
  rw [reset, change, next]
  rcases colorDelta_cases style.fg raw.fg with delta | delta | delta
  · rw [delta] at drawn ⊢
    rw [← drawn]
    exact ⟨written.sgr (cons_ne_nil _ _) rfl, rfl, rfl⟩
  · rw [delta] at drawn ⊢
    rw [← drawn]
    exact ⟨written.emitFg raw.fg, rfl, rfl⟩
  · rw [delta] at drawn ⊢
    rw [← drawn, ← pen]
    exact ⟨written, fg, rfl⟩

theorem updateEm_written {raw : RawChange}
    (pen : t.pen.em = if (style.apply raw).1.emReset then Emphasis.none
      else style.em.getD Emphasis.none) :
    Written obey start (s.updateEm (style.apply raw).1).w
        { t with pen := { t.pen with em := raw.em } } ∧
      (s.updateEm (style.apply raw).1).currentFg = s.currentFg ∧
      (s.updateEm (style.apply raw).1).currentBg = s.currentBg := by
  have reset : (style.apply raw).1.emReset = style.em.any fun em => em &&& raw.em != em := rfl
  have change : (style.apply raw).1.emChange =
    if raw.em != Emphasis.none && some raw.em != style.em then some raw.em else none := rfl
  have keep : t.pen.em = raw.em → Written obey start s.w { t with pen := { t.pen with em := raw.em } } := by
    intro same
    rw [← same]
    exact written
  have turn : t.pen.em ||| raw.em = raw.em →
      Written obey start (Writer.style s.w raw.em) { t with pen := { t.pen with em := raw.em } } := by
    intro same
    have all := written.style raw.em
    rw [same] at all
    exact all
  unfold Emission.updateEm
  rw [change]
  rw [reset] at pen
  by_cases none : raw.em = Emphasis.none
  · rw [if_neg (by simp [none])]
    refine ⟨keep ?_, rfl, rfl⟩
    rw [pen, none]
    cases em : style.em with
    | none => rfl
    | some e =>
      by_cases zero : e = Emphasis.none
      · simp [zero]
      · have dropped : (e &&& Emphasis.none != e) = true := by
          simp [Emphasis.none] at zero ⊢
          exact Ne.symm zero
        simp [dropped]
  · by_cases same : some raw.em = style.em
    · rw [if_neg (by simp [same])]
      refine ⟨keep ?_, rfl, rfl⟩
      rw [pen, ← same]
      simp
    · rw [if_pos (by simp [none, same])]
      refine ⟨turn ?_, rfl, rfl⟩
      rw [pen]
      cases em : style.em with
      | none => exact BitVec.zero_or
      | some e =>
        by_cases inside : e &&& raw.em = e
        · have kept : (Option.any (fun em => em &&& raw.em != em) (some e)) = false := by
            simp [inside]
          rw [kept]
          exact emphasis_absorbs inside
        · have dropped : (Option.any (fun em => em &&& raw.em != em) (some e)) = true := by
            simp [inside]
          rw [dropped]
          exact BitVec.zero_or

theorem styled_written (tracks : Tracks s style t)
    (raw : RawChange) {rowOffset : Nat} (row : raw.origin.y + rowOffset < rows) (col : raw.origin.x < cols) :
    let t' : Terminal cs rows cols :=
      { t with cursor := ⟨raw.origin.x, raw.origin.y + rowOffset⟩, pen := raw.pen }
    Written obey start (s.styled (style.apply raw).1 rowOffset).w t' ∧
      Tracks (s.styled (style.apply raw).1 rowOffset) (style.apply raw).2 t' := by
  have moved : Written obey start (Writer.moveTo s.w ⟨raw.origin.x, raw.origin.y + rowOffset⟩)
      { t with cursor := ⟨raw.origin.x, raw.origin.y + rowOffset⟩ } := by
    have at_ := @Written.csi _ _ _ _ _ _ _ written [raw.origin.y + rowOffset + 1, raw.origin.x + 1]
      (cons_ne_nil _ _) 0x48 (by decide)
    have cursor : t.control [raw.origin.y + rowOffset + 1, raw.origin.x + 1] 0x48 =
        { t with cursor := ⟨raw.origin.x, raw.origin.y + rowOffset⟩ } := by
      show { t with cursor := (⟨min (raw.origin.x + 1 - 1) (cols - 1),
        min (raw.origin.y + rowOffset + 1 - 1) (rows - 1)⟩ : Pos) } = _
      rw [Nat.add_sub_cancel, Nat.add_sub_cancel, Nat.min_eq_left (by omega), Nat.min_eq_left (by omega)]
    rw [cursor] at at_
    exact at_
  obtain ⟨t1, reset, rfl, fg1, bg1⟩ := afterReset_written
    (s := { s with w := Writer.moveTo s.w ⟨raw.origin.x, raw.origin.y + rowOffset⟩ })
    moved ⟨tracks.fg, tracks.bg, tracks.pen⟩ (style.apply raw).1.emReset
  have pen := tracks.pen
  unfold StyleState.pen at pen
  obtain ⟨back, bg2, fg2⟩ := updateBg_written reset (bg1.trans tracks.bg)
    (by rw [pen])
  obtain ⟨fore, fg3, bg3⟩ := updateFg_written back
    (fg2.trans (fg1.trans tracks.fg)) (by rw [pen])
  obtain ⟨em, fg4, bg4⟩ := updateEm_written fore (by rw [pen])
  intro t'
  refine ⟨em, ?_, ?_, ?_⟩
  · exact fg4.trans fg3
  · exact bg4.trans (bg3.trans bg2)
  · exact (apply_pen style raw).symm

end

end Runs
end Nxt.Ui
