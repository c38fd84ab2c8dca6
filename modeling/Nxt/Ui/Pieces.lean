import Nxt.Ui.Formed
import Nxt.Ui.Slots

/- What drawing in a view may change, and views whose rows are whole. A view that is drawn part by part is whole, as no
   glyph of a part reaches out of it. -/
namespace Nxt.Ui
open Nxt.Lib

def View.Has (v : View) (y x : Nat) : Prop := v.y ≤ y ∧ y < v.y + v.rows ∧ v.x ≤ x ∧ x < v.x + v.cols

structure View.Inside (part v : View) : Prop where
  left_ : v.x ≤ part.x
  right_ : part.x + part.cols ≤ v.x + v.cols
  top_ : v.y ≤ part.y
  bottom_ : part.y + part.rows ≤ v.y + v.rows

theorem View.Inside.has {part v : View} (inside : part.Inside v) {y x : Nat} (has : part.Has y x) : v.Has y x := by
  obtain ⟨left_, right_, top_, bottom_⟩ := inside
  unfold Has at has ⊢
  omega

theorem View.Inside.refl (v : View) : v.Inside v := ⟨le_rfl, le_rfl, le_rfl, le_rfl⟩

theorem View.Inside.trans {part middle v : View} (first : part.Inside middle) (second : middle.Inside v) :
    part.Inside v where
  left_ := second.left_.trans first.left_
  right_ := first.right_.trans second.right_
  top_ := second.top_.trans first.top_
  bottom_ := first.bottom_.trans second.bottom_

theorem View.Inside.within {part v : View} (inside : part.Inside v) {raster : Raster} (within : v.Within raster) :
    part.Within raster := by
  obtain ⟨left_, right_, top_, bottom_⟩ := inside
  unfold Within at within ⊢
  omega

structure Redrawn (v : View) (s later : Raster × GlyphTable) : Prop where
  width : later.1.width = s.1.width
  height : later.1.height = s.1.height
  outside : ∀ y x, ¬v.Has y x → later.1.cell? y x = s.1.cell? y x
  more : s.2.interned <+: later.2.interned
  short : s.2.Short → later.2.Short

namespace Redrawn
variable {v part : View} {s later last : Raster × GlyphTable}

theorem refl (v : View) (s : Raster × GlyphTable) : Redrawn v s s :=
  ⟨rfl, rfl, fun _ _ _ => rfl, List.prefix_refl _, id⟩

theorem trans (first : Redrawn v s later) (second : Redrawn v later last) : Redrawn v s last where
  width := second.width.trans first.width
  height := second.height.trans first.height
  outside y x out := (second.outside y x out).trans (first.outside y x out)
  more := first.more.trans second.more
  short := second.short ∘ first.short

theorem widen (drawn : Redrawn part s later) (inside : part.Inside v) : Redrawn v s later where
  width := drawn.width
  height := drawn.height
  outside y x out := drawn.outside y x fun has => out (inside.has has)
  more := drawn.more
  short := drawn.short

theorem within (drawn : Redrawn v s later) {other : View} (within : other.Within s.1) : other.Within later.1 := by
  unfold View.Within
  rw [drawn.width, drawn.height]
  exact within

theorem text? (drawn : Redrawn v s later) {y x : Nat} (out : ¬v.Has y x) {text : Bytes}
    (at_ : s.1.text? s.2 y x = some text) : later.1.text? later.2 y x = some text := by
  refine Raster.text?_grown drawn.more ?_
  unfold Raster.text?
  rw [drawn.outside y x out]
  exact at_

end Redrawn

namespace View

def Blank (v : View) (raster : Raster) : Prop :=
  ∀ y x, v.Has y x → (raster.cell? y x).map Cell.glyph = some 32

def Closed (u : Utf8proc) (v : View) (s : Raster × GlyphTable) : Prop :=
  ∀ y, v.y ≤ y → y < v.y + v.rows → FormedPiece u s.2 s.1 y v.x (v.x + v.cols)

variable {u : Utf8proc} {v part : View} {s later : Raster × GlyphTable}

theorem space_text? {raster : Raster} {y x : Nat} (space : (raster.cell? y x).map Cell.glyph = some 32)
    (table : GlyphTable) : raster.text? table y x = some [0x20] := by
  obtain ⟨cell, here, glyph⟩ := Option.map_eq_some_iff.mp space
  unfold Raster.text?
  rw [here, Option.bind_some, glyph]
  rfl

theorem Blank.closed (blank : v.Blank s.1) : v.Closed u s := fun y top_ bottom_ =>
  .of_spaces fun x from_ to_ => space_text? (blank y x ⟨top_, bottom_, from_, to_⟩) s.2

theorem Blank.inside (blank : v.Blank s.1) (inside : part.Inside v) : part.Blank s.1 :=
  fun y x has => blank y x (inside.has has)

theorem Blank.keep (blank : v.Blank s.1) (drawn : Redrawn part s later) (apart : ∀ y x, v.Has y x → ¬part.Has y x) :
    v.Blank later.1 := by
  intro y x has
  rw [drawn.outside y x (apart y x has)]
  exact blank y x has

theorem Closed.keep (closed : v.Closed u s) (drawn : Redrawn part s later) (apart : ∀ y x, v.Has y x → ¬part.Has y x) :
    v.Closed u later := fun y top_ bottom_ =>
  (closed y top_ bottom_).keep fun x from_ to_ _ at_ => drawn.text? (apart y x ⟨top_, bottom_, from_, to_⟩) at_

theorem Closed.widen (closed : part.Closed u later) (drawn : Redrawn part s later) (inside : part.Inside v)
    (blank : v.Blank s.1) : v.Closed u later := by
  intro y top_ bottom_
  have spaces : ∀ {a b : Nat}, v.x ≤ a → b ≤ v.x + v.cols → (∀ x, a ≤ x → x < b → ¬part.Has y x) →
      FormedPiece u later.2 later.1 y a b := by
    intro a b left_ right_ apart
    refine .of_spaces fun x from_ to_ => drawn.text? (apart x from_ to_) ?_
    exact space_text? (blank y x ⟨top_, bottom_, by omega, by omega⟩) s.2
  obtain ⟨left_, right_, -, -⟩ := inside
  by_cases row : part.y ≤ y ∧ y < part.y + part.rows
  · have first : FormedPiece u later.2 later.1 y v.x part.x :=
      spaces le_rfl (by omega) fun x _ to_ has => by
        unfold Has at has
        omega
    have last : FormedPiece u later.2 later.1 y (part.x + part.cols) (v.x + v.cols) :=
      spaces (by omega) le_rfl fun x from_ _ has => by
        unfold Has at has
        omega
    exact (first.append (closed y row.1 row.2) left_ (by omega)).append last (by omega) right_
  · refine spaces le_rfl le_rfl fun x _ _ has => ?_
    unfold Has at has
    omega

end View

def Axis.strip (axis : Axis) (v : View) (a b : Nat) : View :=
  match axis with
  | .row => { v with x := v.x + a, cols := b - a }
  | .column => { v with y := v.y + a, rows := b - a }

namespace Axis
variable {u : Utf8proc} {axis : Axis} {v part : View} {s : Raster × GlyphTable} {a b c d : Nat}

theorem strip_all (axis : Axis) (v : View) : axis.strip v 0 (axis.edge v) = v := by
  cases axis <;> rfl

theorem strip_inside (ab : a ≤ b) (bc : b ≤ c) (cd : c ≤ d) : (axis.strip v b c).Inside (axis.strip v a d) := by
  cases axis
  · dsimp only [strip]
    constructor <;> dsimp only <;> omega
  · dsimp only [strip]
    constructor <;> dsimp only <;> omega

theorem strip_apart (bc : b ≤ c) {y x : Nat} (has : (axis.strip v a b).Has y x) : ¬(axis.strip v c d).Has y x := by
  unfold View.Has at *
  cases axis
  · dsimp only [strip] at *
    omega
  · dsimp only [strip] at *
    omega

theorem strip_apart' (bc : b ≤ c) {y x : Nat} (has : (axis.strip v c d).Has y x) : ¬(axis.strip v a b).Has y x :=
  fun other => strip_apart bc other has

theorem strip_join (ab : a ≤ b) (bc : b ≤ c) (first : (axis.strip v a b).Closed u s)
    (second : (axis.strip v b c).Closed u s) : (axis.strip v a c).Closed u s := by
  intro y top_ bottom_
  cases axis
  · dsimp only [strip] at *
    have left_ := first y top_ bottom_
    have right_ := second y top_ bottom_
    dsimp only at left_ right_
    rw [show v.x + a + (b - a) = v.x + b by omega] at left_
    rw [show v.x + b + (c - b) = v.x + a + (c - a) by omega] at right_
    exact left_.append right_ (by omega) (by omega)
  · dsimp only [strip] at *
    by_cases above : y < v.y + b
    · exact first y top_ (by dsimp only; omega)
    · exact second y (by dsimp only; omega) (by dsimp only; omega)

theorem strip_subraster {size : Size} {cursor extent : Nat}
    (made : v.subraster (axis.pos cursor) (axis.childSize size extent) = some part) :
    min cursor (axis.edge v) ≤ min ((cursor + extent) % 2 ^ 64) (axis.edge v) ∧
      part.Inside (axis.strip v (min cursor (axis.edge v)) (min ((cursor + extent) % 2 ^ 64) (axis.edge v))) := by
  have ends := (subraster_iff axis v size cursor extent).mp ⟨part, made⟩
  refine ⟨by omega, ?_⟩
  unfold View.subraster at made
  dsimp only at made
  split at made
  · cases made
  · cases made
    cases axis
    · dsimp only [pos, childSize, edge, strip] at *
      constructor <;> dsimp only <;> omega
    · dsimp only [pos, childSize, edge, strip] at *
      constructor <;> dsimp only <;> omega

end Axis

end Nxt.Ui
