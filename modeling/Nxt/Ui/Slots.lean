import Nxt.Ui.Layout

/- The rectangles that a container gives its children. A child starts where the one before it ends, modulo `2 ^ 64`, and
   so they are in order and apart just when no start wraps. -/
namespace Nxt.Ui
open Nxt.Lib List

/-- Where a container puts the children it renders: the cursor and the extent of each. -/
def slots (turn : Layout → Nat → Turn) : List Layout → Nat → List (Nat × Nat)
  | [], _ => []
  | child :: rest, cursor =>
      match turn child cursor with
      | .skip => slots turn rest cursor
      | .stop => []
      | .give extent => (cursor, extent) :: slots turn rest ((cursor + extent) % 2 ^ 64)

def Axis.edge (axis : Axis) (v : View) : Nat :=
  match axis with
  | .row => v.cols
  | .column => v.rows

structure Call where
  kind : Container
  children : List Layout
  view : View
  size : Size

section Calls
variable (u : Utf8proc)

mutual

def Layout.calls : Layout → View → Size → List Call
  | .lineText _ _ _, _, _ => []
  | .styledText _, _, _ => []
  | .styledLines _ _, _, _ => []
  | .fill _, _, _ => []
  | .hfill _ _, _, _ => []
  | .flexFill _, _, _ => []
  | .empty, _, _ => []
  | .container kind children, v, size =>
      ⟨kind, children, v, size⟩ :: childrenCalls kind.axis (kind.turn u children size) v size children 0
  | .surface _ child, v, size => child.calls v size
  | .fixedHeight _ child, v, size => child.calls v size
  | .fixedWidth _ child, v, size => child.calls v size
  | .growWidth _ child, v, size => child.calls v size
  | .oneOf chosen, v, size => chosen.calls v size

def childrenCalls (axis : Axis) (turn : Layout → Nat → Turn) (v : View) (size : Size) : List Layout → Nat → List Call
  | [], _ => []
  | child :: rest, cursor =>
      match turn child cursor with
      | .skip => childrenCalls axis turn v size rest cursor
      | .stop => []
      | .give extent =>
          match v.subraster (axis.pos cursor) (axis.childSize size extent) with
          | none => []
          | some part => child.calls part (axis.childSize size extent) ++
              childrenCalls axis turn v size rest ((cursor + extent) % 2 ^ 64)

end

namespace Call

def slots (call : Call) : List (Nat × Nat) := Ui.slots (call.kind.turn u call.children call.size) call.children 0

def before (call : Call) (k : Nat) : Nat := (((call.slots u).take k).map Prod.snd).sum

/-- What the rectangles of a container are: those of a stack in order and apart, and in the extent there is when the
    minima are; and each a part of the view. -/
structure Inside (call : Call) : Prop where
  apart : ∀ axis, call.kind = .stack axis → (call.slots u).Pairwise fun a b => a.1 + a.2 ≤ b.1
  shared : ∀ axis, call.kind = .stack axis →
    (call.children.map fun child => (axis.main u child).min).sum ≤ axis.extent call.size →
      ((call.slots u).map Prod.snd).sum ≤ axis.extent call.size
  parts : ∀ slot ∈ call.slots u, ∃ part,
    call.view.subraster (call.kind.axis.pos slot.1) (call.kind.axis.childSize call.size slot.2) = some part

/-- No child of a stack starts past `2 ^ 64`, and none ends, modulo that, before it starts in the view. -/
structure Unwrapped (call : Call) : Prop where
  starts : ∀ axis, call.kind = .stack axis → ∀ k < (call.slots u).length, call.before u k < 2 ^ 64
  ends : ∀ k < (call.slots u).length,
    min (call.before u k % 2 ^ 64) (call.kind.axis.edge call.view) ≤ call.before u (k + 1) % 2 ^ 64

end Call

end Calls

section Shares

theorem floors_le (weights : List NNRat) (n : Nat) (whole : NNRat) :
    (weights.map fun weight => ⌊(n : NNRat) * (weight / whole)⌋₊).sum ≤ ⌊(n : NNRat) * (weights.sum / whole)⌋₊ := by
  induction weights with
  | nil => exact Nat.zero_le _
  | cons weight rest ih =>
    rw [map_cons, sum_cons, sum_cons]
    refine (Nat.add_le_add_left ih _).trans (Nat.le_floor ?_)
    rw [Nat.cast_add, add_div, mul_add]
    exact add_le_add (Nat.floor_le zero_le) (Nat.floor_le zero_le)

namespace SizeHint

theorem foldl_add (hints : List SizeHint) (start : SizeHint) :
    (hints.foldl add start).min = (start.min + (hints.map SizeHint.min).sum) % 2 ^ 64 ∧
      (hints.foldl add start).flex = start.flex + (hints.map SizeHint.flex).sum := by
  induction hints generalizing start with
  | nil => exact ⟨(Nat.mod_eq_of_lt start.small).symm, (add_zero _).symm⟩
  | cons hint rest ih =>
    obtain ⟨least, weight⟩ := ih (start.add hint)
    rw [foldl_cons, least, weight, map_cons, map_cons, sum_cons, sum_cons]
    refine ⟨?_, add_assoc _ _ _⟩
    show ((start.min + hint.min) % 2 ^ 64 + _) % 2 ^ 64 = _
    omega

theorem total_min (hints : List SizeHint) : (total hints).min = (hints.map SizeHint.min).sum % 2 ^ 64 := by
  unfold total
  rw [(foldl_add hints _).1]
  exact congrArg (· % 2 ^ 64) (Nat.zero_add _)

theorem total_flex (hints : List SizeHint) : (total hints).flex = (hints.map SizeHint.flex).sum := by
  unfold total
  rw [(foldl_add hints _).2]
  exact zero_add _

end SizeHint

theorem allocateMainExtent_le (hint total : SizeHint) (available : Nat) :
    allocateMainExtent hint total available ≤
        hint.min + ⌊((available - total.min : Nat) : NNRat) * (hint.flex / total.flex)⌋₊ := by
  unfold allocateMainExtent
  dsimp only
  by_cases more : total.min < available
  · rw [if_pos more]
    split
    · exact Nat.mod_le _ _
    · exact Nat.le_add_right _ _
  · rw [if_neg more, if_neg fun shares => lt_irrefl 0 shares.2.2]
    exact Nat.le_add_right _ _

theorem allocateMainExtent_small (hint total : SizeHint) (available : Nat) :
    allocateMainExtent hint total available < 2 ^ 64 := by
  have wrapped := wrapped_small
    (hint.min + ⌊((if total.min < available then available - total.min else 0 : Nat) : NNRat) * (hint.flex / total.flex)⌋₊)
  unfold allocateMainExtent
  by_cases shares : 0 < hint.flex ∧ 0 < total.flex ∧ 0 < if total.min < available then available - total.min else 0
  · exact (if_pos shares).trans_lt wrapped
  · exact (if_neg shares).trans_lt hint.small

theorem allocateMainExtent_sum (hints : List SizeHint) {available : Nat} (small : available < 2 ^ 64)
    (room : (hints.map SizeHint.min).sum ≤ available) :
    (hints.map fun hint => allocateMainExtent hint (.total hints) available).sum ≤ available := by
  have least : (SizeHint.total hints).min = (hints.map SizeHint.min).sum := by
    rw [SizeHint.total_min, Nat.mod_eq_of_lt (by omega)]
  have shares := floors_le (hints.map SizeHint.flex) (available - (SizeHint.total hints).min) (SizeHint.total hints).flex
  have whole : ⌊((available - (SizeHint.total hints).min : Nat) : NNRat) *
      ((hints.map SizeHint.flex).sum / (SizeHint.total hints).flex)⌋₊ ≤ available - (SizeHint.total hints).min := by
    refine Nat.floor_le_of_le (mul_le_of_le_one_right zero_le ?_)
    rw [SizeHint.total_flex]
    exact div_self_le_one _
  have each_ := sum_le_sum fun hint (_ : hint ∈ hints) =>
    allocateMainExtent_le hint (.total hints) available
  rw [sum_map_add] at each_
  rw [map_map] at shares
  have both := each_.trans (Nat.add_le_add_left (shares.trans whole) _)
  omega

end Shares

section Chains

def Chained : Nat → List (Nat × Nat) → Prop
  | _, [] => True
  | cursor, slot :: rest => slot.1 = cursor ∧ Chained ((cursor + slot.2) % 2 ^ 64) rest

theorem slots_chained (turn : Layout → Nat → Turn) (children : List Layout) (cursor : Nat) :
    Chained cursor (slots turn children cursor) := by
  induction children generalizing cursor with
  | nil => trivial
  | cons child rest ih =>
    rw [slots]
    split
    · exact ih cursor
    · trivial
    · exact ⟨rfl, ih _⟩

theorem Chained.start {cursor k : Nat} {slot : Nat × Nat} {placed : List (Nat × Nat)} (chained : Chained cursor placed)
    (small : cursor < 2 ^ 64) (at_ : placed[k]? = some slot) :
    slot.1 = (cursor + ((placed.take k).map Prod.snd).sum) % 2 ^ 64 := by
  induction placed generalizing cursor k with
  | nil => cases at_
  | cons first rest ih =>
    cases k with
    | zero =>
      cases at_
      rw [chained.1]
      exact (Nat.mod_eq_of_lt small).symm
    | succ k =>
      rw [getElem?_cons_succ] at at_
      rw [ih chained.2 (wrapped_small _) at_, take_succ_cons, map_cons, sum_cons]
      omega

theorem Chained.apart_iff {cursor : Nat} {placed : List (Nat × Nat)} (chained : Chained cursor placed)
    (small : cursor < 2 ^ 64) : (placed.Pairwise fun a b => a.1 + a.2 ≤ b.1) ↔
      ∀ k < placed.length, cursor + ((placed.take k).map Prod.snd).sum < 2 ^ 64 := by
  induction placed generalizing cursor with
  | nil => exact iff_of_true List.Pairwise.nil fun k none_ => absurd none_ (Nat.not_lt_zero k)
  | cons first rest ih =>
    obtain ⟨start, tail⟩ := chained
    have rest_iff := ih tail (wrapped_small _)
    rw [pairwise_cons, rest_iff]
    constructor
    · rintro ⟨after, unwrapped⟩ k inside
      cases k with
      | zero => exact small
      | succ k =>
        have some_ : 0 < rest.length := by
          rw [length_cons] at inside
          omega
        obtain ⟨second, others, rfl⟩ := exists_cons_of_length_pos some_
        have next := after second mem_cons_self
        have own := tail.1
        have rest_ := unwrapped k (Nat.lt_of_succ_lt_succ inside)
        rw [take_succ_cons, map_cons, sum_cons]
        omega
    · intro unwrapped
      have inner : ∀ k < rest.length, (cursor + first.2) % 2 ^ 64 + ((rest.take k).map Prod.snd).sum < 2 ^ 64 := by
        intro k inside
        have sum := unwrapped (k + 1) (Nat.succ_lt_succ inside)
        rw [take_succ_cons, map_cons, sum_cons] at sum
        omega
      refine ⟨fun other held => ?_, inner⟩
      obtain ⟨k, at_⟩ := getElem?_of_mem held
      have inside := (List.getElem?_eq_some_iff.mp at_).1
      have own := tail.start (wrapped_small _) at_
      rw [Nat.mod_eq_of_lt (inner k inside)] at own
      have first_ := unwrapped 1 (Nat.succ_lt_succ (Nat.zero_lt_of_lt inside))
      rw [take_succ_cons, take_zero, map_cons, map_nil, sum_cons, sum_nil] at first_
      omega

end Chains

section Calls
variable {u : Utf8proc} {call : Call}

theorem slots_stackTurn (axis : Axis) (all children : List Layout) (size : Size) (cursor : Nat) :
    ((slots (stackTurn u axis all size) children cursor).map Prod.snd).sum =
      (children.map fun child => allocateMainExtent (axis.main u child) (.total (all.map (axis.main u)))
        (axis.extent size)).sum := by
  induction children generalizing cursor with
  | nil => rfl
  | cons child rest ih =>
    rw [slots, stackTurn, map_cons, sum_cons]
    by_cases none_ : allocateMainExtent (axis.main u child) (.total (all.map (axis.main u))) (axis.extent size) = 0
    · rw [if_pos none_, none_, Nat.zero_add]
      exact ih cursor
    · rw [if_neg none_]
      dsimp only
      rw [map_cons, sum_cons, ih]

theorem Axis.extent_small (axis : Axis) {size : Size} (w : size.w < 2 ^ 64) (h : size.h < 2 ^ 64) :
    axis.extent size < 2 ^ 64 := by
  cases axis
  · exact w
  · exact h

theorem subraster_iff (axis : Axis) (v : View) (size : Size) (cursor extent : Nat) :
    (∃ part, v.subraster (axis.pos cursor) (axis.childSize size extent) = some part) ↔
      min cursor (axis.edge v) ≤ (cursor + extent) % 2 ^ 64 := by
  unfold View.subraster
  dsimp only
  constructor
  · rintro ⟨part, made⟩
    split at made
    · cases made
    · cases axis
      · dsimp only [Axis.pos, Axis.childSize, Axis.edge] at *
        omega
      · dsimp only [Axis.pos, Axis.childSize, Axis.edge] at *
        omega
  · intro ends
    rw [if_neg]
    · exact ⟨_, rfl⟩
    · cases axis
      · dsimp only [Axis.pos, Axis.childSize, Axis.edge] at *
        omega
      · dsimp only [Axis.pos, Axis.childSize, Axis.edge] at *
        omega

theorem Call.chained (u : Utf8proc) (call : Call) : Chained 0 (call.slots u) := slots_chained _ _ 0

theorem Call.parts_iff : (∀ slot ∈ call.slots u, ∃ part,
      call.view.subraster (call.kind.axis.pos slot.1) (call.kind.axis.childSize call.size slot.2) = some part) ↔
    ∀ k < (call.slots u).length,
      min (call.before u k % 2 ^ 64) (call.kind.axis.edge call.view) ≤ call.before u (k + 1) % 2 ^ 64 := by
  have place : ∀ {k : Nat} {slot : Nat × Nat}, (call.slots u)[k]? = some slot →
      slot.1 = call.before u k % 2 ^ 64 ∧ (slot.1 + slot.2) % 2 ^ 64 = call.before u (k + 1) % 2 ^ 64 := by
    intro k slot at_
    have start := (call.chained u).start (by decide) at_
    rw [Nat.zero_add] at start
    refine ⟨start, ?_⟩
    have next : call.before u (k + 1) = call.before u k + slot.2 := by
      unfold Call.before
      rw [take_add_one, at_, Option.toList_some, map_append, sum_append]
      rfl
    rw [next, start]
    show (call.before u k % 2 ^ 64 + slot.2) % 2 ^ 64 = _
    omega
  constructor
  · intro parts k inside
    have at_ := getElem?_eq_getElem inside
    obtain ⟨start, end_⟩ := place at_
    have ends := (subraster_iff _ _ _ _ _).mp (parts _ (getElem_mem inside))
    rwa [end_, start] at ends
  · intro ends slot held
    obtain ⟨k, at_⟩ := getElem?_of_mem held
    obtain ⟨start, end_⟩ := place at_
    refine (subraster_iff _ _ _ _ _).mpr ?_
    rw [end_, start]
    exact ends k (List.getElem?_eq_some_iff.mp at_).1

theorem Call.inside_iff (w : call.size.w < 2 ^ 64) (h : call.size.h < 2 ^ 64) : call.Inside u ↔ call.Unwrapped u := by
  have apart := (call.chained u).apart_iff (by decide)
  simp only [Nat.zero_add] at apart
  constructor
  · intro inside
    exact ⟨fun axis kind => apart.mp (inside.apart axis kind), Call.parts_iff.mp inside.parts⟩
  · intro unwrapped
    refine ⟨fun axis kind => apart.mpr (unwrapped.starts axis kind), fun axis kind room => ?_,
      Call.parts_iff.mpr unwrapped.ends⟩
    have sum := allocateMainExtent_sum (call.children.map (axis.main u)) (axis.extent_small w h) (by
      rw [map_map]
      exact room)
    unfold Call.slots Container.turn
    rw [kind]
    dsimp only
    rw [slots_stackTurn]
    rwa [map_map] at sum

theorem Container.turn_small {kind : Container} {children : List Layout} {size : Size} {child : Layout}
    {cursor extent : Nat} (given : kind.turn u children size child cursor = .give extent) : extent < 2 ^ 64 := by
  cases kind with
  | stack axis =>
    unfold turn stackTurn at given
    dsimp only at given
    split at given
    · cases given
    · cases given
      exact allocateMainExtent_small _ _ _
  | each =>
    unfold turn eachTurn at given
    dsimp only at given
    split at given
    · cases given
    · split at given
      · cases given
      · cases given
        exact child.heightHint.small
  | list =>
    unfold turn listTurn at given
    dsimp only at given
    split at given
    · cases given
    · cases given
      decide

theorem Axis.childSize_small (axis : Axis) {size : Size} {extent : Nat} (w : size.w < 2 ^ 64) (h : size.h < 2 ^ 64)
    (small : extent < 2 ^ 64) : (axis.childSize size extent).w < 2 ^ 64 ∧ (axis.childSize size extent).h < 2 ^ 64 := by
  cases axis
  · exact ⟨small, h⟩
  · exact ⟨w, small⟩

mutual

theorem Layout.calls_small : ∀ (layout : Layout) (v : View) {size : Size}, size.w < 2 ^ 64 → size.h < 2 ^ 64 →
    ∀ call ∈ layout.calls u v size, call.size.w < 2 ^ 64 ∧ call.size.h < 2 ^ 64
  | .lineText _ _ _, _, _, _, _ => fun _ held => absurd held not_mem_nil
  | .styledText _, _, _, _, _ => fun _ held => absurd held not_mem_nil
  | .styledLines _ _, _, _, _, _ => fun _ held => absurd held not_mem_nil
  | .fill _, _, _, _, _ => fun _ held => absurd held not_mem_nil
  | .hfill _ _, _, _, _, _ => fun _ held => absurd held not_mem_nil
  | .flexFill _, _, _, _, _ => fun _ held => absurd held not_mem_nil
  | .empty, _, _, _, _ => fun _ held => absurd held not_mem_nil
  | .container kind children, v, _, w, h => by
      rw [Layout.calls]
      exact forall_mem_cons.mpr ⟨⟨w, h⟩, childrenCalls_small _ v w h Container.turn_small children 0⟩
  | .surface _ child, v, _, w, h => child.calls_small v w h
  | .fixedHeight _ child, v, _, w, h => child.calls_small v w h
  | .fixedWidth _ child, v, _, w, h => child.calls_small v w h
  | .growWidth _ child, v, _, w, h => child.calls_small v w h
  | .oneOf chosen, v, _, w, h => chosen.calls_small v w h

theorem childrenCalls_small (axis : Axis) {turn : Layout → Nat → Turn} (v : View) {size : Size}
    (w : size.w < 2 ^ 64) (h : size.h < 2 ^ 64)
    (small : ∀ {child : Layout} {cursor extent : Nat}, turn child cursor = .give extent → extent < 2 ^ 64) :
    ∀ (children : List Layout) (cursor : Nat), ∀ call ∈ childrenCalls u axis turn v size children cursor,
      call.size.w < 2 ^ 64 ∧ call.size.h < 2 ^ 64
  | [], _ => fun _ held => absurd held not_mem_nil
  | child :: rest, cursor => by
      rw [childrenCalls]
      cases given : turn child cursor with
      | skip => exact childrenCalls_small axis v w h small rest cursor
      | stop => exact fun _ held => absurd held not_mem_nil
      | give extent =>
        dsimp only
        cases v.subraster (axis.pos cursor) (axis.childSize size extent) with
        | none => exact fun _ held => absurd held not_mem_nil
        | some part =>
          have child_small := axis.childSize_small w h (small given)
          refine forall_mem_append.mpr ⟨child.calls_small part child_small.1 child_small.2, ?_⟩
          exact childrenCalls_small axis v w h small rest _

end

end Calls

end Nxt.Ui
