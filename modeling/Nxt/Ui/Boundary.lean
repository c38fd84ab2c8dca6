import Nxt.Ui.Text

/- Moving in a text by clusters (utf8.hpp). The boundaries are what stepping from the start of the text comes to. -/
namespace Nxt.Ui
open Nxt.Lib

section Moves
variable (u : Utf8proc)

/-- The loop of `prev`: the cluster that reaches `byte`. -/
def prevFrom (text : Bytes) (byte b : Nat) : Nat :=
  if _more : b < text.length then
    if byte ≤ next u text b then b else prevFrom text byte (next u text b)
  else text.length
  termination_by text.length - b
  decreasing_by
    have bounds := next_bounds u _more
    omega

def prev (text : Bytes) (byte : Nat) : Nat :=
  let byte := min byte text.length
  if byte = 0 then 0 else prevFrom u text byte 0

/-- The loop of `floor_boundary`, whose `boundary` is `b` at each turn. -/
def floorFrom (text : Bytes) (byte b : Nat) : Nat :=
  if _more : b < text.length then
    if byte < next u text b then b else floorFrom text byte (next u text b)
  else text.length
  termination_by text.length - b
  decreasing_by
    have bounds := next_bounds u _more
    omega

def floorBoundary (text : Bytes) (byte : Nat) : Nat :=
  if text.length ≤ byte then text.length else floorFrom u text byte 0

def Boundary (text : Bytes) (byte : Nat) : Prop := ∃ k, (next u text)^[k] 0 = byte

end Moves

section Boundaries
variable {u : Utf8proc} {text : Bytes} {b byte : Nat}

theorem next_end (past : text.length ≤ b) : next u text b = text.length := if_pos past

theorem next_le (b : Nat) : next u text b ≤ text.length := by
  by_cases inside : b < text.length
  · exact (next_bounds u inside).2
  · exact (next_end (by omega)).le

theorem boundary_zero : Boundary u text 0 := ⟨0, rfl⟩

theorem Boundary.step (on : Boundary u text b) : Boundary u text (next u text b) := by
  obtain ⟨k, rfl⟩ := on
  exact ⟨k + 1, Function.iterate_succ_apply' _ _ _⟩

theorem Boundary.le (on : Boundary u text b) : b ≤ text.length := by
  obtain ⟨k, rfl⟩ := on
  cases k with
  | zero => exact Nat.zero_le _
  | succ k =>
    rw [Function.iterate_succ_apply']
    exact next_le _

theorem Boundary.le_next (on : Boundary u text b) : b ≤ next u text b := by
  rcases Nat.lt_or_eq_of_le on.le with inside | rfl
  · exact (next_bounds u inside).1.le
  · exact (next_end le_rfl).ge

theorem iterate_mono (u : Utf8proc) (text : Bytes) : Monotone fun k => (next u text)^[k] 0 := by
  refine monotone_nat_of_le_succ ?_
  intro k
  have on : Boundary u text ((next u text)^[k] 0) := ⟨k, rfl⟩
  rw [Function.iterate_succ_apply']
  exact on.le_next

theorem Boundary.next_le_of_lt {c : Nat} (on : Boundary u text b) (on' : Boundary u text c) (less : b < c) :
    next u text b ≤ c := by
  obtain ⟨i, rfl⟩ := on
  obtain ⟨j, rfl⟩ := on'
  have order : i + 1 ≤ j := by
    by_contra later
    have back := iterate_mono u text (show j ≤ i by omega)
    exact absurd less (not_lt.mpr back)
  have forth := iterate_mono u text order
  dsimp only at forth
  rw [Function.iterate_succ_apply'] at forth
  exact forth

theorem floorFrom_spec (on : Boundary u text b) (after : b ≤ byte) (inside : byte < text.length) : Boundary u text
    (floorFrom u text byte b) ∧ floorFrom u text byte b ≤ byte ∧ byte < next u text (floorFrom u text byte b) := by
  induction b using floorFrom.induct u text byte with
  | case1 b more stop =>
    rw [floorFrom, dif_pos more, if_pos stop]
    exact ⟨on, after, stop⟩
  | case2 b more on_ ih =>
    rw [floorFrom, dif_pos more, if_neg on_]
    exact ih on.step (by omega)
  | case3 b done => omega

theorem floorBoundary_spec (inside : byte < text.length) :
    Boundary u text (floorBoundary u text byte) ∧ floorBoundary u text byte ≤ byte ∧
      byte < next u text (floorBoundary u text byte) := by
  unfold floorBoundary
  rw [if_neg (by omega)]
  exact floorFrom_spec boundary_zero (Nat.zero_le _) inside

theorem boundary_end : Boundary u text text.length := by
  by_contra none_
  have below : ∀ k, k ≤ (next u text)^[k] 0 := by
    intro k
    induction k with
    | zero => exact Nat.zero_le _
    | succ k ih =>
      have on : Boundary u text ((next u text)^[k] 0) := ⟨k, rfl⟩
      have inside : (next u text)^[k] 0 < text.length := lt_of_le_of_ne on.le fun same => none_ (same ▸ on)
      rw [Function.iterate_succ_apply']
      exact Nat.succ_le_of_lt (lt_of_le_of_lt ih (next_bounds u inside).1)
  have on : Boundary u text ((next u text)^[text.length + 1] 0) := ⟨_, rfl⟩
  have far := below (text.length + 1)
  have near := on.le
  omega

theorem floorBoundary_boundary (byte : Nat) : Boundary u text (floorBoundary u text byte) := by
  by_cases inside : byte < text.length
  · exact (floorBoundary_spec inside).1
  · unfold floorBoundary
    rw [if_pos (by omega)]
    exact boundary_end

theorem floorBoundary_iff (least : byte ≤ text.length) : floorBoundary u text byte = byte ↔ Boundary u text byte := by
  constructor
  · intro same
    rw [← same]
    exact floorBoundary_boundary byte
  · intro on
    rcases Nat.lt_or_eq_of_le least with inside | rfl
    · obtain ⟨floor, before, after⟩ := floorBoundary_spec (u := u) inside
      by_contra other
      have near := floor.next_le_of_lt on (by omega)
      omega
    · exact if_pos le_rfl

theorem prevFrom_spec {start : Nat} (on : Boundary u text start) (target : Boundary u text byte) (after : start < byte) :
    Boundary u text (prevFrom u text byte start) ∧ next u text (prevFrom u text byte start) = byte ∧
      prevFrom u text byte start < byte := by
  induction start using prevFrom.induct u text byte with
  | case1 b more stop =>
    rw [prevFrom, dif_pos more, if_pos stop]
    exact ⟨on, le_antisymm (on.next_le_of_lt target after) stop, after⟩
  | case2 b more on_ ih =>
    rw [prevFrom, dif_pos more, if_neg on_]
    exact ih on.step (by omega)
  | case3 b done =>
    have most := target.le
    omega

theorem prev_spec (on : Boundary u text byte) (some_ : 0 < byte) :
    Boundary u text (prev u text byte) ∧ next u text (prev u text byte) = byte ∧ prev u text byte < byte := by
  unfold prev
  dsimp only
  rw [Nat.min_eq_left on.le, if_neg (by omega)]
  exact prevFrom_spec boundary_zero on some_

end Boundaries

end Nxt.Ui
