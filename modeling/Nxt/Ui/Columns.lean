import Nxt.Ui.Boundary
import Nxt.Ui.Written

/- Columns of a text and its bytes (utf8.hpp), and the clusters of a piece of a text between two boundaries, which are
   those of the text. -/
namespace Nxt.Ui
open Nxt.Lib List

structure Utf8proc.Local (u : Utf8proc) : Prop where
  extend : ∀ {text more : Bytes} {found : Nat × Nat}, text ≠ [] → u.iterate text = some found →
    u.iterate (text ++ more) = some found
  restrict : ∀ {text more : Bytes} {len cp : Nat}, u.iterate (text ++ more) = some (len, cp) → 0 < len →
    len ≤ text.length → u.iterate text = some (len, cp)

section Columns
variable (u : Utf8proc)

def cluster (text : Bytes) (b : Nat) : Bytes := (text.drop b).take (next u text b - b)

def columnFrom (text : Bytes) (byte b col : Nat) : Nat :=
  if _more : b < byte ∧ b < text.length then
    columnFrom text byte (next u text b) (col + clusterWidth u (cluster u text b))
  else col
  termination_by text.length - b
  decreasing_by
    have bounds := next_bounds u _more.2
    omega

def columnAt (text : Bytes) (byte : Nat) : Nat := columnFrom u text (floorBoundary u text byte) 0 0

/-- The loop of `display_width`. -/
def displayFrom (text : Bytes) (b width : Nat) : Nat :=
  if _more : b < text.length then displayFrom text (next u text b) (width + clusterWidth u (cluster u text b))
  else width
  termination_by text.length - b
  decreasing_by
    have bounds := next_bounds u _more
    omega

def displayWidth (text : Bytes) : Nat := displayFrom u text 0 0

/-- The loop of `byte_at_column`. -/
def byteFrom (text : Bytes) (column b col : Nat) : Nat :=
  if _more : b < text.length then
    let n := next u text b
    let w := clusterWidth u (cluster u text b)
    if col + w > column then b
    else if col + w ≥ column then n
    else byteFrom text column n (col + w)
  else text.length
  termination_by text.length - b
  decreasing_by
    have bounds := next_bounds u _more
    omega

def byteAtColumn (text : Bytes) (column : Nat) : Nat := byteFrom u text column 0 0

end Columns

section Steps
variable {u : Utf8proc} {text : Bytes} {b byte : Nat}

theorem columnFrom_step (on : Boundary u text b) (target : Boundary u text byte) (order : b ≤ byte)
    (inside : byte < text.length) (col : Nat) : columnFrom u text (next u text byte) b col =
      columnFrom u text byte b col + clusterWidth u (cluster u text byte) := by
  have after := (next_bounds u inside).1
  induction b, col using columnFrom.induct u text byte with
  | case1 b col more ih =>
    rw [columnFrom, dif_pos ⟨by omega, more.2⟩]
    nth_rewrite 2 [columnFrom]
    rw [dif_pos more]
    exact ih on.step (on.next_le_of_lt target more.1)
  | case2 b col done =>
    obtain rfl : b = byte := by omega
    have stop (col : Nat) : columnFrom u text (next u text b) (next u text b) col = col := by
      rw [columnFrom, dif_neg fun more => absurd more.1 (lt_irrefl _)]
    rw [columnFrom, dif_pos ⟨after, inside⟩, stop, columnFrom, dif_neg done]

theorem columnAt_zero : columnAt u text 0 = 0 := by
  have zero : floorBoundary u text 0 = 0 := (floorBoundary_iff (Nat.zero_le _)).mpr boundary_zero
  rw [columnAt, zero, columnFrom, dif_neg fun more => absurd more.1 (lt_irrefl _)]

theorem columnAt_next (on : Boundary u text b) (inside : b < text.length) :
    columnAt u text (next u text b) = columnAt u text b + clusterWidth u (cluster u text b) := by
  have floor := (floorBoundary_iff on.le).mpr on
  have floor' := (floorBoundary_iff on.step.le).mpr on.step
  rw [columnAt, columnAt, floor, floor']
  exact columnFrom_step boundary_zero on (Nat.zero_le _) inside 0

theorem columnAt_mono {c : Nat} (on : Boundary u text b) (on' : Boundary u text c) (order : b ≤ c) :
    columnAt u text b ≤ columnAt u text c := by
  induction size : text.length - b using Nat.strongRecOn generalizing b with
  | _ size' ih =>
    rcases Nat.eq_or_lt_of_le order with rfl | less
    · exact le_rfl
    · have inside : b < text.length := lt_of_lt_of_le less on'.le
      have bounds := next_bounds u inside
      have rest := ih (text.length - next u text b) (by omega) on.step (on.next_le_of_lt on' less) rfl
      have first := columnAt_next on inside
      omega

theorem columnAt_lt {c : Nat} (on : Boundary u text b) (on' : Boundary u text c) (less : b < c) :
    columnAt u text b < columnAt u text c := by
  have inside : b < text.length := lt_of_lt_of_le less on'.le
  have first := columnAt_next on inside
  have rest := columnAt_mono on.step on' (on.next_le_of_lt on' less)
  have positive := clusterWidth_pos u (cluster u text b)
  omega

theorem displayFrom_column (on : Boundary u text b) :
    displayFrom u text b (columnAt u text b) = columnAt u text text.length := by
  induction size : text.length - b using Nat.strongRecOn generalizing b with
  | _ size' ih =>
    by_cases inside : b < text.length
    · have bounds := next_bounds u inside
      rw [displayFrom, dif_pos inside, ← columnAt_next on inside]
      exact ih _ (by omega) on.step rfl
    · have end_ : b = text.length := le_antisymm on.le (by omega)
      rw [displayFrom, dif_neg inside, end_]

theorem displayWidth_column (text : Bytes) : displayWidth u text = columnAt u text text.length := by
  have whole := @displayFrom_column u text 0 boundary_zero
  rw [columnAt_zero] at whole
  exact whole

theorem byteFrom_spec {column : Nat} (on : Boundary u text b) (before : columnAt u text b ≤ column) :
    let r := byteFrom u text column b (columnAt u text b)
    Boundary u text r ∧ columnAt u text r ≤ column ∧ (r < text.length → column < columnAt u text (next u text r)) := by
  induction size : text.length - b using Nat.strongRecOn generalizing b with
  | _ size' ih =>
    rw [byteFrom]
    by_cases inside : b < text.length
    · have bounds := next_bounds u inside
      have step := columnAt_next on inside
      rw [dif_pos inside]
      dsimp only
      rw [← step]
      by_cases past : columnAt u text (next u text b) > column
      · rw [if_pos past]
        exact ⟨on, before, fun _ => past⟩
      · rw [if_neg past]
        by_cases there : columnAt u text (next u text b) ≥ column
        · rw [if_pos there]
          refine ⟨on.step, by omega, fun more => ?_⟩
          have later := columnAt_lt on.step on.step.step (next_bounds u more).1
          omega
        · rw [if_neg there]
          exact ih _ (by omega) on.step (by omega) rfl
    · have end_ : b = text.length := le_antisymm on.le (by omega)
      rw [dif_neg inside]
      exact ⟨boundary_end, end_ ▸ before, fun more => absurd more (lt_irrefl _)⟩

theorem byteAtColumn_spec (text : Bytes) (column : Nat) :
    Boundary u text (byteAtColumn u text column) ∧ columnAt u text (byteAtColumn u text column) ≤ column ∧
      (byteAtColumn u text column < text.length →
        column < columnAt u text (next u text (byteAtColumn u text column))) := by
  have whole := @byteFrom_spec u text 0 column boundary_zero
  rw [columnAt_zero] at whole
  exact whole (Nat.zero_le _)

theorem le_byteAtColumn (on : Boundary u text b) (column : Nat) :
    b ≤ byteAtColumn u text column ↔ columnAt u text b ≤ column := by
  obtain ⟨there, before, after⟩ := byteAtColumn_spec (u := u) text column
  constructor
  · exact fun order => (columnAt_mono on there order).trans before
  · intro order
    by_contra past
    have inside : byteAtColumn u text column < text.length := lt_of_lt_of_le (by omega) on.le
    have later := columnAt_mono there.step on (there.next_le_of_lt on (by omega))
    have covers := after inside
    omega

end Steps

section Slices
variable {u : Utf8proc} {text : Bytes} {s m i : Nat}

def slice (text : Bytes) (s m : Nat) : Bytes := (text.drop s).take m

theorem slice_length (inside : s + m ≤ text.length) : (slice text s m).length = m := by
  unfold slice
  rw [length_take, length_drop]
  omega

theorem slice_rest (text : Bytes) (s m i : Nat) :
    text.drop (s + i) = (slice text s m).drop i ++ (text.drop (s + i)).drop (m - i) := by
  have front : (slice text s m).drop i = (text.drop (s + i)).take (m - i) := by
    unfold slice
    rw [drop_take, drop_drop]
  rw [front, take_append_drop]

section
variable (local_ : u.Local) (inside : s + m ≤ text.length)
include local_ inside

theorem decode_slice (before : i < m) : decode u (slice text s m) i = decode u text (s + i) ∨
      (decode u (slice text s m) i).valid = false ∧ (decode u (slice text s m) i).length = 1 ∧
        (decode u text (s + i)).valid = true ∧ m < i + (decode u text (s + i)).length := by
  have length := slice_length inside
  have rest := slice_rest text s m i
  have some_ : (slice text s m).drop i ≠ [] := by
    rw [ne_eq, drop_eq_nil_iff, length]
    omega
  unfold decode
  rw [if_neg (by omega), if_neg (by omega)]
  cases short : u.iterate ((slice text s m).drop i) with
  | some found =>
    left
    rw [rest, local_.extend some_ short]
  | none =>
    cases long : u.iterate (text.drop (s + i)) with
    | none => exact .inl rfl
    | some found =>
      obtain ⟨len, cp⟩ := found
      right
      refine ⟨rfl, rfl, rfl, ?_⟩
      by_contra fits
      have far : text.drop (s + i) ≠ [] := by
        rw [ne_eq, drop_eq_nil_iff]
        omega
      have positive := (u.iterate_length far long).1
      rw [rest] at long
      have found := local_.restrict long positive (by rw [length_drop, length]; dsimp only at fits; omega)
      rw [short] at found
      cases found

theorem nextFrom_slice {current i : Nat} {state : Int} (before : i ≤ m)
    (whole : nextFrom u text current (s + i) state ≤ s + m) :
    s + nextFrom u (slice text s m) current i state = nextFrom u text current (s + i) state := by
  have length := slice_length inside
  induction size : m - i using Nat.strongRecOn generalizing i current state with
  | _ size' ih =>
    by_cases more : i < m
    · have far : s + i < text.length := by omega
      have bounds := decode_length u far
      rw [nextFrom, dif_pos far] at whole
      rw [nextFrom, dif_pos (by rw [length]; exact more), nextFrom, dif_pos far]
      dsimp only at whole ⊢
      rcases decode_slice local_ inside more with same | ⟨invalid, -, valid, long⟩
      · rw [same]
        by_cases invalid : (decode u text (s + i)).valid = false
        · rw [if_pos invalid, if_pos invalid]
        · rw [if_neg invalid] at whole ⊢
          rw [if_neg invalid]
          by_cases broken : (u.graphemeBreak current (decode u text (s + i)).codepoint state).1 = true
          · rw [if_pos broken, if_pos broken]
          · have least := (nextFrom_bounds u (decode u text (s + i)).codepoint
              (u.graphemeBreak current (decode u text (s + i)).codepoint state).2 bounds.2).1
            rw [if_neg broken] at whole ⊢
            rw [if_neg broken, Nat.add_assoc]
            rw [Nat.add_assoc] at whole least
            exact ih (m - (i + (decode u text (s + i)).length)) (by omega) (by omega) whole rfl
      · rw [if_pos invalid]
        have good : ¬(decode u text (s + i)).valid = false := by
          rw [valid]
          exact Bool.noConfusion
        rw [if_neg good] at whole ⊢
        by_cases broken : (u.graphemeBreak current (decode u text (s + i)).codepoint state).1 = true
        · rw [if_pos broken]
        · rw [if_neg broken] at whole
          have least := (nextFrom_bounds u (decode u text (s + i)).codepoint
            (u.graphemeBreak current (decode u text (s + i)).codepoint state).2 bounds.2).1
          omega
    · obtain rfl : i = m := by omega
      have least := (nextFrom_bounds u current state (show s + i ≤ text.length by omega)).1
      rw [nextFrom, dif_neg (by omega)]
      omega

theorem next_slice (before : i < m)
    (whole : next u text (s + i) ≤ s + m) : s + next u (slice text s m) i = next u text (s + i) := by
  have length := slice_length inside
  have far : s + i < text.length := by omega
  have bounds := decode_length u far
  rw [next, if_neg (show ¬text.length ≤ s + i by omega)] at whole
  rw [next, if_neg (show ¬(slice text s m).length ≤ i by omega), next, if_neg (show ¬text.length ≤ s + i by omega)]
  dsimp only at whole ⊢
  rcases decode_slice local_ inside before with same | ⟨-, -, valid, long⟩
  · rw [same]
    by_cases invalid : (decode u text (s + i)).valid = false
    · rw [if_pos invalid, if_pos invalid, Nat.add_assoc]
    · have least := (nextFrom_bounds u (decode u text (s + i)).codepoint 0 bounds.2).1
      rw [if_neg invalid] at whole ⊢
      rw [if_neg invalid, Nat.add_assoc]
      rw [Nat.add_assoc] at whole least
      exact nextFrom_slice local_ inside (by omega) whole
  · have good : ¬(decode u text (s + i)).valid = false := by
      rw [valid]
      exact Bool.noConfusion
    rw [if_neg good] at whole
    have least := (nextFrom_bounds u (decode u text (s + i)).codepoint 0 bounds.2).1
    omega

theorem cluster_slice (before : i < m)
    (whole : next u text (s + i) ≤ s + m) : cluster u (slice text s m) i = cluster u text (s + i) := by
  have same := next_slice local_ inside before whole
  have front : (slice text s m).drop i = (text.drop (s + i)).take (m - i) := by
    unfold slice
    rw [drop_take, drop_drop]
  have least := next_bounds u (show i < (slice text s m).length by rw [slice_length inside]; exact before)
  unfold cluster
  rw [front, take_take, Nat.min_eq_left (by omega)]
  congr 1
  omega

end

end Slices

section Fitting
variable {u : Utf8proc} {text : Bytes} {s e b : Nat}

theorem cluster_length (inside : b < text.length) : b + (cluster u text b).length = next u text b := by
  have bounds := next_bounds u inside
  unfold cluster
  rw [length_take, length_drop]
  omega

theorem fitting_reaches (local_ : u.Local) (last : Boundary u text e) (order : s ≤ e) (on : Boundary u text b)
    (after : s ≤ b) {c room : Nat} (target : Boundary u text c) (order' : b ≤ c) (most : c ≤ e)
    (fits : columnAt u text c - columnAt u text b ≤ room) :
    ∃ pre post, fitting u (slice text s (e - s)) (b - s) room = pre ++ post ∧
      b + pre.flatten.length = c ∧ columnAt u text b + extent u pre = columnAt u text c := by
  have inside : s + (e - s) ≤ text.length := by
    have le := last.le
    omega
  have length := slice_length inside
  induction size : c - b using Nat.strongRecOn generalizing b room with
  | _ size' ih =>
    rcases Nat.eq_or_lt_of_le order' with rfl | less
    · exact ⟨[], _, rfl, rfl, rfl⟩
    · have far : b < text.length := by
        have le := target.le
        omega
      have bounds := next_bounds u far
      have near := on.next_le_of_lt target less
      have step := columnAt_next on far
      have mono := columnAt_mono on.step target near
      have positive := clusterWidth_pos u (cluster u text b)
      have here : s + (b - s) = b := by omega
      have same := next_slice local_ inside (i := b - s) (by omega) (by rw [here]; omega)
      have bytes := cluster_slice local_ inside (i := b - s) (by omega) (by rw [here]; omega)
      rw [here] at same bytes
      obtain ⟨pre, post, rest, there, column⟩ := @ih (c - next u text b) (by omega) (next u text b) on.step (by omega)
        (room - clusterWidth u (cluster u text b)) near (by omega) rfl
      refine ⟨cluster u text b :: pre, post, ?_, ?_, ?_⟩
      · have next_ : next u (slice text s (e - s)) (b - s) = next u text b - s := by omega
        rw [fitting, dif_pos ⟨by omega, by omega⟩]
        dsimp only
        have cluster_ : ((slice text s (e - s)).drop (b - s)).take (next u (slice text s (e - s)) (b - s) - (b - s)) =
            cluster u text b := bytes
        rw [cluster_, if_neg (by omega), next_, rest]
        rfl
      · have long := cluster_length (u := u) far
        rw [flatten_cons, length_append]
        omega
      · rw [extent_cons]
        omega

theorem fitting_splits (local_ : u.Local) (last : Boundary u text e) (order : s ≤ e) (on : Boundary u text b)
    (after : s ≤ b) (before : b ≤ e) {room : Nat} {pre post : List Bytes}
    (split : fitting u (slice text s (e - s)) (b - s) room = pre ++ post) :
    Boundary u text (b + pre.flatten.length) ∧ b + pre.flatten.length ≤ e ∧ extent u pre ≤ room ∧
      columnAt u text b + extent u pre = columnAt u text (b + pre.flatten.length) := by
  have inside : s + (e - s) ≤ text.length := by
    have le := last.le
    omega
  have length := slice_length inside
  induction pre generalizing b room with
  | nil => exact ⟨on, before, Nat.zero_le _, rfl⟩
  | cons c pre ih =>
    rw [fitting] at split
    by_cases more : b - s < (slice text s (e - s)).length ∧ 0 < room
    · have far : b < text.length := by omega
      have bounds := next_bounds u far
      have near := on.next_le_of_lt last (by omega)
      have here : s + (b - s) = b := by omega
      have same := next_slice local_ inside (i := b - s) (by omega) (by rw [here]; omega)
      have bytes := cluster_slice local_ inside (i := b - s) (by omega) (by rw [here]; omega)
      rw [here] at same bytes
      have next_ : next u (slice text s (e - s)) (b - s) = next u text b - s := by omega
      have cluster_ : ((slice text s (e - s)).drop (b - s)).take (next u (slice text s (e - s)) (b - s) - (b - s)) =
          cluster u text b := bytes
      rw [dif_pos more] at split
      dsimp only at split
      rw [cluster_] at split
      by_cases wide : clusterWidth u (cluster u text b) > room
      · rw [if_pos wide] at split
        cases split
      · rw [if_neg wide, next_] at split
        obtain ⟨rfl, rest⟩ := cons.inj split
        obtain ⟨there, most, narrow, column⟩ := ih on.step (by omega) near rest
        have long := cluster_length (u := u) far
        have step := columnAt_next on far
        have reach : b + (cluster u text b :: pre).flatten.length = next u text b + pre.flatten.length := by
          rw [flatten_cons, length_append]
          omega
        rw [reach, extent_cons]
        exact ⟨there, most, by omega, by omega⟩
    · rw [dif_neg more] at split
      cases split

end Fitting

theorem basicUtf8proc_local : basicUtf8proc.Local where
  extend := by
    intro text more found some_ at_
    rcases text with _ | ⟨a, _ | ⟨b, _ | ⟨c, rest⟩⟩⟩
    · exact absurd rfl some_
    · by_cases low : a < 0x80
      · simpa [basicUtf8proc, low] using at_
      · simp [basicUtf8proc, low] at at_
    · by_cases low : a < 0x80
      · simpa [basicUtf8proc, low] using at_
      · simp only [basicUtf8proc, low, if_false, cons_append] at at_ ⊢
        split at at_
        · rename_i two
          rw [if_pos two]
          exact at_
        · cases at_
    · exact at_
  restrict := by
    intro text more len cp at_ positive fits
    rcases text with _ | ⟨a, _ | ⟨b, _ | ⟨c, rest⟩⟩⟩
    · exact absurd fits (by simp; omega)
    · by_cases low : a < 0x80
      · simpa [basicUtf8proc, low] using at_
      · rcases more with _ | ⟨b, _ | ⟨c, rest⟩⟩
        · exact at_
        · simp only [basicUtf8proc, low, if_false, cons_append, nil_append] at at_ 
          split at at_
          · cases at_
            exact absurd fits (show ¬2 ≤ 1 by decide)
          · cases at_
        · simp only [basicUtf8proc, low, if_false, cons_append, nil_append] at at_ 
          split at at_
          · cases at_
            exact absurd fits (show ¬2 ≤ 1 by decide)
          · split at at_
            · cases at_
              exact absurd fits (show ¬3 ≤ 1 by decide)
            · cases at_
    · by_cases low : a < 0x80
      · simpa [basicUtf8proc, low] using at_
      · rcases more with _ | ⟨c, rest⟩
        · exact at_
        · simp only [basicUtf8proc, low, if_false, cons_append, nil_append] at at_ ⊢
          split at at_
          · rename_i two
            rw [if_pos two]
            exact at_
          · split at at_
            · cases at_
              exact absurd fits (show ¬3 ≤ 2 by decide)
            · cases at_
    · exact at_

end Nxt.Ui
