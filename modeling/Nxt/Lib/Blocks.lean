import Mathlib

/- Input taken in blocks of one size: the blocks are folded as they become whole, and what is not yet
   a block waits. However the input is cut, what is folded and what waits depend on the whole only. -/
namespace Nxt.Lib
open List
variable {α σ : Type}

/-- A number of blocks from the front. -/
def blocks (n : Nat) : Nat → List α → List (List α)
  | 0, _ => []
  | k + 1, xs => xs.take n :: blocks n k (xs.drop n)

def foldBlocks (step : σ → List α → σ) (n : Nat) (s : σ) (xs : List α) : σ :=
  (blocks n (xs.length / n) xs).foldl step s

def absorb (step : σ → List α → σ) (n : Nat) : Nat → σ → List α → σ × List α
  | 0, s, xs => (s, xs)
  | fuel + 1, s, xs => if n ≤ xs.length then absorb step n fuel (step s (xs.take n)) (xs.drop n) else (s, xs)

def feedBlocks (step : σ → List α → σ) (n : Nat) (s : σ) (waiting input : List α) : σ × List α :=
  let (s, waiting, input) :=
    if waiting.length ≠ 0 then
      let room := min input.length (n - waiting.length)
      let waiting := waiting ++ input.take room
      if waiting.length = n then (step s waiting, [], input.drop room) else (s, waiting, input.drop room)
    else (s, waiting, input)
  let (s, input) := absorb step n input.length s input
  (s, if input.isEmpty then waiting else input)

section Folding
variable {step : σ → List α → σ} {n : Nat}

theorem foldBlocks_nil (s : σ) : foldBlocks step n s [] = s := by
  unfold foldBlocks
  rw [length_nil, Nat.zero_div]
  rfl

theorem foldBlocks_block (some_ : 0 < n) {s : σ} {block : List α} (whole : block.length = n) (rest : List α) :
    foldBlocks step n s (block ++ rest) = foldBlocks step n (step s block) rest := by
  unfold foldBlocks
  rw [length_append, whole, Nat.add_comm, Nat.add_div_right _ some_, blocks, ← whole, take_left, drop_left]
  rfl

theorem foldBlocks_append (some_ : 0 < n) {s : σ} {front : List α} (k : Nat) (whole : front.length = n * k)
    (rest : List α) : foldBlocks step n s (front ++ rest) = foldBlocks step n (foldBlocks step n s front) rest := by
  induction k generalizing s front with
  | zero =>
    have empty : front = [] := eq_nil_of_length_eq_zero (by rw [whole, Nat.mul_zero])
    rw [empty, nil_append, foldBlocks_nil]
  | succ k ih =>
    have block : (front.take n).length = n := by
      rw [length_take, whole, Nat.mul_succ]
      omega
    have later : (front.drop n).length = n * k := by
      rw [length_drop, whole, Nat.mul_succ]
      omega
    rw [← take_append_drop n front, append_assoc, foldBlocks_block some_ block, ih later,
      foldBlocks_block some_ block]

structure Fed (step : σ → List α → σ) (n : Nat) (init : σ) (input : List α) (s : σ) (waiting : List α) : Prop where
  short : waiting.length < n
  front : ∃ front k, input = front ++ waiting ∧ front.length = n * k ∧ s = foldBlocks step n init front

theorem Fed.start (some_ : 0 < n) (init : σ) : Fed step n init [] init [] :=
  ⟨some_, [], 0, rfl, rfl, (foldBlocks_nil init).symm⟩

theorem Fed.block {init s : σ} {front block : List α} {k : Nat} (some_ : 0 < n) (length : front.length = n * k)
    (folded : s = foldBlocks step n init front) (whole : block.length = n) :
    step s block = foldBlocks step n init (front ++ block) := by
  have one := @foldBlocks_block _ _ step n some_ s block whole []
  rw [append_nil, foldBlocks_nil] at one
  rw [foldBlocks_append some_ k length, ← folded, one]

theorem absorb_fed (some_ : 0 < n) {init s : σ} {front xs : List α} {k fuel : Nat} (length : front.length = n * k)
    (folded : s = foldBlocks step n init front) (enough : xs.length ≤ fuel) :
    Fed step n init (front ++ xs) (absorb step n fuel s xs).1 (absorb step n fuel s xs).2 := by
  induction fuel generalizing s front xs k with
  | zero =>
    have empty : xs = [] := eq_nil_of_length_eq_zero (Nat.le_zero.mp enough)
    subst empty
    exact ⟨some_, front, k, rfl, length, folded⟩
  | succ fuel ih =>
    rw [absorb]
    by_cases more : n ≤ xs.length
    · rw [if_pos more]
      have whole : (xs.take n).length = n := length_take_of_le more
      have next := @ih (step s (xs.take n)) (front ++ xs.take n) (xs.drop n) (k + 1)
        (by rw [length_append, length, whole, Nat.mul_succ]) (Fed.block some_ length folded whole)
        (by rw [length_drop]; omega)
      rwa [append_assoc, take_append_drop] at next
    · rw [if_neg more]
      exact ⟨Nat.lt_of_not_le more, front, k, rfl, length, folded⟩

theorem nil_if_empty (xs : List α) : (if xs.isEmpty then [] else xs) = xs := by
  cases xs with
  | nil => rfl
  | cons x xs => rfl

theorem Fed.feed (some_ : 0 < n) {init s : σ} {input waiting : List α} (fed : Fed step n init input s waiting)
    (more : List α) : Fed step n init (input ++ more) (feedBlocks step n s waiting more).1
      (feedBlocks step n s waiting more).2 := by
  obtain ⟨front, k, rfl, length, folded⟩ := fed.front
  have short := fed.short
  unfold feedBlocks
  by_cases empty : waiting.length ≠ 0
  · rw [if_pos empty]
    dsimp only
    by_cases full : (waiting ++ more.take (min more.length (n - waiting.length))).length = n
    · rw [if_pos full]
      dsimp only
      generalize min more.length (n - waiting.length) = room at full
      have next := @absorb_fed _ _ step n some_ init _ (front ++ (waiting ++ more.take room)) (more.drop room) (k + 1) _
        (by rw [length_append, length, full, Nat.mul_succ]) (Fed.block some_ length folded full) le_rfl
      have joined : front ++ (waiting ++ more.take room) ++ more.drop room = front ++ waiting ++ more := by
        simp only [append_assoc, take_append_drop]
      rw [joined] at next
      rw [nil_if_empty]
      exact next
    · rw [if_neg full]
      -- all of the input waits
      have room : min more.length (n - waiting.length) = more.length := by
        rw [length_append, length_take] at full
        omega
      rw [room, take_length, drop_length]
      rw [room, take_length] at full
      refine ⟨?_, front, k, append_assoc .., length, folded⟩
      show (waiting ++ more).length < n
      rw [length_append] at full ⊢
      omega
  · have none_ : waiting = [] := eq_nil_of_length_eq_zero (not_not.mp empty)
    rw [if_neg empty, none_, append_nil]
    dsimp only
    rw [nil_if_empty]
    exact absorb_fed some_ length folded le_rfl

end Folding

end Nxt.Lib
