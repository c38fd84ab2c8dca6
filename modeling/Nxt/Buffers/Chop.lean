import Nxt.Buffers.Ring

/- Frames over the visible chunks of a feed (buffer-core.hpp). A scanner sees a chunk view and answers with a frame and
   its extent, or with how much it has to see; the view finds the boundaries again on every walk. -/
namespace Nxt.Buffers
open List
variable {α Frame : Type}

/-- `buffer_chunks::subspan` to the end: chunks before the offset are skipped, the first one after it is cut. -/
def subspan : List (List α) → Nat → List (List α)
  | [], _ => []
  | chunk :: chunks, offset =>
      if chunk.length ≤ offset then subspan chunks (offset - chunk.length)
      else chunk.drop offset :: subspan chunks 0

structure FrameChop (Frame : Type) where
  extent : Nat
  frame : Frame
  deriving DecidableEq

/-- `chop_scan_result`: a complete frame, or how much stock has to be visible. -/
inductive ScanResult (Frame : Type) where
  | complete (chop : FrameChop Frame)
  | needMore (minimumBuffered : Nat)
  deriving DecidableEq

abbrev Scanner (α Frame : Type) := List (List α) → ScanResult Frame

/-- `chop_view::iterator::refresh`: the frame at an offset, if one is complete there. -/
def frameAt (scanner : Scanner α Frame) (stock : List (List α)) (offset : Nat) :
    Except String (Option (FrameChop Frame)) :=
  let suffix := subspan stock offset
  if suffix.flatten.length = 0 then .ok none
  else
    match scanner suffix with
    | .needMore _ => .ok none
    | .complete chop =>
        if chop.extent = 0 then .error "chop scanner returned zero extent"
        else if suffix.flatten.length < chop.extent then .error "chop scanner overreported extent"
        else .ok (some chop)

theorem subspan_flatten (stock : List (List α)) (offset : Nat) :
    (subspan stock offset).flatten = stock.flatten.drop offset := by
  induction stock generalizing offset with
  | nil => simp [subspan]
  | cons chunk chunks ih =>
    simp only [subspan]
    split
    · rename_i before
      rw [ih, flatten_cons, drop_append, drop_eq_nil_of_le before, nil_append]
    · rename_i inside
      rw [flatten_cons, ih, drop_zero, flatten_cons, drop_append, Nat.sub_eq_zero_of_le (by omega), drop_zero]

theorem frameAt_bounds {scanner : Scanner α Frame} {stock : List (List α)} {offset : Nat} {chop : FrameChop Frame}
    (found : frameAt scanner stock offset = .ok (some chop)) :
    0 < chop.extent ∧ offset + chop.extent ≤ stock.flatten.length := by
  simp only [frameAt, subspan_flatten, length_drop] at found
  split at found
  · cases found
  · split at found
    · cases found
    · split at found
      · cases found
      · split at found
        · cases found
        · simp only [Except.ok.injEq, Option.some.injEq] at found
          subst found
          omega

def framesFrom (scanner : Scanner α Frame) (stock : List (List α)) (offset : Nat) :
    Except String (List (FrameChop Frame)) :=
  match _ : frameAt scanner stock offset with
  | .error e => .error e
  | .ok none => .ok []
  | .ok (some chop) => (framesFrom scanner stock (offset + chop.extent)).map (chop :: ·)
termination_by stock.flatten.length - offset
decreasing_by
  rename_i found
  have := frameAt_bounds found
  omega

/-- `chop_view::has_at_least`: the walk stops at the frame that makes the count. -/
def hasAtLeast (scanner : Scanner α Frame) (stock : List (List α)) : Nat → Nat → Except String Bool
  | 0, _ => .ok true
  | n + 1, offset =>
      match frameAt scanner stock offset with
      | .error e => .error e
      | .ok none => .ok false
      | .ok (some chop) => hasAtLeast scanner stock n (offset + chop.extent)

/-- `reel::next_fill_target`: the amount the scanner asks for, counted from the front of the buffer, and at least one
    value more than is visible. -/
def nextFillTarget (scanner : Scanner α Frame) (stock : List (List α)) (offset : Nat) : Except String Nat :=
  if (subspan stock offset).flatten.length = 0 then .ok (offset + 1)
  else
    match scanner (subspan stock offset) with
    | .needMore minimum => .ok (max (offset + minimum) (stock.flatten.length + 1))
    | .complete chop =>
        if chop.extent = 0 then .error "chop scanner returned zero extent"
        else if (subspan stock offset).flatten.length < chop.extent then .error "chop scanner overreported extent"
        else nextFillTarget scanner stock (offset + chop.extent)
termination_by stock.flatten.length - offset
decreasing_by
  rename_i zero large
  rw [subspan_flatten, length_drop] at large
  omega

/-- A scanner that sees only the concatenation of its chunks, reports extents inside them, and keeps a frame when more
    stock follows. -/
structure Lawful (scanner : Scanner α Frame) : Prop where
  flat : ∀ {stock other}, stock.flatten = other.flatten → scanner stock = scanner other
  sound : ∀ {stock chop}, scanner stock = .complete chop → 0 < chop.extent ∧ chop.extent ≤ stock.flatten.length
  stable : ∀ {stock chop} (more), scanner stock = .complete chop → scanner (stock ++ more) = .complete chop

def chopped (scanner : Scanner α Frame) (stream : List α) : List (FrameChop Frame) :=
  match scanner [stream] with
  | .needMore _ => []
  | .complete chop =>
      if 0 < chop.extent ∧ chop.extent ≤ stream.length then chop :: chopped scanner (stream.drop chop.extent) else []
termination_by stream.length
decreasing_by
  rw [length_drop]
  omega

def extents (chops : List (FrameChop Frame)) : Nat := (chops.map FrameChop.extent).sum

/-- What a fill asks for with `buffer` visible: behind its last frame, as much as the scanner wants there, counted from
    the front of the buffer, and at least one value more than is visible. -/
def asked (scanner : Scanner α Frame) (buffer : List α) : Nat :=
  let offset := extents (chopped scanner buffer)
  if offset = buffer.length then offset + 1
  else
    match scanner [buffer.drop offset] with
    | .needMore minimum => max (offset + minimum) (buffer.length + 1)
    | .complete _ => buffer.length + 1

section Lawful
variable {scanner : Scanner α Frame}

variable {stream : List α} {chop : FrameChop Frame}

theorem chopped_more {minimum : Nat} (more : scanner [stream] = .needMore minimum) : chopped scanner stream = [] := by
  rw [chopped.eq_def, more]

section
variable (lawful : Lawful scanner)
include lawful

theorem Lawful.bounds (found : scanner [stream] = .complete chop) : 0 < chop.extent ∧ chop.extent ≤ stream.length := by
  have inside := lawful.sound found
  rwa [flatten_cons, flatten_nil, append_nil] at inside

theorem Lawful.chopped_complete (found : scanner [stream] = .complete chop) :
    chopped scanner stream = chop :: chopped scanner (stream.drop chop.extent) := by
  rw [chopped.eq_def, found]
  exact if_pos (lawful.bounds found)

theorem Lawful.chop_induction {motive : List α → Prop}
    (more : ∀ stream minimum, scanner [stream] = .needMore minimum → motive stream)
    (complete : ∀ stream chop, scanner [stream] = .complete chop → motive (stream.drop chop.extent) → motive stream)
    (stream : List α) : motive stream := by
  induction size : stream.length using Nat.strongRecOn generalizing stream with
  | ind n ih =>
    cases found : scanner [stream] with
    | needMore minimum => exact more stream minimum found
    | complete chop =>
      have inside := lawful.bounds found
      exact complete stream chop found (ih _ (by rw [length_drop]; omega) _ rfl)

theorem Lawful.chopped_nil : chopped scanner [] = [] := by
  cases found : scanner [([] : List α)] with
  | needMore minimum => exact chopped_more found
  | complete chop =>
    have inside := lawful.bounds found
    simp only [length_nil] at inside
    omega

theorem Lawful.extents_le (stream : List α) : extents (chopped scanner stream) ≤ stream.length := by
  induction stream using lawful.chop_induction with
  | more stream minimum found => simp [chopped_more found, extents]
  | complete stream chop found ih =>
    have inside := lawful.bounds found
    rw [length_drop] at ih
    simp only [lawful.chopped_complete found, extents, map_cons, sum_cons] at ih ⊢
    omega

theorem Lawful.chopped_append (buffer rest : List α) : chopped scanner buffer <+: chopped scanner (buffer ++ rest) := by
  induction buffer using lawful.chop_induction with
  | more buffer minimum found => simp [chopped_more found]
  | complete buffer chop found ih =>
    have inside := lawful.bounds found
    have kept : scanner [buffer ++ rest] = .complete chop := by
      rw [@Lawful.flat _ _ _ lawful [buffer ++ rest] ([buffer] ++ [rest]) (by simp)]
      exact lawful.stable _ found
    rw [lawful.chopped_complete found, lawful.chopped_complete kept, drop_append,
      Nat.sub_eq_zero_of_le inside.2, drop_zero]
    exact (prefix_cons_inj chop).mpr ih

end

theorem asked_more {buffer : List α} (some_ : buffer ≠ []) {minimum : Nat}
    (more : scanner [buffer] = .needMore minimum) : asked scanner buffer = max minimum (buffer.length + 1) := by
  have size := length_pos_iff.mpr some_
  simp only [asked, chopped_more more, extents, map_nil, sum_nil, drop_zero, more, Nat.zero_add]
  rw [if_neg (by omega)]

section
variable (lawful : Lawful scanner)
include lawful

theorem Lawful.asked_nil : asked scanner [] = 1 := by
  simp [asked, lawful.chopped_nil, extents]

theorem Lawful.asked_complete {buffer : List α} (found : scanner [buffer] = .complete chop) :
    asked scanner buffer = chop.extent + asked scanner (buffer.drop chop.extent) := by
  have inside := lawful.bounds found
  simp only [asked, lawful.chopped_complete found, extents, map_cons, sum_cons, length_drop, drop_drop]
  generalize ((chopped scanner (buffer.drop chop.extent)).map FrameChop.extent).sum = offset
  by_cases whole : chop.extent + offset = buffer.length
  · rw [if_pos whole, if_pos (by omega)]
    omega
  · rw [if_neg whole, if_neg (by omega)]
    cases scanner [buffer.drop (chop.extent + offset)] with
    | needMore minimum => simp only; omega
    | complete later => simp only; omega

theorem Lawful.asked_gt (buffer : List α) : buffer.length < asked scanner buffer := by
  induction buffer using lawful.chop_induction with
  | more buffer minimum found =>
    by_cases none_ : buffer = []
    · rw [none_, lawful.asked_nil]
      exact Nat.one_pos
    · rw [asked_more none_ found]
      omega
  | complete buffer chop found ih =>
    rw [lawful.asked_complete found]
    rw [length_drop] at ih
    omega

theorem Lawful.scan_subspan (stock : List (List α)) (offset : Nat) :
    scanner (subspan stock offset) = scanner [stock.flatten.drop offset] :=
  lawful.flat (by rw [subspan_flatten, flatten_cons, flatten_nil, append_nil])

theorem Lawful.frameAt_eq (stock : List (List α)) (offset : Nat) :
    frameAt scanner stock offset = .ok (chopped scanner (stock.flatten.drop offset)).head? := by
  simp only [frameAt, lawful.scan_subspan, subspan_flatten]
  split
  · rename_i end_
    rw [length_eq_zero_iff.mp end_, lawful.chopped_nil]
    rfl
  · cases found : scanner [stock.flatten.drop offset] with
    | needMore minimum => rw [chopped_more found]; rfl
    | complete chop =>
      have inside := lawful.bounds found
      rw [lawful.chopped_complete found]
      simp only
      rw [if_neg (by omega), if_neg (by omega)]
      rfl

theorem Lawful.chopped_cons {chops : List (FrameChop Frame)} (frames : chopped scanner stream = chop :: chops) :
    scanner [stream] = .complete chop ∧ chops = chopped scanner (stream.drop chop.extent) := by
  cases found : scanner [stream] with
  | needMore minimum =>
    rw [chopped_more found] at frames
    cases frames
  | complete first =>
    rw [lawful.chopped_complete found] at frames
    obtain ⟨rfl, rfl⟩ := cons.inj frames
    exact ⟨rfl, rfl⟩

theorem Lawful.hasAtLeast_eq (stock : List (List α)) (n offset : Nat) :
    hasAtLeast scanner stock n offset = .ok (decide (n ≤ (chopped scanner (stock.flatten.drop offset)).length)) := by
  induction n generalizing offset with
  | zero => simp [hasAtLeast]
  | succ n ih =>
    rw [hasAtLeast, lawful.frameAt_eq]
    cases frames : chopped scanner (stock.flatten.drop offset) with
    | nil => simp
    | cons chop chops =>
      obtain ⟨-, rfl⟩ := lawful.chopped_cons frames
      simp only [head?_cons]
      rw [ih, drop_drop, length_cons]
      simp

theorem Lawful.framesFrom_eq (stock : List (List α)) (offset : Nat) :
    framesFrom scanner stock offset = .ok (chopped scanner (stock.flatten.drop offset)) := by
  induction left : stock.flatten.length - offset using Nat.strongRecOn generalizing offset with
  | ind n ih =>
    have first := lawful.frameAt_eq stock offset
    rw [framesFrom.eq_def]
    cases frames : chopped scanner (stock.flatten.drop offset) with
    | nil =>
      rw [frames] at first
      split
      · rename_i failed; rw [first] at failed; cases failed
      · rfl
      · rename_i found; rw [first] at found; cases found
    | cons chop chops =>
      obtain ⟨found, rfl⟩ := lawful.chopped_cons frames
      have inside := lawful.bounds found
      rw [length_drop] at inside
      rw [frames] at first
      split
      · rename_i failed; rw [first] at failed; cases failed
      · rename_i none_; rw [first] at none_; cases none_
      · rename_i other same
        rw [first] at same
        obtain rfl : chop = other := by simpa using same
        rw [ih _ (by omega) _ rfl, drop_drop]
        rfl

theorem Lawful.nextFillTarget_eq (stock : List (List α)) {offset : Nat} (inside : offset ≤ stock.flatten.length) :
    nextFillTarget scanner stock offset = .ok (offset + asked scanner (stock.flatten.drop offset)) := by
  induction left : stock.flatten.length - offset using Nat.strongRecOn generalizing offset with
  | ind n ih =>
    rw [nextFillTarget.eq_def]
    simp only [lawful.scan_subspan, subspan_flatten]
    split
    · rename_i end_
      rw [length_eq_zero_iff.mp end_, lawful.asked_nil]
    · rename_i some_
      cases found : scanner [stock.flatten.drop offset] with
      | needMore minimum =>
        rw [asked_more (fun none_ => some_ (by rw [none_]; rfl)) found, length_drop]
        simp only [Except.ok.injEq]
        omega
      | complete chop =>
        have bounds := lawful.bounds found
        rw [length_drop] at bounds
        simp only
        rw [if_neg (by omega), if_neg (by rw [length_drop]; omega),
          ih _ (by omega) (by omega) rfl, lawful.asked_complete found, drop_drop, Nat.add_assoc]

end

end Lawful
end Nxt.Buffers
