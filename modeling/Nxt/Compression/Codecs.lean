import Nxt.Compression.Readers

/- What the readers rely on of a codec library, and how a reader is read to its end. -/
namespace Nxt.Compression
open Nxt.Lib List
open Nxt.Mt (Feed)

section Codecs
variable {S : Type}

/-- A call of a codec that has still to take `z` and to make `d` of it. -/
structure Answers (Residual : S → Bytes → Bytes → Prop) (z d input : Bytes) (call : Call S) : Prop where
  offered : call.consumed ≤ input.length
  within : call.consumed ≤ z.length
  goes : (call.verdict = .finished ∧ call.consumed = z.length ∧ call.output = d) ∨
    (call.verdict = .more ∧ (0 < call.consumed ∨ call.output ≠ []) ∧
      ∃ d', d = call.output ++ d' ∧ Residual call.state (z.drop call.consumed) d')

/-- A streaming transducer of the streams of a format. With input and room a call takes or makes something, it takes
    nothing after the stream, and it may take the last byte while output is withheld. -/
structure Transducer (c : Codec S) (Stream : Bytes → Bytes → Prop) where
  Residual : S → Bytes → Bytes → Prop
  some_ {z d : Bytes} : Stream z d → z ≠ []
  starts {z d : Bytes} : Stream z d → Residual c.start z d
  answers {s : S} {z d t input : Bytes} {room : Nat} : Residual s z d → input ≠ [] → input <+: z ++ t → 0 < room →
    Answers Residual z d input (c.call s input room)

structure FrameTransducer (c : Codec S) (Frame : Bytes → Bytes → Prop) extends Transducer c Frame where
  magic {z d : Bytes} : Frame z d → 4 ≤ z.length ∧ isFrameStart (z.take 4)
  again {s : S} {z d t input z' d' : Bytes} {room : Nat} : Residual s z d → input ≠ [] → input <+: z ++ t → 0 < room →
    (c.call s input room).verdict = .finished → Frame z' d' → Residual (c.call s input room).state z' d'

inductive Frames (Frame : Bytes → Bytes → Prop) : Bytes → Bytes → Prop
  | nil : Frames Frame [] []
  | cons {z d zs ds : Bytes} (frame : Frame z d) (later : Frames Frame zs ds) : Frames Frame (z ++ zs) (d ++ ds)

theorem Frames.cut {Frame : Bytes → Bytes → Prop} {p q z d : Bytes} (frames : Frames Frame z d) (cut : z = p ++ q)
    (more : q ≠ []) :
    ∃ whole dw part f df, p = whole ++ part ∧ Frames Frame whole dw ∧ Frame f df ∧ part <+: f ∧ part ≠ f ∧
      dw ++ df <+: d := by
  induction frames generalizing p with
  | nil =>
    have none := append_eq_nil_iff.mp cut.symm
    exact absurd none.2 more
  | @cons f df zs ds frame later ih =>
    rcases append_eq_append_iff.mp cut with ⟨p', after, left⟩ | ⟨q', inside, left⟩
    · obtain ⟨whole, dw, part, g, dg, split, frames, last, within, proper, made⟩ := ih left
      refine ⟨f ++ whole, df ++ dw, part, g, dg, ?_, .cons frame frames, last, within, proper, ?_⟩
      · rw [after, split, append_assoc]
      · rw [append_assoc]
        exact prefix_append_right_inj df |>.mpr made
    · by_cases none : q' = []
      · subst none
        rw [append_nil] at inside
        obtain ⟨whole, dw, part, g, dg, split, frames, last, within, proper, made⟩ := ih (p := []) (by simpa using left.symm)
        refine ⟨f ++ whole, df ++ dw, part, g, dg, ?_, .cons frame frames, last, within, proper, ?_⟩
        · rw [append_assoc, ← split, inside, append_nil]
        · rw [append_assoc]
          exact prefix_append_right_inj df |>.mpr made
      · refine ⟨[], [], p, f, df, rfl, .nil, frame, ⟨q', inside.symm⟩, ?_, prefix_append _ _⟩
        rintro rfl
        exact none (append_right_eq_self.mp inside.symm)

end Codecs

section Runs
variable {S R : Type}

/-- What a run of a reader goes by. -/
structure Machine (S R : Type) where
  available : R → Nat
  refill : R → Except String R
  call : Nat → R → Call S
  advance : R → Call S → R
  done : R → Bool
  rest : R → Bytes

def Reader.machine (l : Loop) (c : Codec S) : Machine S (Reader S) where
  available r := r.available
  refill r := r.refillInput l
  call out r := r.call l c out
  advance := Reader.advance
  done r := r.done
  rest r := r.feed.rest

def ZstdReader.machine (c : Codec S) : Machine S (ZstdReader S) where
  available r := r.available
  refill r := r.refillInput
  call out r := r.call c out
  advance := ZstdReader.advance
  done r := r.done
  rest r := r.feed.rest

/-- In the run of a reader that is read to its end, a call of the codec takes the input up to an end
    and does not report that end: it withholds output, or the end itself. -/
inductive Lags (m : Machine S R) (ends : Bytes → Prop) : (Nat → Room) → R → Prop
  | refilled {rooms : Nat → Room} {r r' : R} (empty : m.available r = 0) (filled : m.refill r = .ok r')
      (going : m.done r' = false) (later : Lags m ends rooms r') : Lags m ends rooms r
  | now {rooms : Nat → Room} {r : R} (some_ : m.available r ≠ 0) (more : (m.call (rooms 0).out r).verdict = .more)
      (taken : ends (m.rest (m.advance r (m.call (rooms 0).out r)))) : Lags m ends rooms r
  | again {rooms : Nat → Room} {r : R} (some_ : m.available r ≠ 0) (none : (m.call (rooms 0).out r).output = [])
      (going : m.done (m.advance r (m.call (rooms 0).out r)) = false)
      (later : Lags m ends rooms (m.advance r (m.call (rooms 0).out r))) : Lags m ends rooms r
  | next {rooms : Nat → Room} {r : R} (some_ : m.available r ≠ 0) (made : (m.call (rooms 0).out r).output ≠ [])
      (going : m.done (m.advance r (m.call (rooms 0).out r)) = false)
      (later : Lags m ends (fun i => rooms (i + 1)) (m.advance r (m.call (rooms 0).out r))) : Lags m ends rooms r

/-- The run ends in so many rounds, and no call of the codec lags in it. -/
def promptWithin (m : Machine S R) (ends : Bytes → Bool) : Nat → (Nat → Room) → R → Bool
  | 0, _, _ => false
  | fuel + 1, rooms, r =>
      if m.available r = 0 then
        match m.refill r with
        | .error _ => true
        | .ok r => m.done r || promptWithin m ends fuel rooms r
      else
        let call := m.call (rooms 0).out r
        let r := m.advance r call
        !(decide (call.verdict = .more) && ends (m.rest r)) &&
          (m.done r || promptWithin m ends fuel (if call.output = [] then rooms else fun i => rooms (i + 1)) r)

theorem not_lags_of_prompt {m : Machine S R} {Ends : Bytes → Prop} {ends : Bytes → Bool}
    (covers : ∀ rest, Ends rest → ends rest = true) (fuel : Nat) {rooms : Nat → Room} {r : R}
    (prompt : promptWithin m ends fuel rooms r = true) : ¬Lags m Ends rooms r := by
  intro lags
  induction lags generalizing fuel with
  | refilled empty filled going _ ih =>
    cases fuel with
    | zero => cases prompt
    | succ fuel =>
      rw [promptWithin, if_pos empty, filled] at prompt
      dsimp only at prompt
      rw [going, Bool.false_or] at prompt
      exact ih fuel prompt
  | now some_ more taken =>
    cases fuel with
    | zero => cases prompt
    | succ fuel =>
      rw [promptWithin, if_neg some_] at prompt
      simp [more, covers _ taken] at prompt
  | again some_ none going _ ih =>
    cases fuel with
    | zero => cases prompt
    | succ fuel =>
      rw [promptWithin, if_neg some_] at prompt
      dsimp only at prompt
      rw [going, Bool.false_or, if_pos none] at prompt
      exact ih fuel (Bool.and_eq_true_iff.mp prompt).2
  | next some_ made going _ ih =>
    cases fuel with
    | zero => cases prompt
    | succ fuel =>
      rw [promptWithin, if_neg some_] at prompt
      dsimp only at prompt
      rw [going, Bool.false_or, if_neg made] at prompt
      exact ih fuel (Bool.and_eq_true_iff.mp prompt).2

end Runs

section Reading
variable {α R : Type}

def Returns (f : Nat → Option α) (a : α) : Prop := ∃ n, ∀ fuel ≥ n, f fuel = some a

variable {f : Nat → Option α} {a : α} {rooms : Nat → Room} {e : Option String} {minimum : Nat}

theorem Returns.later {g : Nat → Option α} (step : ∀ fuel, g (fuel + 1) = f fuel) (returns : Returns f a) :
    Returns g a := by
  obtain ⟨n, enough⟩ := returns
  refine ⟨n + 1, fun fuel large => ?_⟩
  obtain ⟨fuel, rfl⟩ := Nat.exists_eq_add_of_le' (Nat.one_le_of_lt large)
  rw [step]
  exact enough fuel (by omega)

theorem Returns.now (step : ∀ fuel, f (fuel + 1) = some a) : Returns f a := by
  refine ⟨1, fun fuel large => ?_⟩
  obtain ⟨fuel, rfl⟩ := Nat.exists_eq_add_of_le' large
  exact step fuel

inductive Reads (streamMore : Nat → Room → R → Read R) : (Nat → Room) → R → Bytes → Option String → Prop
  | threw {rooms : Nat → Room} {r : R} {e : String}
      (call : Returns (fun fuel => streamMore fuel (rooms 0) r) (.error e)) : Reads streamMore rooms r [] (some e)
  | ended {rooms : Nat → Room} {r r' : R}
      (call : Returns (fun fuel => streamMore fuel (rooms 0) r) (.ok (.eof, r'))) : Reads streamMore rooms r [] none
  | read {rooms : Nat → Room} {r r' : R} {b out : Bytes} {e : Option String}
      (call : Returns (fun fuel => streamMore fuel (rooms 0) r) (.ok (.bytes b, r')))
      (later : Reads streamMore (fun i => rooms (i + 1)) r' out e) : Reads streamMore rooms r (b ++ out) e

/-- Reading to the end gives these bytes and this error, given enough calls and rounds. -/
def Delivers (streamMore : Nat → Room → R → Read R) (rooms : Nat → Room) (r : R) (out : Bytes) (e : Option String) :
    Prop :=
  ∃ n, ∀ fuel ≥ n, ∀ calls ≥ n, readToEnd (streamMore fuel) calls rooms r = some (out, e)

theorem Reads.delivers {streamMore : Nat → Room → R → Read R} {r : R} {out : Bytes}
    (reads : Reads streamMore rooms r out e) : Delivers streamMore rooms r out e := by
  induction reads with
  | threw call =>
    obtain ⟨n, enough⟩ := call
    dsimp only at enough
    refine ⟨n + 1, fun fuel large calls some_ => ?_⟩
    obtain ⟨calls, rfl⟩ := Nat.exists_eq_add_of_le' (Nat.one_le_of_lt some_)
    rw [readToEnd, enough fuel (by omega)]
  | ended call =>
    obtain ⟨n, enough⟩ := call
    dsimp only at enough
    refine ⟨n + 1, fun fuel large calls some_ => ?_⟩
    obtain ⟨calls, rfl⟩ := Nat.exists_eq_add_of_le' (Nat.one_le_of_lt some_)
    rw [readToEnd, enough fuel (by omega)]
  | read call later ih =>
    obtain ⟨n, enough⟩ := call
    dsimp only at enough
    obtain ⟨m, rest⟩ := ih
    refine ⟨max n m + 1, fun fuel large calls some_ => ?_⟩
    obtain ⟨calls, rfl⟩ := Nat.exists_eq_add_of_le' (Nat.one_le_of_lt some_)
    rw [readToEnd, enough fuel (by omega)]
    dsimp only
    rw [rest fuel (by omega) calls (by omega)]
    rfl

theorem Reads.of_call {streamMore : Nat → Room → R → Read R} {r s : R} {out : Bytes}
    (call : ∀ a, Returns (fun fuel => streamMore fuel (rooms 0) s) a → Returns (fun fuel => streamMore fuel (rooms 0) r) a)
    (reads : Reads streamMore rooms s out e) : Reads streamMore rooms r out e := by
  cases reads with
  | threw first => exact .threw (call _ first)
  | ended first => exact .ended (call _ first)
  | read first later => exact .read (call _ first) later

theorem fill_filled {feed : Feed} (fits : minimum ≤ feed.capacity) (sound : feed.buffered.length ≤ feed.capacity)
    (enough : minimum ≤ feed.rest.length) : ∃ feed', fill minimum feed = .filled feed' ∧ feed'.rest = feed.rest ∧
    minimum ≤ feed'.buffered.length ∧ feed'.buffered.length ≤ feed'.capacity ∧ feed'.capacity = feed.capacity := by
  obtain ⟨buffered, pieces, filled, same, some_, sound⟩ := Feed.fill_ok fits feed.pieces feed.buffered sound enough
  refine ⟨{ feed with buffered, pieces }, ?_, same, some_, sound, rfl⟩
  rw [fill, if_neg (by omega), filled]

theorem fill_ended {feed : Feed} (fits : minimum ≤ feed.capacity)
    (sound : feed.buffered.length ≤ feed.capacity) (short : feed.rest.length < minimum) : fill minimum feed = .ended := by
  rw [fill, if_neg (by omega), Feed.fill_short fits feed.pieces feed.buffered sound short]

end Reading

end Nxt.Compression
