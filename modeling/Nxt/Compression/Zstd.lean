import Nxt.Compression.Codecs

/- The loop of the zstd reader delivers frame after frame, and at the end of one decides between the next frame and the
   end of the stream. -/
namespace Nxt.Compression
open Nxt.Lib List
open Nxt.Mt (Feed)

namespace ZstdReader
variable {S : Type} {c : Codec S} {Frame : Bytes → Bytes → Prop} {t : FrameTransducer c Frame}
  {q after f d p : Bytes} {out : Nat} {r r' : ZstdReader S} {rooms : Nat → Room} {ends : Bytes → Prop}

def endedInside : String := "unexpected end of zstd stream"

/-- Inside a frame, of which `f` is left to take and `d` to make. The feed has all of it and what comes after, or it
    lacks `q` and ends inside the frame. -/
structure Inside (t : FrameTransducer c Frame) (q after : Bytes) (r : ZstdReader S) (f d : Bytes) : Prop where
  residual : t.Residual r.codec f d
  left : f ≠ []
  rest : r.feed.rest ++ q = f ++ after
  alone : q = [] ∨ after = []
  incomplete : r.frameComplete = false
  going : r.done = false
  capacity : 4 ≤ r.feed.capacity
  sound : r.feed.buffered.length ≤ r.feed.capacity
  available : r.available ≤ r.feed.buffered.length

structure Between (t : FrameTransducer c Frame) (r : ZstdReader S) (p : Bytes) : Prop where
  again {z d : Bytes} : Frame z d → t.Residual r.codec z d
  rest : r.feed.rest = p
  complete : r.frameComplete = true
  going : r.done = false
  capacity : 4 ≤ r.feed.capacity
  sound : r.feed.buffered.length ≤ r.feed.capacity
  empty : r.available = 0

section Rounds

theorem task_refilled (room : 0 < out) (empty : r.available = 0) (refilled : r.refillInput = .ok r')
    (some_ : r'.available ≠ 0) (fuel : Nat) : r.streamMoreTask c fuel out = r'.streamMoreTask c fuel out := by
  cases fuel with
  | zero => rfl
  | succ fuel =>
    have some_room : ¬out = 0 := by omega
    rw [streamMoreTask, streamMoreTask, if_neg some_room, if_neg some_room, if_pos empty, if_neg some_, refilled]

theorem task_threw {e : String} (room : 0 < out) (empty : r.available = 0) (threw : r.refillInput = .error e)
    (fuel : Nat) : r.streamMoreTask c (fuel + 1) out = some (.error e) := by
  rw [streamMoreTask, if_neg (by omega), if_pos empty, threw]

theorem task_done (room : 0 < out) (empty : r.available = 0) (refilled : r.refillInput = .ok r') (done : r'.done = true)
    (fuel : Nat) : r.streamMoreTask c (fuel + 1) out = some (.ok (.eof, r')) := by
  rw [streamMoreTask, if_neg (by omega), if_pos empty, refilled]
  dsimp only
  rw [if_pos done]

theorem task_made (room : 0 < out) (some_ : r.available ≠ 0) (going : r.done = false)
    (works : ∀ message, (r.call c out).verdict ≠ .failed message) (made : (r.call c out).output ≠ []) (fuel : Nat) :
    r.streamMoreTask c (fuel + 1) out = some (.ok (.bytes (r.call c out).output, r.advance (r.call c out))) := by
  rw [streamMoreTask, if_neg (by omega), if_neg some_]
  dsimp only
  rw [if_neg (by rw [going]; simp)]
  split
  · rename_i message failed
    exact absurd failed (works message)
  · rw [if_pos made]

theorem task_again (room : 0 < out) (some_ : r.available ≠ 0) (going : r.done = false)
    (works : ∀ message, (r.call c out).verdict ≠ .failed message) (made : (r.call c out).output = []) (fuel : Nat) :
    r.streamMoreTask c (fuel + 1) out = (r.advance (r.call c out)).streamMoreTask c fuel out := by
  rw [streamMoreTask, if_neg (by omega), if_neg some_]
  dsimp only
  rw [if_neg (by rw [going]; simp)]
  split
  · rename_i message failed
    exact absurd failed (works message)
  · rw [if_neg (by rw [made]; simp), if_neg (by rw [advance, going]; simp)]

end Rounds

section Refills

theorem Inside.refilled (inside : Inside t q after r f d) (some_ : r.feed.rest ≠ []) :
    ∃ r', r.refillInput = .ok r' ∧ r'.available ≠ 0 ∧ Inside t q after r' f d := by
  have enough : 1 ≤ r.feed.rest.length := length_pos_iff.mpr some_
  have capacity := inside.capacity
  obtain ⟨feed, filled, same, one, sound, kept⟩ := fill_filled (by omega) inside.sound enough
  refine ⟨{ r with feed, available := feed.buffered.length, frameComplete := false }, ?_, Nat.pos_iff_ne_zero.mp one, ?_⟩
  · rw [refillInput, inside.incomplete, if_neg Bool.false_ne_true, filled]
    dsimp only
    rw [if_neg (by simp)]
  · refine ⟨inside.residual, inside.left, ?_, inside.alone, rfl, inside.going, ?_, sound, le_rfl⟩
    · rw [← inside.rest]
      exact congrArg (· ++ q) same
    · exact capacity.trans kept.ge

theorem Inside.ended (inside : Inside t q after r f d) (none : r.feed.rest = []) :
    r.refillInput = .error endedInside := by
  have capacity := inside.capacity
  rw [refillInput, inside.incomplete, if_neg Bool.false_ne_true,
    fill_ended (by omega) inside.sound (by rw [none]; exact Nat.zero_lt_one)]
  rfl

theorem Between.ended (between : Between t r p) (short : p.length < 4) :
    ∃ r', r.refillInput = .ok r' ∧ r'.done = true := by
  refine ⟨{ r with done := true }, ?_, rfl⟩
  rw [refillInput, between.complete, if_pos rfl, fill_ended between.capacity between.sound (by rwa [between.rest])]
  rfl

theorem Between.next {part : Bytes} (between : Between t r p) (frame : Frame f d) (four : 4 ≤ part.length)
    (within : part <+: f) (rest : p ++ q = f ++ after) (front : part <+: p) (alone : q = [] ∨ after = []) :
    ∃ r', r.refillInput = .ok r' ∧ r'.available ≠ 0 ∧ Inside t q after r' f d := by
  have enough : 4 ≤ r.feed.rest.length := by
    rw [between.rest]
    exact four.trans front.length_le
  obtain ⟨feed, filled, same, some_, sound, kept⟩ := fill_filled between.capacity between.sound enough
  have starts : isFrameStart feed.buffered = true := by
    have magic := (t.magic frame).2
    have first : feed.buffered.take 4 = f.take 4 := by
      have both : feed.buffered ++ feed.pieces.flatten = p := same.trans between.rest
      have here : feed.buffered.take 4 = p.take 4 := by
        rw [← both, take_append_of_le_length some_]
      obtain ⟨x, split⟩ := front
      obtain ⟨y, split'⟩ := within
      rw [here, ← split, ← split', take_append_of_le_length four, take_append_of_le_length four]
    rw [← first] at magic
    obtain ⟨a, b, c, d, rest, bytes⟩ : ∃ a b c d rest, feed.buffered = a :: b :: c :: d :: rest := by
      match bytes : feed.buffered with
      | [] | [_] | [_, _] | [_, _, _] =>
        rw [bytes] at some_
        simp only [length_cons, length_nil] at some_
        omega
      | a :: b :: c :: d :: rest => exact ⟨a, b, c, d, rest, rfl⟩
    rw [bytes] at magic ⊢
    exact magic
  refine ⟨{ r with feed, available := feed.buffered.length, frameComplete := false }, ?_, ?_, ?_⟩
  · rw [refillInput, between.complete, if_pos rfl, filled]
    dsimp only
    rw [if_neg]
    rintro ⟨-, short | other⟩
    · omega
    · rw [starts] at other
      cases other
  · show feed.buffered.length ≠ 0
    omega
  · refine ⟨between.again frame, t.some_ frame, ?_, alone, rfl, between.going, ?_, sound, le_rfl⟩
    · rw [← rest, ← between.rest]
      exact congrArg (· ++ q) same
    · exact between.capacity.trans kept.ge

end Refills

section Steps

section
variable (inside : Inside t q after r f d)
include inside

theorem Inside.offer (some_ : r.available ≠ 0) :
    r.feed.buffered.take r.available ≠ [] ∧ r.feed.buffered.take r.available <+: f ++ after := by
  refine ⟨fun none => ?_, ?_⟩
  · have length := congrArg List.length none
    rw [length_take, Nat.min_eq_left inside.available] at length
    exact some_ length
  · rw [← inside.rest, Feed.rest, append_assoc]
    exact take_prefix _ _ |>.trans (prefix_append _ _)

theorem Inside.answers (some_ : r.available ≠ 0) (room : 0 < out) :
    Answers t.Residual f d (r.feed.buffered.take r.available) (r.call c out) :=
  t.answers inside.residual (inside.offer some_).1 (inside.offer some_).2 room

theorem Inside.discarded {n : Nat} (taken : n ≤ r.available) (within : n ≤ f.length) :
    (r.feed.buffered.drop n ++ r.feed.pieces.flatten) ++ q = f.drop n ++ after := by
  have available := inside.available
  have split : r.feed.buffered ++ (r.feed.pieces.flatten ++ q) = f ++ after := by
    rw [← append_assoc]
    exact inside.rest
  rw [append_assoc, ← drop_append_of_le_length (by omega), split, drop_append_of_le_length within]

theorem Inside.advance {call : Call S} {d' : Bytes} (taken : call.consumed ≤ r.available)
    (within : call.consumed ≤ f.length) (more : call.verdict = .more) (left : f.drop call.consumed ≠ [])
    (residual : t.Residual call.state (f.drop call.consumed) d') :
    Inside t q after (r.advance call) (f.drop call.consumed) d' := by
  have available := inside.available
  have sound := inside.sound
  refine ⟨residual, left, inside.discarded taken within, inside.alone, ?_, inside.going, inside.capacity, ?_, ?_⟩
  · rw [ZstdReader.advance, more, inside.incomplete]
    rfl
  · show (r.feed.buffered.drop call.consumed).length ≤ r.feed.capacity
    rw [length_drop]
    omega
  · show (if call.consumed = 0 then r.available else 0) ≤ (r.feed.buffered.drop call.consumed).length
    rw [length_drop]
    split
    · omega
    · exact Nat.zero_le _

end

theorem Inside.finished (inside : Inside t [] after r f d) (some_ : r.available ≠ 0) (room : 0 < out)
    (taken : (r.call c out).consumed ≤ r.available) (whole : (r.call c out).consumed = f.length)
    (ends : (r.call c out).verdict = .finished) : Between t (r.advance (r.call c out)) after := by
  have available := inside.available
  have sound := inside.sound
  have rest := inside.discarded taken whole.le
  have progress : (r.call c out).consumed ≠ 0 := by
    rw [whole]
    exact Nat.pos_iff_ne_zero.mp (length_pos_iff.mpr inside.left)
  rw [append_nil, whole, drop_length, nil_append] at rest
  refine ⟨fun frame => t.again inside.residual (inside.offer some_).1 (inside.offer some_).2 room ends frame, ?_, ?_,
    inside.going, inside.capacity, ?_, ?_⟩
  · show r.feed.buffered.drop (r.call c out).consumed ++ r.feed.pieces.flatten = after
    rw [whole]
    exact rest
  · rw [ZstdReader.advance, ends]
    simp
  · show (r.feed.buffered.drop (r.call c out).consumed).length ≤ r.feed.capacity
    rw [length_drop]
    omega
  · exact if_neg progress

/-- What a call of the reader inside a frame comes to: the end of the feed in it, the end of the frame with nothing made
    of its rest, or bytes of it. -/
def Goes (t : FrameTransducer c Frame) (ends : Bytes → Prop) (rooms : Nat → Room) (q after d : Bytes)
    (r : ZstdReader S) : Prop :=
  (q ≠ [] ∧ Returns (fun fuel => r.streamMoreTask c fuel (rooms 0).out) (.error endedInside)) ∨
  (q = [] ∧ d = [] ∧ ∃ r', Between t r' after ∧ ¬Lags (machine c) ends rooms r' ∧
    ∀ a, Returns (fun fuel => r'.streamMoreTask c fuel (rooms 0).out) a →
      Returns (fun fuel => r.streamMoreTask c fuel (rooms 0).out) a) ∨
  ∃ b r' d', b ≠ [] ∧ d = b ++ d' ∧ Returns (fun fuel => r.streamMoreTask c fuel (rooms 0).out) (.ok (.bytes b, r')) ∧
    ¬Lags (machine c) ends (fun i => rooms (i + 1)) r' ∧
    ((∃ f', Inside t q after r' f' d') ∨ (q = [] ∧ d' = [] ∧ Between t r' after))

theorem Goes.of_call (later : ∀ a, Returns (fun fuel => r'.streamMoreTask c fuel (rooms 0).out) a →
    Returns (fun fuel => r.streamMoreTask c fuel (rooms 0).out) a) (goes : Goes t ends rooms q after d r') :
    Goes t ends rooms q after d r := by
  rcases goes with ⟨short, threw⟩ | ⟨whole, nothing, r'', between, prompt, same⟩ | ⟨b, r'', d', some_, split, read, state⟩
  · exact .inl ⟨short, later _ threw⟩
  · exact .inr (.inl ⟨whole, nothing, r'', between, prompt, fun a returns => later a (same a returns)⟩)
  · exact .inr (.inr ⟨b, r'', d', some_, split, later _ read, state⟩)

theorem Inside.round (inside : Inside t q after r f d) (some_ : r.available ≠ 0) (room : 0 < (rooms 0).out)
    (boundary : q = [] → ends after) (prompt : ¬Lags (machine c) ends rooms r) :
    Goes t ends rooms q after d r ∨ ∃ r' f', Inside t q after r' f' d ∧ ¬Lags (machine c) ends rooms r' ∧
      f'.length < f.length ∧
      ∀ fuel, r.streamMoreTask c (fuel + 1) (rooms 0).out = r'.streamMoreTask c fuel (rooms 0).out := by
  obtain ⟨offered, within, goes⟩ := inside.answers some_ room
  rw [length_take, Nat.min_eq_left inside.available] at offered
  have buffered : r.available ≤ r.feed.rest.length := by
    have available := inside.available
    rw [Feed.rest, length_append]
    omega
  rcases goes with ⟨ends, taken, made⟩ | ⟨more, progress, d', split, residual⟩
  · have works : ∀ message, (r.call c (rooms 0).out).verdict ≠ .failed message := by
      intro message failed
      rw [ends] at failed
      cases failed
    have whole : q = [] := by
      rcases inside.alone with whole | last
      · exact whole
      · have length := congrArg List.length inside.rest
        rw [length_append, last, append_nil] at length
        exact length_eq_zero_iff.mp (by omega)
    subst whole
    have between := inside.finished some_ room offered taken ends
    by_cases nothing : d = []
    · rw [nothing] at made
      exact .inl (.inr (.inl ⟨rfl, nothing, _, between, fun lags => prompt (.again some_ made inside.going lags),
        fun _ => .later (task_again room some_ inside.going works made)⟩))
    · have some_made : (r.call c (rooms 0).out).output ≠ [] := by rwa [made]
      have read := task_made room some_ inside.going works some_made
      rw [made] at read
      exact .inl (.inr (.inr ⟨d, _, [], nothing, (append_nil d).symm, .now read,
        fun lags => prompt (.next some_ some_made inside.going lags), .inr ⟨rfl, rfl, between⟩⟩))
  · have works : ∀ message, (r.call c (rooms 0).out).verdict ≠ .failed message := by
      intro message failed
      rw [more] at failed
      cases failed
    have left : f.drop (r.call c (rooms 0).out).consumed ≠ [] := by
      intro gone
      have both := inside.discarded offered within
      rw [gone, nil_append] at both
      have whole : q = [] := by
        rcases inside.alone with whole | last
        · exact whole
        · rw [last] at both
          exact (append_eq_nil_iff.mp both).2
      rw [whole, append_nil] at both
      refine prompt (.now some_ more ?_)
      have both : (machine c).rest ((machine c).advance r ((machine c).call (rooms 0).out r)) = after := both
      rw [both]
      exact boundary whole
    have next := inside.advance offered within more left residual
    by_cases made : (r.call c (rooms 0).out).output = []
    · rw [made, nil_append] at split
      subst split
      refine .inr ⟨_, _, next, fun lags => prompt (.again some_ made next.going lags), ?_,
        task_again room some_ inside.going works made⟩
      have taken : 0 < (r.call c (rooms 0).out).consumed := progress.resolve_right (by rw [made]; simp)
      rw [length_drop]
      omega
    · exact .inl (.inr (.inr ⟨_, _, d', made, split, .now (task_made room some_ inside.going works made),
        fun lags => prompt (.next some_ made next.going lags), .inl ⟨_, next⟩⟩))

theorem Inside.goes (room : 0 < (rooms 0).out) (boundary : q = [] → ends after) (n : Nat) {r : ZstdReader S} {f : Bytes}
    (bound : f.length < n) (inside : Inside t q after r f d) (prompt : ¬Lags (machine c) ends rooms r) :
    Goes t ends rooms q after d r := by
  induction n generalizing r f with
  | zero => exact absurd bound (Nat.not_lt_zero _)
  | succ n ih =>
    have filled {r : ZstdReader S} (inside : Inside t q after r f d) (prompt : ¬Lags (machine c) ends rooms r)
        (some_ : r.available ≠ 0) : Goes t ends rooms q after d r := by
      rcases inside.round some_ room boundary prompt with goes | ⟨r', f', next, prompt, less, again⟩
      · exact goes
      · exact (ih (by omega) next prompt).of_call fun _ => .later again
    by_cases empty : r.available = 0
    · by_cases none : r.feed.rest = []
      · refine .inl ⟨fun whole => ?_, .now (task_threw room empty (inside.ended none))⟩
        have rest := inside.rest
        rw [none, whole, append_nil] at rest
        exact inside.left (append_eq_nil_iff.mp rest.symm).1
      · obtain ⟨r', refilled, some_, inside⟩ := inside.refilled none
        refine (filled inside (fun lags => prompt (.refilled empty refilled inside.going lags)) some_).of_call
          fun a returns => ?_
        rwa [funext fun fuel => task_refilled room empty refilled some_ fuel]
    · exact filled inside prompt empty

end Steps

section Runs

theorem streamMore_task (going : r.done = false) {room : Room} (positive : 0 < room.out) (fuel : Nat) :
    r.streamMore c fuel room = r.streamMoreTask c fuel room.out := by
  rw [streamMore, if_neg (Room.limit_some positive), if_neg (by rw [going]; simp)]

theorem streamMore_same (going : r.done = false) (going' : r'.done = false) {room : Room} (positive : 0 < room.out)
    (later : ∀ a, Returns (fun fuel => r'.streamMoreTask c fuel room.out) a →
      Returns (fun fuel => r.streamMoreTask c fuel room.out) a) (a : Except String (Fare × ZstdReader S)) :
    Returns (fun fuel => r'.streamMore c fuel room) a → Returns (fun fuel => r.streamMore c fuel room) a := by
  rw [funext fun fuel => streamMore_task going positive fuel, funext fun fuel => streamMore_task going' positive fuel]
  exact later a

def Leads (t : FrameTransducer c Frame) (ends : Bytes → Prop) (p : Bytes) (Q : Bytes → Option String → Prop) : Prop :=
  ∀ (r : ZstdReader S) (rooms : Nat → Room), Between t r p → ¬Lags (machine c) ends rooms r →
    (∀ i, 0 < (rooms i).out) → ∃ out e, Q out e ∧ Reads (ZstdReader.streamMore c) rooms r out e

variable {Q : Bytes → Option String → Prop}

theorem Inside.reads_whole (boundary : ends after) (leads : Leads t ends after Q) (n : Nat)
    {d : Bytes} (bound : d.length < n) {r : ZstdReader S} {f : Bytes} {rooms : Nat → Room}
    (positive : ∀ i, 0 < (rooms i).out) (inside : Inside t [] after r f d) (prompt : ¬Lags (machine c) ends rooms r) :
    ∃ out e, Q out e ∧ Reads (ZstdReader.streamMore c) rooms r (d ++ out) e := by
  induction n generalizing d r f rooms with
  | zero => exact absurd bound (Nat.not_lt_zero _)
  | succ n ih =>
    have call := streamMore_task (c := c) inside.going (positive 0)
    rcases inside.goes (positive 0) (fun _ => boundary) _ (Nat.lt_succ_self _) prompt with
      ⟨short, -⟩ | ⟨-, nothing, r', between, prompt, same⟩ | ⟨b, r', d', some_, split, read, prompt, state⟩
    · exact absurd rfl short
    · obtain ⟨out, e, holds, reads⟩ := leads r' rooms between prompt positive
      rw [nothing]
      exact ⟨out, e, holds, reads.of_call (streamMore_same inside.going between.going (positive 0) same)⟩
    · subst split
      rw [← funext call] at read
      rcases state with ⟨f', inside⟩ | ⟨-, nothing, between⟩
      · have less : d'.length < n := by
          have made := length_pos_iff.mpr some_
          rw [length_append] at bound
          omega
        obtain ⟨out, e, holds, later⟩ := ih less (fun i => positive (i + 1)) inside prompt
        refine ⟨out, e, holds, ?_⟩
        rw [append_assoc]
        exact .read read later
      · obtain ⟨out, e, holds, later⟩ := leads r' _ between prompt fun i => positive (i + 1)
        refine ⟨out, e, holds, ?_⟩
        rw [nothing, append_nil]
        exact .read read later

theorem Inside.reads_part (cut : q ≠ []) (n : Nat) {d : Bytes} (bound : d.length < n) {r : ZstdReader S} {f : Bytes}
    {rooms : Nat → Room} (positive : ∀ i, 0 < (rooms i).out) (inside : Inside t q [] r f d)
    (prompt : ¬Lags (machine c) ends rooms r) :
    ∃ out, out <+: d ∧ Reads (ZstdReader.streamMore c) rooms r out (some endedInside) := by
  induction n generalizing d r f rooms with
  | zero => exact absurd bound (Nat.not_lt_zero _)
  | succ n ih =>
    have call := streamMore_task (c := c) inside.going (positive 0)
    rcases inside.goes (positive 0) (fun whole => absurd whole cut) _ (Nat.lt_succ_self _) prompt with
      ⟨-, threw⟩ | ⟨whole, -⟩ | ⟨b, r', d', some_, split, read, prompt, state⟩
    · rw [← funext call] at threw
      exact ⟨[], nil_prefix, .threw threw⟩
    · exact absurd whole cut
    · subst split
      rw [← funext call] at read
      rcases state with ⟨f', inside⟩ | ⟨whole, -⟩
      · have less : d'.length < n := by
          have made := length_pos_iff.mpr some_
          rw [length_append] at bound
          omega
        obtain ⟨out, part, later⟩ := ih less (fun i => positive (i + 1)) inside prompt
        exact ⟨b ++ out, (prefix_append_right_inj b).mpr part, .read read later⟩
      · exact absurd whole cut

theorem leads_end (short : p.length < 4) : Leads t ends p fun out e => out = [] ∧ e = none := by
  intro r rooms between _ positive
  obtain ⟨r', refilled, done⟩ := between.ended short
  refine ⟨[], none, ⟨rfl, rfl⟩, @Reads.ended _ _ rooms r r' ?_⟩
  rw [funext fun fuel => streamMore_task between.going (positive 0) fuel]
  exact .now (task_done (positive 0) between.empty refilled done)

theorem Between.starts {part : Bytes} (q after : Bytes) (between : Between t r p) (frame : Frame f d)
    (four : 4 ≤ part.length) (within : part <+: f) (rest : p ++ q = f ++ after) (front : part <+: p)
    (alone : q = [] ∨ after = []) (positive : 0 < (rooms 0).out) (prompt : ¬Lags (machine c) ends rooms r) : ∃ r',
    Inside t q after r' f d ∧ ¬Lags (machine c) ends rooms r' ∧ ∀ a, Returns
    (fun fuel => r'.streamMore c fuel (rooms 0)) a → Returns (fun fuel => r.streamMore c fuel (rooms 0)) a := by
  obtain ⟨r', refilled, some_, inside⟩ := between.next frame four within rest front alone
  refine ⟨r', inside, fun lags => prompt (.refilled between.empty refilled inside.going lags), streamMore_same between.going inside.going positive fun a returns => ?_⟩
  rwa [funext fun fuel => task_refilled positive between.empty refilled some_ fuel]

theorem leads_frame (boundary : ends after) (frame : Frame f d) (leads : Leads t ends after Q) :
    Leads t ends (f ++ after) fun out e => ∃ later, out = d ++ later ∧ Q later e := by
  intro r rooms between prompt positive
  obtain ⟨r', inside, prompt, same⟩ := between.starts [] after frame (t.magic frame).1 (prefix_refl f)
    (append_nil _) (prefix_append f after) (.inl rfl) (positive 0) prompt
  obtain ⟨out, e, holds, reads⟩ := inside.reads_whole boundary leads _ (Nat.lt_succ_self _) positive prompt
  exact ⟨d ++ out, e, ⟨out, rfl, holds⟩, reads.of_call same⟩

theorem leads_part (frame : Frame f d) (within : p <+: f) (proper : p ≠ f) (four : 4 ≤ p.length) :
    Leads t ends p fun out e => out <+: d ∧ e = some endedInside := by
  intro r rooms between prompt positive
  obtain ⟨q, rest⟩ := id within
  have cut : q ≠ [] := by
    rintro rfl
    exact proper (by rw [← rest, append_nil])
  obtain ⟨r', inside, prompt, same⟩ := between.starts q [] frame four within (by rw [append_nil]; exact rest)
    (prefix_refl p) (.inr rfl) (positive 0) prompt
  obtain ⟨out, part, reads⟩ := inside.reads_part cut _ (Nat.lt_succ_self _) positive prompt
  exact ⟨out, _, ⟨part, rfl⟩, reads.of_call same⟩

theorem leads_frames {z d : Bytes} (frames : Frames Frame z d)
    (boundary : ∀ x y dx, z = x ++ y → x ≠ [] → Frames Frame x dx → ends (y ++ p)) (leads : Leads t ends p Q) :
    Leads t ends (z ++ p) fun out e => ∃ later, out = d ++ later ∧ Q later e := by
  induction frames with
  | nil =>
    intro r rooms between prompt positive
    obtain ⟨out, e, holds, reads⟩ := leads r rooms between prompt positive
    exact ⟨out, e, ⟨out, rfl, holds⟩, reads⟩
  | @cons f df zs ds frame later ih =>
    rw [append_assoc]
    intro r rooms between prompt positive
    have after := ih fun x y dx split some_ frames => boundary (f ++ x) y (df ++ dx)
      (by rw [split, append_assoc]) (append_ne_nil_of_right_ne_nil f some_) (.cons frame frames)
    have here := boundary f zs (df ++ []) rfl (t.some_ frame) (append_nil f ▸ .cons frame .nil)
    obtain ⟨out, e, ⟨first, split, second, split', holds⟩, reads⟩ :=
      leads_frame here frame after r rooms between prompt positive
    refine ⟨out, e, ⟨second, ?_, holds⟩, reads⟩
    rw [split, split', append_assoc]

end Runs

end ZstdReader

end Nxt.Compression
