import Nxt.Compression.Codecs

/- The loop of the zlib and brotli readers delivers the stream of its codec. -/
namespace Nxt.Compression
open Nxt.Lib List
open Nxt.Mt (Feed)

structure Loop.Proper (l : Loop) : Prop where
  cut_pos {n : Nat} (pos : 0 < n) : 0 < l.cut n
  cut_le (n : Nat) : l.cut n ≤ n

theorem Loop.zlib_proper : Loop.zlib.Proper where
  cut_pos pos := by
    show 0 < min _ _
    omega
  cut_le n := Nat.min_le_left n _

theorem Loop.brotli_proper : Loop.brotli.Proper where
  cut_pos pos := pos
  cut_le n := Nat.le_refl n

namespace Reader
variable {S : Type} {l : Loop} {c : Codec S} {Stream : Bytes → Bytes → Prop} {t : Transducer c Stream}
  {q z d : Bytes} {out : Nat} {r r' : Reader S}

/-- Inside a stream: its codec has still to take `z`, of which the feed lacks `q`, and to make `d`. -/
structure Inside (t : Transducer c Stream) (q : Bytes) (r : Reader S) (z d : Bytes) : Prop where
  residual : t.Residual r.codec z d
  left : z ≠ []
  rest : r.feed.rest ++ q = z
  going : r.done = false
  capacity : 0 < r.feed.capacity
  sound : r.feed.buffered.length ≤ r.feed.capacity
  available : r.available ≤ r.feed.buffered.length

/-- Where the feed holds the whole stream, no call takes its last byte without reporting the end. -/
def Prompt (l : Loop) (c : Codec S) (q : Bytes) (rooms : Nat → Room) (r : Reader S) : Prop :=
  q = [] → ¬Lags (machine l c) (fun rest => rest = []) rooms r

section Rounds

theorem task_refilled (room : 0 < out) (empty : r.available = 0) (refilled : r.refillInput l = .ok r') (some_ : r'.available ≠ 0)
    (fuel : Nat) : r.streamMoreTask l c fuel out = r'.streamMoreTask l c fuel out := by
  cases fuel with
  | zero => rfl
  | succ fuel =>
    have some_room : ¬out = 0 := by omega
    rw [streamMoreTask, streamMoreTask, if_neg some_room, if_neg some_room, if_pos empty, if_neg some_, refilled]

theorem task_threw {e : String} (room : 0 < out) (empty : r.available = 0) (threw : r.refillInput l = .error e)
    (fuel : Nat) : r.streamMoreTask l c (fuel + 1) out = some (.error e) := by
  rw [streamMoreTask, if_neg (by omega), if_pos empty, threw]

theorem task_made (room : 0 < out) (some_ : r.available ≠ 0) (works : ∀ message, (r.call l c out).verdict ≠ .failed message)
    (made : (r.call l c out).output ≠ []) (fuel : Nat) :
    r.streamMoreTask l c (fuel + 1) out = some (.ok (.bytes (r.call l c out).output, r.advance (r.call l c out))) := by
  rw [streamMoreTask, if_neg (by omega), if_neg some_]
  dsimp only
  split
  · rename_i message failed
    exact absurd failed (works message)
  · rw [if_pos made]

theorem task_over (room : 0 < out) (some_ : r.available ≠ 0) (ends : (r.call l c out).verdict = .finished)
    (made : (r.call l c out).output = []) (fuel : Nat) :
    r.streamMoreTask l c (fuel + 1) out = some (.ok (.eof, r.advance (r.call l c out))) := by
  rw [streamMoreTask, if_neg (by omega), if_neg some_]
  dsimp only
  rw [ends]
  dsimp only
  rw [if_neg (by rw [made]; simp), if_pos (by rw [advance, ends]; simp)]

theorem task_again (room : 0 < out) (some_ : r.available ≠ 0) (more : (r.call l c out).verdict = .more)
    (going : r.done = false) (made : (r.call l c out).output = []) (fuel : Nat) :
    r.streamMoreTask l c (fuel + 1) out = (r.advance (r.call l c out)).streamMoreTask l c fuel out := by
  rw [streamMoreTask, if_neg (by omega), if_neg some_]
  dsimp only
  rw [more]
  dsimp only
  rw [if_neg (by rw [made]; simp), if_neg (by rw [advance, more, going]; simp)]
  rfl

end Rounds

section Steps

theorem Inside.refilled (proper : l.Proper) (inside : Inside t q r z d) (some_ : r.feed.rest ≠ []) :
    ∃ r', r.refillInput l = .ok r' ∧ r'.available ≠ 0 ∧ Inside t q r' z d := by
  have enough : 1 ≤ r.feed.rest.length := length_pos_iff.mpr some_
  obtain ⟨feed, filled, same, one, sound, capacity⟩ := fill_filled inside.capacity inside.sound enough
  refine ⟨{ r with feed, available := l.cut feed.buffered.length }, ?_, ?_, ?_⟩
  · rw [refillInput, filled]
  · exact Nat.pos_iff_ne_zero.mp (proper.cut_pos one)
  · refine ⟨inside.residual, inside.left, ?_, inside.going, ?_, sound, proper.cut_le _⟩
    · rw [← inside.rest]
      exact congrArg (· ++ q) same
    · exact Nat.lt_of_lt_of_eq inside.capacity capacity.symm

theorem Inside.ended (inside : Inside t q r z d) (none : r.feed.rest = []) : r.refillInput l = .error l.ended := by
  rw [refillInput, fill_ended inside.capacity inside.sound (by rw [none]; exact Nat.zero_lt_one)]

theorem Inside.answers (proper : l.Proper) (inside : Inside t q r z d) (some_ : r.available ≠ 0) (room : 0 < out) :
    Answers t.Residual z d (r.feed.buffered.take r.available) (r.call l c out) := by
  have offered : r.feed.buffered.take r.available <+: z ++ [] := by
    rw [append_nil, ← inside.rest, Feed.rest, append_assoc]
    exact take_prefix _ _ |>.trans (prefix_append _ _)
  refine t.answers inside.residual ?_ offered (proper.cut_pos room)
  intro none
  have length := congrArg List.length none
  rw [length_take, Nat.min_eq_left inside.available] at length
  exact some_ length

theorem Inside.discarded {call : Call S} (inside : Inside t q r z d) (taken : call.consumed ≤ r.available) :
    (r.advance call).feed.rest ++ q = z.drop call.consumed := by
  have available := inside.available
  have split : r.feed.buffered ++ (r.feed.pieces.flatten ++ q) = z := by
    rw [← append_assoc]
    exact inside.rest
  rw [← split, drop_append_of_le_length (by omega), ← append_assoc]
  rfl

theorem Inside.advance {call : Call S} {d' : Bytes} (inside : Inside t q r z d) (taken : call.consumed ≤ r.available)
    (more : call.verdict = .more) (left : z.drop call.consumed ≠ [])
    (residual : t.Residual call.state (z.drop call.consumed) d') :
    Inside t q (r.advance call) (z.drop call.consumed) d' := by
  have available := inside.available
  refine ⟨residual, left, inside.discarded taken, ?_, inside.capacity, ?_, ?_⟩
  · rw [Reader.advance, more, inside.going]
    rfl
  · show (r.feed.buffered.drop call.consumed).length ≤ r.feed.capacity
    have sound := inside.sound
    rw [length_drop]
    omega
  · show r.available - call.consumed ≤ (r.feed.buffered.drop call.consumed).length
    rw [length_drop]
    omega

def Goes (l : Loop) (t : Transducer c Stream) (rooms : Nat → Room) (q d : Bytes) (call : Nat → Read (Reader S)) :
    Prop :=
  (q ≠ [] ∧ Returns call (.error l.ended)) ∨
  (q = [] ∧ d = [] ∧ ∃ r', Returns call (.ok (.eof, r'))) ∨
  ∃ b r' d', b ≠ [] ∧ d = b ++ d' ∧ Returns call (.ok (.bytes b, r')) ∧
    ((∃ z', Inside t q r' z' d' ∧ Prompt l c q (fun i => rooms (i + 1)) r') ∨ (q = [] ∧ d' = [] ∧ r'.done = true))

variable {rooms : Nat → Room}

theorem Goes.of_call {call call' : Nat → Read (Reader S)} (later : ∀ a, Returns call a → Returns call' a)
    (goes : Goes l t rooms q d call) : Goes l t rooms q d call' := by
  rcases goes with ⟨short, threw⟩ | ⟨whole, nothing, r', ended⟩ | ⟨b, r', d', some_, split, read, state⟩
  · exact .inl ⟨short, later _ threw⟩
  · exact .inr (.inl ⟨whole, nothing, r', later _ ended⟩)
  · exact .inr (.inr ⟨b, r', d', some_, split, later _ read, state⟩)

theorem Inside.round (proper : l.Proper) (inside : Inside t q r z d) (some_ : r.available ≠ 0)
    (room : 0 < (rooms 0).out) (prompt : Prompt l c q rooms r) :
    Goes l t rooms q d (fun fuel => r.streamMoreTask l c fuel (rooms 0).out) ∨
      ∃ r' z', Inside t q r' z' d ∧ Prompt l c q rooms r' ∧ z'.length < z.length ∧
        ∀ fuel, r.streamMoreTask l c (fuel + 1) (rooms 0).out = r'.streamMoreTask l c fuel (rooms 0).out := by
  obtain ⟨offered, within, goes⟩ := inside.answers proper some_ room
  rw [length_take, Nat.min_eq_left inside.available] at offered
  have buffered : r.available ≤ r.feed.rest.length := by
    have available := inside.available
    rw [Feed.rest, length_append]
    omega
  rcases goes with ⟨ends, taken, made⟩ | ⟨more, progress, d', split, residual⟩
  · have whole : q = [] := by
      have length := congrArg List.length inside.rest
      rw [length_append] at length
      exact length_eq_zero_iff.mp (by omega)
    by_cases nothing : d = []
    · rw [nothing] at made
      exact .inl (.inr (.inl ⟨whole, nothing, _, .now (task_over room some_ ends made)⟩))
    · have works : ∀ message, (r.call l c (rooms 0).out).verdict ≠ .failed message := by
        intro message failed
        rw [ends] at failed
        cases failed
      have read := task_made room some_ works (by rwa [made])
      rw [made] at read
      refine .inl (.inr (.inr ⟨d, _, [], nothing, (append_nil d).symm, .now read, .inr ⟨whole, rfl, ?_⟩⟩))
      · rw [Reader.advance, ends]
        simp
  · have left : z.drop (r.call l c (rooms 0).out).consumed ≠ [] := by
      intro gone
      have both := inside.discarded offered
      rw [gone] at both
      obtain ⟨none, whole⟩ := append_eq_nil_iff.mp both
      exact prompt whole (.now some_ more none)
    have next := inside.advance offered more left residual
    by_cases made : (r.call l c (rooms 0).out).output = []
    · rw [made, nil_append] at split
      subst split
      refine .inr ⟨_, _, next, fun whole lags => prompt whole (.again some_ made next.going lags), ?_,
        task_again room some_ more inside.going made⟩
      have taken : 0 < (r.call l c (rooms 0).out).consumed := progress.resolve_right (by rw [made]; simp)
      rw [length_drop]
      omega
    · refine .inl (.inr (.inr ⟨_, _, d', made, split, .now (task_made room some_ ?_ made), .inl ⟨_, next, ?_⟩⟩))
      swap
      · exact fun whole lags => prompt whole (.next some_ made next.going lags)
      intro message failed
      rw [more] at failed
      cases failed

theorem Inside.goes (proper : l.Proper) (room : 0 < (rooms 0).out) (n : Nat) {r : Reader S} {z : Bytes}
    (bound : z.length < n) (inside : Inside t q r z d) (prompt : Prompt l c q rooms r) :
    Goes l t rooms q d (fun fuel => r.streamMoreTask l c fuel (rooms 0).out) := by
  induction n generalizing r z with
  | zero => exact absurd bound (Nat.not_lt_zero _)
  | succ n ih =>
    have filled {r : Reader S} (inside : Inside t q r z d) (prompt : Prompt l c q rooms r) (some_ : r.available ≠ 0) :
        Goes l t rooms q d (fun fuel => r.streamMoreTask l c fuel (rooms 0).out) := by
      rcases inside.round proper some_ room prompt with goes | ⟨r', z', next, prompt, less, again⟩
      · exact goes
      · exact (ih (by omega) next prompt).of_call fun _ => .later again
    by_cases empty : r.available = 0
    · by_cases none : r.feed.rest = []
      · refine .inl ⟨fun whole => ?_, .now (task_threw room empty (inside.ended none))⟩
        exact inside.left (by rw [← inside.rest, none, whole, append_nil])
      · obtain ⟨r', refilled, some_, inside⟩ := inside.refilled proper none
        have prompt : Prompt l c q rooms r' := fun whole lags =>
          prompt whole (.refilled empty refilled inside.going lags)
        refine (filled inside prompt some_).of_call fun a returns => ?_
        rwa [funext fun fuel => task_refilled room empty refilled some_ fuel]
    · exact filled inside prompt empty

end Steps

section Runs

theorem Inside.streamMore (inside : Inside t q r z d) {room : Room} (positive : 0 < room.out) (fuel : Nat) :
    r.streamMore l c fuel room = r.streamMoreTask l c fuel room.out := by
  rw [Reader.streamMore, if_neg (Room.limit_some positive), if_neg (by rw [inside.going]; simp)]

theorem streamMore_done {room : Room} (positive : 0 < room.out) (done : r.done = true) (fuel : Nat) :
    r.streamMore l c fuel room = some (.ok (.eof, r)) := by
  rw [Reader.streamMore, if_neg (Room.limit_some positive), if_pos done]

theorem Inside.reads (proper : l.Proper) (n : Nat) {d : Bytes} (bound : d.length < n) {r : Reader S} {z : Bytes}
    {rooms : Nat → Room} (positive : ∀ i, 0 < (rooms i).out) (inside : Inside t q r z d)
    (prompt : Prompt l c q rooms r) : (q = [] ∧ Reads (Reader.streamMore l c) rooms r d none) ∨
      (q ≠ [] ∧ ∃ out, out <+: d ∧ Reads (Reader.streamMore l c) rooms r out (some l.ended)) := by
  induction n generalizing d r z rooms with
  | zero => exact absurd bound (Nat.not_lt_zero _)
  | succ n ih =>
    have call := inside.goes proper (positive 0) _ (Nat.lt_succ_self _) prompt
    rw [← funext fun fuel => inside.streamMore (positive 0) fuel] at call
    rcases call with ⟨short, threw⟩ | ⟨whole, nothing, r', ended⟩ | ⟨b, r', d', some_, split, read, state⟩
    · exact .inr ⟨short, [], nil_prefix, .threw threw⟩
    · rw [nothing]
      exact .inl ⟨whole, .ended ended⟩
    · subst split
      rcases state with ⟨z', inside, prompt⟩ | ⟨whole, nothing, done⟩
      · have less : d'.length < n := by
          have made := length_pos_iff.mpr some_
          rw [length_append] at bound
          omega
        rcases ih less (fun i => positive (i + 1)) inside prompt with ⟨whole, later⟩ | ⟨short, out, part, later⟩
        · exact .inl ⟨whole, .read read later⟩
        · exact .inr ⟨short, b ++ out, (prefix_append_right_inj b).mpr part, .read read later⟩
      · refine .inl ⟨whole, .read read ?_⟩
        rw [nothing]
        exact .ended (.now fun fuel => streamMore_done (positive 1) done (fuel + 1))

end Runs

end Reader

end Nxt.Compression
