import Nxt.Buffers.Chop
import Nxt.Buffers.Delivery

/- The reel of buffers.hpp over a feed of value-buffers.hpp: it fills the feed until enough frames are visible, and
   consumes them by their extents. -/
namespace Nxt.Buffers
open List
variable {α Frame : Type}

/-- A feed's ring, and what its source still delivers: one refill takes at most one piece, an empty piece is a refill
    that makes no progress. -/
structure Feed (α : Type) where
  ring : Ring α
  pieces : List (List α)
  deriving DecidableEq

inductive FeedError where
  | endOfStream (message : String)
  | buffer (message : String)
  deriving DecidableEq

def weight (pieces : List (List α)) : Nat := (pieces.map fun piece => piece.length + 1).sum

/-- `stream_more` of the source with room for `limit` values; `none` is the end. -/
def streamMore (limit : Nat) : List (List α) → Option (List α × List (List α))
  | [] => none
  | piece :: pieces =>
      some (piece.take limit, if piece.length ≤ limit then pieces else piece.drop limit :: pieces)

theorem streamMore_weight {limit : Nat} (room : limit ≠ 0) {pieces later : List (List α)} {values : List α}
    (more : streamMore limit pieces = some (values, later)) : weight later < weight pieces := by
  cases pieces with
  | nil => cases more
  | cons piece pieces =>
    simp only [streamMore, Option.some.injEq, Prod.mk.injEq] at more
    obtain ⟨-, rfl⟩ := more
    simp only [weight]
    split
    · simp only [map_cons, sum_cons]
      omega
    · simp only [map_cons, sum_cons, length_drop]
      omega

theorem streamMore_values {limit : Nat} {pieces later : List (List α)} {values : List α}
    (more : streamMore limit pieces = some (values, later)) :
    values.length ≤ limit ∧ values ++ later.flatten = pieces.flatten := by
  cases pieces with
  | nil => cases more
  | cons piece pieces =>
    simp only [streamMore, Option.some.injEq, Prod.mk.injEq] at more
    obtain ⟨rfl, rfl⟩ := more
    refine ⟨length_take_le _ _, ?_⟩
    split
    · rename_i whole
      rw [take_of_length_le whole, flatten_cons]
    · rw [flatten_cons, flatten_cons, ← append_assoc, take_append_drop]

namespace Feed

def fresh (capacity : Nat) (pieces : List (List α)) : Feed α := ⟨Ring.fresh capacity, pieces⟩

def buffered (f : Feed α) : List (List α) := f.ring.constructed

def fillMore (f : Feed α) : Except FeedError (Option Nat × Feed α) :=
  if f.ring.size = f.ring.capacity then .error (.buffer "value source buffer is full")
  else if f.ring.unusedCapacity.len = 0 then .error (.buffer "value source buffer is full")
  else
    match streamMore f.ring.unusedCapacity.len f.pieces with
    | none => .ok (none, f)
    | some (values, later) => .ok (some values.length,
        ⟨(f.ring.constructRun f.ring.unusedCapacity.off values).advanceConstructed values.length, later⟩)

theorem fillMore_weight {f later : Feed α} {n : Nat} (filled : f.fillMore = .ok (some n, later)) :
    weight later.pieces < weight f.pieces := by
  simp only [fillMore] at filled
  split at filled
  · cases filled
  · split at filled
    · cases filled
    · rename_i room
      split at filled
      · cases filled
      · rename_i values pieces more
        obtain ⟨-, rfl⟩ := by simpa only [Except.ok.injEq, Prod.mk.injEq] using filled
        exact streamMore_weight room more

/-- `fill_slow`: refill until `n` values are buffered; a refill at the end of the source throws. -/
def fillSlow (n : Nat) (f : Feed α) : Except FeedError Unit × Feed α :=
  if f.ring.size < n then
    match _ : f.fillMore with
    | .error e => (.error e, f)
    | .ok (none, later) => (.error (.endOfStream "unexpected end of value input"), later)
    | .ok (some _, later) => fillSlow n later
  else (.ok (), f)
termination_by weight f.pieces
decreasing_by
  rename_i filled
  exact fillMore_weight filled

def fill (n : Nat) (f : Feed α) : Except FeedError Unit × Feed α :=
  if f.ring.capacity < n then (.error (.buffer "value source buffer is too small"), f)
  else if n ≤ f.ring.size then (.ok (), f)
  else fillSlow n f

/-- `discard`: buffered values if there are any, otherwise past the buffer. -/
def discard (limit : Nat) (f : Feed α) : Option Nat × Feed α :=
  if limit = 0 then (some 0, f)
  else if f.ring.size = 0 then
    match streamMore limit f.pieces with
    | none => (none, f)
    | some (values, later) => (some values.length, { f with pieces := later })
  else
    let n := min limit f.ring.size
    (some n, { f with ring := (f.ring.destroyPrefix n).resetIfEmpty })

theorem discard_progress {limit : Nat} (some_ : limit ≠ 0) {f later : Feed α}
    (none_ : f.discard limit = (some 0, later)) : later.pieces.length < f.pieces.length := by
  simp only [discard, if_neg some_] at none_
  split at none_
  · cases pieces : f.pieces with
    | nil => simp [streamMore, pieces] at none_
    | cons piece rest =>
      simp only [streamMore, pieces, Prod.mk.injEq, Option.some.injEq, length_take] at none_
      obtain ⟨empty, rfl⟩ := none_
      rw [if_pos (by omega), length_cons]
      exact Nat.lt_succ_self _
  · simp only [Prod.mk.injEq, Option.some.injEq] at none_
    omega

end Feed

namespace Reel

def visible (scanner : Scanner α Frame) (f : Feed α) : Except String (List (FrameChop Frame)) :=
  framesFrom scanner f.buffered 0

/-- The loop of `peek`. A fill that returns has taken something from the source, so its weight bounds the rounds. -/
def peekLoop (scanner : Scanner α Frame) (minimumCount : Nat) : Nat → Feed α → Except FeedError Unit × Feed α
  | 0, f => (.ok (), f)
  | fuel + 1, f =>
      match hasAtLeast scanner f.buffered minimumCount 0 with
      | .error e => (.error (.buffer e), f)
      | .ok true => (.ok (), f)
      | .ok false =>
          match nextFillTarget scanner f.buffered 0 with
          | .error e => (.error (.buffer e), f)
          | .ok target =>
              match f.fill target with
              | (.ok (), later) => peekLoop scanner minimumCount fuel later
              | (.error (.endOfStream _), later) => (.ok (), later)
              | (.error (.buffer e), later) => (.error (.buffer e), later)

def peek (scanner : Scanner α Frame) (minimumCount : Nat) (f : Feed α) : Except FeedError Unit × Feed α :=
  peekLoop scanner minimumCount (weight f.pieces + 1) f

def discardPrefix (extent : Nat) (f : Feed α) : Except FeedError Unit × Feed α :=
  if extent = 0 then (.ok (), f)
  else
    match _ : f.discard extent with
    | (none, later) => (.error (.endOfStream "unexpected end of frame input"), later)
    | (some n, later) =>
        if extent < n then (.error (.buffer "frame discard overreported extent"), later)
        else discardPrefix (extent - n) later
termination_by (extent, f.pieces.length)
decreasing_by
  rename_i some_ discarded _
  by_cases none_ : n = 0
  · subst none_
    exact Prod.Lex.right _ (Feed.discard_progress some_ discarded)
  · exact Prod.Lex.left _ _ (by omega)

/-- Peek at one frame and discard it, `n` times or until the view is empty. -/
def collect (scanner : Scanner α Frame) : Nat → Feed α → Except FeedError (List (FrameChop Frame)) × Feed α
  | 0, f => (.ok [], f)
  | n + 1, f =>
      match peek scanner 1 f with
      | (.error e, later) => (.error e, later)
      | (.ok (), shown) =>
          match frameAt scanner shown.buffered 0 with
          | .error e => (.error (.buffer e), shown)
          | .ok none => (.ok [], shown)
          | .ok (some chop) =>
              match discardPrefix chop.extent shown with
              | (.error e, later) => (.error e, later)
              | (.ok (), later) =>
                  match collect scanner n later with
                  | (.error e, last) => (.error e, last)
                  | (.ok chops, last) => (.ok (chop :: chops), last)

end Reel

/-- The feed has capacity `c`, shows `buffer`, and with what the source still delivers stands for `stream`. -/
structure Carries (c : Nat) (buffer stream : List α) (f : Feed α) : Prop where
  held : f.ring.Holds buffer
  capacity : f.ring.capacity = c
  stream : buffer ++ f.pieces.flatten = stream

section Fill
variable {c n : Nat} {buffer stream : List α} {f : Feed α}

theorem fresh_carries (c : Nat) (pieces : List (List α)) : Carries c [] pieces.flatten (Feed.fresh c pieces) :=
  ⟨Ring.fresh_holds c, by simp [Feed.fresh, Ring.fresh, Ring.capacity], rfl⟩

section
variable (carries : Carries c buffer stream f)
include carries

theorem Carries.buffered : f.buffered.flatten = buffer :=
  Ring.constructed_flatten carries.held

theorem Carries.size : f.ring.size = buffer.length := carries.held.size

theorem Carries.fits : buffer.length ≤ c :=
  carries.capacity ▸ carries.held.fits

theorem Carries.shown : buffer = stream.take buffer.length := by
  rw [← carries.stream, take_left]

theorem Carries.length_le : buffer.length ≤ stream.length := by
  rw [← carries.stream, length_append]
  omega

theorem fillMore_carries (room : buffer.length < c) : (f.pieces = [] ∧ f.fillMore = .ok (none, f)) ∨
    ∃ values later, f.fillMore = .ok (some values.length, later) ∧ Carries c (buffer ++ values) stream later ∧
      weight later.pieces < weight f.pieces := by
  have free : f.ring.size < f.ring.capacity := by
    rw [carries.size, carries.capacity]
    exact room
  have full : ¬ f.ring.size = f.ring.capacity := by omega
  have run : ¬ f.ring.unusedCapacity.len = 0 := by
    have := (Ring.unused_pos_iff carries.held).mpr free
    omega
  cases more : streamMore f.ring.unusedCapacity.len f.pieces with
  | none =>
    cases pieces : f.pieces with
    | nil => exact .inl ⟨rfl, by rw [Feed.fillMore, if_neg full, if_neg run, more]⟩
    | cons piece pieces' =>
      rw [pieces] at more
      cases more
  | some given =>
    obtain ⟨values, later⟩ := given
    obtain ⟨bound, whole⟩ := streamMore_values more
    refine .inr ⟨values, _, by rw [Feed.fillMore, if_neg full, if_neg run, more],
      ⟨(Ring.append_holds carries.held values bound).1, ?_, ?_⟩, streamMore_weight run more⟩
    · rw [Ring.advance_capacity, (Ring.constructRun_capacity _ _ _).1, carries.capacity]
    · rw [append_assoc, whole, carries.stream]

theorem fillSlow_carries (inside : n ≤ c) :
    ∃ r buffer' later, f.fillSlow n = (r, later) ∧ Carries c buffer' stream later ∧
      weight later.pieces ≤ weight f.pieces ∧
      ((r = .ok () ∧ (buffer.length < n → weight later.pieces < weight f.pieces)) ∨
        (∃ m, r = .error (.endOfStream m)) ∧ later.pieces = []) := by
  induction left : weight f.pieces using Nat.strongRecOn generalizing f buffer with
  | ind w ih =>
    subst left
    rw [Feed.fillSlow.eq_def, carries.size]
    split
    · rename_i short
      rcases fillMore_carries carries (by omega) with ⟨ended, filled⟩ | ⟨values, later, filled, next, less⟩
      · refine ⟨.error (.endOfStream "unexpected end of value input"), buffer, f, ?_, carries, Nat.le_refl _,
          .inr ⟨⟨_, rfl⟩, ended⟩⟩
        split
        · rename_i failed; rw [filled] at failed; cases failed
        · rename_i same
          rw [filled] at same
          obtain rfl : f = _ := by simpa using same
          rfl
        · rename_i wrong; rw [filled] at wrong; cases wrong
      · obtain ⟨r, buffer', last, eq, carries', less', cases_⟩ := ih _ less next rfl
        refine ⟨r, buffer', last, ?_, carries', by omega, ?_⟩
        · split
          · rename_i failed; rw [filled] at failed; cases failed
          · rename_i wrong; rw [filled] at wrong; cases wrong
          · rename_i same
            rw [filled] at same
            obtain ⟨-, rfl⟩ : values.length = _ ∧ later = _ := by simpa using same
            exact eq
        · rcases cases_ with ⟨ok, -⟩ | ended
          · exact .inl ⟨ok, fun _ => by omega⟩
          · exact .inr ended
    · exact ⟨_, buffer, f, rfl, carries, Nat.le_refl _, .inl ⟨rfl, fun short => by omega⟩⟩

theorem fill_carries (inside : n ≤ c) (more : buffer.length < n) :
    ∃ r buffer' later, f.fill n = (r, later) ∧ Carries c buffer' stream later ∧
      ((r = .ok () ∧ weight later.pieces < weight f.pieces) ∨
        (∃ m, r = .error (.endOfStream m)) ∧ later.pieces = []) := by
  obtain ⟨r, buffer', later, eq, carries', -, cases_⟩ := fillSlow_carries carries inside
  refine ⟨r, buffer', later, ?_, carries', cases_.imp_left fun ok => ⟨ok.1, ok.2 more⟩⟩
  rw [Feed.fill, carries.capacity, carries.size, if_neg (by omega), if_neg (by omega)]
  exact eq

end

end Fill

section Reel
variable {scanner : Scanner α Frame} {c k : Nat} {buffer stream : List α} {f : Feed α}

/-- Whatever part of the stream is visible while fewer than `k` frames are: what a fill asks for fits the buffer. -/
def Roomy (scanner : Scanner α Frame) (c k : Nat) (stream : List α) : Prop :=
  ∀ m, m ≤ stream.length → m ≤ c → (chopped scanner (stream.take m)).length < k →
    asked scanner (stream.take m) ≤ c

theorem peekLoop_carries (lawful : Lawful scanner) (roomy : Roomy scanner c k stream)
    (carries : Carries c buffer stream f) {fuel : Nat} (enough : weight f.pieces < fuel) :
    ∃ buffer' later, Reel.peekLoop scanner k fuel f = (.ok (), later) ∧ Carries c buffer' stream later ∧
      (k ≤ (chopped scanner buffer').length ∨ later.pieces = []) := by
  induction fuel generalizing f buffer with
  | zero => omega
  | succ fuel ih =>
    have shows_ := lawful.hasAtLeast_eq f.buffered k 0
    have target := lawful.nextFillTarget_eq f.buffered (Nat.zero_le _)
    rw [drop_zero, carries.buffered] at shows_ target
    rw [Nat.zero_add] at target
    by_cases done : k ≤ (chopped scanner buffer).length
    · refine ⟨buffer, f, ?_, carries, .inl done⟩
      rw [Reel.peekLoop, shows_, decide_eq_true done]
    · have room := roomy _ carries.length_le carries.fits
      rw [← carries.shown] at room
      obtain ⟨r, buffer', later, eq, carries', cases_⟩ :=
        fill_carries carries (room (by omega)) (lawful.asked_gt buffer)
      rcases cases_ with ⟨rfl, less⟩ | ⟨⟨m, rfl⟩, ended⟩
      · obtain ⟨buffer'', last, eq', carries'', done'⟩ := ih carries' (by omega)
        refine ⟨buffer'', last, ?_, carries'', done'⟩
        rw [Reel.peekLoop, shows_, decide_eq_false done]
        simp only [target, eq, eq']
      · refine ⟨buffer', later, ?_, carries', .inr ended⟩
        rw [Reel.peekLoop, shows_, decide_eq_false done]
        simp only [target, eq]

theorem peek_carries (lawful : Lawful scanner) (roomy : Roomy scanner c k stream) (carries : Carries c buffer stream f) :
    ∃ buffer' later, Reel.peek scanner k f = (.ok (), later) ∧ Carries c buffer' stream later ∧
      Reel.visible scanner later = .ok (chopped scanner buffer') ∧ chopped scanner buffer' <+: chopped scanner stream ∧
      ((chopped scanner buffer').length < k → later.pieces = [] ∧ chopped scanner buffer' = chopped scanner stream) := by
  obtain ⟨buffer', later, eq, carries', done⟩ := peekLoop_carries lawful roomy carries (Nat.lt_succ_self _)
  refine ⟨buffer', later, eq, carries', ?_, ?_, fun few => ?_⟩
  · rw [Reel.visible, lawful.framesFrom_eq, drop_zero, carries'.buffered]
  · rw [← carries'.stream]
    exact lawful.chopped_append _ _
  · rcases done with shown | ended
    · omega
    · refine ⟨ended, ?_⟩
      rw [← carries'.stream, ended, flatten_nil, append_nil]

theorem discardPrefix_carries (carries : Carries c buffer stream f) {extent : Nat} (inside : extent ≤ buffer.length) :
    ∃ later, Reel.discardPrefix extent f = (.ok (), later) ∧
      Carries c (buffer.drop extent) (stream.drop extent) later := by
  by_cases none_ : extent = 0
  · subst none_
    exact ⟨f, by rw [Reel.discardPrefix.eq_def, if_pos rfl], carries⟩
  · have cut : min extent f.ring.size = extent := by rw [carries.size]; omega
    have tossed : f.discard extent = (some extent, { f with ring := (f.ring.destroyPrefix extent).resetIfEmpty }) := by
      rw [Feed.discard, if_neg none_, if_neg (by rw [carries.size]; omega)]
      simp only [cut]
    refine ⟨{ f with ring := (f.ring.destroyPrefix extent).resetIfEmpty }, ?_, ?_, ?_, ?_⟩
    · rw [Reel.discardPrefix.eq_def, if_neg none_]
      split
      · rename_i ended; rw [tossed] at ended; cases ended
      · rename_i same
        rw [tossed] at same
        obtain ⟨rfl, rfl⟩ : extent = _ ∧ _ = _ := by simpa using same
        rw [if_neg (Nat.lt_irrefl _), Nat.sub_self, Reel.discardPrefix.eq_def, if_pos rfl]
    · exact Ring.reset_holds (Ring.destroyPrefix_holds carries.held inside)
    · rw [Ring.reset_capacity, Ring.destroyPrefix, Ring.destroyPrefixLoop_capacity, carries.capacity]
    · rw [← carries.stream, drop_append, Nat.sub_eq_zero_of_le inside, drop_zero]

/-- The stream that is left behind its first `n` frames. -/
def behind (scanner : Scanner α Frame) (stream : List α) (n : Nat) : List α :=
  stream.drop (extents ((chopped scanner stream).take n))

theorem behind_cons (lawful : Lawful scanner) {chop : FrameChop Frame} (found : scanner [stream] = .complete chop)
    (n : Nat) : behind scanner stream (n + 1) = behind scanner (stream.drop chop.extent) n := by
  simp only [behind, lawful.chopped_complete found, take_succ_cons, extents, map_cons, sum_cons,
    drop_drop]

theorem behind_nil (none_ : chopped scanner stream = []) (n : Nat) : behind scanner stream n = stream := by
  simp [behind, none_, extents]

theorem collect_carries (lawful : Lawful scanner) (n : Nat) {stream : List α} {f : Feed α}
    (roomy : ∀ i, Roomy scanner c 1 (behind scanner stream i)) (carries : Carries c buffer stream f) :
    ∃ buffer' later, Reel.collect scanner n f = (.ok ((chopped scanner stream).take n), later) ∧
      Carries c buffer' (behind scanner stream n) later := by
  induction n generalizing stream f buffer with
  | zero => exact ⟨buffer, f, rfl, by simpa [behind, extents] using carries⟩
  | succ n ih =>
    have here := roomy 0
    rw [behind, take_zero, extents, map_nil, sum_nil, drop_zero] at here
    obtain ⟨buffer', shown, peeked, carries', -, part, few⟩ := peek_carries lawful here carries
    have first := lawful.frameAt_eq shown.buffered 0
    rw [drop_zero, carries'.buffered] at first
    cases frames : chopped scanner buffer' with
    | nil =>
      have none_ := (few (by rw [frames]; exact Nat.one_pos)).2
      rw [frames] at none_ first
      refine ⟨buffer', shown, ?_, ?_⟩
      · simp only [Reel.collect, peeked, first, head?_nil, ← none_, take_nil]
      · rwa [behind_nil none_.symm]
    | cons chop chops =>
      rw [frames] at part first
      obtain ⟨later_, whole⟩ := part
      obtain ⟨found, rest⟩ := lawful.chopped_cons (whole.symm.trans (cons_append ..))
      have inside := lawful.bounds (lawful.chopped_cons frames).1
      obtain ⟨left, tossed, carries''⟩ := discardPrefix_carries carries' inside.2
      obtain ⟨buffer'', last, collected, carries₃⟩ :=
        ih (fun i => by rw [← behind_cons lawful found i]; exact roomy (i + 1)) carries''
      refine ⟨buffer'', last, ?_, ?_⟩
      · simp only [Reel.collect, peeked, first, head?_cons, tossed, collected, lawful.chopped_complete found,
          take_succ_cons]
      · rwa [behind_cons lawful found]

theorem extents_take_le (lawful : Lawful scanner) (stream : List α) (n : Nat) :
    extents ((chopped scanner stream).take n) ≤ stream.length := by
  have part := (take_sublist n (chopped scanner stream)).map FrameChop.extent
  exact (part.sum_le_sum fun _ _ => Nat.zero_le _).trans (lawful.extents_le stream)

theorem chopped_behind (lawful : Lawful scanner) (n : Nat) (stream : List α) :
    chopped scanner (behind scanner stream n) = (chopped scanner stream).drop n := by
  induction n generalizing stream with
  | zero => simp [behind, extents]
  | succ n ih =>
    cases found : scanner [stream] with
    | needMore minimum =>
      have none_ := chopped_more found
      rw [behind_nil none_, none_, drop_nil]
    | complete chop => rw [behind_cons lawful found, ih, lawful.chopped_complete found, drop_succ_cons]

/-- Reels frame a stream independently of its delivery: the frames of the whole stream come out in order, an empty view
    means that the source has ended with no frame left, and a peek shows as many frames as there are. -/
theorem reel_frames_stream (lawful : Lawful scanner) (pieces : List (List α))
    (roomy : ∀ i, Roomy scanner c 1 (behind scanner pieces.flatten i)) (n : Nat) :
    ∃ later, Reel.collect scanner n (Feed.fresh c pieces) = (.ok ((chopped scanner pieces.flatten).take n), later) ∧
      extents ((chopped scanner pieces.flatten).take n) ≤ pieces.flatten.length ∧
      later.buffered.flatten ++ later.pieces.flatten =
        pieces.flatten.drop (extents ((chopped scanner pieces.flatten).take n)) ∧
      (∃ last view, Reel.peek scanner 1 later = (.ok (), last) ∧ Reel.visible scanner last = .ok view ∧
        (view = [] ↔ last.pieces = [] ∧ (chopped scanner pieces.flatten).drop n = [])) ∧
      ∀ k, Roomy scanner c k (behind scanner pieces.flatten n) →
        ∃ last view, Reel.peek scanner k later = (.ok (), last) ∧ Reel.visible scanner last = .ok view ∧
          view <+: (chopped scanner pieces.flatten).drop n ∧
          min k ((chopped scanner pieces.flatten).drop n).length ≤ view.length := by
  obtain ⟨buffer, later, collected, carries⟩ := collect_carries lawful n roomy (fresh_carries c pieces)
  refine ⟨later, collected, extents_take_le lawful _ n, ?_, ?_, fun k room => ?_⟩
  · rw [carries.buffered, carries.stream, behind]
  · obtain ⟨buffer', last, peeked, carries', shown, part, few⟩ := peek_carries lawful (roomy n) carries
    rw [chopped_behind lawful] at part few
    refine ⟨last, _, peeked, shown, fun none_ => ?_, fun ended => ?_⟩
    · obtain ⟨ended, whole⟩ := few (by rw [none_]; exact Nat.one_pos)
      exact ⟨ended, whole ▸ none_⟩
    · rw [ended.2] at part
      exact prefix_nil.mp part
  · obtain ⟨buffer', last, peeked, carries', shown, part, few⟩ := peek_carries lawful room carries
    rw [chopped_behind lawful] at part few
    refine ⟨last, _, peeked, shown, part, ?_⟩
    by_cases short : (chopped scanner buffer').length < k
    · rw [(few short).2]
      exact Nat.min_le_right _ _
    · exact Nat.le_trans (Nat.min_le_left _ _) (Nat.le_of_not_lt short)

/-- Pairs of values, by a scanner that always wants three values at an odd one. -/
def pairScanner : Scanner Nat Unit := fun stock =>
  if 2 ≤ stock.flatten.length then .complete ⟨2, ()⟩ else .needMore 3

theorem pairScanner_lawful : Lawful pairScanner where
  flat same := by simp only [pairScanner, same]
  sound {stock chop} found := by
    simp only [pairScanner] at found
    split at found
    · obtain rfl := ScanResult.complete.inj found
      exact ⟨Nat.two_pos, ‹_›⟩
    · cases found
  stable {stock chop} more found := by
    simp only [pairScanner] at found ⊢
    split at found
    · rw [if_pos (by rw [flatten_append, length_append]; omega)]
      exact found
    · cases found

theorem pairScanner_roomy (stream : List Nat) : Roomy pairScanner 4 1 stream := by
  intro m _ _ few
  cases found : pairScanner [stream.take m] with
  | complete chop =>
    rw [pairScanner_lawful.chopped_complete found, length_cons] at few
    omega
  | needMore minimum =>
    by_cases none_ : stream.take m = []
    · rw [none_, pairScanner_lawful.asked_nil]
      decide
    · rw [asked_more none_ found]
      simp only [pairScanner, flatten_cons, flatten_nil, append_nil] at found
      split at found
      · cases found
      · obtain rfl := ScanResult.needMore.inj found
        omega

theorem reel_frames_pairs : ∃ later, Reel.collect pairScanner 2 (Feed.fresh 4 [[1, 2, 3], [], [4]]) =
    (.ok [⟨2, ()⟩, ⟨2, ()⟩], later) ∧ later.buffered.flatten ++ later.pieces.flatten = [] := by
  have frames : chopped pairScanner [[1, 2, 3], [], [4]].flatten = [⟨2, ()⟩, ⟨2, ()⟩] := by decide +kernel
  obtain ⟨later, collected, -, rest, -⟩ :=
    reel_frames_stream pairScanner_lawful [[1, 2, 3], [], [4]] (fun i => pairScanner_roomy _) 2
  rw [frames] at collected rest
  exact ⟨later, collected, rest⟩

/-- Two frames that fill the buffer exist and every amount the scanner asks for fits it, but counted from the front of
    the buffer the amount does not. -/
theorem second_pair_too_far : Lawful pairScanner ∧ chopped pairScanner [1, 2, 3, 4] = [⟨2, ()⟩, ⟨2, ()⟩] ∧
      (∀ stock minimum, pairScanner stock = .needMore minimum → minimum ≤ 4) ∧
      (Reel.peek pairScanner 2 (Feed.fresh 4 [[1, 2, 3], [4]])).1 =
        .error (.buffer "value source buffer is too small") := by
  refine ⟨pairScanner_lawful, by decide +kernel, fun stock minimum found => ?_, by decide +kernel⟩
  simp only [pairScanner] at found
  split at found
  · cases found
  · obtain rfl := ScanResult.needMore.inj found
    decide

end Reel
end Nxt.Buffers
