import Nxt.Compression.Inflating
import Nxt.Compression.Zstd

/- The decompressing readers deliver their streams, whatever the pieces and the rooms, when no call of
   the codec takes the input up to an end and withholds output: they fill in more input before the
   codec may flush. -/
namespace Nxt.Compression
open Nxt.Lib List
open Nxt.Mt (Feed)

def Reader.start {S : Type} (c : Codec S) (feed : Feed) : Reader S := { codec := c.start, feed }

def ZstdReader.start {S : Type} (c : Codec S) (feed : Feed) : ZstdReader S := { codec := c.start, feed }

section Streams
variable {S : Type} {c : Codec S} {Stream : Bytes → Bytes → Prop} {feed : Feed} {rooms : Nat → Room}

theorem Reader.start_inside (t : Transducer c Stream) {q d : Bytes} (stream : Stream (feed.rest ++ q) d)
    (capacity : 0 < feed.capacity) (sound : feed.Sound) : Reader.Inside t q (Reader.start c feed) (feed.rest ++ q) d :=
  ⟨t.starts stream, t.some_ stream, rfl, rfl, capacity, sound, Nat.zero_le _⟩

theorem ZstdReader.start_inside (t : FrameTransducer c Stream) (feed : Feed) (q after : Bytes) {f d : Bytes} (frame : Stream f d)
    (rest : feed.rest ++ q = f ++ after) (alone : q = [] ∨ after = []) (capacity : 4 ≤ feed.capacity)
    (sound : feed.Sound) : ZstdReader.Inside t q after (ZstdReader.start c feed) f d :=
  ⟨t.starts frame, t.some_ frame, rest, alone, rfl, rfl, capacity, sound, Nat.zero_le _⟩

/-- The feed ends where its stream does. -/
def StreamLags (l : Loop) (c : Codec S) (rooms : Nat → Room) (feed : Feed) : Prop :=
  Lags (Reader.machine l c) (fun rest => rest = []) rooms (Reader.start c feed)

/-- What is left of the feed after a number of whole frames. -/
def FrameEnd (Frame : Bytes → Bytes → Prop) (feed : Feed) (rest : Bytes) : Prop :=
  ∃ gone made, feed.rest = gone ++ rest ∧ gone ≠ [] ∧ Frames Frame gone made

def FrameLags (c : Codec S) (Frame : Bytes → Bytes → Prop) (rooms : Nat → Room) (feed : Feed) : Prop :=
  Lags (ZstdReader.machine c) (FrameEnd Frame feed) rooms (ZstdReader.start c feed)

def DeliversStream (l : Loop) (c : Codec S) (Stream : Bytes → Bytes → Prop) (rooms : Nat → Room) (feed : Feed) : Prop :=
  (∀ d, Stream feed.rest d → ¬StreamLags l c rooms feed →
    Delivers (Reader.streamMore l c) rooms (Reader.start c feed) d none) ∧
  ∀ q d, q ≠ [] → Stream (feed.rest ++ q) d →
    ∃ out, out <+: d ∧ Delivers (Reader.streamMore l c) rooms (Reader.start c feed) out (some l.ended)

theorem delivers_stream {l : Loop} (proper : l.Proper) (t : Transducer c Stream) (positive : ∀ i, 0 < (rooms i).out)
    (capacity : 0 < feed.capacity) (sound : feed.Sound) : DeliversStream l c Stream rooms feed := by
  constructor
  · intro d stream prompt
    have inside : Reader.Inside t [] (Reader.start c feed) (feed.rest ++ []) d :=
      Reader.start_inside t (by rwa [append_nil]) capacity sound
    rcases inside.reads proper _ (Nat.lt_succ_self _) positive (fun _ => prompt) with ⟨-, reads⟩ | ⟨cut, -⟩
    · exact reads.delivers
    · exact absurd rfl cut
  · intro q d more stream
    have inside := Reader.start_inside t stream capacity sound
    rcases inside.reads proper _ (Nat.lt_succ_self _) positive (fun whole => absurd whole more) with
      ⟨whole, -⟩ | ⟨-, out, part, reads⟩
    · exact absurd whole more
    · exact ⟨out, part, reads.delivers⟩

/-- What the zstd reader owes frames and their cut-off parts: where at most three bytes follow a whole frame the stream
    ends there. -/
def DeliversFrames (c : Codec S) (Frame : Bytes → Bytes → Prop) (rooms : Nat → Room) (feed : Feed) : Prop :=
  (∀ d, feed.rest ≠ [] → Frames Frame feed.rest d →
    Delivers (ZstdReader.streamMore c) rooms (ZstdReader.start c feed) d none) ∧
  ∀ q d, q ≠ [] → Frames Frame (feed.rest ++ q) d →
    ∃ whole made part frame rest, feed.rest = whole ++ part ∧ Frames Frame whole made ∧ Frame frame rest ∧
      part <+: frame ∧ part ≠ frame ∧ made ++ rest <+: d ∧ if whole ≠ [] ∧ part.length < 4 then
        Delivers (ZstdReader.streamMore c) rooms (ZstdReader.start c feed) made none
      else ∃ out, out <+: rest ∧
        Delivers (ZstdReader.streamMore c) rooms (ZstdReader.start c feed) (made ++ out) (some ZstdReader.endedInside)

theorem reads_frames (t : FrameTransducer c Stream) (prompt : ¬FrameLags c Stream rooms feed)
    (positive : ∀ i, 0 < (rooms i).out) (capacity : 4 ≤ feed.capacity) (sound : feed.Sound) {whole made p : Bytes}
    (frames : Frames Stream whole made) (some_ : whole ≠ []) (rest : feed.rest = whole ++ p)
    {Q : Bytes → Option String → Prop} (leads : ZstdReader.Leads t (FrameEnd Stream feed) p Q) :
    ∃ out e, Q out e ∧ Reads (ZstdReader.streamMore c) rooms (ZstdReader.start c feed) (made ++ out) e := by
  cases frames with
  | nil => exact absurd rfl some_
  | @cons f df zs ds frame later =>
    have inside := ZstdReader.start_inside t feed [] (zs ++ p) frame
      (by rw [append_nil, rest, append_assoc]) (.inl rfl) capacity sound
    have boundary (x y dx : Bytes) (split : zs = x ++ y) (before : Frames Stream x dx) :
        FrameEnd Stream feed (y ++ p) := by
      refine ⟨f ++ x, df ++ dx, ?_, append_ne_nil_of_left_ne_nil (t.some_ frame) x, .cons frame before⟩
      rw [rest, split]
      simp only [append_assoc]
    have leads := ZstdReader.leads_frames later (fun x y dx split _ before => boundary x y dx split before) leads
    obtain ⟨out, e, ⟨last, split, holds⟩, reads⟩ :=
      inside.reads_whole (boundary [] zs [] rfl .nil) leads _ (Nat.lt_succ_self _) positive prompt
    refine ⟨last, e, holds, ?_⟩
    rw [append_assoc, ← split]
    exact reads

theorem delivers_frames (t : FrameTransducer c Stream) (prompt : ¬FrameLags c Stream rooms feed)
    (positive : ∀ i, 0 < (rooms i).out) (capacity : 4 ≤ feed.capacity) (sound : feed.Sound) :
    DeliversFrames c Stream rooms feed := by
  constructor
  · intro d some_ frames
    obtain ⟨out, e, ⟨rfl, rfl⟩, reads⟩ := reads_frames t prompt positive capacity sound frames some_
      (append_nil _).symm (ZstdReader.leads_end (Nat.zero_lt_succ 3))
    rw [append_nil] at reads
    exact reads.delivers
  · intro q d more frames
    obtain ⟨whole, made, part, frame, rest, split, before, last, within, proper, prefix_⟩ := frames.cut rfl more
    refine ⟨whole, made, part, frame, rest, split, before, last, within, proper, prefix_, ?_⟩
    by_cases none : whole = []
    · rw [if_neg fun both => both.1 none]
      have nothing : made = [] := by
        cases before with
        | nil => rfl
        | cons first _ =>
          have long := (t.magic first).1
          rw [(append_eq_nil_iff.mp none).1] at long
          exact absurd long (by decide)
      obtain ⟨q', joined⟩ := id within
      have cut : q' ≠ [] := by
        rintro rfl
        exact proper (by rw [← joined, append_nil])
      have inside := ZstdReader.start_inside t feed q' [] last
        (by rw [split, none, nil_append, joined, append_nil]) (.inr rfl) capacity sound
      obtain ⟨out, part, reads⟩ := inside.reads_part cut _ (Nat.lt_succ_self _) positive prompt
      rw [nothing]
      exact ⟨out, part, reads.delivers⟩
    · by_cases short : part.length < 4
      · rw [if_pos ⟨none, short⟩]
        obtain ⟨out, e, ⟨rfl, rfl⟩, reads⟩ := reads_frames t prompt positive capacity sound before none split
          (ZstdReader.leads_end short)
        rw [append_nil] at reads
        exact reads.delivers
      · rw [if_neg fun both => short both.2]
        obtain ⟨out, e, ⟨part, rfl⟩, reads⟩ := reads_frames t prompt positive capacity sound before none split
          (ZstdReader.leads_part last within proper (Nat.not_lt.mp short))
        exact ⟨out, part, reads.delivers⟩

end Streams

section Recordings

/-- A codec that knows one stream. It takes all of it that it is offered, and makes its output after
    the last byte, as much as there is room for. -/
def withholding (z d : Bytes) : Codec (Bytes × Bytes) where
  start := (z, d)
  call s input room :=
    let taken := min input.length s.1.length
    if input.take taken ≠ s.1.take taken then
      { state := s, consumed := 0, output := [], verdict := .failed "data error" }
    else if taken < s.1.length then
      { state := (s.1.drop taken, s.2), consumed := taken, output := [], verdict := .more }
    else if s.2.length ≤ room then { state := (z, d), consumed := taken, output := s.2, verdict := .finished }
    else { state := ([], s.2.drop room), consumed := taken, output := s.2.take room, verdict := .more }

def Known (z d z' d' : Bytes) : Prop := z' = z ∧ d' = d

theorem withholding_call (z d : Bytes) {s : Bytes × Bytes} {t input : Bytes} (within : input <+: s.1 ++ t) (room : Nat) :
    (withholding z d).call s input room =
      if min input.length s.1.length < s.1.length then
        { state := (s.1.drop (min input.length s.1.length), s.2), consumed := min input.length s.1.length, output := []
          verdict := .more }
      else if s.2.length ≤ room then
        { state := (z, d), consumed := min input.length s.1.length, output := s.2, verdict := .finished }
      else
        { state := ([], s.2.drop room), consumed := min input.length s.1.length, output := s.2.take room
          verdict := .more } := by
  obtain ⟨more, split⟩ := within
  have same : input.take (min input.length s.1.length) = s.1.take (min input.length s.1.length) := by
    have both := congrArg (List.take (min input.length s.1.length)) split
    rw [take_append_of_le_length (Nat.min_le_left _ _), take_append_of_le_length (Nat.min_le_right _ _)] at both
    exact both
  exact if_neg (not_not.mpr same)

def withholdingTransducer (z d : Bytes) (some_ : z ≠ []) : Transducer (withholding z d) (Known z d) where
  Residual s z' d' := s = (z', d')
  some_ := by
    rintro z' d' ⟨rfl, rfl⟩
    exact some_
  starts := by
    rintro z' d' ⟨rfl, rfl⟩
    rfl
  answers := by
    rintro s z' d' t input room rfl offered within positive
    have long := length_pos_iff.mpr offered
    rw [withholding_call z d within room]
    dsimp only
    split
    · exact ⟨Nat.min_le_left _ _, Nat.min_le_right _ _, .inr ⟨rfl, .inl (by dsimp only; omega), d', rfl, rfl⟩⟩
    · have all : min input.length z'.length = z'.length := by omega
      rw [all]
      have enough : z'.length ≤ input.length := by omega
      split
      · exact ⟨enough, le_rfl, .inl ⟨rfl, rfl, rfl⟩⟩
      · refine ⟨enough, le_rfl, .inr ⟨rfl, .inr ?_, d'.drop room, (take_append_drop room d').symm, ?_⟩⟩
        · intro none
          have length := congrArg List.length none
          rw [length_take, length_nil] at length
          omega
        · show ([], d'.drop room) = (z'.drop z'.length, d'.drop room)
          rw [drop_length]

def rawFrame : Bytes := [0x28, 0xb5, 0x2f, 0xfd, 0x20, 0x01, 0x09, 0x00, 0x00, 0x41]

def rawFrames : FrameTransducer (withholding rawFrame [0x41]) (Known rawFrame [0x41]) where
  toTransducer := withholdingTransducer rawFrame [0x41] (cons_ne_nil _ _)
  magic := by
    rintro z d ⟨rfl, rfl⟩
    decide
  again := by
    rintro s z d t input z' d' room rfl offered within - ends ⟨rfl, rfl⟩
    rw [withholding_call _ _ within room] at ends ⊢
    dsimp only at ends ⊢
    split at ends
    · cases ends
    · split at ends
      · rename_i late fits
        rw [if_neg late, if_pos fits]
        rfl
      · cases ends

theorem rawFrame_end {rest : Bytes} {feed : Feed} (all : feed.rest.length % 10 = 0)
    (ended : FrameEnd (Known rawFrame [0x41]) feed rest) : rest.length % 10 = 0 := by
  obtain ⟨gone, made, split, -, frames⟩ := ended
  have tens : gone.length % 10 = 0 := by
    clear split
    induction frames with
    | nil => rfl
    | cons frame _ ih =>
      obtain ⟨rfl, -⟩ := frame
      rw [length_append, Nat.add_mod, ih]
      rfl
  rw [split, length_append] at all
  omega

def storedBlock : Bytes := [0x01, 0x01, 0x00, 0xfe, 0xff, 0x41]

def brotliLetters : Bytes := [0x8b, 0x00, 0x80, 0x41, 0x42, 0x03]

def wideRooms (limit : Nat) (_ : Nat) : Room := { limit, capacity := 8 }

def framed (capacity : Nat) (pieces : List Bytes) : Feed := { capacity, pieces }

end Recordings

/-- A codec of two letters takes its last byte while there is room for one of them only, and the
    second is lost. By design the zstd reader ends without an error after a whole frame, and a feed of
    three bytes is too small for it. -/
theorem last_letter_withheld :
    readToEnd (Reader.streamMore .brotli (withholding brotliLetters [0x41, 0x42]) 20) 20 (wideRooms 1)
        (Reader.start (withholding brotliLetters [0x41, 0x42]) (framed 8 [brotliLetters])) =
      some ([0x41], some "unexpected end of brotli stream") ∧
    Nonempty (Transducer (withholding brotliLetters [0x41, 0x42]) (Known brotliLetters [0x41, 0x42])) ∧
    readToEnd (ZstdReader.streamMore (withholding rawFrame [0x41]) 20) 20 (wideRooms 1)
        (ZstdReader.start (withholding rawFrame [0x41]) (framed 4 [rawFrame])) = some ([0x41], none) ∧
    readToEnd (ZstdReader.streamMore (withholding rawFrame [0x41]) 20) 20 (wideRooms 1)
        (ZstdReader.start (withholding rawFrame [0x41]) (framed 3 [rawFrame])) = some ([0x41], some tooSmall) ∧
    Nonempty (FrameTransducer (withholding rawFrame [0x41]) (Known rawFrame [0x41])) :=
  ⟨by decide, ⟨withholdingTransducer _ _ (cons_ne_nil _ _)⟩, by decide, by decide, ⟨rawFrames⟩⟩

/-- Every stream is delivered whole and then ends, where no call of the codec takes the input up to an
    end and withholds output; a part of a stream is an error, for zstd unless it ends with at most three
    bytes after a whole frame. -/
theorem readers_deliver {S₁ S₂ S₃ : Type} {inflate : Codec S₁} {decompressStream : Codec S₂} {brotli : Codec S₃}
    {Deflated Frame Compressed : Bytes → Bytes → Prop} (t₁ : Transducer inflate Deflated)
    (t₂ : FrameTransducer decompressStream Frame) (t₃ : Transducer brotli Compressed) {rooms : Nat → Room}
    (positive : ∀ i, 0 < (rooms i).out) {feed : Feed} (sound : feed.Sound) :
    (0 < feed.capacity → DeliversStream .zlib inflate Deflated rooms feed ∧
      DeliversStream .brotli brotli Compressed rooms feed) ∧
    (4 ≤ feed.capacity → ¬FrameLags decompressStream Frame rooms feed →
      DeliversFrames decompressStream Frame rooms feed) :=
  ⟨fun capacity => ⟨delivers_stream Loop.zlib_proper t₁ positive capacity sound,
      delivers_stream Loop.brotli_proper t₃ positive capacity sound⟩,
    fun capacity prompt => delivers_frames t₂ prompt positive capacity sound⟩

/-- Pieces of three bytes, and room for two; of the second feed the last byte is missing. -/
theorem readers_deliver_letters : (Delivers (Reader.streamMore .zlib (withholding storedBlock [0x41])) (wideRooms 2)
      (Reader.start (withholding storedBlock [0x41]) (framed 4 [storedBlock.take 3, storedBlock.drop 3])) [0x41] none) ∧
    (∃ out, out <+: [0x41, 0x42] ∧ Delivers (Reader.streamMore .brotli (withholding brotliLetters [0x41, 0x42]))
      (wideRooms 2) (Reader.start (withholding brotliLetters [0x41, 0x42]) (framed 4 [brotliLetters.take 3,
        (brotliLetters.drop 3).take 2])) out (some "unexpected end of brotli stream")) ∧
    (Delivers (ZstdReader.streamMore (withholding rawFrame [0x41])) (wideRooms 2)
      (ZstdReader.start (withholding rawFrame [0x41]) (framed 4 [rawFrame ++ rawFrame.take 3, rawFrame.drop 3]))
      [0x41, 0x41] none) := by
  have positive (i : Nat) : 0 < (wideRooms 2 i).out := Nat.zero_lt_succ 1
  have deliver {feed : Feed} (sound : feed.Sound) := readers_deliver
    (withholdingTransducer storedBlock [0x41] (cons_ne_nil _ _)) rawFrames
    (withholdingTransducer brotliLetters [0x41, 0x42] (cons_ne_nil _ _)) positive sound
  refine ⟨?_, ?_, ?_⟩
  · refine ((deliver (Nat.zero_le _)).1 (Nat.succ_pos 3)).1.1 _ ⟨rfl, rfl⟩ ?_
    exact not_lags_of_prompt (fun _ none => decide_eq_true none) 20 (by decide)
  · exact ((deliver (Nat.zero_le _)).1 (Nat.succ_pos 3)).2.2 [0x03] _ (cons_ne_nil _ _) ⟨rfl, rfl⟩
  · have two : Frames (Known rawFrame [0x41]) (rawFrame ++ (rawFrame ++ [])) ([0x41] ++ ([0x41] ++ [])) :=
      .cons ⟨rfl, rfl⟩ (.cons ⟨rfl, rfl⟩ .nil)
    refine ((deliver (Nat.zero_le _)).2 le_rfl ?_).1 _ (cons_ne_nil _ _) two
    exact not_lags_of_prompt (fun _ ended => decide_eq_true (rawFrame_end rfl ended)) 20 (by decide)

end Nxt.Compression
