import Nxt.Lib.Decoder
import Nxt.Mt.Packet

/- The abridged transport of MTProto and its three decoders: the cursor (nxt/mt/transport.hpp), the
   scan of buffered chunks and the asynchronous reader (nxtrt/mtproto.hpp). -/
namespace Nxt.Mt
open Nxt.Lib List

inductive AbridgedFrame where
  | payload (bytes : Bytes)
  | quickAck (token : BitVec 32)
  deriving DecidableEq

def AbridgedFrame.bytes? : AbridgedFrame → Option Bytes
  | .payload bytes => some bytes
  | .quickAck _ => none

def byteSwap32 (value : BitVec 32) : BitVec 32 :=
  ((value &&& 0x000000ff#32) <<< 24) ||| ((value &&& 0x0000ff00#32) <<< 8) |||
    ((value &&& 0x00ff0000#32) >>> 8) ||| ((value &&& 0xff000000#32) >>> 24)

def tokenOf (a b c d : Nat) : BitVec 32 :=
  byteSwap32 (BitVec.ofNat 32 a ||| (BitVec.ofNat 32 b <<< 8) ||| (BitVec.ofNat 32 c <<< 16) |||
    (BitVec.ofNat 32 d <<< 24))

def abridgedMaxWords : Nat := 16777216

section Cursor

def readAbridgedFrame : Reader String AbridgedFrame := do
  let first ← u8
  if first ≥ 0x80 then
    let b ← u8
    let c ← u8
    let d ← u8
    return .quickAck (tokenOf first b c d)
  else
    let words ← if first = 0x7f then le 3 else pure first
    return .payload (← take (words * 4))

end Cursor

section Chunks

def abridgedU8 : List Bytes → Nat → Except String Nat
  | [], _ => .error "short abridged frame"
  | chunk :: rest, index =>
      if index < chunk.length then .ok (chunk.getD index 0).toNat else abridgedU8 rest (index - chunk.length)

inductive Scan where
  | needMore (minimumBuffered : Nat)
  | chop (extent : Nat) (frame : AbridgedFrame)
  deriving DecidableEq

def wordsOf (a b c : Nat) : Nat := a ||| (b <<< 8) ||| (c <<< 16)

/-- `abridged_frame_view::scan`, once the header is there. -/
def scanPayload (chunks : List Bytes) (header words : Nat) : Except String Scan :=
  if words ≥ abridgedMaxWords then .error "abridged payload is too large"
  else if chunks.flatten.length < header + words * 4 then .ok (.needMore (header + words * 4))
  else .ok (.chop (header + words * 4) (.payload ((chunks.flatten.drop header).take (words * 4))))

def scan (chunks : List Bytes) : Except String Scan :=
  if chunks.flatten.length < 1 then .ok (.needMore 1)
  else do
    let first ← abridgedU8 chunks 0
    if first ≥ 0x80 then
      if chunks.flatten.length < 4 then .ok (.needMore 4)
      else
        let b ← abridgedU8 chunks 1
        let c ← abridgedU8 chunks 2
        let d ← abridgedU8 chunks 3
        .ok (.chop 4 (.quickAck (tokenOf first b c d)))
    else if first = 0x7f then
      if chunks.flatten.length < 4 then .ok (.needMore 4)
      else
        let a ← abridgedU8 chunks 1
        let b ← abridgedU8 chunks 2
        let c ← abridgedU8 chunks 3
        scanPayload chunks 4 (wordsOf a b c)
    else scanPayload chunks 1 first

/-- Discard from the front of the buffered chunks. -/
def discard : Nat → List Bytes → List Bytes
  | _, [] => []
  | n, chunk :: rest => if n < chunk.length then chunk.drop n :: rest else discard (n - chunk.length) rest

end Chunks

section Feed

structure Feed where
  capacity : Nat
  buffered : Bytes := []
  pieces : List Bytes
  deriving DecidableEq

namespace Feed

def rest (f : Feed) : Bytes := f.buffered ++ f.pieces.flatten

/-- Refill until so much is buffered: a refill reads what there is room for of the next piece. -/
def fill (n capacity : Nat) : Bytes → List Bytes → Except String (Bytes × List Bytes)
  | buffered, [] => if n ≤ buffered.length then .ok (buffered, []) else .error "end of stream"
  | buffered, piece :: pieces =>
      if n ≤ buffered.length then .ok (buffered, piece :: pieces)
      else
        let room := capacity - buffered.length
        if piece.length ≤ room then fill n capacity (buffered ++ piece) pieces
        else .ok (buffered ++ piece.take room, piece.drop room :: pieces)

def take (n : Nat) : StateT Feed (Except String) Bytes := fun f =>
  if n > f.capacity then .error "value source buffer is too small"
  else do
    let (buffered, pieces) ← fill n f.capacity f.buffered f.pieces
    return (buffered.take n, { f with buffered := buffered.drop n, pieces })

/-- A round after its first byte. -/
def afterFirst (first : Nat) : StateT Feed (Except String) (Option Bytes) := do
  if first ≥ 0x80 then
    let _ ← take 3
    return none
  else if first = 0x7f then
    let extended ← take 3
    let words := wordsOf (extended.getD 0 0).toNat (extended.getD 1 0).toNat (extended.getD 2 0).toNat
    return some (← take (words * 4))
  else
    return some (← take (first * 4))

/-- One round of the loop of `nxtrt::mtproto::read_abridged_frame`; quick acks are skipped. -/
def round : StateT Feed (Except String) (Option Bytes) := do
  let firstByte ← take 1
  afterFirst (firstByte.getD 0 0).toNat

/-- `nxtrt::mtproto::read_abridged_frame`. When a round throws, the feed as it was before the round. -/
def readAbridgedFrame : Nat → Feed → Except Feed (Bytes × Feed)
  | 0, f => .error f
  | fuel + 1, f =>
      match round f with
      | .error _ => .error f
      | .ok (none, f') => readAbridgedFrame fuel f'
      | .ok (some payload, f') => .ok (payload, f')

end Feed

end Feed

/-- What a decoder made of a stream: the payloads, the bytes after the last whole frame, and whether
    the stream ended inside a frame or was refused. -/
structure Decoded where
  payloads : List Bytes
  left : Bytes
  failed : Bool
  deriving DecidableEq

def Decoded.ofLeft (payloads : List Bytes) (left : Bytes) : Decoded := { payloads, left, failed := !left.isEmpty }

def cursorFrames : Nat → Bytes → List AbridgedFrame × Bytes
  | 0, input => ([], input)
  | fuel + 1, input =>
      if input.isEmpty then ([], input)
      else
        match readAbridgedFrame input with
        | .error _ => ([], input)
        | .ok (frame, rest) =>
            let later := cursorFrames fuel rest
            (frame :: later.1, later.2)

def decodeCursor (data : Bytes) : Decoded :=
  let (frames, left) := cursorFrames data.length data
  .ofLeft (frames.filterMap AbridgedFrame.bytes?) left

def chops : Nat → List Bytes → Except (List AbridgedFrame × List Bytes) (List AbridgedFrame × List Bytes)
  | 0, chunks => .ok ([], chunks)
  | fuel + 1, chunks =>
      match scan chunks with
      | .error _ => .error ([], chunks)
      | .ok (.needMore _) => .ok ([], chunks)
      | .ok (.chop extent frame) =>
          match chops fuel (discard extent chunks) with
          | .ok (frames, left) => .ok (frame :: frames, left)
          | .error (frames, left) => .error (frame :: frames, left)

/-- The pieces arrive one by one; after each, the frames that are whole are taken off. -/
def reelFrames : List Bytes → List Bytes → Except (List AbridgedFrame × List Bytes) (List AbridgedFrame × List Bytes)
  | chunks, [] => .ok ([], chunks)
  | chunks, piece :: pieces =>
      match chops (chunks ++ [piece]).flatten.length (chunks ++ [piece]) with
      | .error failed => .error failed
      | .ok (frames, left) =>
          match reelFrames left pieces with
          | .ok (later, left) => .ok (frames ++ later, left)
          | .error (later, left) => .error (frames ++ later, left)

def decodeChunks (pieces : List Bytes) : Decoded :=
  match reelFrames [] pieces with
  | .ok (frames, left) => .ofLeft (frames.filterMap AbridgedFrame.bytes?) left.flatten
  | .error (frames, left) => { payloads := frames.filterMap AbridgedFrame.bytes?, left := left.flatten, failed := true }

/-- Calls of the asynchronous reader until one throws. -/
def feedFrames : Nat → Feed → List Bytes × Feed
  | 0, f => ([], f)
  | fuel + 1, f =>
      match f.readAbridgedFrame (f.rest.length + 1) with
      | .error last => ([], last)
      | .ok (payload, f') =>
          let later := feedFrames fuel f'
          (payload :: later.1, later.2)

def decodeFeed (capacity : Nat) (pieces : List Bytes) : Decoded :=
  let (payloads, last) := feedFrames (pieces.flatten.length + 1) { capacity, pieces }
  .ofLeft payloads last.rest

section Format

def headerOf (input : Bytes) : Nat × Nat :=
  if input.getD 0 0 = 0x7f then (4, ofLe ((input.drop 1).take 3)) else (1, (input.getD 0 0).toNat)

def nextFrame (input : Bytes) : Option (AbridgedFrame × Nat) :=
  if input.length < 1 then none
  else if 0x80 ≤ (input.getD 0 0).toNat then
    if input.length < 4 then none
    else some (.quickAck (tokenOf (input.getD 0 0).toNat (input.getD 1 0).toNat (input.getD 2 0).toNat
      (input.getD 3 0).toNat), 4)
  else
    let (header, words) := headerOf input
    if input.length < header ∨ input.length < header + words * 4 then none
    else some (.payload ((input.drop header).take (words * 4)), header + words * 4)

theorem headerOf_append {input : Bytes} (more : Bytes) (some_ : 1 ≤ input.length)
    (enough : (headerOf input).1 ≤ input.length) : headerOf (input ++ more) = headerOf input := by
  have first : (input ++ more).getD 0 0 = input.getD 0 0 := getD_append _ _ _ _ some_
  unfold headerOf at enough ⊢
  rw [first]
  split
  · rename_i long
    rw [if_pos long] at enough
    rw [drop_append_of_le_length some_, take_append_of_le_length]
    rw [length_drop]
    omega
  · rfl

theorem nextFrame_progress {input : Bytes} {frame : AbridgedFrame} {n : Nat}
    (found : nextFrame input = some (frame, n)) : 0 < n ∧ n ≤ input.length := by
  unfold nextFrame at found
  split at found
  · cases found
  · split at found
    · split at found
      · cases found
      · cases found
        omega
    · dsimp only at found
      split at found
      · cases found
      · cases found
        have header : 0 < (headerOf input).1 := by
          unfold headerOf
          split
          · exact Nat.succ_pos 3
          · exact Nat.succ_pos 0
        omega

theorem nextFrame_stable {input : Bytes} {frame : AbridgedFrame} {n : Nat} (more : Bytes)
    (found : nextFrame input = some (frame, n)) : nextFrame (input ++ more) = some (frame, n) := by
  unfold nextFrame at found ⊢
  have grows : (input ++ more).length = input.length + more.length := length_append
  split at found
  · cases found
  · rename_i some_
    have same (i : Nat) (within : i < input.length) : (input ++ more).getD i 0 = input.getD i 0 :=
      getD_append _ _ _ _ within
    rw [if_neg (by omega), same 0 (by omega)]
    split at found
    · rename_i ack
      rw [if_pos ack]
      split at found
      · cases found
      · rename_i four
        rw [if_neg (by omega), same 1 (by omega), same 2 (by omega), same 3 (by omega)]
        exact found
    · rename_i payload
      rw [if_neg payload]
      dsimp only at found ⊢
      split at found
      · cases found
      · rename_i whole
        rw [headerOf_append more (by omega) (by omega), if_neg (by omega),
          drop_append_of_le_length (by omega), take_append_of_le_length]
        · exact found
        · rw [length_drop]
          omega

def frames : Decoder UInt8 AbridgedFrame where
  next := nextFrame
  progress := nextFrame_progress
  stable := nextFrame_stable

end Format

section Cursor

theorem le_ok {n : Nat} {input : Bytes} (enough : n ≤ input.length) :
    le n input = .ok (ofLe (input.take n), input.drop n) := step_ok (take_ok enough) _

theorem le_short {n : Nat} {input : Bytes} (short : input.length < n) :
    le n input = .error "short MTProto input" := step_error (take_short short) _

theorem take_payload (rest : Bytes) (n : Nat) : (take n >>= fun bytes => pure (AbridgedFrame.payload bytes)) rest =
    if n ≤ rest.length then .ok (.payload (rest.take n), rest.drop n) else .error "short MTProto input" := by
  by_cases enough : n ≤ rest.length
  · rw [step_ok (take_ok enough), if_pos enough]
    rfl
  · rw [step_error (take_short (by omega)), if_neg enough]

def cursorResult (input : Bytes) : Option (AbridgedFrame × Nat) → Except String (AbridgedFrame × Bytes)
  | none => .error "short MTProto input"
  | some (frame, n) => .ok (frame, input.drop n)

theorem readAbridgedFrame_eq (input : Bytes) : readAbridgedFrame input = cursorResult input (nextFrame input) := by
  cases input with
  | nil => rfl
  | cons first rest =>
    have some_ : ¬ (first :: rest).length < 1 := by simp
    unfold readAbridgedFrame nextFrame
    rw [step_ok (u8_cons first rest), if_neg some_, getD_cons_zero]
    by_cases ack : 0x80 ≤ first.toNat
    · rw [if_pos ack, if_pos ack]
      match rest with
      | [] => rfl
      | [_] => rfl
      | [_, _] => rfl
      | b :: c :: d :: rest =>
        rw [if_neg (by simp)]
        rfl
    · rw [if_neg ack, if_neg ack]
      by_cases long : first = 0x7f
      · have seven : first.toNat = 0x7f := by rw [long]; rfl
        have header : headerOf (first :: rest) = (4, ofLe (rest.take 3)) := if_pos long
        rw [if_pos seven, header]
        dsimp only
        by_cases enough : 3 ≤ rest.length
        · rw [step_ok (le_ok enough), take_payload]
          by_cases whole : ofLe (rest.take 3) * 4 ≤ (rest.drop 3).length
          · rw [length_drop] at whole
            rw [if_pos (by rwa [length_drop]), if_neg (by rw [length_cons]; omega)]
            have shift : 4 + ofLe (rest.take 3) * 4 = 3 + ofLe (rest.take 3) * 4 + 1 := by omega
            rw [drop_drop, cursorResult, shift, drop_succ_cons, drop_succ_cons]
          · rw [length_drop] at whole
            rw [if_neg (by rwa [length_drop]), if_pos (by rw [length_cons]; omega)]
            rfl
        · rw [step_error (le_short (by omega)), if_pos (by rw [length_cons]; omega)]
          rfl
      · have other : ¬ first.toNat = 0x7f := fun same => long (UInt8.toNat_inj.mp same)
        have header : headerOf (first :: rest) = (1, first.toNat) := if_neg long
        rw [if_neg other, header, step_ok (rfl : (pure first.toNat : Reader String Nat) rest = .ok (first.toNat, rest))]
        dsimp only
        rw [take_payload]
        by_cases whole : first.toNat * 4 ≤ rest.length
        · rw [if_pos whole, if_neg (by rw [length_cons]; omega)]
          rw [cursorResult, Nat.add_comm 1, drop_succ_cons, drop_succ_cons, drop_zero]
        · rw [if_neg whole, if_pos (by rw [length_cons]; omega)]
          rfl

theorem cursorFrames_eq (fuel : Nat) (input : Bytes) (enough : input.length ≤ fuel) :
    cursorFrames fuel input = frames.drain input := by
  induction fuel generalizing input with
  | zero =>
    have nothing : input = [] := length_eq_zero_iff.mp (by omega)
    subst nothing
    exact (frames.drain_none rfl).symm
  | succ fuel ih =>
    unfold cursorFrames
    by_cases nothing : input = []
    · subst nothing
      exact (frames.drain_none rfl).symm
    · rw [if_neg (by simpa using nothing), readAbridgedFrame_eq]
      cases found : nextFrame input with
      | none => exact (frames.drain_none found).symm
      | some next =>
        obtain ⟨frame, n⟩ := next
        have bounds := nextFrame_progress found
        rw [frames.drain_some found]
        dsimp only [cursorResult]
        rw [ih _ (by rw [length_drop]; omega)]

end Cursor

section Chunks

theorem abridgedU8_flatten (chunks : List Bytes) {index : Nat} (within : index < chunks.flatten.length) :
    abridgedU8 chunks index = .ok (chunks.flatten.getD index 0).toNat := by
  induction chunks generalizing index with
  | nil => exact absurd within (Nat.not_lt_zero _)
  | cons chunk rest ih =>
    rw [flatten_cons, length_append] at within
    unfold abridgedU8
    by_cases here : index < chunk.length
    · rw [if_pos here, flatten_cons, getD_append _ _ _ _ here]
    · rw [if_neg here, flatten_cons, getD_append_right _ _ _ _ (by omega), ih (by omega)]

theorem discard_flatten (n : Nat) (chunks : List Bytes) : (discard n chunks).flatten = chunks.flatten.drop n := by
  induction chunks generalizing n with
  | nil => simp [discard]
  | cons chunk rest ih =>
    unfold discard
    split
    · rename_i inside
      rw [flatten_cons, flatten_cons, drop_append_of_le_length (by omega)]
    · rename_i beyond
      have gone : chunk.drop n = [] := drop_eq_nil_of_le (by omega)
      rw [ih, flatten_cons, drop_append, gone, nil_append]

theorem wordsOf_le (a b c : UInt8) : wordsOf a.toNat b.toNat c.toNat = ofLe [a, b, c] := by
  have low : a.toNat < 2 ^ 8 := a.toNat_lt
  have middle : b.toNat < 2 ^ 8 := b.toNat_lt
  have front : a.toNat ||| b.toNat <<< 8 = b.toNat <<< 8 + a.toNat := by
    rw [Nat.or_comm, Nat.shiftLeft_add_eq_or_of_lt low]
  have pair : b.toNat <<< 8 + a.toNat < 2 ^ 16 := by
    rw [Nat.shiftLeft_eq]
    omega
  have whole : (b.toNat <<< 8 + a.toNat) ||| c.toNat <<< 16 = c.toNat <<< 16 + (b.toNat <<< 8 + a.toNat) := by
    rw [Nat.or_comm, Nat.shiftLeft_add_eq_or_of_lt pair]
  rw [wordsOf, front, whole]
  simp only [ofLe, Nat.shiftLeft_eq]
  omega

theorem ofLe_lt (bytes : Bytes) : ofLe bytes < 256 ^ bytes.length := by
  induction bytes with
  | nil => exact Nat.one_pos
  | cons b rest ih =>
    have small : b.toNat < 256 := b.toNat_lt
    rw [ofLe, length_cons, pow_succ]
    omega

theorem four_bytes {input : Bytes} (enough : ¬ input.length < 4) : ∃ a b c d rest, input = a :: b :: c :: d :: rest := by
  match input with
  | [] | [_] | [_, _] | [_, _, _] =>
    simp only [length_cons, length_nil] at enough
    omega
  | a :: b :: c :: d :: rest => exact ⟨a, b, c, d, rest, rfl⟩

def ScanIs (input : Bytes) (result : Except String Scan) : Option (AbridgedFrame × Nat) → Prop
  | none => ∃ n, input.length < n ∧ result = .ok (.needMore n)
  | some (frame, n) => result = .ok (.chop n frame)

theorem scanPayload_is (chunks : List Bytes) {header words : Nat} (small : words < abridgedMaxWords)
    (there : header ≤ chunks.flatten.length) : ScanIs chunks.flatten (scanPayload chunks header words)
      (if chunks.flatten.length < header ∨ chunks.flatten.length < header + words * 4 then none
        else some (.payload ((chunks.flatten.drop header).take (words * 4)), header + words * 4)) := by
  unfold scanPayload
  rw [if_neg (by omega)]
  by_cases short : chunks.flatten.length < header + words * 4
  · rw [if_pos short, if_pos (.inr short)]
    exact ⟨_, short, rfl⟩
  · rw [if_neg short, if_neg (by omega)]
    rfl

theorem scan_is (chunks : List Bytes) : ScanIs chunks.flatten (scan chunks) (nextFrame chunks.flatten) := by
  have byte {index : Nat} := @abridgedU8_flatten chunks index
  unfold scan nextFrame
  by_cases nothing : chunks.flatten.length < 1
  · rw [if_pos nothing, if_pos nothing]
    exact ⟨1, nothing, rfl⟩
  · rw [if_neg nothing, if_neg nothing, byte (by omega)]
    show ScanIs _ (if (chunks.flatten.getD 0 0).toNat ≥ 0x80 then _ else _) _
    by_cases ack : 0x80 ≤ (chunks.flatten.getD 0 0).toNat
    · rw [if_pos ack, if_pos ack]
      by_cases short : chunks.flatten.length < 4
      · rw [if_pos short, if_pos short]
        exact ⟨4, short, rfl⟩
      · rw [if_neg short, if_neg short, byte (by omega), byte (by omega), byte (by omega)]
        rfl
    · rw [if_neg ack, if_neg ack]
      by_cases long : chunks.flatten.getD 0 0 = 0x7f
      · have seven : (chunks.flatten.getD 0 0).toNat = 0x7f := by rw [long]; rfl
        have header : headerOf chunks.flatten = (4, ofLe ((chunks.flatten.drop 1).take 3)) := if_pos long
        rw [if_pos seven, header]
        dsimp only
        by_cases short : chunks.flatten.length < 4
        · rw [if_pos short, if_pos (.inl short)]
          exact ⟨4, short, rfl⟩
        · have words : wordsOf (chunks.flatten.getD 1 0).toNat (chunks.flatten.getD 2 0).toNat
              (chunks.flatten.getD 3 0).toNat = ofLe ((chunks.flatten.drop 1).take 3) := by
            obtain ⟨a, b, c, d, rest, bytes⟩ := four_bytes short
            rw [bytes]
            exact wordsOf_le b c d
          have small : ofLe ((chunks.flatten.drop 1).take 3) < abridgedMaxWords := by
            have bound := ofLe_lt ((chunks.flatten.drop 1).take 3)
            rw [length_take, length_drop, Nat.min_eq_left (by omega)] at bound
            exact bound
          rw [if_neg short, byte (by omega), byte (by omega), byte (by omega)]
          show ScanIs _ (scanPayload chunks 4 (wordsOf _ _ _)) _
          rw [words]
          exact scanPayload_is chunks small (by omega)
      · have other : ¬ (chunks.flatten.getD 0 0).toNat = 0x7f := fun same => long (UInt8.toNat_inj.mp same)
        have header : headerOf chunks.flatten = (1, (chunks.flatten.getD 0 0).toNat) := if_neg long
        rw [if_neg other, header]
        have small : (chunks.flatten.getD 0 0).toNat < abridgedMaxWords := by
          unfold abridgedMaxWords
          omega
        exact scanPayload_is chunks small (by omega)

theorem chops_eq (fuel : Nat) (chunks : List Bytes) (enough : chunks.flatten.length ≤ fuel) :
    ∃ left, chops fuel chunks = .ok ((frames.drain chunks.flatten).1, left) ∧
      left.flatten = (frames.drain chunks.flatten).2 := by
  induction fuel generalizing chunks with
  | zero =>
    have nothing : chunks.flatten = [] := length_eq_zero_iff.mp (by omega)
    refine ⟨chunks, ?_, ?_⟩
    · rw [nothing, frames.drain_none rfl]
      rfl
    · rw [nothing, frames.drain_none rfl]
  | succ fuel ih =>
    have seen := scan_is chunks
    unfold chops
    cases found : nextFrame chunks.flatten with
    | none =>
      rw [found] at seen
      obtain ⟨n, _, waits⟩ := seen
      rw [waits, frames.drain_none found]
      exact ⟨chunks, rfl, rfl⟩
    | some next =>
      obtain ⟨frame, n⟩ := next
      rw [found] at seen
      have shown : scan chunks = .ok (.chop n frame) := seen
      have bounds := nextFrame_progress found
      obtain ⟨left, later, rest⟩ := ih (discard n chunks) (by rw [discard_flatten, length_drop]; omega)
      rw [discard_flatten] at later rest
      rw [shown, frames.drain_some found]
      dsimp only
      rw [later]
      exact ⟨left, rfl, rest⟩

/-- However the pieces are cut, the reel shows the frames of the stream. -/
theorem reelFrames_eq (pieces chunks : List Bytes) (waits : nextFrame chunks.flatten = none) :
    ∃ left, reelFrames chunks pieces = .ok ((frames.drain (chunks.flatten ++ pieces.flatten)).1, left) ∧
      left.flatten = (frames.drain (chunks.flatten ++ pieces.flatten)).2 := by
  induction pieces generalizing chunks with
  | nil =>
    rw [flatten_nil, append_nil, frames.drain_none waits]
    exact ⟨chunks, rfl, rfl⟩
  | cons piece pieces ih =>
    obtain ⟨left, taken, rest⟩ := chops_eq _ (chunks ++ [piece]) le_rfl
    have joined : (chunks ++ [piece]).flatten = chunks.flatten ++ piece := by simp
    have waits' : nextFrame left.flatten = none := by
      rw [rest]
      exact frames.drain_waits _
    obtain ⟨left', later, rest'⟩ := ih left waits'
    have whole := frames.drain_append (chunks.flatten ++ piece) pieces.flatten
    rw [append_assoc, ← joined, ← rest] at whole
    unfold reelFrames
    rw [taken, flatten_cons, whole]
    dsimp only
    rw [later]
    exact ⟨left', rfl, rest'⟩

end Chunks

section Feed

/-- The largest piece of a frame that the asynchronous reader takes at once. -/
def bufferFor (frame : AbridgedFrame) (n : Nat) : Nat :=
  max 1 (max (n - 1 - (frame.bytes?.getD []).length) (frame.bytes?.getD []).length)

inductive Roomy (capacity : Nat) : Bytes → Prop
  | waits {input : Bytes} : nextFrame input = none → Roomy capacity input
  | takes {input : Bytes} {frame : AbridgedFrame} {n : Nat} : nextFrame input = some (frame, n) →
      bufferFor frame n ≤ capacity → Roomy capacity (input.drop n) → Roomy capacity input

def nextFitting (capacity : Nat) (input : Bytes) : Option (AbridgedFrame × Nat) :=
  (nextFrame input).filter fun next => bufferFor next.1 next.2 ≤ capacity

def fitting (capacity : Nat) : Decoder UInt8 AbridgedFrame where
  next := nextFitting capacity
  progress := by
    intro input frame n found
    rw [nextFitting, Option.filter_eq_some_iff] at found
    exact nextFrame_progress found.1
  stable := by
    intro input frame n more found
    rw [nextFitting, Option.filter_eq_some_iff] at found ⊢
    exact ⟨nextFrame_stable more found.1, found.2⟩

namespace Feed

/-- The buffer holds no more than its capacity. -/
def Sound (f : Feed) : Prop := f.buffered.length ≤ f.capacity

theorem fill_ok {n capacity : Nat} (fits : n ≤ capacity) (pieces : List Bytes) (buffered : Bytes)
    (sound : buffered.length ≤ capacity) (enough : n ≤ (buffered ++ pieces.flatten).length) :
    ∃ buffered' pieces', fill n capacity buffered pieces = .ok (buffered', pieces') ∧
      buffered' ++ pieces'.flatten = buffered ++ pieces.flatten ∧ n ≤ buffered'.length ∧
      buffered'.length ≤ capacity := by
  induction pieces generalizing buffered with
  | nil =>
    have here : n ≤ buffered.length := by simpa using enough
    unfold fill
    rw [if_pos here]
    exact ⟨buffered, [], rfl, rfl, here, sound⟩
  | cons piece pieces ih =>
    unfold fill
    by_cases here : n ≤ buffered.length
    · rw [if_pos here]
      exact ⟨buffered, piece :: pieces, rfl, rfl, here, sound⟩
    · rw [if_neg here]
      dsimp only
      by_cases whole : piece.length ≤ capacity - buffered.length
      · rw [if_pos whole]
        have joined : (buffered ++ piece) ++ pieces.flatten = buffered ++ (piece :: pieces).flatten := by
          rw [flatten_cons, append_assoc]
        obtain ⟨b, p, filled, same, long, short⟩ := ih (buffered ++ piece)
          (by rw [length_append]; omega) (by rw [joined]; exact enough)
        exact ⟨b, p, filled, same.trans joined, long, short⟩
      · rw [if_neg whole]
        have size : (buffered ++ piece.take (capacity - buffered.length)).length = capacity := by
          rw [length_append, length_take]
          omega
        refine ⟨_, _, rfl, ?_, by omega, by omega⟩
        rw [flatten_cons, append_assoc, ← append_assoc (piece.take _), take_append_drop, flatten_cons]

theorem fill_short {n capacity : Nat} (fits : n ≤ capacity) (pieces : List Bytes) (buffered : Bytes)
    (sound : buffered.length ≤ capacity) (short : (buffered ++ pieces.flatten).length < n) :
    fill n capacity buffered pieces = .error "end of stream" := by
  induction pieces generalizing buffered with
  | nil =>
    unfold fill
    rw [if_neg (by simpa using short)]
  | cons piece pieces ih =>
    rw [flatten_cons, length_append, length_append] at short
    unfold fill
    rw [if_neg (by omega)]
    dsimp only
    rw [if_pos (by omega)]
    refine ih _ ?_ ?_
    · rw [length_append]
      omega
    · rw [length_append, length_append]
      omega

structure Advanced (f f' : Feed) (n : Nat) : Prop where
  rest : f'.rest = f.rest.drop n
  capacity : f'.capacity = f.capacity
  sound : f'.Sound

theorem take_ok {f : Feed} {n : Nat} (sound : f.Sound) (fits : n ≤ f.capacity) (enough : n ≤ f.rest.length) :
    ∃ f', take n f = .ok (f.rest.take n, f') ∧ Advanced f f' n := by
  obtain ⟨b, p, filled, same, long, short⟩ := fill_ok fits f.pieces f.buffered sound enough
  refine ⟨{ f with buffered := b.drop n, pieces := p }, ?_, ?_, rfl, ?_⟩
  · unfold take
    rw [if_neg (by omega), filled, rest, ← same, take_append_of_le_length long]
    rfl
  · rw [rest, rest, ← same, drop_append_of_le_length long]
  · show (b.drop n).length ≤ f.capacity
    rw [length_drop]
    omega

theorem take_short {f : Feed} {n : Nat} (sound : f.Sound) (short : f.capacity < n ∨ f.rest.length < n) :
    ∃ e, take n f = .error e := by
  unfold take
  by_cases large : n > f.capacity
  · rw [if_pos large]
    exact ⟨_, rfl⟩
  · rw [if_neg large, fill_short (by omega) f.pieces f.buffered sound (by rw [← rest]; omega)]
    exact ⟨_, rfl⟩

theorem Advanced.trans {f g h : Feed} {n m : Nat} (one : Advanced f g n) (two : Advanced g h m) :
    Advanced f h (n + m) where
  rest := by rw [two.rest, one.rest, drop_drop]
  capacity := two.capacity.trans one.capacity
  sound := two.sound

def RoundIs (f : Feed) : Option (AbridgedFrame × Nat) → Prop
  | none => ∃ e, round f = .error e
  | some (frame, n) => ∃ f', round f = .ok (frame.bytes?, f') ∧ Advanced f f' n

theorem bufferFor_pos (frame : AbridgedFrame) (n : Nat) : 1 ≤ bufferFor frame n := Nat.le_max_left ..

def fits (capacity : Nat) (next : AbridgedFrame × Nat) : Bool := bufferFor next.1 next.2 ≤ capacity

theorem take_rest {f g : Feed} {header size : Nat} (ahead : Advanced f g header)
    (one : 1 ≤ f.capacity) (three : header - 1 ≤ f.capacity) (there : header ≤ f.rest.length)
    (known : round f = (take size >>= fun payload => pure (some payload)) g) :
    RoundIs f ((if f.rest.length < header ∨ f.rest.length < header + size then none
      else some (AbridgedFrame.payload ((f.rest.drop header).take size), header + size)).filter (fits f.capacity)) := by
  have ahead_capacity := ahead.capacity
  have length : g.rest.length = f.rest.length - header := by rw [ahead.rest, length_drop]
  by_cases short : f.rest.length < header + size
  · obtain ⟨e, fails⟩ := take_short ahead.sound (.inr (by omega) : g.capacity < size ∨ g.rest.length < size)
    rw [if_pos (.inr short)]
    exact ⟨e, known.trans (step_error fails _)⟩
  · rw [if_neg (by omega), Option.filter_some]
    have taken : ((f.rest.drop header).take size).length = size := by
      rw [length_take, length_drop]
      omega
    have needs : bufferFor (.payload ((f.rest.drop header).take size)) (header + size) =
        max 1 (max (header + size - 1 - size) size) := by
      simp only [bufferFor, AbridgedFrame.bytes?, Option.getD_some, taken]
    by_cases room : size ≤ f.capacity
    · obtain ⟨h, done, moved⟩ := take_ok ahead.sound (by omega : size ≤ g.capacity) (by omega)
      rw [if_pos (by simp only [fits, needs, decide_eq_true_eq]; omega)]
      refine ⟨h, ?_, ahead.trans moved⟩
      rw [known, step_ok done, ahead.rest]
      rfl
    · obtain ⟨e, fails⟩ := take_short ahead.sound (.inl (by omega) : g.capacity < size ∨ g.rest.length < size)
      rw [if_neg (by simp only [fits, needs, decide_eq_true_eq]; omega)]
      exact ⟨e, known.trans (step_error fails _)⟩

section First
variable {f g : Feed} (ahead : Advanced f g 1) (one : 1 ≤ f.capacity) (some_ : 1 ≤ f.rest.length)
  (known : round f = afterFirst (f.rest.getD 0 0).toNat g)
include ahead one some_ known

theorem round_ack (ack : 0x80 ≤ (f.rest.getD 0 0).toNat) : RoundIs f ((nextFrame f.rest).filter (fits f.capacity)) := by
  have length : g.rest.length = f.rest.length - 1 := by rw [ahead.rest, length_drop]
  have capacity := ahead.capacity
  have skip : round f = (take 3 >>= fun _ => pure none) g := by
    rw [known, afterFirst, if_pos ack]
  unfold nextFrame
  rw [if_neg (by omega), if_pos ack]
  by_cases short : f.rest.length < 4
  · obtain ⟨e, fails⟩ := take_short ahead.sound (.inr (by omega) : g.capacity < 3 ∨ g.rest.length < 3)
    rw [if_pos short]
    exact ⟨e, skip.trans (step_error fails _)⟩
  · rw [if_neg short, Option.filter_some]
    have needs (token : BitVec 32) : bufferFor (.quickAck token) 4 = 3 := rfl
    by_cases room : 3 ≤ f.capacity
    · obtain ⟨h, skipped, moved⟩ := take_ok ahead.sound (by omega : 3 ≤ g.capacity) (by omega)
      rw [if_pos (by simp only [fits, needs, decide_eq_true_eq]; omega)]
      refine ⟨h, ?_, ahead.trans moved⟩
      rw [skip, step_ok skipped]
      rfl
    · obtain ⟨e, fails⟩ := take_short ahead.sound (.inl (by omega) : g.capacity < 3 ∨ g.rest.length < 3)
      rw [if_neg (by simp only [fits, needs, decide_eq_true_eq]; omega)]
      exact ⟨e, skip.trans (step_error fails _)⟩

theorem round_long (long : f.rest.getD 0 0 = 0x7f) : RoundIs f ((nextFrame f.rest).filter (fits f.capacity)) := by
  have length : g.rest.length = f.rest.length - 1 := by rw [ahead.rest, length_drop]
  have capacity := ahead.capacity
  have seven : (f.rest.getD 0 0).toNat = 0x7f := by rw [long]; rfl
  have header : headerOf f.rest = (4, ofLe ((f.rest.drop 1).take 3)) := if_pos long
  rw [afterFirst, if_neg (by omega), if_pos seven] at known
  unfold nextFrame
  rw [if_neg (by omega), if_neg (by omega), header]
  dsimp only
  by_cases short : f.rest.length < 4
  · obtain ⟨e, fails⟩ := take_short ahead.sound (.inr (by omega) : g.capacity < 3 ∨ g.rest.length < 3)
    rw [if_pos (.inl short)]
    exact ⟨e, known.trans (step_error fails _)⟩
  · by_cases room : 3 ≤ f.capacity
    · obtain ⟨h, extended, moved⟩ := take_ok ahead.sound (by omega : 3 ≤ g.capacity) (by omega)
      have words : wordsOf ((g.rest.take 3).getD 0 0).toNat ((g.rest.take 3).getD 1 0).toNat
          ((g.rest.take 3).getD 2 0).toNat = ofLe ((f.rest.drop 1).take 3) := by
        rw [ahead.rest]
        obtain ⟨a, b, c, d, rest, bytes⟩ := four_bytes short
        rw [bytes]
        exact wordsOf_le b c d
      rw [step_ok extended, words] at known
      exact take_rest (ahead.trans moved) one (by omega) (by omega) known
    · obtain ⟨e, fails⟩ := take_short ahead.sound (.inl (by omega) : g.capacity < 3 ∨ g.rest.length < 3)
      have refused : ∀ next : Option (AbridgedFrame × Nat), (∀ frame n, next = some (frame, n) →
          (frame.bytes?.getD []).length + 4 = n) → next.filter (fits f.capacity) = none := by
        intro next size
        rw [Option.filter_eq_none_iff]
        rintro ⟨frame, n⟩ held
        have four := size frame n held
        show ¬ decide (bufferFor frame n ≤ f.capacity) = true
        rw [decide_eq_true_eq]
        unfold bufferFor
        omega
      rw [refused]
      · exact ⟨e, known.trans (step_error fails _)⟩
      · intro frame n found
        split at found
        · cases found
        · cases found
          simp only [AbridgedFrame.bytes?, Option.getD_some, length_take, length_drop]
          omega

theorem round_short (payload : ¬ 0x80 ≤ (f.rest.getD 0 0).toNat) (other : f.rest.getD 0 0 ≠ 0x7f) :
    RoundIs f ((nextFrame f.rest).filter (fits f.capacity)) := by
  have apart : ¬ (f.rest.getD 0 0).toNat = 0x7f := fun same => other (UInt8.toNat_inj.mp same)
  have header : headerOf f.rest = (1, (f.rest.getD 0 0).toNat) := if_neg other
  rw [afterFirst, if_neg payload, if_neg apart] at known
  unfold nextFrame
  rw [if_neg (by omega), if_neg payload, header]
  exact take_rest ahead one (by omega) some_ known

end First

theorem round_is (f : Feed) (sound : f.Sound) : RoundIs f (nextFitting f.capacity f.rest) := by
  show RoundIs f ((nextFrame f.rest).filter (fits f.capacity))
  by_cases refused : f.capacity < 1 ∨ f.rest.length < 1
  · obtain ⟨e, fails⟩ := take_short sound refused
    have nothing : (nextFrame f.rest).filter (fits f.capacity) = none := by
      rcases refused with small | ended
      · rw [Option.filter_eq_none_iff]
        intro next _
        have positive := bufferFor_pos next.1 next.2
        simp only [fits, decide_eq_true_eq]
        omega
      · rw [nextFrame, if_pos ended]
        rfl
    rw [nothing]
    exact ⟨e, step_error fails _⟩
  · obtain ⟨g, done, ahead⟩ := take_ok sound (by omega : 1 ≤ f.capacity) (by omega)
    have head : (f.rest.take 1).getD 0 0 = f.rest.getD 0 0 := by
      rw [getD_eq_getElem?_getD, getElem?_take_of_lt Nat.one_pos, getD_eq_getElem?_getD]
    have known : round f = afterFirst (f.rest.getD 0 0).toNat g := by
      rw [round, step_ok done, head]
    by_cases ack : 0x80 ≤ (f.rest.getD 0 0).toNat
    · exact round_ack ahead (by omega) (by omega) known ack
    · by_cases long : f.rest.getD 0 0 = 0x7f
      · exact round_long ahead (by omega) (by omega) known long
      · exact round_short ahead (by omega) (by omega) known ack long

def ReadIs (f : Feed) : Except Feed (Bytes × Feed) → Prop
  | .error last =>
      ((fitting f.capacity).drain f.rest).1.filterMap AbridgedFrame.bytes? = [] ∧
        last.rest = ((fitting f.capacity).drain f.rest).2
  | .ok (payload, f') =>
      ((fitting f.capacity).drain f.rest).1.filterMap AbridgedFrame.bytes? =
          payload :: ((fitting f.capacity).drain f'.rest).1.filterMap AbridgedFrame.bytes? ∧
        ((fitting f.capacity).drain f'.rest).2 = ((fitting f.capacity).drain f.rest).2 ∧
        f'.rest.length < f.rest.length ∧ f'.capacity = f.capacity ∧ f'.Sound

theorem readAbridgedFrame_is (fuel : Nat) (f : Feed) (sound : f.Sound) (enough : f.rest.length < fuel) :
    ReadIs f (readAbridgedFrame fuel f) := by
  induction fuel generalizing f with
  | zero => exact absurd enough (Nat.not_lt_zero _)
  | succ fuel ih =>
    have once := round_is f sound
    unfold readAbridgedFrame
    cases found : nextFitting f.capacity f.rest with
    | none =>
      rw [found] at once
      obtain ⟨e, fails⟩ := once
      rw [fails]
      show _ ∧ _
      rw [(fitting f.capacity).drain_none found]
      exact ⟨rfl, rfl⟩
    | some next =>
      obtain ⟨frame, n⟩ := next
      rw [found] at once
      obtain ⟨f', done, moved⟩ := once
      have bounds := (fitting f.capacity).progress found
      have shorter : f'.rest.length < f.rest.length := by
        rw [moved.rest, length_drop]
        omega
      have drained := (fitting f.capacity).drain_some found
      rw [← moved.rest] at drained
      rw [done]
      cases frame with
      | payload bytes =>
        show _ ∧ _
        rw [drained]
        exact ⟨rfl, rfl, shorter, moved.capacity, moved.sound⟩
      | quickAck token =>
        have later := ih f' moved.sound (by omega)
        show ReadIs f (readAbridgedFrame fuel f')
        cases result : readAbridgedFrame fuel f' with
        | error last =>
          rw [result] at later
          obtain ⟨none_, left⟩ := later
          rw [moved.capacity] at none_ left
          show _ ∧ _
          rw [drained]
          exact ⟨none_, left⟩
        | ok read =>
          obtain ⟨payload, f''⟩ := read
          rw [result] at later
          obtain ⟨first, left, less, capacity, sound'⟩ := later
          rw [moved.capacity] at first left capacity
          show _ ∧ _
          rw [drained]
          exact ⟨first, left, by omega, capacity, sound'⟩

end Feed

theorem feedFrames_eq (fuel : Nat) (f : Feed) (sound : f.Sound) (enough : f.rest.length < fuel) :
    (feedFrames fuel f).1 = ((fitting f.capacity).drain f.rest).1.filterMap AbridgedFrame.bytes? ∧
      (feedFrames fuel f).2.rest = ((fitting f.capacity).drain f.rest).2 := by
  induction fuel generalizing f with
  | zero => exact absurd enough (Nat.not_lt_zero _)
  | succ fuel ih =>
    have once := Feed.readAbridgedFrame_is (f.rest.length + 1) f sound (Nat.lt_succ_self _)
    unfold feedFrames
    cases result : f.readAbridgedFrame (f.rest.length + 1) with
    | error last =>
      rw [result] at once
      exact ⟨once.1.symm, once.2⟩
    | ok read =>
      obtain ⟨payload, f'⟩ := read
      rw [result] at once
      obtain ⟨first, left, less, capacity, sound'⟩ := once
      obtain ⟨later, last⟩ := ih f' sound' (by omega)
      rw [capacity] at later last
      rw [first, ← left]
      exact ⟨congrArg (payload :: ·) later, last⟩

theorem fitting_left {capacity : Nat} (input : Bytes) :
    ((fitting capacity).drain input).2 = (frames.drain input).2 ↔ Roomy capacity input := by
  induction input using frames.drain_induct with
  | waits input none_ =>
    have waits : nextFitting capacity input = none := by
      have none' : nextFrame input = none := none_
      rw [nextFitting, none']
      rfl
    rw [frames.drain_none none_, (fitting capacity).drain_none waits]
    exact ⟨fun _ => .waits none_, fun _ => rfl⟩
  | takes input frame n found ih =>
    have found' : nextFrame input = some (frame, n) := found
    rw [frames.drain_some found]
    by_cases room : bufferFor frame n ≤ capacity
    · have taken : nextFitting capacity input = some (frame, n) := by
        rw [nextFitting, found', Option.filter_some, if_pos (by simpa using room)]
      rw [(fitting capacity).drain_some taken]
      refine ih.trans ⟨.takes found room, ?_⟩
      intro roomy
      cases roomy with
      | waits none_ =>
        rw [found'] at none_
        cases none_
      | takes again _ later =>
        rw [found'] at again
        cases again
        exact later
    · have stops : nextFitting capacity input = none := by
        rw [nextFitting, found', Option.filter_some, if_neg (by simpa using room)]
      rw [(fitting capacity).drain_none stops]
      constructor
      · intro same
        have shorter := frames.drain_shorter (input.drop n)
        have bounds := nextFrame_progress found
        have lengths := congrArg List.length same
        dsimp only at lengths
        rw [length_drop] at shorter
        omega
      · intro roomy
        cases roomy with
        | waits none_ =>
          rw [found'] at none_
          cases none_
        | takes again enough _ =>
          rw [found'] at again
          cases again
          exact absurd enough room

theorem fitting_all {capacity : Nat} {input : Bytes} (roomy : Roomy capacity input) :
    (fitting capacity).drain input = frames.drain input := by
  induction roomy with
  | @waits input none_ =>
    have waits : nextFitting capacity input = none := by
      rw [nextFitting, none_]
      rfl
    rw [frames.drain_none none_, (fitting capacity).drain_none waits]
  | @takes input frame n found room _ ih =>
    have taken : nextFitting capacity input = some (frame, n) := by
      rw [nextFitting, found, Option.filter_some, if_pos (by simpa using room)]
    rw [frames.drain_some found, (fitting capacity).drain_some taken, ih]

end Feed

section Agreement

def decoded (data : Bytes) : Decoded :=
  .ofLeft ((frames.drain data).1.filterMap AbridgedFrame.bytes?) (frames.drain data).2

theorem decodeCursor_eq (data : Bytes) : decodeCursor data = decoded data := by
  unfold decodeCursor
  rw [cursorFrames_eq data.length data le_rfl]
  rfl

theorem decodeChunks_eq (pieces : List Bytes) : decodeChunks pieces = decoded pieces.flatten := by
  obtain ⟨left, taken, rest⟩ := reelFrames_eq pieces [] rfl
  rw [flatten_nil, nil_append] at taken rest
  unfold decodeChunks decoded
  rw [taken, ← rest]

theorem decodeFeed_eq (capacity : Nat) (pieces : List Bytes) :
    decodeFeed capacity pieces = decoded pieces.flatten ↔ Roomy capacity pieces.flatten := by
  have start : ({ capacity, pieces } : Feed).rest = pieces.flatten := rfl
  obtain ⟨payloads, last⟩ := feedFrames_eq (pieces.flatten.length + 1) { capacity, pieces }
    (Nat.zero_le _) (by rw [start]; exact Nat.lt_succ_self _)
  rw [start] at payloads last
  have shape : decodeFeed capacity pieces = .ofLeft
      (((fitting capacity).drain pieces.flatten).1.filterMap AbridgedFrame.bytes?)
      ((fitting capacity).drain pieces.flatten).2 := by
    rw [← payloads, ← last]
    rfl
  rw [shape]
  constructor
  · intro same
    exact (fitting_left _).mp (congrArg Decoded.left same)
  · intro roomy
    rw [fitting_all roomy]
    rfl

end Agreement

end Nxt.Mt
