import Nxt.Mt.Abridged

/- The decompressing readers over a byte feed (nxtrt/compression.cpp): zlib, zstd and brotli. The codec libraries are
   parameters. -/
namespace Nxt.Compression
open Nxt.Lib
open Nxt.Mt (Feed)

/-- What a codec reports of a call; `stalled` is `Z_BUF_ERROR`. -/
inductive Verdict where
  | more
  | stalled
  | finished
  | failed (message : String)
  deriving DecidableEq

structure Call (S : Type) where
  state : S
  consumed : Nat
  output : Bytes
  verdict : Verdict

/-- A codec library: its streaming call on the available input and the room for output. -/
structure Codec (S : Type) where
  start : S
  call : S → Bytes → Nat → Call S

/-- `fare_t`, with the bytes that were delivered. -/
inductive Fare where
  | bytes (output : Bytes)
  | eof
  deriving DecidableEq

/-- What the caller of `stream_more` offers: the limit, and the capacity of the writer or, where that is full, of the
    buffer of the reader itself. -/
structure Room where
  limit : Nat
  capacity : Nat
  deriving DecidableEq

def Room.out (room : Room) : Nat := min room.limit room.capacity

theorem Room.limit_some {room : Room} (positive : 0 < room.out) : room.limit ≠ 0 := by
  rintro none
  rw [Room.out, none, Nat.zero_min] at positive
  exact Nat.lt_irrefl 0 positive

/-- A call of `stream_more`; `none` is a call that has not returned. -/
abbrev Read (R : Type) := Option (Except String (Fare × R))

inductive Filled where
  | tooSmall
  | ended
  | filled (feed : Feed)

def fill (minimum : Nat) (feed : Feed) : Filled :=
  if minimum > feed.capacity then .tooSmall
  else
    match Feed.fill minimum feed.capacity feed.buffered feed.pieces with
    | .error _ => .ended
    | .ok (buffered, pieces) => .filled { feed with buffered, pieces }

def tooSmall : String := "value source buffer is too small"

section Inflating

/-- In what the loops of `zlib_reader` and `brotli_reader` differ. -/
structure Loop where
  cut : Nat → Nat
  ended : String
  stalled : Option String

/-- Lengths are cut to a `uInt`, and a call that stalls with input left is an error. -/
def Loop.zlib : Loop where
  cut n := min n (2 ^ 32 - 1)
  ended := "unexpected end of compressed stream"
  stalled := some "zlib inflate made no progress"

def Loop.brotli : Loop where
  cut n := n
  ended := "unexpected end of brotli stream"
  stalled := none

structure Reader (S : Type) where
  codec : S
  available : Nat := 0
  done : Bool := false
  feed : Feed

namespace Reader
variable {S : Type}

/-- `refill_input`. One round is enough: a fill leaves at least one byte. -/
def refillInput (l : Loop) (r : Reader S) : Except String (Reader S) :=
  match fill 1 r.feed with
  | .tooSmall => .error tooSmall
  | .ended => .error l.ended
  | .filled feed => .ok { r with feed, available := l.cut feed.buffered.length }

/-- A round of the loop with input available: the codec is called, and what it took is discarded. -/
def call (l : Loop) (c : Codec S) (room : Nat) (r : Reader S) : Call S :=
  c.call r.codec (r.feed.buffered.take r.available) (l.cut room)

def advance (r : Reader S) (call : Call S) : Reader S :=
  { codec := call.state
    available := r.available - call.consumed
    done := r.done || decide (call.verdict = .finished)
    feed := { r.feed with buffered := r.feed.buffered.drop call.consumed } }

def stuck (l : Loop) (verdict : Verdict) (available : Nat) : Option String :=
  if verdict = .stalled ∧ available ≠ 0 then l.stalled else none

def streamMoreTask (l : Loop) (c : Codec S) : Nat → Nat → Reader S → Read (Reader S)
  | 0, _, _ => none
  | fuel + 1, out, r =>
      if out = 0 then some (.ok (.bytes [], r))
      else
        match if r.available = 0 then r.refillInput l else .ok r with
        | .error e => some (.error e)
        | .ok r =>
            let call := r.call l c out
            let r := r.advance call
            match call.verdict with
            | .failed message => some (.error message)
            | verdict =>
                if call.output ≠ [] then some (.ok (.bytes call.output, r))
                else if r.done then some (.ok (.eof, r))
                else
                  match stuck l verdict r.available with
                  | some message => some (.error message)
                  | none => streamMoreTask l c fuel out r

def streamMore (l : Loop) (c : Codec S) (fuel : Nat) (room : Room) (r : Reader S) : Read (Reader S) :=
  if room.limit = 0 then some (.ok (.bytes [], r))
  else if r.done then some (.ok (.eof, r))
  else r.streamMoreTask l c fuel room.out

end Reader

end Inflating

section Zstd

def isFrameStart (span : Bytes) : Bool :=
  let skippable := span.getD 0 0 &&& 0xf0 == 0x50 && span.getD 1 0 == 0x2a && span.getD 2 0 == 0x4d &&
    span.getD 3 0 == 0x18
  skippable || span.take 4 == [0x28, 0xb5, 0x2f, 0xfd]

structure ZstdReader (S : Type) where
  codec : S
  available : Nat := 0
  frameComplete : Bool := false
  done : Bool := false
  feed : Feed

namespace ZstdReader
variable {S : Type}

/-- `refill_input`, for the end of the stream or the next frame where one is complete. -/
def refillInput (r : ZstdReader S) : Except String (ZstdReader S) :=
  match fill (if r.frameComplete then 4 else 1) r.feed with
  | .tooSmall => .error tooSmall
  | .ended => if r.frameComplete then .ok { r with done := true } else .error "unexpected end of zstd stream"
  | .filled feed =>
      let span := feed.buffered
      if r.frameComplete ∧ (span.length < 4 ∨ !isFrameStart span) then .ok { r with feed, done := true }
      else .ok { r with feed, available := span.length, frameComplete := false }

def call (c : Codec S) (room : Nat) (r : ZstdReader S) : Call S :=
  c.call r.codec (r.feed.buffered.take r.available) room

/-- Once the codec took something, the rest of the input is filled in again. -/
def advance (r : ZstdReader S) (call : Call S) : ZstdReader S :=
  { codec := call.state
    available := if call.consumed = 0 then r.available else 0
    frameComplete := r.frameComplete || decide (call.verdict = .finished)
    done := r.done
    feed := { r.feed with buffered := r.feed.buffered.drop call.consumed } }

def streamMoreTask (c : Codec S) : Nat → Nat → ZstdReader S → Read (ZstdReader S)
  | 0, _, _ => none
  | fuel + 1, out, r =>
      if out = 0 then some (.ok (.bytes [], r))
      else
        match if r.available = 0 then r.refillInput else .ok r with
        | .error e => some (.error e)
        | .ok r =>
            if r.done then some (.ok (.eof, r))
            else
              let call := r.call c out
              let r := r.advance call
              match call.verdict with
              | .failed message => some (.error message)
              | _ =>
                  if call.output ≠ [] then some (.ok (.bytes call.output, r))
                  else if r.done then some (.ok (.eof, r))
                  else streamMoreTask c fuel out r

def streamMore (c : Codec S) (fuel : Nat) (room : Room) (r : ZstdReader S) : Read (ZstdReader S) :=
  if room.limit = 0 then some (.ok (.bytes [], r))
  else if r.done then some (.ok (.eof, r))
  else r.streamMoreTask c fuel room.out

end ZstdReader

end Zstd

def readToEnd {R : Type} (streamMore : Room → R → Read R) : Nat → (Nat → Room) → R → Option (Bytes × Option String)
  | 0, _, _ => none
  | calls + 1, rooms, r =>
      match streamMore (rooms 0) r with
      | none => none
      | some (.error e) => some ([], some e)
      | some (.ok (.eof, _)) => some ([], none)
      | some (.ok (.bytes output, r)) =>
          (readToEnd streamMore calls (fun i => rooms (i + 1)) r).map fun later => (output ++ later.1, later.2)

end Nxt.Compression
