import Nxt.Buffers.Ring
import Nxt.Lib.Exec

/- The buffered writer of value-buffers.hpp. A sink has one writer and is never shared, so an
   awaited slow path is an ordinary sequence of steps. The destination behind the virtual
   `drain_more()` is a parameter: any state and any answer to an offer. -/
namespace Nxt.Buffers
open Nxt.Lib
variable {α σ : Type}

inductive SinkError where
  | bufferFull
  | bufferTooSmall
  | noProgress
  | overreported
  | consumedPast
  | countOverflow
  deriving DecidableEq

def SinkError.message : SinkError → String
  | .bufferFull => "value sink buffer is full"
  | .bufferTooSmall => "value sink buffer is too small"
  | .noProgress => "value sink made no progress"
  | .overreported => "value sink overreported accepted values"
  | .consumedPast => "value sink consumed past buffer"
  | .countOverflow => "value count overflow"

/-- The logical sequence of an offer: the last chunk counts `splat` times. -/
def offered (chunks : List (List α)) (splat : Nat) : List α :=
  chunks.dropLast.flatten ++ (List.replicate splat (chunks.getLastD [])).flatten

/-- `buffer_chunks::first`: the chunks of the first `n` values. -/
def firstChunks : List (List α) → Nat → List (List α)
  | [], _ => []
  | chunk :: rest, n =>
      if n = 0 then []
      else
        let take := min n chunk.length
        if take = 0 then firstChunks rest n
        else chunk.take take :: firstChunks rest (n - take)

/-- `drain_more()`: how many values of the offered sequence the destination takes. -/
structure Drain (α σ : Type) where
  accept : σ → List (List α) → Nat → Nat × σ

/-- The contract of an implementation: a nonempty prefix of every nonempty offer. -/
def Drain.Accepting (d : Drain α σ) : Prop :=
  ∀ s chunks splat, offered chunks splat ≠ [] →
    0 < (d.accept s chunks splat).1 ∧
      (d.accept s chunks splat).1 ≤ (offered chunks splat).length

structure Sink (α σ : Type) where
  ring : Ring α
  drain : σ
  /-- Everything the destination has accepted, in order. -/
  delivered : List α
  deriving DecidableEq

abbrev SinkM (α σ : Type) := EStateM SinkError (Sink α σ)

namespace Sink

def fresh (capacity : Nat) (drain : σ) : Sink α σ := ⟨Ring.fresh capacity, drain, []⟩

def bufferedSize (s : Sink α σ) : Nat := s.ring.size

def unusedCapacitySize (s : Sink α σ) : Nat := s.ring.unusedCapacitySize

end Sink

section Operations
variable (d : Drain α σ)

def withRing (f : Ring α → Ring α) : SinkM α σ Unit :=
  modify fun s => { s with ring := f s.ring }

def drainMore (chunks : List (List α)) (splat : Nat) : SinkM α σ Nat := do
  let s ← get
  let (n, next) := d.accept s.drain chunks splat
  set { s with drain := next, delivered := s.delivered ++ (offered chunks splat).take n }
  pure n

def emplaceBack (value : α) : SinkM α σ Unit := do
  if (← get).unusedCapacitySize = 0 then
    throw .bufferFull
  withRing fun r => (r.constructAt r.writeIndex value).advanceConstructed 1

def appendToBuffer (values : List α) : SinkM α σ Unit := do
  let dst := (← get).ring.unusedCapacity
  if values.length > dst.len then
    throw .bufferFull
  withRing fun r => (r.constructRun dst.off values).advanceConstructed values.length

def appendChunksToBuffer : List (List α) → SinkM α σ Unit
  | [] => pure ()
  | chunk :: rest => do
      appendToBuffer chunk
      appendChunksToBuffer rest

def requirePreservedCapacity (preserve capacity : Nat) : SinkM α σ Unit := do
  let available := (← get).ring.capacity
  if preserve > available ∨ capacity > available - preserve then
    throw .bufferTooSmall

def requireProgress (accepted available : Nat) : SinkM α σ Unit := do
  if accepted = 0 then
    throw .noProgress
  if accepted > available then
    throw .overreported

def consumeBuffered (n : Nat) : SinkM α σ Unit := do
  if n > (← get).bufferedSize then
    throw .consumedPast
  withRing fun r => (r.destroyPrefix n).resetIfEmpty

def reconstruct : List α → Ring α → Ring α
  | [], r => r
  | v :: vs, r => reconstruct vs ((r.constructAt r.writeIndex v).advanceConstructed 1)

def contiguizeBuffered : SinkM α σ Unit :=
  withRing fun r =>
    if r.empty then r.resetIfEmpty
    else reconstruct r.constructed.flatten r.destroyAll

def drainBufferedOnce : SinkM α σ Unit := do
  let values := (← get).ring.constructed
  let accepted ← drainMore d values 1
  requireProgress accepted values.flatten.length
  consumeBuffered accepted

/-- `while (more) co_await drain_buffered_once();`, a drain taking at least one value. -/
def drainWhile (more : Sink α σ → Bool) : Nat → SinkM α σ Unit
  | 0 => pure ()
  | fuel + 1 => do
      if more (← get) then
        drainBufferedOnce d
        drainWhile more fuel

def flushSlow : SinkM α σ Unit := do
  drainWhile d (fun s => s.bufferedSize ≠ 0) (← get).bufferedSize

def flush : SinkM α σ Unit := do
  if (← get).bufferedSize = 0 then
    withRing Ring.resetIfEmpty
  else
    flushSlow d

def writeSlow (value : α) : SinkM α σ Unit := do
  if (← get).ring.capacity = 0 then
    let accepted ← drainMore d [[value]] 1
    requireProgress accepted 1
  else
    drainWhile d (fun s => s.unusedCapacitySize = 0) (← get).bufferedSize
    emplaceBack value

def write (value : α) : SinkM α σ Unit := do
  if (← get).unusedCapacitySize ≠ 0 then
    emplaceBack value
  else
    writeSlow d value

def writeDirectLoop : Nat → List α → SinkM α σ Unit
  | 0, _ => pure ()
  | fuel + 1, rest =>
      if rest = [] then pure ()
      else do
        let accepted ← drainMore d [rest] 1
        requireProgress accepted rest.length
        writeDirectLoop fuel (rest.drop accepted)

def writeDirectSlow (values : List α) : SinkM α σ Unit :=
  writeDirectLoop d values.length values

def writeSpanSlow (values : List α) : SinkM α σ Unit := do
  let s ← get
  if s.ring.capacity ≠ 0 ∧ values.length < s.ring.capacity then
    let free := s.unusedCapacitySize
    let values ←
      if free ≠ 0 ∧ values.length > free then do
        appendToBuffer (values.take free)
        pure (values.drop free)
      else pure values
    drainWhile d (fun s => values.length > s.unusedCapacitySize) (← get).bufferedSize
    appendToBuffer values
  else
    flush d
    writeDirectSlow d values

def writeSpan (values : List α) : SinkM α σ Unit := do
  if values = [] then pure ()
  else if values.length ≤ (← get).ring.unusedCapacity.len then
    appendToBuffer values
  else
    writeSpanSlow d values

def writeChunksSlow : List (List α) → SinkM α σ Unit
  | [] => pure ()
  | chunk :: rest => do
      writeSpan d chunk
      writeChunksSlow rest

def writeChunks (chunks : List (List α)) : SinkM α σ Unit := do
  if chunks.flatten = [] then pure ()
  else if chunks.flatten.length ≤ (← get).ring.unusedCapacity.len then
    appendChunksToBuffer chunks
  else
    writeChunksSlow d chunks

def rebaseLoop (preserve capacity : Nat) : Nat → SinkM α σ Unit
  | 0 => pure ()
  | fuel + 1 => do
      let r := (← get).ring
      if r.unusedCapacity.len < capacity then
        if r.unusedCapacitySize ≥ capacity then
          contiguizeBuffered
        else
          let values := r.constructed
          let size := values.flatten.length
          let drainable := size - min preserve size
          if drainable = 0 then
            throw .bufferTooSmall
          let accepted ← drainMore d (firstChunks values drainable) 1
          requireProgress accepted drainable
          consumeBuffered accepted
          rebaseLoop preserve capacity fuel

def rebaseSlow (preserve capacity : Nat) : SinkM α σ Unit := do
  rebaseLoop d preserve capacity ((← get).bufferedSize + 1)

def rebase (preserve capacity : Nat) : SinkM α σ Unit := do
  requirePreservedCapacity preserve capacity
  let r := (← get).ring
  if r.unusedCapacity.len ≥ capacity then pure ()
  else if r.unusedCapacitySize ≥ capacity then
    contiguizeBuffered
  else
    rebaseSlow d preserve capacity

end Operations
end Nxt.Buffers
