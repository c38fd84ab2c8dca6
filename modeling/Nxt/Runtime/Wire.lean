import Mathlib

/- A wire (wire.hpp, bell.hpp) and the tasks that use it. Each call runs in segments, from a call or
   a resumption to the next suspension; a parked call is resumed after the poll on its bell has
   completed, which can happen while the bell is ringing. Values carry the number of the call that
   sends them. -/
namespace Nxt.Runtime

/-- `wire_rx`: the ring of a feed, the rendezvous slot, and the two bells. -/
structure Wire (T : Type) where
  capacity : Nat
  buffered : List T := []
  rendezvous : Option T := none
  closed : Bool := false
  data : Bool := false
  space : Bool := false
  deriving DecidableEq

/-- How far a `send` has come. -/
inductive Sending where
  | begun
  | waiting (woken : Bool)
  /-- The value was put in the rendezvous slot. -/
  | offered (woken : Bool)
  | returned (sent : Bool)
  | dropped
  deriving DecidableEq

inductive Receiving (R : Type) where
  | begun
  | waiting (woken : Bool)
  | returned (result : R)
  | dropped
  deriving DecidableEq

namespace Wire
variable {T : Type}

def empty (w : Wire T) : Bool := w.buffered.isEmpty && w.rendezvous.isNone

def full (w : Wire T) : Bool :=
  if w.capacity = 0 then w.rendezvous.isSome else w.capacity - w.buffered.length == 0

/-- Consuming buffered values rings the space bell. -/
def toss (w : Wire T) (n : Nat) : Wire T := { w with buffered := w.buffered.drop n, space := true }

def tryNext (w : Wire T) : Option T × Wire T :=
  match w.rendezvous with
  | some value => (some value, { w with rendezvous := none, data := false, space := true })
  | none =>
      match w.buffered with
      | [] => (none, w)
      | value :: _ =>
          let w := w.toss 1
          (some value, if w.empty then { w with data := false } else w)

def close (w : Wire T) : Wire T :=
  if w.closed then w else { w with closed := true, data := true, space := true }

def canSendNow (w : Wire T) : Bool :=
  if w.closed then false
  else if w.capacity = 0 then false
  else !w.full

def pushReady (w : Wire T) (value : T) : Wire T :=
  { w with buffered := w.buffered ++ [value], data := true }

def trySend (w : Wire T) (value : T) : Bool × Wire T :=
  if !w.canSendNow then (false, w) else (true, w.pushReady value)

/-- The slow tasks start when they are awaited. -/
def send (w : Wire T) (value : T) : Sending × Wire T :=
  if w.closed then (.returned false, w)
  else if w.capacity = 0 then (.begun, w)
  else if w.canSendNow then (.returned true, w.pushReady value)
  else (.begun, w)

/-- One round of the loop of `send_slow`. -/
def sendSlow (w : Wire T) (value : T) : Sending × Wire T :=
  if w.closed then (.returned false, w)
  else if w.canSendNow then (.returned true, w.pushReady value)
  else
    let w := { w with space := false }
    if w.canSendNow then (.returned true, w.pushReady value)
    else if w.closed then (.returned false, w)
    else (.waiting false, w)

/-- The second loop of `send_rendezvous_slow`, and its result. -/
def awaitTaken (w : Wire T) : Sending × Wire T :=
  if w.rendezvous.isSome && !w.closed then (.offered false, { w with space := false })
  else (.returned (!w.closed), w)

/-- `send_rendezvous_slow` from its first loop on. -/
def sendRendezvousSlow (w : Wire T) (value : T) : Sending × Wire T :=
  if w.rendezvous.isSome && !w.closed then (.waiting false, { w with space := false })
  else if w.closed then (.returned false, w)
  else ({ w with rendezvous := some value, data := true } : Wire T).awaitTaken

def next (w : Wire T) : Receiving (Option T) × Wire T :=
  match w.tryNext with
  | (some value, w) => (.returned (some value), w)
  | (none, w) => if w.closed then (.returned none, w) else (.begun, w)

/-- One round of the loop of `next_slow`. -/
def nextSlow (w : Wire T) : Receiving (Option T) × Wire T :=
  match w.tryNext with
  | (some value, w) => (.returned (some value), w)
  | (none, w) =>
      if w.closed then (.returned none, w)
      else
        match ({ w with data := false } : Wire T).tryNext with
        | (some value, w) => (.returned (some value), w)
        | (none, w) => if w.closed then (.returned none, w) else (.waiting false, w)

/-- What a refill through `stream_more` says: there is data, or the end. -/
inductive Refill where
  | more
  | eof
  deriving DecidableEq

/-- `stream_more` with a limit above zero on a wire that has a buffer. -/
def streamMore (w : Wire T) : Receiving Refill × Wire T :=
  if !w.empty then (.returned .more, w)
  else if w.closed then (.returned .eof, w)
  else (.begun, w)

/-- One round of the loop of `wait_for_data`. -/
def waitForData (w : Wire T) : Receiving Refill × Wire T :=
  if w.empty && !w.closed then (.waiting false, { w with data := false })
  else (.returned (if w.empty then .eof else .more), w)

end Wire

structure Parcel (V : Type) where
  call : Nat
  value : V
  deriving DecidableEq

inductive Call (V : Type) where
  | send (value : V) (stage : Sending)
  | next (stage : Receiving (Option (Parcel V)))
  | streamMore (stage : Receiving Wire.Refill)
  deriving DecidableEq

/-- The wire, the calls made so far, the values whose send succeeded, and those received. -/
structure Traffic (V : Type) where
  wire : Wire (Parcel V)
  calls : List (Call V) := []
  accepted : List (Parcel V) := []
  received : List (Parcel V) := []
  deriving DecidableEq

inductive Move (V : Type) where
  | send (value : V)
  | trySend (value : V)
  | next
  | tryNext
  | streamMore
  /-- A feed verb consumes buffered values. -/
  | consume (n : Nat)
  | close
  /-- The poll of a parked call completes. -/
  | wake (i : Nat)
  /-- A call runs up to its next suspension. -/
  | run (i : Nat)
  /-- A call that has not been started is dropped. -/
  | drop (i : Nat)
  deriving DecidableEq

namespace Traffic
variable {V : Type}

def fresh (capacity : Nat) : Traffic V := { wire := { capacity } }

def sending (t : Traffic V) (i : Nat) (value : V) (r : Sending × Wire (Parcel V)) : Traffic V :=
  { t with
    wire := r.2
    calls := t.calls.set i (.send value r.1)
    accepted := t.accepted ++ if r.1 = .returned true then [⟨i, value⟩] else [] }

def receiving (t : Traffic V) (i : Nat) (r : Receiving (Option (Parcel V)) × Wire (Parcel V)) : Traffic V :=
  { t with
    wire := r.2
    calls := t.calls.set i (.next r.1)
    received := t.received ++
      match r.1 with
      | .returned (some parcel) => [parcel]
      | _ => [] }

def refilling (t : Traffic V) (i : Nat) (r : Receiving Wire.Refill × Wire (Parcel V)) : Traffic V :=
  { t with wire := r.2, calls := t.calls.set i (.streamMore r.1) }

def called (t : Traffic V) (c : Call V) : Traffic V := { t with calls := t.calls ++ [c] }

def run (t : Traffic V) (i : Nat) : Traffic V :=
  match t.calls[i]? with
  | some (.send value .begun) | some (.send value (.waiting true)) =>
      t.sending i value <|
        if t.wire.capacity = 0 then t.wire.sendRendezvousSlow ⟨i, value⟩ else t.wire.sendSlow ⟨i, value⟩
  | some (.send value (.offered true)) => t.sending i value t.wire.awaitTaken
  | some (.next .begun) | some (.next (.waiting true)) => t.receiving i t.wire.nextSlow
  | some (.streamMore .begun) | some (.streamMore (.waiting true)) => t.refilling i t.wire.waitForData
  | _ => t

/-- Where a call is after its poll has completed. -/
def woken (w : Wire (Parcel V)) : Call V → Call V
  | .send value (.waiting false) => .send value (.waiting w.space)
  | .send value (.offered false) => .send value (.offered w.space)
  | .next (.waiting false) => .next (.waiting w.data)
  | .streamMore (.waiting false) => .streamMore (.waiting w.data)
  | call => call

def dropped : Call V → Call V
  | .send value .begun => .send value .dropped
  | .next .begun => .next .dropped
  | .streamMore .begun => .streamMore .dropped
  | call => call

def move (t : Traffic V) : Move V → Traffic V
  | .send value =>
      let i := t.calls.length
      (t.called (.send value .begun)).sending i value (t.wire.send ⟨i, value⟩)
  | .trySend value =>
      let i := t.calls.length
      let r := t.wire.trySend ⟨i, value⟩
      (t.called (.send value .begun)).sending i value (.returned r.1, r.2)
  | .next => (t.called (.next .begun)).receiving t.calls.length t.wire.next
  | .tryNext =>
      let r := t.wire.tryNext
      { t with wire := r.2, received := t.received ++ r.1.toList }
  | .streamMore => (t.called (.streamMore .begun)).refilling t.calls.length t.wire.streamMore
  | .consume n =>
      if n ≤ t.wire.buffered.length then
        { t with wire := t.wire.toss n, received := t.received ++ t.wire.buffered.take n }
      else t
  | .close => { t with wire := t.wire.close }
  | .wake i => { t with calls := t.calls.modify i (woken t.wire) }
  | .run i => t.run i
  | .drop i => { t with calls := t.calls.modify i dropped }

/-- Runs from a fresh wire, with only moves that are allowed where they are made. -/
inductive Run (allowed : Traffic V → Move V → Prop) (capacity : Nat) : Traffic V → Prop where
  | start : Run allowed capacity (fresh capacity)
  | step {t : Traffic V} (run : Run allowed capacity t) (m : Move V) (may : allowed t m) :
      Run allowed capacity (t.move m)

abbrev Free (_ : Traffic V) (_ : Move V) : Prop := True

theorem run_free {capacity : Nat} {t : Traffic V} (run : Run Free capacity t) (moves : List (Move V)) :
    Run Free capacity (moves.foldl move t) := by
  induction moves generalizing t with
  | nil => exact run
  | cons m rest ih => exact ih (.step run m trivial)

end Traffic

end Nxt.Runtime
