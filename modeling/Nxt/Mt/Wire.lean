import Nxt.Lib.Wire

/- Bytes of MTProto (wire.hpp, tl.hpp, message.hpp): the cursors, TL byte strings and plain
   messages. A writer has room for so many bytes; a reader consumes from the front. -/
namespace Nxt.Mt
open Nxt.Lib List

/-- Little-endian. -/
def leBytes : Nat → Nat → Bytes
  | 0, _ => []
  | width + 1, value => UInt8.ofNat value :: leBytes width (value / 256)

def ofLe : Bytes → Nat
  | [] => 0
  | b :: rest => b.toNat + 256 * ofLe rest

theorem leBytes_length (width value : Nat) : (leBytes width value).length = width := by
  induction width generalizing value with
  | zero => rfl
  | succ width ih => simp [leBytes, ih]

theorem ofLe_leBytes (width value : Nat) : ofLe (leBytes width value) = value % 256 ^ width := by
  induction width generalizing value with
  | zero => simp [leBytes, ofLe, Nat.mod_one]
  | succ width ih =>
    simp only [leBytes, ofLe, ih, UInt8.toNat_ofNat']
    rw [pow_succ' 256 width, Nat.mod_mul]

section Reader

def take (count : Nat) : Reader String Bytes := fun input =>
  if count ≤ input.length then .ok (input.take count, input.drop count) else .error "short MTProto input"

def le (width : Nat) : Reader String Nat := do return ofLe (← take width)

def u8 : Reader String Nat := le 1

def u32le : Reader String (BitVec 32) := do return BitVec.ofNat 32 (← le 4)

def u64le : Reader String (BitVec 64) := do return BitVec.ofNat 64 (← le 8)

def remaining : Reader String Bytes := get

def empty : Reader String Bool := do return (← get).isEmpty

end Reader

/-- `byte_writer`: what was written, and how much fits. -/
structure ByteWriter where
  capacity : Nat
  written : Bytes := []
  deriving DecidableEq

namespace ByteWriter

def put (data : Bytes) (w : ByteWriter) : Except String ByteWriter :=
  if data.length ≤ w.capacity - w.written.length then .ok { w with written := w.written ++ data }
  else .error "MTProto output buffer is too small"

def putLe (value width : Nat) : ByteWriter → Except String ByteWriter := put (leBytes width value)

def putZero (count : Nat) : ByteWriter → Except String ByteWriter := put (replicate count 0)

end ByteWriter

def tlPaddingSize (length : Nat) : Nat := (4 - length % 4) % 4

def writeBytes (value : Bytes) (w : ByteWriter) : Except String ByteWriter :=
  if value.length < 254 then do
    let w ← w.putLe value.length 1
    let w ← w.put value
    w.putZero (tlPaddingSize (1 + value.length))
  else if value.length > 0xffffff then .error "TL bytes value is too large"
  else do
    let w ← w.putLe 254 1
    let w ← w.putLe value.length 3
    let w ← w.put value
    w.putZero (tlPaddingSize (4 + value.length))

def readBytes : Reader String Bytes := do
  let size ← u8
  if size = 254 then
    let size ← le 3
    let value ← take size
    let _ ← take (tlPaddingSize (4 + size))
    return value
  else
    let value ← take size
    let _ ← take (tlPaddingSize (1 + size))
    return value

structure PlainMessage where
  messageId : BitVec 64
  body : Bytes
  deriving DecidableEq

def writePlainMessage (message : PlainMessage) (w : ByteWriter) : Except String ByteWriter :=
  if message.body.length > 0xffffffff then .error "plain message body is too large"
  else do
    let w ← w.putLe 0 8
    let w ← w.putLe message.messageId.toNat 8
    let w ← w.putLe message.body.length 4
    w.put message.body

def plainMessage : Reader String PlainMessage := do
  let keyId ← u64le
  if keyId ≠ 0 then throw "encrypted message is not a plain message"
  else
    let messageId ← u64le
    let size ← u32le
    let body ← take size.toNat
    let done ← empty
    if done then return { messageId, body } else throw "trailing plain message bytes"

def readPlainMessage (input : Bytes) : Except String PlainMessage := do
  let (message, _) ← plainMessage input
  return message

section Cursors

theorem take_append (data rest : Bytes) : take data.length (data ++ rest) = .ok (data, rest) := by
  unfold take
  rw [if_pos (by simp), take_left, drop_left]

theorem take_ok {n : Nat} {input : Bytes} (enough : n ≤ input.length) :
    take n input = .ok (input.take n, input.drop n) := if_pos enough

theorem take_short {n : Nat} {input : Bytes} (short : input.length < n) :
    take n input = .error "short MTProto input" := if_neg (by omega)

theorem u8_cons (b : UInt8) (rest : Bytes) : u8 (b :: rest) = .ok (b.toNat, rest) := rfl

theorem parses_take {data : Bytes} {n : Nat} (length : data.length = n) : Parses (take n) data data := by
  subst length
  exact take_append data

theorem parses_le (width value : Nat) : Parses (le width) (leBytes width value) (value % 256 ^ width) := by
  intro rest
  have first := parses_take (leBytes_length width value) rest
  show (take width (leBytes width value ++ rest) >>= fun p => .ok (ofLe p.1, p.2)) = _
  rw [first, ← ofLe_leBytes]
  rfl

theorem parses_u64le (value : BitVec 64) : Parses u64le (leBytes 8 value.toNat) value := by
  intro rest
  have first := parses_le 8 value.toNat rest
  show (le 8 (leBytes 8 value.toNat ++ rest) >>= fun p => .ok (BitVec.ofNat 64 p.1, p.2)) = _
  rw [first]
  have fits : value.toNat % 256 ^ 8 = value.toNat := Nat.mod_eq_of_lt value.isLt
  rw [fits]
  exact congrArg (fun v => Except.ok (v, rest)) (BitVec.eq_of_toNat_eq (by simp))

theorem parses_u8 {value : Nat} (small : value < 256) : Parses u8 (leBytes 1 value) value := by
  have one := parses_le 1 value
  rw [Nat.mod_eq_of_lt (by simpa using small)] at one
  exact one

theorem run_bind {α β : Type} {r : Reader String α} {xs : Bytes} {a : α} (first : Parses r xs a)
    (f : α → Reader String β) (rest : Bytes) : (r >>= f) (xs ++ rest) = f a rest := step_ok (first rest) f

theorem run_last {α β : Type} {r : Reader String α} {xs : Bytes} {a : α} (first : Parses r xs a)
    (f : α → Reader String β) : (r >>= f) xs = f a [] := by
  have step := run_bind first f []
  rwa [append_nil] at step

theorem put_ok {data : Bytes} {w w' : ByteWriter} (done : w.put data = .ok w') :
    w'.written = w.written ++ data ∧ w'.capacity = w.capacity := by
  unfold ByteWriter.put at done
  split at done
  · cases done
    exact ⟨rfl, rfl⟩
  · cases done

theorem put_fits {data : Bytes} {w : ByteWriter} (room : w.written.length + data.length ≤ w.capacity) :
    w.put data = .ok { w with written := w.written ++ data } := by
  unfold ByteWriter.put
  rw [if_pos (by omega)]

end Cursors

section Tl

def tlBytes (value : Bytes) : Bytes :=
  if value.length < 254 then
    leBytes 1 value.length ++ value ++ replicate (tlPaddingSize (1 + value.length)) 0
  else
    leBytes 1 254 ++ leBytes 3 value.length ++ value ++ replicate (tlPaddingSize (4 + value.length)) 0

theorem tlBytes_aligned (value : Bytes) : (tlBytes value).length % 4 = 0 := by
  unfold tlBytes tlPaddingSize
  split
  · simp only [length_append, leBytes_length, length_replicate]
    omega
  · simp only [length_append, leBytes_length, length_replicate]
    omega

theorem writeBytes_ok {value : Bytes} {w w' : ByteWriter} (done : writeBytes value w = .ok w') :
    w'.written = w.written ++ tlBytes value := by
  unfold writeBytes at done
  unfold tlBytes
  split at done
  · rename_i short
    rw [if_pos short]
    obtain ⟨a, one, done⟩ := bind_ok done
    obtain ⟨b, two, done⟩ := bind_ok done
    rw [(put_ok done).1, (put_ok two).1, (put_ok one).1]
    simp only [append_assoc]
  · rename_i long
    rw [if_neg long]
    split at done
    · cases done
    · obtain ⟨a, one, done⟩ := bind_ok done
      obtain ⟨b, two, done⟩ := bind_ok done
      obtain ⟨c, three, done⟩ := bind_ok done
      rw [(put_ok done).1, (put_ok three).1, (put_ok two).1, (put_ok one).1]
      simp only [append_assoc]

theorem put_then {data : Bytes} {w : ByteWriter} (room : w.written.length + data.length ≤ w.capacity)
    (f : ByteWriter → Except String ByteWriter) :
    (w.put data >>= f) = f { w with written := w.written ++ data } := by
  rw [put_fits room]
  rfl

theorem writeBytes_fits {value : Bytes} {w : ByteWriter} (small : value.length < 2 ^ 24)
    (room : w.written.length + (tlBytes value).length ≤ w.capacity) : ∃ w', writeBytes value w = .ok w' := by
  unfold tlBytes at room
  unfold writeBytes ByteWriter.putLe ByteWriter.putZero
  split
  · rename_i short
    rw [if_pos short] at room
    simp only [length_append, leBytes_length, length_replicate] at room
    rw [put_then (by rw [leBytes_length]; omega), put_then (by simp only [length_append, leBytes_length]; omega),
      put_fits (by simp only [length_append, leBytes_length, length_replicate]; omega)]
    exact ⟨_, rfl⟩
  · rename_i long
    rw [if_neg long] at room
    rw [if_neg (by omega)]
    simp only [length_append, leBytes_length, length_replicate] at room
    rw [put_then (by rw [leBytes_length]; omega), put_then (by simp only [length_append, leBytes_length]; omega),
      put_then (by simp only [length_append, leBytes_length]; omega),
      put_fits (by simp only [length_append, leBytes_length, length_replicate]; omega)]
    exact ⟨_, rfl⟩

theorem parses_readBytes {value : Bytes} (small : value.length < 2 ^ 24) : Parses readBytes (tlBytes value) value := by
  intro rest
  have body : Parses (take value.length) value value := parses_take rfl
  have padding (n : Nat) : Parses (take (tlPaddingSize n)) (replicate (tlPaddingSize n) 0)
      (replicate (tlPaddingSize n) 0) := parses_take length_replicate
  unfold tlBytes readBytes
  split
  · rename_i short
    simp only [append_assoc]
    rw [run_bind (parses_u8 (by omega)), if_neg (by omega), run_bind body, run_bind (padding _)]
    rfl
  · have size : value.length % 256 ^ 3 = value.length := Nat.mod_eq_of_lt (by omega)
    have three := parses_le 3 value.length
    rw [size] at three
    have mark : Parses u8 (leBytes 1 254) 254 := parses_u8 (by decide)
    simp only [append_assoc]
    rw [run_bind mark, if_pos rfl, run_bind three, run_bind body, run_bind (padding _)]
    rfl

end Tl

section Plain

theorem writePlainMessage_ok {message : PlainMessage} {w w' : ByteWriter}
    (done : writePlainMessage message w = .ok w') : message.body.length < 2 ^ 32 ∧ w'.written =
      w.written ++ (leBytes 8 0 ++ (leBytes 8 message.messageId.toNat ++ (leBytes 4 message.body.length ++
        message.body))) := by
  unfold writePlainMessage at done
  split at done
  · cases done
  · rename_i fits
    obtain ⟨a, one, done⟩ := bind_ok done
    obtain ⟨b, two, done⟩ := bind_ok done
    obtain ⟨c, three, done⟩ := bind_ok done
    refine ⟨by omega, ?_⟩
    rw [(put_ok done).1, (put_ok three).1, (put_ok two).1, (put_ok one).1]
    simp only [append_assoc]

theorem parses_u32le (value : Nat) : Parses u32le (leBytes 4 value) (BitVec.ofNat 32 value) := by
  intro rest
  have same : BitVec.ofNat 32 (value % 256 ^ 4) = BitVec.ofNat 32 value := by
    refine BitVec.eq_of_toNat_eq ?_
    rw [BitVec.toNat_ofNat, BitVec.toNat_ofNat]
    exact Nat.mod_mod _ _
  unfold u32le
  rw [run_bind (parses_le 4 value), same]
  rfl

theorem readPlainMessage_written {message : PlainMessage} {n : Nat} {w : ByteWriter}
    (done : writePlainMessage message { capacity := n } = .ok w) :
    readPlainMessage w.written = .ok message := by
  obtain ⟨fits, written⟩ := writePlainMessage_ok done
  rw [nil_append] at written
  have zero : Parses u64le (leBytes 8 0) 0 := parses_u64le 0
  have body : Parses (take (BitVec.ofNat 32 message.body.length).toNat) message.body message.body := by
    refine parses_take ?_
    rw [BitVec.toNat_ofNat, Nat.mod_eq_of_lt fits]
  have whole : plainMessage w.written = .ok (message, []) := by
    unfold plainMessage
    rw [written, run_bind zero, if_neg (by simp), run_bind (parses_u64le _), run_bind (parses_u32le _),
      run_last body]
    rfl
  unfold readPlainMessage
  rw [whole]
  rfl

end Plain

end Nxt.Mt
