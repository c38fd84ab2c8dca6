import Mathlib

/- SHA-256 (nxt/crypto/sha256.cpp): the incremental state, its compression function and the
   one-shot hash. -/
namespace Nxt.Crypto

def sha256K : List UInt32 :=
  [0x428a2f98, 0x71374491, 0xb5c0fbcf, 0xe9b5dba5, 0x3956c25b, 0x59f111f1, 0x923f82a4, 0xab1c5ed5,
   0xd807aa98, 0x12835b01, 0x243185be, 0x550c7dc3, 0x72be5d74, 0x80deb1fe, 0x9bdc06a7, 0xc19bf174,
   0xe49b69c1, 0xefbe4786, 0x0fc19dc6, 0x240ca1cc, 0x2de92c6f, 0x4a7484aa, 0x5cb0a9dc, 0x76f988da,
   0x983e5152, 0xa831c66d, 0xb00327c8, 0xbf597fc7, 0xc6e00bf3, 0xd5a79147, 0x06ca6351, 0x14292967,
   0x27b70a85, 0x2e1b2138, 0x4d2c6dfc, 0x53380d13, 0x650a7354, 0x766a0abb, 0x81c2c92e, 0x92722c85,
   0xa2bfe8a1, 0xa81a664b, 0xc24b8b70, 0xc76c51a3, 0xd192e819, 0xd6990624, 0xf40e3585, 0x106aa070,
   0x19a4c116, 0x1e376c08, 0x2748774c, 0x34b0bcb5, 0x391c0cb3, 0x4ed8aa4a, 0x5b9cca4f, 0x682e6ff3,
   0x748f82ee, 0x78a5636f, 0x84c87814, 0x8cc70208, 0x90befffa, 0xa4506ceb, 0xbef9a3f7, 0xc67178f2]

def rotr (x : UInt32) (n : UInt32) : UInt32 := (x >>> n) ||| (x <<< (32 - n))

def load32Be (bytes : List UInt8) : UInt32 :=
  ((bytes.getD 0 0).toUInt32 <<< 24) ||| ((bytes.getD 1 0).toUInt32 <<< 16) |||
    ((bytes.getD 2 0).toUInt32 <<< 8) ||| (bytes.getD 3 0).toUInt32

def store32Be (value : UInt32) : List UInt8 :=
  [(value >>> 24).toUInt8, (value >>> 16).toUInt8, (value >>> 8).toUInt8, value.toUInt8]

/-- The message schedule after the first sixteen words, one more word at each step. -/
def schedule : Nat → List UInt32 → List UInt32
  | 0, w => w
  | n + 1, w =>
      let i := w.length
      let s0 := rotr (w.getD (i - 15) 0) 7 ^^^ rotr (w.getD (i - 15) 0) 18 ^^^ (w.getD (i - 15) 0 >>> 3)
      let s1 := rotr (w.getD (i - 2) 0) 17 ^^^ rotr (w.getD (i - 2) 0) 19 ^^^ (w.getD (i - 2) 0 >>> 10)
      schedule n (w ++ [w.getD (i - 16) 0 + s0 + w.getD (i - 7) 0 + s1])

structure Registers where
  a : UInt32
  b : UInt32
  c : UInt32
  d : UInt32
  e : UInt32
  f : UInt32
  g : UInt32
  h : UInt32
  deriving DecidableEq

def Registers.round (r : Registers) (k w : UInt32) : Registers :=
  let s1 := rotr r.e 6 ^^^ rotr r.e 11 ^^^ rotr r.e 25
  let ch := (r.e &&& r.f) ^^^ (~~~r.e &&& r.g)
  let temp1 := r.h + s1 + ch + k + w
  let s0 := rotr r.a 2 ^^^ rotr r.a 13 ^^^ rotr r.a 22
  let maj := (r.a &&& r.b) ^^^ (r.a &&& r.c) ^^^ (r.b &&& r.c)
  let temp2 := s0 + maj
  { a := temp1 + temp2, b := r.a, c := r.b, d := r.c, e := r.d + temp1, f := r.e, g := r.f, h := r.g }

def sha256Compress (state : Registers) (block : List UInt8) : Registers :=
  let w := schedule 48 ((List.range 16).map fun i => load32Be (block.drop (4 * i)))
  let r := (sha256K.zip w).foldl (fun r kw => r.round kw.1 kw.2) state
  { a := state.a + r.a, b := state.b + r.b, c := state.c + r.c, d := state.d + r.d
    e := state.e + r.e, f := state.f + r.f, g := state.g + r.g, h := state.h + r.h }

structure Sha256 where
  state : Registers :=
    { a := 0x6a09e667, b := 0xbb67ae85, c := 0x3c6ef372, d := 0xa54ff53a
      e := 0x510e527f, f := 0x9b05688c, g := 0x1f83d9ab, h := 0x5be0cd19 }
  /-- The first `buffered_` bytes of `buffer_`. -/
  buffer : List UInt8 := []
  size : Nat := 0
  deriving DecidableEq

def sha256Len : Nat := 32
def sha256BlockLen : Nat := 64

def Sha256.absorb : Nat → Registers → List UInt8 → Registers × List UInt8
  | 0, state, input => (state, input)
  | fuel + 1, state, input =>
      if sha256BlockLen ≤ input.length then
        absorb fuel (sha256Compress state (input.take sha256BlockLen)) (input.drop sha256BlockLen)
      else (state, input)

def Sha256.update (s : Sha256) (input : List UInt8) : Sha256 :=
  let size := (s.size + input.length) % 2 ^ 64
  let (state, buffer, input) :=
    if s.buffer.length ≠ 0 then
      let room := min input.length (sha256BlockLen - s.buffer.length)
      let buffer := s.buffer ++ input.take room
      if buffer.length = sha256BlockLen then
        (sha256Compress s.state buffer, [], input.drop room)
      else (s.state, buffer, input.drop room)
    else (s.state, s.buffer, input)
  let (state, input) := absorb input.length state input
  { state, buffer := if input = [] then buffer else input, size }

def Sha256.finalize (s : Sha256) : List UInt8 :=
  let finalSize := if s.buffer.length < 56 then 64 else 128
  let bitSize := s.size * 8 % 2 ^ 64
  let block := s.buffer ++ [0x80] ++ List.replicate (finalSize - s.buffer.length - 9) 0 ++
    (List.range 8).map fun i => UInt8.ofNat (bitSize / 2 ^ (8 * (7 - i)))
  let state := sha256Compress s.state (block.take 64)
  let r := if finalSize = 128 then sha256Compress state (block.drop 64) else state
  [r.a, r.b, r.c, r.d, r.e, r.f, r.g, r.h].flatMap store32Be

def sha256 (input : List UInt8) : List UInt8 := (Sha256.update {} input).finalize

theorem finalize_length (s : Sha256) : s.finalize.length = sha256Len := rfl

theorem sha256_length (input : List UInt8) : (sha256 input).length = sha256Len :=
  finalize_length _

example : sha256 [0x61, 0x62, 0x63] =
    [0xba, 0x78, 0x16, 0xbf, 0x8f, 0x01, 0xcf, 0xea, 0x41, 0x41, 0x40, 0xde, 0x5d, 0xae, 0x22, 0x23,
     0xb0, 0x03, 0x61, 0xa3, 0x96, 0x17, 0x7a, 0x9c, 0xb4, 0x10, 0xff, 0x61, 0xf2, 0x00, 0x15, 0xad] := by
  decide +kernel

end Nxt.Crypto
