import Nxt.Crypto.Sha256
import Nxt.Lib.Blocks

/- SHA-1 (nxt/crypto/sha1.cpp), with the same buffering as SHA-256. -/
namespace Nxt.Crypto
open Nxt.Lib

def rotl (x n : UInt32) : UInt32 := (x <<< n) ||| (x >>> (32 - n))

/-- The message schedule after the first sixteen words, one more word at each step. -/
def sha1Schedule : Nat → List UInt32 → List UInt32
  | 0, w => w
  | n + 1, w =>
      let i := w.length
      sha1Schedule n (w ++ [rotl (w.getD (i - 3) 0 ^^^ w.getD (i - 8) 0 ^^^ w.getD (i - 14) 0 ^^^ w.getD (i - 16) 0) 1])

structure Sha1Registers where
  a : UInt32
  b : UInt32
  c : UInt32
  d : UInt32
  e : UInt32
  deriving DecidableEq

def Sha1Registers.round (r : Sha1Registers) (i : Nat) (w : UInt32) : Sha1Registers :=
  let (f, k) : UInt32 × UInt32 :=
    if i < 20 then ((r.b &&& r.c) ||| (~~~r.b &&& r.d), 0x5a827999)
    else if i < 40 then (r.b ^^^ r.c ^^^ r.d, 0x6ed9eba1)
    else if i < 60 then ((r.b &&& r.c) ||| (r.b &&& r.d) ||| (r.c &&& r.d), 0x8f1bbcdc)
    else (r.b ^^^ r.c ^^^ r.d, 0xca62c1d6)
  let temp := rotl r.a 5 + f + r.e + k + w
  { a := temp, b := r.a, c := rotl r.b 30, d := r.c, e := r.d }

def sha1Compress (state : Sha1Registers) (block : List UInt8) : Sha1Registers :=
  let w := sha1Schedule 64 ((List.range 16).map fun i => load32Be (block.drop (4 * i)))
  let r := (List.range 80).foldl (fun r i => r.round i (w.getD i 0)) state
  { a := state.a + r.a, b := state.b + r.b, c := state.c + r.c, d := state.d + r.d, e := state.e + r.e }

def sha1Len : Nat := 20
def sha1BlockLen : Nat := 64

structure Sha1 where
  state : Sha1Registers := { a := 0x67452301, b := 0xefcdab89, c := 0x98badcfe, d := 0x10325476, e := 0xc3d2e1f0 }
  /-- The first `buffered_` bytes of `buffer_`. -/
  buffer : List UInt8 := []
  size : Nat := 0
  deriving DecidableEq

def Sha1.update (s : Sha1) (input : List UInt8) : Sha1 :=
  let fed := feedBlocks sha1Compress sha1BlockLen s.state s.buffer input
  { state := fed.1, buffer := fed.2, size := (s.size + input.length) % 2 ^ 64 }

def Sha1.finalize (s : Sha1) : List UInt8 :=
  let finalSize := if s.buffer.length < 56 then 64 else 128
  let bitSize := s.size * 8 % 2 ^ 64
  let block := s.buffer ++ [0x80] ++ List.replicate (finalSize - s.buffer.length - 9) 0 ++
    (List.range 8).map fun i => UInt8.ofNat (bitSize / 2 ^ (8 * (7 - i)))
  let state := sha1Compress s.state (block.take 64)
  let r := if finalSize = 128 then sha1Compress state (block.drop 64) else state
  [r.a, r.b, r.c, r.d, r.e].flatMap store32Be

def sha1 (input : List UInt8) : List UInt8 := (Sha1.update {} input).finalize

theorem sha1_length (input : List UInt8) : (sha1 input).length = sha1Len := rfl

example : sha1 [0x61, 0x62, 0x63] =
    [0xa9, 0x99, 0x3e, 0x36, 0x47, 0x06, 0x81, 0x6a, 0xba, 0x3e, 0x25, 0x71, 0x78, 0x50, 0xc2, 0x6c, 0x9c, 0xd0,
     0xd8, 0x9d] := by
  decide +kernel

end Nxt.Crypto
