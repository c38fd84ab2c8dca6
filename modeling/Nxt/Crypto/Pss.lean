import Nxt.Crypto.Rsa

/- RSASSA-PSS with SHA-256 (nxt/crypto.cpp), with the lengths and spans that could go wrong as errors
   of their own. -/
namespace Nxt.Crypto
open Nxt.Lib

inductive Fault
  | refused (message : String)
  | underflow
  | outOfBounds
  deriving DecidableEq

def refusing {α : Type} : Except String α → Except Fault α
  | .error e => .error (.refused e)
  | .ok a => .ok a

def minus (a b : Nat) : Except Fault Nat := if b ≤ a then .ok (a - b) else .error .underflow

def spanFirst (n : Nat) (span : List UInt8) : Except Fault (List UInt8) :=
  if n ≤ span.length then .ok (span.take n) else .error .outOfBounds

def spanLast (n : Nat) (span : List UInt8) : Except Fault (List UInt8) :=
  if n ≤ span.length then .ok (span.drop (span.length - n)) else .error .outOfBounds

def subspan (offset n : Nat) (span : List UInt8) : Except Fault (List UInt8) :=
  if offset + n ≤ span.length then .ok ((span.drop offset).take n) else .error .outOfBounds

def spanAt (span : List UInt8) (i : Nat) : Except Fault UInt8 :=
  match span[i]? with
  | some b => .ok b
  | none => .error .outOfBounds

/-- The bytes `a[i] ^ b[i]` for the places below a number. -/
def xorSpans (a b : List UInt8) : Nat → Except Fault (List UInt8)
  | 0 => .ok []
  | n + 1 => do
      let db ← xorSpans a b n
      let x ← spanAt a n
      let y ← spanAt b n
      .ok (db ++ [x ^^^ y])

def constantTimeEqual (a b : List UInt8) : Bool :=
  if a.length ≠ b.length then false
  else (a.zip b).foldl (fun diff x => diff ||| (x.1 ^^^ x.2)) 0 == 0

def pssHash (message db h : List UInt8) (psLen : Nat) : Except Fault Bool := do
  let zeros ← spanFirst psLen db
  if zeros.all (· == 0) = false then .ok false
  else
    let mark ← spanAt db psLen
    if mark ≠ 0x01 then .ok false
    else
      let salt ← spanLast 32 db
      let messageHash := sha256 message
      let state := ((Sha256.update {} (List.replicate 8 0)).update messageHash).update salt
      .ok (constantTimeEqual state.finalize h)

/-- The highest bits of the first byte are not in use: they have to be zero, and are cleared after the mask. -/
def topClear (unusedBits : Nat) (maskedDb : List UInt8) : Except Fault Bool :=
  if unusedBits ≠ 0 then do
    let shift ← minus 8 unusedBits
    let front ← spanAt maskedDb 0
    .ok (front &&& UInt8.ofNat (0xff <<< shift) == 0)
  else .ok true

def clearTop (unusedBits : Nat) (db : List UInt8) : Except Fault (List UInt8) :=
  if unusedBits ≠ 0 then do
    let front ← spanAt db 0
    .ok (db.set 0 (front &&& UInt8.ofNat (0xff >>> unusedBits)))
  else .ok db

def pssEncoded (message em : List UInt8) (emLen emBits : Nat) : Except Fault Bool := do
  let last ← minus em.length 1
  let back ← spanAt em last
  if back ≠ 0xbc then .ok false
  else
    let rest ← minus emLen 32
    let dbLen ← minus rest 1
    let maskedDb ← spanFirst dbLen em
    let h ← subspan dbLen 32 em
    let unusedBits ← minus (8 * emLen) emBits
    let clear ← topClear unusedBits maskedDb
    if clear = false then .ok false
    else
      let dbMask := mgf1Sha256 h dbLen
      let db ← xorSpans maskedDb dbMask dbLen
      let db ← clearTop unusedBits db
      let rest ← minus emLen 32
      let rest ← minus rest 32
      let psLen ← minus rest 2
      pssHash message db h psLen

def pssVerify (key : RsaPublicKey) (message signature : List UInt8) : Except Fault Bool := do
  let modBits := bitLength key.modulus
  let emBits ← minus modBits 1
  let emLen := (emBits + 7) / 8
  if emLen < 32 + 32 + 2 then .ok false
  else if signature.length ≠ key.modulus.length then .ok false
  else
    let n := beValue key.modulus
    let s := beValue signature
    if s ≥ n then .ok false
    else
      let fullEm ← refusing (bytesFromInt (powMod s key.exponent n) signature.length)
      let leading ← minus signature.length emLen
      let front ← spanFirst leading fullEm
      if front.all (· == 0) = false then .ok false
      else
        let em ← spanLast emLen fullEm
        pssEncoded message em emLen emBits

def rsaPssVerify (spkiDer message signature : List UInt8) (digestBits : Nat) : Except Fault Bool := do
  if digestBits ≠ 256 then .error (.refused "unsupported RSA-PSS digest")
  else
    let key ← refusing (parseRsaSpki spkiDer)
    pssVerify key message signature

end Nxt.Crypto
