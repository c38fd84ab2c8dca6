import Nxt.Crypto.Aes

/- The modes over the block cipher: IGE with a 256-bit key and GCM with a 128-bit key. What reads
   and writes through spans works on one memory, so the two may overlap. -/
namespace Nxt.Crypto
open List

/-! ### Keys -/

/-- A round of the loop of `expand_aes_key`: four more bytes. -/
def expandRound (keySize : Nat) (s : List UInt8 × UInt8) : List UInt8 × UInt8 :=
  let generated := s.1.length
  let temp := s.1.drop (generated - 4)
  let next := fun temp : List UInt8 => s.1 ++ (range 4).map fun i =>
    s.1.getD (generated - keySize + i) 0 ^^^ temp.getD i 0
  if generated % keySize = 0 then
    (next [sbox (temp.getD 1 0) ^^^ s.2, sbox (temp.getD 2 0), sbox (temp.getD 3 0),
      sbox (temp.getD 0 0)], xtime s.2)
  else if keySize > 24 ∧ generated % keySize = 16 then (next (temp.map sbox), s.2)
  else (next temp, s.2)

def expandAesKey (key : List UInt8) (size : Nat) : List UInt8 :=
  ((expandRound key.length)^[(size - key.length + 3) / 4] (key, 1)).1

def zeroBlock : Block := Vector.replicate 16 0

def xorBlock (a b : Block) : Block := Vector.ofFn fun i => a.get i ^^^ b.get i

structure Aes128gcmContext where
  roundKeys : List UInt8 := replicate 176 0
  ghashKey : Block := zeroBlock
  initialized : Bool := false
  deriving DecidableEq

def Aes128gcmContext.ofKey (key : List UInt8) : Except String Aes128gcmContext :=
  if key.length ≠ 16 then .error "AES-128-GCM key must be 16 bytes"
  else
    let roundKeys := expandAesKey key 176
    .ok { roundKeys, ghashKey := aesEncryptBlock roundKeys 10 zeroBlock, initialized := true }

structure Aes256Context where
  roundKeys : List UInt8 := replicate 240 0
  initialized : Bool := false
  deriving DecidableEq

def Aes256Context.ofKey (key : List UInt8) : Except String Aes256Context :=
  if key.length ≠ 32 then .error "AES-256 key must be 32 bytes"
  else .ok { roundKeys := expandAesKey key 240, initialized := true }

/-! ### IGE -/

def readBlock (mem : List UInt8) (off : Nat) : Block := Vector.ofFn fun i => mem.getD (off + i.val) 0

def writeBlock (mem : List UInt8) (off : Nat) (b : Block) : List UInt8 :=
  mem.take off ++ b.toList ++ mem.drop (off + 16)

/-- The loop of both directions: what was written last goes in before the cipher, what was read
    last after it. -/
def igeLoop (cipher : Block → Block) : Nat → Block → Block → Nat → Nat → List UInt8 → List UInt8
  | 0, _, _, _, _, mem => mem
  | n + 1, written, read, src, dst, mem =>
      let blockIn := readBlock mem src
      let blockOut := xorBlock (cipher (xorBlock blockIn written)) read
      igeLoop cipher n blockOut blockIn (src + 16) (dst + 16) (writeBlock mem dst blockOut)

def requireIgeSpans (iv : List UInt8) (inputSize outputSize : Nat) : Except String Unit :=
  if iv.length ≠ 32 then .error "AES-IGE IV must be 32 bytes"
  else if inputSize % 16 ≠ 0 then .error "AES-IGE input must be a multiple of 16 bytes"
  else if outputSize ≠ inputSize then .error "AES-IGE output must match input size"
  else .ok ()

/-- The input is `size` bytes at `src` and the output as many at `dst`; the memory that is left. -/
def aes256IgeEncrypt (ctx : Aes256Context) (iv : List UInt8) (src dst size outputSize : Nat)
    (mem : List UInt8) : Except String (List UInt8) := do
  if ctx.initialized = false then .error "AES-256 context is not initialized"
  else
    requireIgeSpans iv size outputSize
    .ok (igeLoop (aesEncryptBlock ctx.roundKeys 14) (size / 16) (readBlock iv 0) (readBlock iv 16) src dst mem)

def aes256IgeDecrypt (ctx : Aes256Context) (iv : List UInt8) (src dst size outputSize : Nat)
    (mem : List UInt8) : Except String (List UInt8) := do
  if ctx.initialized = false then .error "AES-256 context is not initialized"
  else
    requireIgeSpans iv size outputSize
    .ok (igeLoop (aesDecryptBlock ctx.roundKeys 14) (size / 16) (readBlock iv 16) (readBlock iv 0) src dst mem)

/-! ### GCM -/

/-- A round of the loop of `gf_mul` over the bits of `x`. -/
def gfRound (x : Block) (s : Block × Block) (i : Nat) : Block × Block :=
  let z := if x.toList.getD (i >>> 3) 0 &&& ((0x80 : UInt8) >>> UInt8.ofNat (i &&& 7)) ≠ 0 then
    xorBlock s.1 s.2 else s.1
  let v := Vector.ofFn fun j : Fin 16 =>
    if j.val = 0 then (s.2.get j >>> 1) ^^^ (if s.2.toList.getD 15 0 &&& 1 ≠ 0 then 0xe1 else 0)
    else (s.2.get j >>> 1) ||| (s.2.toList.getD (j.val - 1) 0 <<< 7)
  (z, v)

def gfMul (x v : Block) : Block := ((range 128).foldl (gfRound x) (zeroBlock, v)).1

def ghashBlock (h acc data : Block) : Block := gfMul (xorBlock acc data) h

def ghashUpdate (h acc : Block) (data : List UInt8) : Block :=
  if _more : 16 ≤ data.length then
    ghashUpdate h (ghashBlock h acc (readBlock (data.take 16) 0)) (data.drop 16)
  else if data = [] then acc
  else ghashBlock h acc (readBlock data 0)
termination_by data.length
decreasing_by
  rw [length_drop]
  omega

/-- `put_be64`. -/
def be64 (value : Nat) : List UInt8 :=
  (range 8).map fun i => UInt8.ofNat ((value % 2 ^ 64) >>> (56 - 8 * i))

def ghashFinish (ctx : Aes128gcmContext) (aad ciphertext : List UInt8) : Block :=
  let acc := ghashUpdate ctx.ghashKey zeroBlock aad
  let acc := ghashUpdate ctx.ghashKey acc ciphertext
  ghashBlock ctx.ghashKey acc (readBlock (be64 (aad.length * 8) ++ be64 (ciphertext.length * 8)) 0)

/-- One block under the key of zeros. -/
example :
    let ghashKey := [0x66, 0xe9, 0x4b, 0xd4, 0xef, 0x8a, 0x2c, 0x3b, 0x88, 0x4c, 0xfa, 0x59, 0xca, 0x34, 0x2b, 0x2e]
    ghashFinish { ghashKey := readBlock ghashKey 0 } []
      [0x03, 0x88, 0xda, 0xce, 0x60, 0xb6, 0xa3, 0x92, 0xf3, 0x28, 0xc2, 0xb9, 0x71, 0xb2, 0xfe, 0x78] =
    readBlock [0xf3, 0x8c, 0xbb, 0x1a, 0xd6, 0x92, 0x23, 0xdc, 0xc3, 0x45, 0x7a, 0xe5, 0xb6, 0xb0, 0xf8, 0x85] 0 := by
  decide +kernel

def initialCounter (nonce : List UInt8) : Block :=
  Vector.ofFn fun i => if i.val = 15 then 1 else nonce.getD i.val 0

/-- One more, from the last of some bytes to the first, as long as there is a carry. -/
def incrementAt : List (Fin 16) → Block → Block
  | [], ctr => ctr
  | i :: rest, ctr =>
      let ctr := ctr.set i (ctr[i] + 1)
      if ctr[i] ≠ 0 then ctr else incrementAt rest ctr

/-- The last four bytes, the last first. -/
def increment32 (ctr : Block) : Block := incrementAt ((List.finRange 16).reverse.take 4) ctr

/-- The inner loop of `crypt_ctr`. -/
def xorRun (stream : Block) (src dst n : Nat) (mem : List UInt8) : List UInt8 :=
  (range n).foldl
    (fun mem i => mem.set (dst + i) (mem.getD (src + i) 0 ^^^ stream.toList.getD i 0)) mem

/-- The loop of `crypt_ctr` over what is left of the input. -/
def cryptCtr (roundKeys : List UInt8) (counter : Block) (src dst left : Nat) (mem : List UInt8) : List UInt8 :=
  if _more : left ≠ 0 then
    let counter := increment32 counter
    let stream := aesEncryptBlock roundKeys 10 counter
    let n := min 16 left
    cryptCtr roundKeys counter (src + n) (dst + n) (left - n) (xorRun stream src dst n mem)
  else mem
termination_by left

def tagEqual (a : Block) (b : List UInt8) : Bool :=
  (range 16).foldl (fun diff i => diff ||| (a.toList.getD i 0 ^^^ b.getD i 0)) 0 = 0

def aes128gcmOpen (ctx : Aes128gcmContext) (nonce aad ciphertext : List UInt8) : Except String (Option (List UInt8)) :=
  if ctx.initialized = false then .error "AES-128-GCM context is not initialized"
  else if nonce.length ≠ 12 then .error "AES-GCM nonce must be 12 bytes"
  else if ciphertext.length < 16 then .ok none
  else
    let text := ciphertext.take (ciphertext.length - 16)
    let tag := ciphertext.drop (ciphertext.length - 16)
    let acc := ghashFinish ctx aad text
    let j0 := initialCounter nonce
    let s := aesEncryptBlock ctx.roundKeys 10 j0
    if tagEqual (xorBlock acc s) tag = false then .ok none
    else
      let out := replicate text.length 0
      let mem := cryptCtr ctx.roundKeys j0 0 text.length text.length (text ++ out)
      .ok (some (mem.drop text.length))

/-- The answer, the text by its bytes, and the buffer that is left. -/
def aes128gcmOpenInPlace (ctx : Aes128gcmContext) (nonce aad ciphertext : List UInt8) :
    Except String (Option (List UInt8)) × List UInt8 :=
  if ctx.initialized = false then (.error "AES-128-GCM context is not initialized", ciphertext)
  else if nonce.length ≠ 12 then (.error "AES-GCM nonce must be 12 bytes", ciphertext)
  else if ciphertext.length < 16 then (.ok none, ciphertext)
  else
    let size := ciphertext.length - 16
    let tag := ciphertext.drop size
    let acc := ghashFinish ctx aad (ciphertext.take size)
    let j0 := initialCounter nonce
    let s := aesEncryptBlock ctx.roundKeys 10 j0
    if tagEqual (xorBlock acc s) tag = false then (.ok none, ciphertext)
    else
      let mem := cryptCtr ctx.roundKeys j0 0 0 size ciphertext
      (.ok (some (mem.take size)), mem)

def aes128gcmSeal (ctx : Aes128gcmContext) (nonce aad plaintext : List UInt8) : Except String (List UInt8) :=
  if ctx.initialized = false then .error "AES-128-GCM context is not initialized"
  else if nonce.length ≠ 12 then .error "AES-GCM nonce must be 12 bytes"
  else
    let out := replicate plaintext.length 0
    let j0 := initialCounter nonce
    let mem := cryptCtr ctx.roundKeys j0 0 plaintext.length plaintext.length (plaintext ++ out)
    let text := mem.drop plaintext.length
    let tag := ghashFinish ctx aad text
    let s := aesEncryptBlock ctx.roundKeys 10 j0
    .ok (text ++ (xorBlock tag s).toList)

end Nxt.Crypto
