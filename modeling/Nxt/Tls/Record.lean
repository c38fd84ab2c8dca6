import Nxt.Crypto.Sha256
import Nxt.Lib.BigEndian
import Nxt.Lib.Decoder
import Nxt.Lib.Wire

/- Records and keys of TLS 1.3 (nxt/tls.hpp). The cryptographic primitives are given functions. -/
namespace Nxt.Tls
open Nxt.Lib List

def put16 (value : Nat) : Bytes := [UInt8.ofNat (value / 2 ^ 8), UInt8.ofNat value]

def put24 (value : Nat) : Bytes := [UInt8.ofNat (value / 2 ^ 16), UInt8.ofNat (value / 2 ^ 8), UInt8.ofNat value]

def require (ok : Bool) (message : String) : Except String Unit := if ok then .ok () else .error message

theorem require_ok {ok : Bool} {message : String} (done : require ok message = .ok ()) : ok = true := by
  unfold require at done
  split at done
  · assumption
  · cases done

theorem require_pass {ok : Bool} (holds : ok = true) (message : String) : require ok message = .ok () := if_pos holds

section Cursor

def take (n : Nat) : Reader String Bytes := fun input =>
  if n > input.length then .error "truncated TLS message" else .ok (input.take n, input.drop n)

def takeU8 : Reader String Nat := do return beValue (← take 1)

def takeU16 : Reader String Nat := do return beValue (← take 2)

def takeU24 : Reader String Nat := do return beValue (← take 3)

def empty : Reader String Bool := do return (← get).isEmpty

def requireTls (ok : Bool) (message : String) : Reader String Unit := if ok then pure () else throw message

def requireEnd (message : String) : Reader String Unit := do requireTls (← empty) message

def within {α : Type} (part : Bytes) (r : Reader String α) : Reader String α := fun input => do
  let (a, _) ← r part
  return (a, input)

end Cursor

structure Record where
  type : Nat
  version : Nat
  payload : Bytes
  deriving DecidableEq

def readRecord : Reader String Record := do
  let type ← takeU8
  let version ← takeU16
  let length ← takeU16
  let payload ← take length
  return { type, version, payload }

structure LeafPublicKey where
  rsa : Bool
  ecPoint : Bytes
  spkiDer : Bytes
  deriving DecidableEq

structure Certificate where
  leafDer : Bytes
  chainDer : List Bytes
  deriving DecidableEq

structure Primitives where
  sha256 : Bytes → Bytes
  hmacSha256 : (key data : Bytes) → Bytes
  hkdfExtractSha256 : (salt secret : Bytes) → Bytes
  hkdfExpandSha256 : (secret info : Bytes) → Nat → Bytes
  aes128gcmSeal : (key nonce aad plaintext : Bytes) → Bytes
  aes128gcmOpen : (key nonce aad ciphertext : Bytes) → Option Bytes
  x25519Dh : (secretKey share : Bytes) → Option Bytes
  verifyServerCertificate : Certificate → (host caFile : String) → Except String Unit
  ecdsaP256Sha256Verify : (point message signature : Bytes) → Bool
  rsaPssVerify : (spki message signature : Bytes) → Nat → Bool

structure ReadKeys where
  trafficSecret : Bytes
  key : Bytes
  iv : Bytes
  sequence : BitVec 64 := 0
  deriving DecidableEq

section Keys
variable (p : Primitives)

def hkdfExpandLabel (secret : Bytes) (label : String) (context : Bytes) (length : Nat) : Bytes :=
  let fullLabel := ("tls13 " ++ label).toUTF8.toList
  p.hkdfExpandSha256 secret
    (put16 length ++ [UInt8.ofNat fullLabel.length] ++ fullLabel ++ [UInt8.ofNat context.length] ++ context) length

def deriveSecret (secret : Bytes) (label : String) (messages : Bytes) : Bytes :=
  let transcriptHash := p.sha256 messages
  hkdfExpandLabel p secret label transcriptHash transcriptHash.length

def deriveTrafficKeys (trafficSecret : Bytes) : ReadKeys :=
  { trafficSecret
    key := hkdfExpandLabel p trafficSecret "key" [] 16
    iv := hkdfExpandLabel p trafficSecret "iv" [] 12 }

def updateKeys (keys : ReadKeys) : ReadKeys :=
  deriveTrafficKeys p (hkdfExpandLabel p keys.trafficSecret "traffic upd" [] 32)

structure HandshakeKeys where
  secret : Bytes
  client : ReadKeys
  server : ReadKeys
  deriving DecidableEq

structure ApplicationKeys where
  client : ReadKeys
  server : ReadKeys
  deriving DecidableEq

def deriveHandshakeKeys (sharedSecret transcript : Bytes) : HandshakeKeys :=
  let zero := replicate 32 0
  let earlySecret := p.hkdfExtractSha256 zero zero
  let derivedSecret := deriveSecret p earlySecret "derived" []
  let handshakeSecret := p.hkdfExtractSha256 derivedSecret sharedSecret
  { secret := handshakeSecret
    client := deriveTrafficKeys p (deriveSecret p handshakeSecret "c hs traffic" transcript)
    server := deriveTrafficKeys p (deriveSecret p handshakeSecret "s hs traffic" transcript) }

def deriveApplicationKeys (handshakeSecret transcript : Bytes) : ApplicationKeys :=
  let zero := replicate 32 0
  let derivedSecret := deriveSecret p handshakeSecret "derived" []
  let masterSecret := p.hkdfExtractSha256 derivedSecret zero
  { client := deriveTrafficKeys p (deriveSecret p masterSecret "c ap traffic" transcript)
    server := deriveTrafficKeys p (deriveSecret p masterSecret "s ap traffic" transcript) }

end Keys

section Seal
variable (p : Primitives)

def recordAad (type version length : Nat) : Bytes := UInt8.ofNat type :: (put16 version ++ put16 length)

/-- The sequence number is added to the last eight bytes of the iv. -/
def recordNonce (iv : Bytes) (sequence : BitVec 64) : Except String Bytes :=
  if iv.length ≠ 12 then .error "TLS record IV has the wrong length"
  else .ok (iv.take 4 ++ (range 8).map fun i =>
    iv.getD (4 + i) 0 ^^^ UInt8.ofNat (sequence.toNat / 2 ^ (8 * (7 - i))))

structure Plaintext where
  content : Bytes
  innerType : Nat
  deriving DecidableEq

/-- The padding at the end taken off. -/
def stripZeros (content : Bytes) : Bytes := (content.reverse.dropWhile (· = 0)).reverse

def innerPlaintext (plaintext : Bytes) : Except String Plaintext :=
  match (stripZeros plaintext).reverse with
  | [] => .error "decrypted TLS record has no inner type"
  | type :: content => .ok { content := content.reverse, innerType := type.toNat }

def openRecord (keys : ReadKeys) (record : Record) : Except String (Plaintext × ReadKeys) := do
  require (record.type = 23) "expected encrypted application_data record"
  let nonce ← recordNonce keys.iv keys.sequence
  match p.aes128gcmOpen keys.key nonce (recordAad record.type record.version record.payload.length) record.payload with
  | none => .error "failed to decrypt TLS record"
  | some plaintext => do
      let inner ← innerPlaintext plaintext
      return (inner, { keys with sequence := keys.sequence + 1 })

def sealRecord (keys : ReadKeys) (innerType : Nat) (content : Bytes) : Except String (Bytes × ReadKeys) := do
  let inner := content ++ [UInt8.ofNat innerType]
  let aad := recordAad 23 0x0303 (inner.length + 16)
  let nonce ← recordNonce keys.iv keys.sequence
  return (aad ++ p.aes128gcmSeal keys.key nonce aad inner, { keys with sequence := keys.sequence + 1 })

end Seal

section Finished
variable (p : Primitives)

def parseFinished (message : Bytes) : Except String Bytes := do
  let read : Reader String Bytes := do
    let type ← takeU8
    requireTls (type = 20) "expected finished message"
    let length ← takeU24
    let verifyData ← take length
    requireEnd "unexpected bytes after finished message"
    return verifyData
  let (verifyData, _) ← read message
  return verifyData

def finishedVerifyData (trafficSecret transcript : Bytes) : Bytes :=
  p.hmacSha256 (hkdfExpandLabel p trafficSecret "finished" [] 32) (p.sha256 transcript)

def verifyFinished (trafficSecret transcript received : Bytes) : Bool :=
  finishedVerifyData p trafficSecret transcript = received

def makeFinishedMessage (trafficSecret transcript : Bytes) : Bytes :=
  let verifyData := finishedVerifyData p trafficSecret transcript
  20 :: (put24 verifyData.length ++ verifyData)

end Finished

/-- A handshake message at the front: its size with the header. -/
def messageSize (input : Bytes) : Nat := 4 + beValue ((input.drop 1).take 3)

def nextMessage (input : Bytes) : Option (Bytes × Nat) :=
  if input.length < 4 ∨ input.length < messageSize input then none
  else some (input.take (messageSize input), messageSize input)

theorem messageSize_append {input : Bytes} (more : Bytes) (header : 4 ≤ input.length) :
    messageSize (input ++ more) = messageSize input := by
  unfold messageSize
  rw [drop_append_of_le_length (by omega), take_append_of_le_length]
  rw [length_drop]
  omega

/-- The messages of a handshake stream. -/
def messages : Decoder UInt8 Bytes where
  next := nextMessage
  progress := by
    intro input message n found
    unfold nextMessage at found
    split at found
    · cases found
    · cases found
      have positive : 4 ≤ messageSize input := Nat.le_add_right ..
      omega
  stable := by
    intro input message n more found
    unfold nextMessage at found ⊢
    split at found
    · cases found
    · rename_i whole
      rw [messageSize_append more (by omega), length_append, if_neg (by omega),
        take_append_of_le_length (by omega)]
      exact found

end Nxt.Tls
