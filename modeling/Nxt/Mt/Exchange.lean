import Nxt.Mt.Factor
import Nxt.Mt.RsaPad

/- The key exchange (auth.hpp): its formats, its state and the four calls. A call that throws leaves
   what it has written to the state by then. -/
namespace Nxt.Mt
open Nxt.Lib Nxt.Crypto List

inductive Phase where
  | idle | awaitingResPq | awaitingServerDhParams | awaitingDhGen | complete
  deriving DecidableEq

def Phase.rank : Phase → Nat
  | .idle => 0
  | .awaitingResPq => 1
  | .awaitingServerDhParams => 2
  | .awaitingDhGen => 3
  | .complete => 4

/-- `auth_key`, with the part of the hash that is not in a packet. -/
structure ExchangeKey where
  data : Bytes := replicate 256 0
  auxHash : Bytes := replicate 8 0
  id : Bytes := replicate 8 0
  deriving DecidableEq

structure ExchangeState where
  currentPhase : Phase := .idle
  nonce : Bytes := replicate 16 0
  serverNonce : Bytes := replicate 16 0
  newNonce : Bytes := replicate 32 0
  /-- The first `p_size` bytes. -/
  p : Bytes := []
  q : Bytes := []
  tempAesKey : Bytes := replicate 32 0
  tempAesIv : Bytes := replicate 32 0
  key : ExchangeKey := {}
  selectedPublicKeyFingerprint : BitVec 64 := 0
  serverSalt : BitVec 64 := 0
  timeOffset : Int := 0
  hasKey : Bool := false
  deriving DecidableEq

def makeAuthKey (data : Bytes) : Except String ExchangeKey :=
  if data.length ≠ 256 then .error "invalid auth key length"
  else
    let digest := sha1 data
    .ok { data, auxHash := digest.take 8, id := (digest.drop 12).take 8 }

def calcNewNonceHash (key : ExchangeKey) (newNonce : Bytes) (number : UInt8) : Except String Bytes :=
  if newNonce.length ≠ 32 ∨ number < 1 ∨ number > 3 then .error "invalid new nonce hash input"
  else
    let digest := (((Sha1.update {} newNonce).update [number]).update key.auxHash).finalize
    .ok ((digest.drop 4).take 16)

def tempAesKeyIv (serverNonce newNonce : Bytes) : Except String AesKeyIv :=
  if serverNonce.length ≠ 16 ∨ newNonce.length ≠ 32 then .error "invalid nonce"
  else
    let hashA := ((Sha1.update {} newNonce).update serverNonce).finalize
    let hashB := ((Sha1.update {} serverNonce).update newNonce).finalize
    let hashC := ((Sha1.update {} newNonce).update newNonce).finalize
    .ok { key := hashA ++ hashB.take 12, iv := (hashB.drop 12).take 8 ++ hashC ++ newNonce.take 4 }

def serverSalt (newNonce serverNonce : Bytes) : Except String (BitVec 64) :=
  if newNonce.length ≠ 32 ∨ serverNonce.length ≠ 16 then .error "invalid nonce"
  else .ok (BitVec.ofNat 64 (ofLe (List.zipWith (· ^^^ ·) (newNonce.take 8) (serverNonce.take 8))))

/-! ### Formats -/

def sizeLoop : Nat → Nat → Nat → Nat
  | 0, size, _ => size
  | fuel + 1, size, value => if value / 256 ≠ 0 then sizeLoop fuel (size + 1) (value / 256) else size

def unsignedBeSize (value : Nat) : Nat := sizeLoop 8 1 value

def writeUnsignedBe (outputSize value : Nat) : Except String Bytes :=
  if outputSize < unsignedBeSize value then .error "unsigned integer output is too small"
  else .ok (beBytes (unsignedBeSize value) value)

def tlBytesSize (valueSize : Nat) : Nat :=
  let header := if valueSize < 254 then 1 else 4
  header + valueSize + tlPaddingSize (header + valueSize)

def writeInt128 (value : Bytes) (w : ByteWriter) : Except String ByteWriter :=
  if value.length ≠ 16 then .error "invalid TL int128" else w.put value

def writeInt256 (value : Bytes) (w : ByteWriter) : Except String ByteWriter :=
  if value.length ≠ 32 then .error "invalid TL int256" else w.put value

def reqPqMultiSize : Nat := 4 + 16

def writeReqPqMulti (w : ByteWriter) (nonce : Bytes) : Except String ByteWriter :=
  if nonce.length ≠ 16 then .error "invalid nonce"
  else do
    let w ← w.putLe 0xbe7e8ef1 4
    writeInt128 nonce w

structure ResPq where
  nonce : Bytes
  serverNonce : Bytes
  pq : Bytes
  fingerprints : List (BitVec 64)
  deriving DecidableEq

def longs : Nat → Reader String (List (BitVec 64))
  | 0 => return []
  | n + 1 => do
      let first ← u64le
      let rest ← longs n
      return first :: rest

def resPq (storageSize : Nat) : Reader String ResPq := do
  let constructor_ ← u32le
  if constructor_ ≠ 0x05162463#32 then throw "unexpected resPQ constructor"
  else
    let nonce ← take 16
    let serverNonce ← take 16
    let pq ← readBytes
    let vectorConstructor ← u32le
    if vectorConstructor ≠ 0x1cb5c415#32 then throw "expected vector constructor"
    else
      let count ← u32le
      if count.toInt < 0 then throw "negative vector size"
      else if count.toNat > storageSize then throw "fingerprint storage is too small"
      else
        let fingerprints ← longs count.toNat
        let done ← empty
        if done then return { nonce, serverNonce, pq, fingerprints } else throw "trailing resPQ bytes"

def decodeResPq (input : Bytes) (storageSize : Nat) : Except String ResPq := do
  let (answer, _) ← resPq storageSize input
  return answer

def pQInnerDataSize (pq p q : Bytes) (withDcId : Bool) : Nat :=
  4 + tlBytesSize pq.length + tlBytesSize p.length + tlBytesSize q.length + 16 + 16 + 32 + if withDcId then 4 else 0

def writePQInnerData (w : ByteWriter) (pq p q nonce serverNonce newNonce : Bytes) (dcId : Option (BitVec 32)) :
    Except String ByteWriter := do
  let w ← w.putLe (if dcId.isSome then 0xa9f55f95 else 0x83c95aec) 4
  let w ← writeBytes pq w
  let w ← writeBytes p w
  let w ← writeBytes q w
  let w ← writeInt128 nonce w
  let w ← writeInt128 serverNonce w
  let w ← writeInt256 newNonce w
  match dcId with
  | some dcId => w.putLe dcId.toNat 4
  | none => .ok w

def writeReqDhParams (w : ByteWriter) (nonce serverNonce p q : Bytes) (fingerprint : BitVec 64)
    (encryptedData : Bytes) : Except String ByteWriter := do
  let w ← w.putLe 0xd712e4be 4
  let w ← writeInt128 nonce w
  let w ← writeInt128 serverNonce w
  let w ← writeBytes p w
  let w ← writeBytes q w
  let w ← w.putLe fingerprint.toNat 8
  writeBytes encryptedData w

structure ServerDhInnerData where
  nonce : Bytes
  serverNonce : Bytes
  g : BitVec 32
  dhPrime : Bytes
  gA : Bytes
  serverTime : BitVec 32
  deriving DecidableEq

def serverDhInnerData : Reader String ServerDhInnerData := do
  let constructor_ ← u32le
  if constructor_ ≠ 0xb5890dba#32 then throw "unexpected server_DH_inner_data constructor"
  else
    let nonce ← take 16
    let serverNonce ← take 16
    let g ← u32le
    let dhPrime ← readBytes
    let gA ← readBytes
    let serverTime ← u32le
    let done ← empty
    if done then return { nonce, serverNonce, g, dhPrime, gA, serverTime } else throw "trailing server_DH_inner_data"

def decodeServerDhInnerData (input : Bytes) : Except String ServerDhInnerData := do
  let (inner, _) ← serverDhInnerData input
  return inner

def clientDhInnerDataSize (gB : Bytes) : Nat := 4 + 16 + 16 + 8 + tlBytesSize gB.length

def writeClientDhInnerData (w : ByteWriter) (nonce serverNonce : Bytes) (retryId : BitVec 64) (gB : Bytes) :
    Except String ByteWriter := do
  let w ← w.putLe 0x6643b654 4
  let w ← writeInt128 nonce w
  let w ← writeInt128 serverNonce w
  let w ← w.putLe retryId.toNat 8
  writeBytes gB w

def writeSetClientDhParams (w : ByteWriter) (nonce serverNonce encryptedData : Bytes) : Except String ByteWriter := do
  let w ← w.putLe 0xf5045f1f 4
  let w ← writeInt128 nonce w
  let w ← writeInt128 serverNonce w
  writeBytes encryptedData w

inductive DhGen where
  | ok | retry | fail
  deriving DecidableEq

structure DhGenResponse where
  constructor_ : DhGen
  nonce : Bytes
  serverNonce : Bytes
  newNonceHash : Bytes
  deriving DecidableEq

def DhGen.hashNumber : DhGen → UInt8
  | .ok => 1
  | .retry => 2
  | .fail => 3

def dhGenConstructor (constructor_ : BitVec 32) : Option DhGen :=
  if constructor_ = 0x3bcbf734#32 then some .ok
  else if constructor_ = 0x46dc1fb9#32 then some .retry
  else if constructor_ = 0xa69dae02#32 then some .fail
  else none

def dhGenResponse : Reader String DhGenResponse := do
  let constructor_ ← u32le
  match dhGenConstructor constructor_ with
  | none => throw "unexpected dh_gen constructor"
  | some constructor_ =>
      let nonce ← take 16
      let serverNonce ← take 16
      let newNonceHash ← take 16
      let done ← empty
      if done then return { constructor_, nonce, serverNonce, newNonceHash } else throw "trailing dh_gen answer"

def decodeDhGenResponse (body : Bytes) : Except String DhGenResponse := do
  let (response, _) ← dhGenResponse body
  return response

def serverDhFailHash (newNonce : Bytes) : Bytes := ((sha1 newNonce).drop 4).take 16

/-- The first of the server's fingerprints that is of a known key, and the first such key. -/
def selectPublicKey (keys : List PublicKey) (fingerprints : List (BitVec 64)) : Option PublicKey :=
  fingerprints.findSome? fun fingerprint => keys.find? fun key => key.fingerprint == fingerprint

/-! ### Calls -/

abbrev Exchange := EStateM String ExchangeState

def lift {α : Type} (m : Except String α) : Exchange α := fun s =>
  match m with
  | .ok a => .ok a s
  | .error e => .error e s

def fails (bad : Prop) [Decidable bad] (message : String) : Exchange Unit := if bad then throw message else pure ()

def begin (nonce : Bytes) (out : ByteWriter) : Exchange ByteWriter := do
  fails (nonce.length ≠ 16) "invalid nonce"
  set ({} : ExchangeState)
  modify fun s => { s with currentPhase := .awaitingResPq }
  modify fun s => { s with nonce }
  let s ← get
  lift (writeReqPqMulti out s.nonce)

structure ResPqCall where
  response : Bytes
  publicKeys : List PublicKey
  randomBytes : Bytes
  fingerprintStorage : Nat
  innerStorage : Nat
  encryptedStorage : Nat
  out : ByteWriter
  dcId : BitVec 32 := 0
  includeDcId : Bool := false
  deriving DecidableEq

def receiveResPq (fuel : Nat) (call : ResPqCall) : Exchange (Option ByteWriter) := do
  let s ← get
  fails (s.currentPhase ≠ .awaitingResPq) "unexpected auth phase"
  fails (call.randomBytes.length < 32 + rsaRequiredRandomBytes) "insufficient random bytes"
  let decoded ← lift (decodeResPq call.response call.fingerprintStorage)
  fails (decoded.nonce ≠ s.nonce) "nonce mismatch"
  match selectPublicKey call.publicKeys decoded.fingerprints with
  | none => throw "unknown public key"
  | some key =>
      let (pValue, qValue) ← lift (factorPq decoded.pq)
      let p ← lift (writeUnsignedBe 8 pValue)
      modify fun s => { s with p }
      let q ← lift (writeUnsignedBe 8 qValue)
      modify fun s => { s with q }
      modify fun s => { s with serverNonce := decoded.serverNonce }
      modify fun s => { s with newNonce := call.randomBytes.take 32 }
      let s ← get
      let innerSize := pQInnerDataSize decoded.pq p q call.includeDcId
      fails (call.innerStorage < innerSize) "p_q_inner_data storage is too small"
      let inner ← lift (writePQInnerData { capacity := innerSize } decoded.pq p q s.nonce s.serverNonce s.newNonce
        (if call.includeDcId then some call.dcId else none))
      fails (call.encryptedStorage < 256) "encrypted data storage is too small"
      let encrypted ← lift (rsaEncryptPadded fuel inner.written key
        ((call.randomBytes.drop 32).take rsaRequiredRandomBytes) 256)
      match encrypted with
      | none => return none
      | some encrypted =>
          let out ← lift (writeReqDhParams call.out s.nonce s.serverNonce p q key.fingerprint encrypted)
          modify fun s => { s with currentPhase := .awaitingServerDhParams }
          modify fun s => { s with selectedPublicKeyFingerprint := key.fingerprint }
          return some out

structure ServerDhCall where
  body : Bytes
  randomBytes : Bytes
  now : BitVec 32
  decryptedStorage : Bytes
  gBStorage : Nat
  authKeyStorage : Nat
  clientInnerStorage : Nat
  encryptedStorage : Nat
  out : ByteWriter
  deriving DecidableEq

def serverDhParams (s : ExchangeState) : Reader String Bytes := do
  let constructor_ ← u32le
  let nonce ← take 16
  let serverNonce ← take 16
  if nonce ≠ s.nonce ∨ serverNonce ≠ s.serverNonce then throw "nonce mismatch"
  else if constructor_ = 0x79cb045d#32 then
    let actualHash ← take 16
    let done ← empty
    if done = false then throw "trailing server_DH_params_fail"
    else if actualHash ≠ serverDhFailHash s.newNonce then throw "new nonce hash mismatch"
    else throw "server dh params fail"
  else if constructor_ ≠ 0xd0e8075c#32 then throw "unexpected server dh params constructor"
  else
    let encryptedAnswer ← readBytes
    let done ← empty
    if done then return encryptedAnswer else throw "trailing server_DH_params_ok"

def decodeServerDhParams (s : ExchangeState) (body : Bytes) : Except String Bytes := do
  let (encryptedAnswer, _) ← serverDhParams s body
  return encryptedAnswer

def openServerDhInnerData (s : ExchangeState) (keyIv : AesKeyIv) (encryptedAnswer storage : Bytes) :
    Except String ServerDhInnerData := do
  let decrypted ← decryptDataWithHash encryptedAnswer keyIv.key keyIv.iv (storage.take encryptedAnswer.length)
  let inner ← decodeServerDhInnerData decrypted
  if inner.nonce ≠ s.nonce ∨ inner.serverNonce ≠ s.serverNonce then .error "nonce mismatch" else .ok inner

def receiveServerDhParams (call : ServerDhCall) : Exchange ByteWriter := do
  let s ← get
  fails (s.currentPhase ≠ .awaitingServerDhParams) "unexpected auth phase"
  fails (call.randomBytes.length < 256) "insufficient random bytes"
  fails (call.authKeyStorage ≠ 256) "auth key storage must be 256 bytes"
  let encryptedAnswer ← lift (decodeServerDhParams s call.body)
  fails (call.decryptedStorage.length < encryptedAnswer.length) "decrypted server_DH_params storage is too small"
  let keyIv ← lift (tempAesKeyIv s.serverNonce s.newNonce)
  modify fun s => { s with tempAesKey := keyIv.key, tempAesIv := keyIv.iv }
  let inner ← lift (openServerDhInnerData s keyIv encryptedAnswer call.decryptedStorage)
  fails (call.gBStorage < inner.dhPrime.length) "g_b storage is too small"
  let g ← lift (writeUnsignedBe 8 (inner.g.signExtend 64).toNat)
  let b := call.randomBytes.take 256
  let gB ← lift (modularExponentiate g b inner.dhPrime inner.dhPrime.length)
  let authKey ← lift (modularExponentiate inner.gA b inner.dhPrime call.authKeyStorage)
  let key ← lift (makeAuthKey authKey)
  modify fun s => { s with key }
  modify fun s => { s with hasKey := true }
  let salt ← lift (serverSalt s.newNonce s.serverNonce)
  modify fun s => { s with serverSalt := salt }
  modify fun s => { s with timeOffset := inner.serverTime.toInt - call.now.toInt }
  fails (call.clientInnerStorage < clientDhInnerDataSize gB) "client_DH_inner_data storage is too small"
  let clientInner ← lift (writeClientDhInnerData { capacity := clientDhInnerDataSize gB } s.nonce s.serverNonce 0 gB)
  let encryptedSize := encryptedDataWithHashSize clientInner.written.length
  fails (call.encryptedStorage < encryptedSize) "client encrypted data storage is too small"
  let encrypted ← lift (encryptDataWithHash clientInner.written keyIv.key keyIv.iv (call.randomBytes.drop 256)
    encryptedSize)
  let out ← lift (writeSetClientDhParams call.out s.nonce s.serverNonce encrypted)
  modify fun s => { s with currentPhase := .awaitingDhGen }
  return out

def receiveDhGen (body : Bytes) : Exchange Unit := do
  let s ← get
  fails (s.currentPhase ≠ .awaitingDhGen ∨ s.hasKey = false) "unexpected auth phase"
  let response ← lift (decodeDhGenResponse body)
  fails (response.nonce ≠ s.nonce ∨ response.serverNonce ≠ s.serverNonce) "nonce mismatch"
  let hash ← lift (calcNewNonceHash s.key s.newNonce response.constructor_.hashNumber)
  fails (response.newNonceHash ≠ hash) "new nonce hash mismatch"
  fails (response.constructor_ = .retry) "dh_gen_retry"
  fails (response.constructor_ = .fail) "dh_gen_fail"
  modify fun s => { s with currentPhase := .complete }

end Nxt.Mt
