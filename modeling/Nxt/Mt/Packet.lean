import Nxt.Crypto.Sha256
import Nxt.Mt.Wire

/- Encrypted packets of MTProto (encrypted_packet.hpp, and the envelope of crypto.hpp). The cipher
   is given. -/
namespace Nxt.Mt
open Nxt.Lib Nxt.Crypto List

inductive Sender where
  | client | server
  deriving DecidableEq

def Sender.offset : Sender → Nat
  | .client => 0
  | .server => 8

structure AuthKey where
  data : Bytes
  id : Bytes
  dataLength : data.length = 256
  idLength : id.length = 8
  deriving DecidableEq

structure Cipher where
  aesIgeEncrypt : (key iv plaintext : Bytes) → Bytes
  aesIgeDecrypt : (key iv ciphertext : Bytes) → Bytes

/-- On whole blocks the cipher keeps the length, and decryption inverts encryption. -/
structure Cipher.Lawful (cipher : Cipher) : Prop where
  length : ∀ key iv plaintext, plaintext.length % 16 = 0 →
    (cipher.aesIgeEncrypt key iv plaintext).length = plaintext.length
  inverse : ∀ key iv plaintext, plaintext.length % 16 = 0 →
    cipher.aesIgeDecrypt key iv (cipher.aesIgeEncrypt key iv plaintext) = plaintext

structure EncryptedPacket where
  salt : BitVec 64
  sessionId : BitVec 64
  messageId : BitVec 64
  seqNo : BitVec 32
  body : Bytes
  padding : Bytes := []
  deriving DecidableEq

def defaultEncryptedPaddingSize (plaintextSize : Nat) : Nat := 16 + (16 - plaintextSize % 16)

def validateEncryptedPacketPadding (body padding : Bytes) : Except String Unit :=
  if body.length % 4 ≠ 0 then .error "invalid encrypted packet body"
  else if padding.length < 12 || padding.length > 1024 then .error "invalid encrypted packet padding"
  else if (32 + body.length + padding.length) % 16 ≠ 0 then .error "invalid encrypted packet padding alignment"
  else .ok ()

def encodeEncryptedPlaintext (packet : EncryptedPacket) : Except String Bytes := do
  validateEncryptedPacketPadding packet.body packet.padding
  return leBytes 8 packet.salt.toNat ++ (leBytes 8 packet.sessionId.toNat ++
    (leBytes 8 packet.messageId.toNat ++ (leBytes 4 packet.seqNo.toNat ++
      (leBytes 4 packet.body.length ++ (packet.body ++ packet.padding)))))

def encryptedPlaintext : Reader String EncryptedPacket := do
  let salt ← u64le
  let sessionId ← u64le
  let messageId ← u64le
  let seqNo ← u32le
  let bodySize ← u32le
  if bodySize.toInt < 0 || bodySize.toInt % 4 ≠ 0 then throw "invalid encrypted packet body length"
  else
    let body ← take bodySize.toNat
    let padding ← remaining
    return { salt, sessionId, messageId, seqNo, body, padding }

def decodeEncryptedPlaintext (plaintext : Bytes) (expectedSessionId : Option (BitVec 64)) :
    Except String EncryptedPacket := do
  let (packet, _) ← encryptedPlaintext plaintext
  validateEncryptedPacketPadding packet.body packet.padding
  if expectedSessionId.any (packet.sessionId ≠ ·) then .error "session id mismatch" else .ok packet

def digestOf (first second : Bytes) : Bytes := ((Sha256.update {} first).update second).finalize

def messageKey (key : AuthKey) (plaintext : Bytes) (sender : Sender) : Bytes :=
  ((digestOf ((key.data.drop (88 + sender.offset)).take 32) plaintext).drop 8).take 16

structure AesKeyIv where
  key : Bytes
  iv : Bytes
  deriving DecidableEq

def deriveAesKeyIv (key : AuthKey) (msgKey : Bytes) (sender : Sender) : AesKeyIv :=
  let a := digestOf msgKey ((key.data.drop sender.offset).take 36)
  let b := digestOf ((key.data.drop (40 + sender.offset)).take 36) msgKey
  { key := a.take 8 ++ (b.drop 8).take 16 ++ (a.drop 24).take 8
    iv := b.take 8 ++ (a.drop 8).take 16 ++ (b.drop 24).take 8 }

section Envelope
variable (cipher : Cipher)

def encryptPadded (plaintext : Bytes) (key : AuthKey) (sender : Sender) : Except String Bytes :=
  if plaintext.isEmpty || plaintext.length % 16 ≠ 0 then .error "invalid padded plaintext"
  else
    let msgKey := messageKey key plaintext sender
    let keyIv := deriveAesKeyIv key msgKey sender
    .ok (key.id ++ (msgKey ++ cipher.aesIgeEncrypt keyIv.key keyIv.iv plaintext))

def decryptPadded (payload : Bytes) (key : AuthKey) (sender : Sender) : Except String Bytes :=
  if payload.length < 24 then .error "short encrypted payload"
  else if payload.take 8 ≠ key.id then .error "auth key id mismatch"
  else
    let msgKey := (payload.drop 8).take 16
    let ciphertext := payload.drop 24
    if ciphertext.isEmpty || ciphertext.length % 16 ≠ 0 then .error "invalid encrypted payload"
    else
      let keyIv := deriveAesKeyIv key msgKey sender
      let plaintext := cipher.aesIgeDecrypt keyIv.key keyIv.iv ciphertext
      if msgKey ≠ messageKey key plaintext sender then .error "msg_key mismatch" else .ok plaintext

/-- The packet with its padding: its own, or so many of the given bytes. -/
def padded (packet : EncryptedPacket) (paddingBytes : Bytes) : Except String EncryptedPacket :=
  if packet.padding.isEmpty then
    let size := defaultEncryptedPaddingSize (32 + packet.body.length)
    if paddingBytes.length < size then .error "insufficient encrypted packet padding"
    else .ok { packet with padding := paddingBytes.take size }
  else .ok packet

def encodeEncryptedPacket (packet : EncryptedPacket) (key : AuthKey) (sender : Sender) (paddingBytes : Bytes) :
    Except String Bytes := do
  let packet ← padded packet paddingBytes
  let plaintext ← encodeEncryptedPlaintext packet
  encryptPadded cipher plaintext key sender

def decodeEncryptedPacket (payload : Bytes) (key : AuthKey) (sender : Sender)
    (expectedSessionId : Option (BitVec 64)) : Except String EncryptedPacket := do
  if payload.length < 24 then .error "short encrypted payload"
  else
    let plaintext ← decryptPadded cipher payload key sender
    decodeEncryptedPlaintext plaintext expectedSessionId

variable {cipher} {key : AuthKey} {sender : Sender} {plaintext payload : Bytes}

theorem decryptPadded_encryptPadded (lawful : cipher.Lawful) (sealed : encryptPadded cipher plaintext key sender = .ok payload) :
    decryptPadded cipher payload key sender = .ok plaintext ∧ 24 ≤ payload.length := by
  unfold encryptPadded at sealed
  split at sealed
  · cases sealed
  · rename_i good
    simp only [Bool.or_eq_true, decide_eq_true_eq, not_or, ne_eq, not_not, List.isEmpty_iff] at good
    obtain ⟨some_, aligned⟩ := good
    cases sealed
    let msgKey := messageKey key plaintext sender
    let keyIv := deriveAesKeyIv key msgKey sender
    let ciphertext := cipher.aesIgeEncrypt keyIv.key keyIv.iv plaintext
    have sixteen : msgKey.length = 16 := by
      show ((_ : Bytes).drop 8 |>.take 16).length = 16
      rw [length_take, length_drop, digestOf, finalize_length]
      rfl
    have length : ciphertext.length = plaintext.length := lawful.length _ _ _ aligned
    have positive : 0 < plaintext.length := length_pos_iff.mpr some_
    have front : (key.id ++ (msgKey ++ ciphertext)).take 8 = key.id := by
      rw [← key.idLength, take_left]
    have middle : ((key.id ++ (msgKey ++ ciphertext)).drop 8).take 16 = msgKey := by
      rw [← key.idLength, drop_left, ← sixteen, take_left]
    have back : (key.id ++ (msgKey ++ ciphertext)).drop 24 = ciphertext := by
      rw [← append_assoc]
      have size : (key.id ++ msgKey).length = 24 := by rw [length_append, key.idLength, sixteen]
      rw [← size, drop_left]
    have long : 24 ≤ (key.id ++ (msgKey ++ ciphertext)).length := by
      simp only [length_append, key.idLength, sixteen]
      omega
    refine ⟨?_, long⟩
    have opened : cipher.aesIgeDecrypt keyIv.key keyIv.iv ciphertext = plaintext := lawful.inverse _ _ _ aligned
    show decryptPadded cipher (key.id ++ (msgKey ++ ciphertext)) key sender = .ok plaintext
    unfold decryptPadded
    rw [if_neg (by omega), front, if_neg (by simp), middle, back]
    dsimp only
    rw [if_neg]
    · show (if msgKey ≠ messageKey key (cipher.aesIgeDecrypt keyIv.key keyIv.iv ciphertext) sender then
        Except.error "msg_key mismatch" else Except.ok (cipher.aesIgeDecrypt keyIv.key keyIv.iv ciphertext)) = _
      rw [opened, if_neg (fun apart => apart rfl)]
    · rw [length]
      have filled : ciphertext ≠ [] := length_pos_iff.mp (by omega)
      simp [filled, aligned]

end Envelope

end Nxt.Mt
