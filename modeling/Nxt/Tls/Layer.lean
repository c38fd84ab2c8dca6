import Nxt.Crypto.Undone
import Nxt.Tls.Seal

/- The record layer of TLS 1.3 over AES-128-GCM: sealing and the two openers. The sequence number
   goes on as soon as a record has the right type, also when it is refused then. -/
namespace Nxt.Tls
open Nxt.Lib Nxt.Crypto

structure RecordKeys extends ReadKeys where
  aead : Aes128gcmContext
  deriving DecidableEq

def RecordKeys.advance (keys : RecordKeys) : RecordKeys := { keys with sequence := keys.sequence + 1 }

def openTls13Record (keys : RecordKeys) (record : Record) : Except String Plaintext × RecordKeys :=
  if record.type ≠ 23 then (.error "expected encrypted application_data record", keys)
  else
    let aad := recordAad record.type record.version record.payload.length
    let opened : Except String Plaintext := do
      let nonce ← recordNonce keys.iv keys.sequence
      match ← aes128gcmOpen keys.aead nonce aad record.payload with
      | none => .error "failed to decrypt TLS record"
      | some plaintext => innerPlaintext plaintext
    (opened, keys.advance)

/-- The content is a part of the payload; the payload that is left comes last. -/
def openTls13RecordInPlace (keys : RecordKeys) (type version : Nat) (payload : Bytes) :
    Except String Plaintext × RecordKeys × Bytes :=
  if type ≠ 23 then (.error "expected encrypted application_data record", keys, payload)
  else
    let aad := recordAad type version payload.length
    match recordNonce keys.iv keys.sequence with
    | .error e => (.error e, keys.advance, payload)
    | .ok nonce =>
        let plaintext := aes128gcmOpenInPlace keys.aead nonce aad payload
        match plaintext.1 with
        | .error e => (.error e, keys.advance, plaintext.2)
        | .ok none => (.error "failed to decrypt TLS record", keys.advance, plaintext.2)
        | .ok (some content) => (innerPlaintext content, keys.advance, plaintext.2)

def sealTls13Record (keys : RecordKeys) (innerType : UInt8) (content : Bytes) : Except String Bytes × RecordKeys :=
  let inner := content ++ [innerType]
  let aad := recordAad 23 0x0303 (inner.length + 16)
  let made : Except String Bytes := do
    let nonce ← recordNonce keys.iv keys.sequence
    let ciphertext ← aes128gcmSeal keys.aead nonce aad inner
    return aad ++ ciphertext
  (made, keys.advance)

def splitHeader (bytes : Bytes) : Record where
  type := beValue (bytes.take 1)
  version := beValue ((bytes.drop 1).take 2)
  payload := bytes.drop 5

theorem openers_agree (keys : RecordKeys) (record : Record) :
    (openTls13RecordInPlace keys record.type record.version record.payload).1 = (openTls13Record keys record).1 ∧
    (openTls13RecordInPlace keys record.type record.version record.payload).2.1 = (openTls13Record keys record).2 := by
  unfold openTls13RecordInPlace openTls13Record
  by_cases typed : record.type ≠ 23
  · rw [if_pos typed, if_pos typed]
    exact ⟨rfl, rfl⟩
  · rw [if_neg typed, if_neg typed]
    dsimp only
    cases recordNonce keys.iv keys.sequence with
    | error e => exact ⟨rfl, rfl⟩
    | ok nonce =>
      have same := open_agrees keys.aead nonce (recordAad record.type record.version record.payload.length)
        record.payload
      dsimp only
      rw [same]
      show _ = (do
        match ← aes128gcmOpen keys.aead nonce (recordAad record.type record.version record.payload.length)
            record.payload with
        | none => .error "failed to decrypt TLS record"
        | some plaintext => innerPlaintext plaintext : Except String Plaintext) ∧ _
      cases aes128gcmOpen keys.aead nonce (recordAad record.type record.version record.payload.length)
          record.payload with
      | error e => exact ⟨rfl, rfl⟩
      | ok plaintext =>
        cases plaintext with
        | none => exact ⟨rfl, rfl⟩
        | some plaintext => exact ⟨rfl, rfl⟩

section Sealing
variable {keys : RecordKeys}

theorem seal_ready (iv : keys.iv.length = 12) (ready : keys.aead.initialized = true) (innerType : UInt8)
    (content : Bytes) : ∃ nonce ciphertext, recordNonce keys.iv keys.sequence = .ok nonce ∧ nonce.length = 12 ∧
      ciphertext.length = content.length + 17 ∧
      aes128gcmOpen keys.aead nonce (recordAad 23 0x0303 (content.length + 17)) ciphertext =
        .ok (some (content ++ [innerType])) ∧ sealTls13Record keys innerType content =
        (.ok (recordAad 23 0x0303 (content.length + 17) ++ ciphertext), keys.advance) := by
  obtain ⟨nonce, made, sized⟩ := recordNonce_ok iv keys.sequence
  obtain ⟨ciphertext, wrote, opened, length⟩ := open_seal keys.aead ready sized
    (recordAad 23 0x0303 (content.length + 17)) (content ++ [innerType])
  have inner : (content ++ [innerType]).length + 16 = content.length + 17 := by
    rw [List.length_append]
    rfl
  refine ⟨nonce, ciphertext, made, sized, length.trans inner, opened, ?_⟩
  unfold sealTls13Record
  dsimp only
  rw [inner, made]
  show ((aes128gcmSeal keys.aead nonce (recordAad 23 0x0303 (content.length + 17)) (content ++ [innerType])).bind _, _) = _
  rw [wrote]
  rfl

theorem seal_inv {innerType : UInt8} {content record : Bytes}
    (made : (sealTls13Record keys innerType content).1 = .ok record) :
    keys.iv.length = 12 ∧ keys.aead.initialized = true := by
  unfold sealTls13Record at made
  obtain ⟨nonce, first, made⟩ := bind_ok made
  obtain ⟨ciphertext, second, -⟩ := bind_ok made
  constructor
  · unfold recordNonce at first
    split at first
    · cases first
    · rename_i sized
      exact not_not.mp sized
  · unfold aes128gcmSeal at second
    split at second
    · cases second
    · rename_i ready
      simpa using ready

theorem splitHeader_sealed (content ciphertext : Bytes) :
    splitHeader (recordAad 23 0x0303 (content.length + 17) ++ ciphertext) =
      { type := 23, version := 0x0303, payload := ciphertext } := by
  rfl

theorem opens_sealed {innerType : UInt8} {content record : Bytes} (typed : innerType ≠ 0)
    (made : (sealTls13Record keys innerType content).1 = .ok record) :
    openTls13Record keys (splitHeader record) =
      (.ok { content, innerType := innerType.toNat }, (sealTls13Record keys innerType content).2) := by
  obtain ⟨iv, ready⟩ := seal_inv made
  obtain ⟨nonce, ciphertext, first, -, length, opened, sealed_⟩ := seal_ready iv ready innerType content
  rw [sealed_] at made ⊢
  cases made
  rw [splitHeader_sealed content ciphertext]
  unfold openTls13Record
  rw [if_neg (not_not.mpr rfl)]
  dsimp only
  rw [length, first]
  show ((aes128gcmOpen keys.aead nonce (recordAad 23 0x0303 (content.length + 17)) ciphertext).bind _, _) = _
  rw [opened]
  have inner := innerPlaintext_padded content 0 typed
  rw [List.replicate_zero, List.append_nil] at inner
  exact congrArg (·, keys.advance) inner

end Sealing

/-- Opening a sealed record gives back its type and content, whatever zeros it ends in, with keys in step; sealing
    answers for all keys that are set up; and the two openers agree on every record. -/
theorem record_layer :
    (∀ (keys : RecordKeys) (innerType : UInt8) (content : Bytes), innerType ≠ 0 → content.length ≤ 16384 →
      (keys.iv.length = 12 → keys.aead.initialized = true →
        ∃ record, (sealTls13Record keys innerType content).1 = .ok record) ∧
      ∀ record, (sealTls13Record keys innerType content).1 = .ok record →
        openTls13Record keys (splitHeader record) =
          (.ok { content, innerType := innerType.toNat }, (sealTls13Record keys innerType content).2)) ∧
    ∀ (keys : RecordKeys) (record : Record),
      (openTls13RecordInPlace keys record.type record.version record.payload).1 = (openTls13Record keys record).1 ∧
        (openTls13RecordInPlace keys record.type record.version record.payload).2.1 =
          (openTls13Record keys record).2 := by
  refine ⟨fun keys innerType content typed _ => ⟨fun iv ready => ?_, fun record made => opens_sealed typed made⟩,
    openers_agree⟩
  obtain ⟨nonce, ciphertext, -, -, -, -, sealed_⟩ := seal_ready iv ready innerType content
  exact ⟨_, congrArg Prod.fst sealed_⟩

end Nxt.Tls
