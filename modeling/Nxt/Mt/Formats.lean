import Nxt.Mt.Abridged
import Nxt.Mt.Hashed

/- The wire formats read back: encrypted packets, TL byte strings, plain messages and abridged
   frames. -/
namespace Nxt.Mt
open Nxt.Lib List

def EncryptedPacket.Carries (opened packet : EncryptedPacket) : Prop :=
  opened.salt = packet.salt ∧ opened.sessionId = packet.sessionId ∧ opened.messageId = packet.messageId ∧
    opened.seqNo = packet.seqNo ∧ opened.body = packet.body

def bodyOf (packet : EncryptedPacket) (bodySize : BitVec 32) : Reader String EncryptedPacket := do
  if bodySize.toInt < 0 || bodySize.toInt % 4 ≠ 0 then throw "invalid encrypted packet body length"
  else
    let body ← take bodySize.toNat
    let padding ← remaining
    return { packet with body, padding }

section Plaintext
variable {packet : EncryptedPacket} {plaintext : Bytes}

theorem validate_ok {body padding : Bytes} (good : validateEncryptedPacketPadding body padding = .ok ()) :
    body.length % 4 = 0 ∧ padding.length ≤ 1024 := by
  unfold validateEncryptedPacketPadding at good
  split at good
  · cases good
  · split at good
    · cases good
    · rename_i aligned bounded
      simp only [Bool.or_eq_true, decide_eq_true_eq, not_or] at bounded
      omega

section
variable (written : encodeEncryptedPlaintext packet = .ok plaintext)
include written

theorem encryptedPlaintext_encoded : encryptedPlaintext plaintext = bodyOf packet (BitVec.ofNat 32 packet.body.length)
    (packet.body ++ packet.padding) ∧ validateEncryptedPacketPadding packet.body packet.padding = .ok () := by
  obtain ⟨_, good, written⟩ := bind_ok written
  cases written
  refine ⟨?_, good⟩
  have seqNo : Parses u32le (leBytes 4 packet.seqNo.toNat) packet.seqNo := by
    have four := parses_u32le packet.seqNo.toNat
    rwa [BitVec.ofNat_toNat, BitVec.setWidth_eq] at four
  unfold encryptedPlaintext
  rw [run_bind (parses_u64le _), run_bind (parses_u64le _), run_bind (parses_u64le _), run_bind seqNo,
    run_bind (parses_u32le _)]
  rfl

theorem decodeEncryptedPlaintext_small (small : packet.body.length < 2 ^ 31) :
    decodeEncryptedPlaintext plaintext (some packet.sessionId) = .ok packet := by
  obtain ⟨read, good⟩ := encryptedPlaintext_encoded written
  obtain ⟨aligned, _⟩ := validate_ok good
  have size : (BitVec.ofNat 32 packet.body.length).toNat = packet.body.length := by
    rw [BitVec.toNat_ofNat]
    omega
  have signed : (BitVec.ofNat 32 packet.body.length).toInt = packet.body.length := by
    rw [BitVec.toInt_eq_toNat_of_lt (by omega), size]
  have whole : encryptedPlaintext plaintext = .ok (packet, packet.padding) := by
    have body : Parses (take packet.body.length) packet.body packet.body := parses_take rfl
    rw [read, bodyOf, if_neg, size, run_bind body]
    · rfl
    · rw [signed]
      simp only [Bool.or_eq_true, decide_eq_true_eq, not_or]
      omega
  unfold decodeEncryptedPlaintext
  rw [whole]
  show (validateEncryptedPacketPadding packet.body packet.padding >>= fun _ => _) = _
  rw [good]
  show (if _ then _ else _) = _
  rw [if_neg (by simp)]

/-- A longer body is refused, or loses its end to the padding, which is then too long. -/
theorem decodeEncryptedPlaintext_large (large : 2 ^ 31 ≤ packet.body.length) (expected : Option (BitVec 64)) :
    ∃ e, decodeEncryptedPlaintext plaintext expected = .error e := by
  obtain ⟨read, good⟩ := encryptedPlaintext_encoded written
  obtain ⟨aligned, _⟩ := validate_ok good
  have size : (BitVec.ofNat 32 packet.body.length).toNat = packet.body.length % 2 ^ 32 := BitVec.toNat_ofNat ..
  unfold decodeEncryptedPlaintext
  rw [read, bodyOf]
  by_cases bad : (BitVec.ofNat 32 packet.body.length).toInt < 0 || (BitVec.ofNat 32 packet.body.length).toInt % 4 ≠ 0
  · rw [if_pos bad]
    exact ⟨_, rfl⟩
  · have positive : packet.body.length % 2 ^ 32 < 2 ^ 31 := by
      simp only [Bool.or_eq_true, decide_eq_true_eq, not_or] at bad
      have sign := bad.1
      rw [BitVec.toInt_eq_toNat_cond] at sign
      split at sign
      · omega
      · have below := (BitVec.ofNat 32 packet.body.length).isLt
        omega
    have short : (BitVec.ofNat 32 packet.body.length).toNat ≤ (packet.body ++ packet.padding).length := by
      rw [size, length_append]
      omega
    rw [if_neg bad, step_ok (take_ok short)]
    refine ⟨"invalid encrypted packet padding", ?_⟩
    show (validateEncryptedPacketPadding ((packet.body ++ packet.padding).take _) ((packet.body ++ packet.padding).drop _) >>= _) = _
    have rest : ((packet.body ++ packet.padding).drop (BitVec.ofNat 32 packet.body.length).toNat).length > 1024 := by
      rw [length_drop, length_append, size]
      omega
    have front : ((packet.body ++ packet.padding).take (BitVec.ofNat 32 packet.body.length).toNat).length % 4 = 0 := by
      rw [length_take, length_append, size]
      omega
    rw [validateEncryptedPacketPadding, if_neg (by omega), if_pos (by simp only [Bool.or_eq_true, decide_eq_true_eq]; omega)]
    rfl

end

end Plaintext

section Packet
variable {cipher : Cipher} {packet : EncryptedPacket} {key : AuthKey} {sender : Sender} {paddingBytes payload : Bytes}

theorem padded_ok {filled : EncryptedPacket} (done : padded packet paddingBytes = .ok filled) :
    filled.Carries packet := by
  unfold padded at done
  split at done
  · dsimp only at done
    split at done
    · cases done
    · cases done
      exact ⟨rfl, rfl, rfl, rfl, rfl⟩
  · cases done
    exact ⟨rfl, rfl, rfl, rfl, rfl⟩

theorem encode_accepts {filled : EncryptedPacket} (padding : padded packet paddingBytes = .ok filled)
    (good : validateEncryptedPacketPadding filled.body filled.padding = .ok ()) :
    ∃ payload, encodeEncryptedPacket cipher packet key sender paddingBytes = .ok payload := by
  obtain ⟨plaintext, written, size⟩ : ∃ plaintext, encodeEncryptedPlaintext filled = .ok plaintext ∧
      plaintext.length = 32 + filled.body.length + filled.padding.length := by
    unfold encodeEncryptedPlaintext
    rw [good]
    refine ⟨_, rfl, ?_⟩
    simp only [length_append, leBytes_length]
    omega
  have aligned : plaintext.length % 16 = 0 := by
    unfold validateEncryptedPacketPadding at good
    split at good
    · cases good
    · split at good
      · cases good
      · split at good
        · cases good
        · omega
  have some_ : plaintext ≠ [] := length_pos_iff.mp (by omega)
  unfold encodeEncryptedPacket
  rw [padding]
  show ∃ payload, (encodeEncryptedPlaintext filled >>= fun plaintext => encryptPadded cipher plaintext key sender) =
    .ok payload
  rw [written]
  show ∃ payload, encryptPadded cipher plaintext key sender = .ok payload
  unfold encryptPadded
  rw [if_neg (by simp [some_, aligned])]
  exact ⟨_, rfl⟩

theorem decodeEncryptedPacket_encoded (lawful : cipher.Lawful)
    (accepted : encodeEncryptedPacket cipher packet key sender paddingBytes = .ok payload) :
    ∃ filled plaintext, padded packet paddingBytes = .ok filled ∧ encodeEncryptedPlaintext filled = .ok plaintext ∧
      ∀ expected, decodeEncryptedPacket cipher payload key sender expected = decodeEncryptedPlaintext plaintext expected := by
  obtain ⟨filled, padding, accepted⟩ := bind_ok accepted
  obtain ⟨plaintext, written, sealed⟩ := bind_ok accepted
  obtain ⟨opened, long⟩ := decryptPadded_encryptPadded lawful sealed
  refine ⟨filled, plaintext, padding, written, ?_⟩
  intro expected
  unfold decodeEncryptedPacket
  rw [if_neg (by omega), opened]
  rfl

theorem decode_encode_iff (lawful : cipher.Lawful)
    (accepted : encodeEncryptedPacket cipher packet key sender paddingBytes = .ok payload) :
    (∃ opened, decodeEncryptedPacket cipher payload key sender (some packet.sessionId) = .ok opened ∧
      opened.Carries packet) ↔ packet.body.length < 2 ^ 31 := by
  obtain ⟨filled, plaintext, padding, written, decodes⟩ := decodeEncryptedPacket_encoded lawful accepted
  have carries := padded_ok padding
  have session := carries.2.1
  have body := carries.2.2.2.2
  constructor
  · rintro ⟨opened, done, _⟩
    by_contra large
    obtain ⟨e, fails⟩ := decodeEncryptedPlaintext_large written (by rw [body]; omega) (some packet.sessionId)
    rw [decodes, fails] at done
    cases done
  · intro small
    refine ⟨filled, ?_, carries⟩
    rw [decodes, ← session]
    exact decodeEncryptedPlaintext_small written (by rw [body]; exact small)

/-- The formats read back: an encoded packet exactly when its body is below 2^31 bytes, a TL byte
    string and a plain message always, and the three decoders of abridged frames agree, the
    asynchronous one as long as its buffer holds the frames. -/
theorem formats_read_back (cipher : Cipher) (lawful : cipher.Lawful) :
    (∀ packet key sender paddingBytes payload,
      encodeEncryptedPacket cipher packet key sender paddingBytes = .ok payload →
      ((∃ opened, decodeEncryptedPacket cipher payload key sender (some packet.sessionId) = .ok opened ∧
        opened.Carries packet) ↔ packet.body.length < 2 ^ 31)) ∧
    (∀ (value : Bytes) (w : ByteWriter), value.length < 2 ^ 24 →
      w.written.length + (tlBytes value).length ≤ w.capacity →
      ∃ w' bytes, writeBytes value w = .ok w' ∧ w'.written = w.written ++ bytes ∧ bytes.length % 4 = 0 ∧
        ∀ rest, readBytes (bytes ++ rest) = .ok (value, rest)) ∧
    (∀ message n w, writePlainMessage message { capacity := n } = .ok w →
      readPlainMessage w.written = .ok message) ∧
    (∀ capacity pieces, decodeChunks pieces = decodeCursor pieces.flatten ∧
      (decodeFeed capacity pieces = decodeCursor pieces.flatten ↔ Roomy capacity pieces.flatten)) := by
  refine ⟨?_, ?_, ?_, ?_⟩
  · intro packet key sender paddingBytes payload accepted
    exact decode_encode_iff lawful accepted
  · intro value w small room
    obtain ⟨w', done⟩ := writeBytes_fits small room
    exact ⟨w', tlBytes value, done, writeBytes_ok done, tlBytes_aligned value, parses_readBytes small⟩
  · intro message n w done
    exact readPlainMessage_written done
  · intro capacity pieces
    rw [decodeCursor_eq]
    exact ⟨decodeChunks_eq pieces, decodeFeed_eq capacity pieces⟩

end Packet

section Samples

def sampleKey : AuthKey where
  data := (range 256).map UInt8.ofNat
  id := [0x32, 0xd1, 0x58, 0x6e, 0xa4, 0x57, 0xdf, 0xc8]
  dataLength := by rw [length_map, length_range]
  idLength := rfl

def samplePacket : EncryptedPacket :=
  { salt := 1, sessionId := 2, messageId := 4, seqNo := 1, body := [0xde, 0xad, 0xbe, 0xef]
    padding := replicate 12 0 }

/-- The packet sealed under AES-256-IGE. -/
def sealedPacket (packet : EncryptedPacket) (sender : Sender) : Bytes :=
  (encodeEncryptedPacket Cipher.aes packet sampleKey sender []).toOption.getD []

theorem sealedPacket_encodes {packet : EncryptedPacket} (sender : Sender) (kept : padded packet [] = .ok packet)
    (good : validateEncryptedPacketPadding packet.body packet.padding = .ok ()) :
    encodeEncryptedPacket Cipher.aes packet sampleKey sender [] = .ok (sealedPacket packet sender) := by
  obtain ⟨payload, done⟩ := @encode_accepts Cipher.aes packet sampleKey sender [] packet kept good
  rw [sealedPacket, done]
  rfl

theorem sealedPacket_opens {packet : EncryptedPacket} (sender : Sender) (kept : padded packet [] = .ok packet)
    (good : validateEncryptedPacketPadding packet.body packet.padding = .ok ()) (small : packet.body.length < 2 ^ 31) :
    decodeEncryptedPacket Cipher.aes (sealedPacket packet sender) sampleKey sender (some packet.sessionId) = .ok packet := by
  obtain ⟨filled, plaintext, padding, written, decodes⟩ :=
    decodeEncryptedPacket_encoded Cipher.aes_lawful (sealedPacket_encodes sender kept good)
  cases padding.symm.trans kept
  rw [decodes]
  exact decodeEncryptedPlaintext_small written small

theorem samplePacket_read_back : Cipher.aes.Lawful ∧
    encodeEncryptedPacket Cipher.aes samplePacket sampleKey .client [] = .ok (sealedPacket samplePacket .client) ∧
    ∃ opened, decodeEncryptedPacket Cipher.aes (sealedPacket samplePacket .client) sampleKey .client (some 2) = .ok opened ∧
      opened.Carries samplePacket := by
  have encodes := sealedPacket_encodes .client (show padded samplePacket [] = .ok samplePacket from rfl) rfl
  have all := (formats_read_back Cipher.aes Cipher.aes_lawful).1 samplePacket sampleKey .client [] _ encodes
  exact ⟨Cipher.aes_lawful, encodes, all.mpr (by decide)⟩

def largePacket : EncryptedPacket :=
  { salt := 1, sessionId := 2, messageId := 4, seqNo := 1, body := replicate (2 ^ 31) 0
    padding := replicate 16 0 }

theorem largePacket_encodes (cipher : Cipher) :
    ∃ payload, encodeEncryptedPacket cipher largePacket sampleKey .client [] = .ok payload := by
  have body : largePacket.body.length = 2 ^ 31 := length_replicate
  have padding : largePacket.padding.length = 16 := rfl
  have kept : padded largePacket [] = .ok largePacket := rfl
  refine encode_accepts kept ?_
  rw [validateEncryptedPacketPadding, body, padding]
  rfl

theorem largePacket_lost : ¬ ∃ cipher : Cipher, cipher.Lawful ∧
      ∀ payload, encodeEncryptedPacket cipher largePacket sampleKey .client [] = .ok payload →
        ∃ opened, decodeEncryptedPacket cipher payload sampleKey .client (some largePacket.sessionId) = .ok opened ∧
          opened.Carries largePacket := by
  rintro ⟨cipher, lawful, returns⟩
  obtain ⟨payload, accepted⟩ := largePacket_encodes cipher
  have small := (decode_encode_iff lawful accepted).mp (returns payload accepted)
  have body : largePacket.body.length = 2 ^ 31 := length_replicate
  omega

end Samples

end Nxt.Mt
