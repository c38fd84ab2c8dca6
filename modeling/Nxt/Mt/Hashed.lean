import Nxt.Crypto.Digest
import Nxt.Crypto.IgeText
import Nxt.Mt.Packet

/- Data under its hash (crypto.hpp): SHA-1 before the data, padding behind it, AES-256-IGE over all
   three. The padding has no length of its own; the hash tells it. -/
namespace Nxt.Mt
open Nxt.Lib Nxt.Crypto List

def encryptedDataWithHashSize (dataSize : Nat) : Nat :=
  let plaintextSize := sha1Len + dataSize
  let padding := (16 - plaintextSize % 16) % 16
  plaintextSize + padding

/-- What is left in the output, which holds the plaintext first and is encrypted where it is. -/
def encryptDataWithHash (data key iv paddingBytes : Bytes) (outputSize : Nat) : Except String Bytes :=
  if outputSize ≠ encryptedDataWithHashSize data.length then .error "encrypted data output has the wrong length"
  else
    let paddingSize := outputSize - sha1Len - data.length
    if paddingBytes.length < paddingSize then .error "insufficient padding bytes"
    else do
      let output := sha1 data ++ data ++ paddingBytes.take paddingSize
      let ctx ← Aes256Context.ofKey key
      aes256IgeEncrypt ctx iv 0 0 output.length outputSize output

/-- The first data, from the longest on, that the hash is of. -/
def dataUnderHash (hash rest : Bytes) : Option Bytes :=
  (range 16).findSome? fun paddingSize =>
    if rest.length < paddingSize then none
    else
      let data := rest.take (rest.length - paddingSize)
      if hash = sha1 data then some data else none

/-- The output is a buffer apart from the ciphertext; what was in it does not matter. -/
def decryptDataWithHash (ciphertext key iv output : Bytes) : Except String Bytes :=
  if ciphertext.isEmpty || ciphertext.length % 16 ≠ 0 then .error "invalid data with hash ciphertext"
  else if ciphertext.length < sha1Len then .error "invalid data with hash ciphertext"
  else if output.length ≠ ciphertext.length then .error "decrypted data output has the wrong length"
  else do
    let ctx ← Aes256Context.ofKey key
    let mem ← aes256IgeDecrypt ctx iv 0 ciphertext.length ciphertext.length output.length (ciphertext ++ output)
    let output := mem.drop ciphertext.length
    match dataUnderHash (output.take sha1Len) (output.drop sha1Len) with
    | some data => .ok data
    | none => .error "invalid data with hash"

def contextOf (key : Bytes) : Aes256Context := { roundKeys := expandAesKey key 240, initialized := true }

/-- AES-256 in IGE mode. -/
def Cipher.aes : Cipher where
  aesIgeEncrypt key iv plaintext := (contextOf key).igeEncrypt iv plaintext
  aesIgeDecrypt key iv ciphertext := (contextOf key).igeDecrypt iv ciphertext

theorem Cipher.aes_lawful : Cipher.aes.Lawful where
  length _ _ _ whole := Aes256Context.igeEncrypt_length whole
  inverse _ _ _ whole := Aes256Context.igeDecrypt_igeEncrypt whole

section Hashed
variable {data key iv paddingBytes ciphertext output : Bytes}

theorem ofKey_ok {ctx : Aes256Context} (made : Aes256Context.ofKey key = .ok ctx) :
    key.length = 32 ∧ ctx = contextOf key := by
  unfold Aes256Context.ofKey at made
  split at made
  · cases made
  · rename_i sized
    exact ⟨not_not.mp sized, (Except.ok.inj made).symm⟩

theorem ofKey_sized (sized : key.length = 32) : Aes256Context.ofKey key = .ok (contextOf key) :=
  if_neg (not_not.mpr sized)

theorem padding_size (dataSize : Nat) : encryptedDataWithHashSize dataSize - sha1Len - dataSize ≤ 15 ∧
    (sha1Len + dataSize + (encryptedDataWithHashSize dataSize - sha1Len - dataSize)) % 16 = 0 ∧
    encryptedDataWithHashSize dataSize = sha1Len + dataSize + (encryptedDataWithHashSize dataSize - sha1Len - dataSize) := by
  unfold encryptedDataWithHashSize
  dsimp only
  omega

theorem plaintext_length (enough : encryptedDataWithHashSize data.length - sha1Len - data.length ≤ paddingBytes.length) :
    (sha1 data ++ data ++ paddingBytes.take (encryptedDataWithHashSize data.length - sha1Len - data.length)).length =
      encryptedDataWithHashSize data.length := by
  rw [length_append, length_append, sha1_length, length_take_of_le enough]
  exact (padding_size data.length).2.2.symm

theorem encryptDataWithHash_ok (keySize : key.length = 32) (ivSize : iv.length = 32)
    (enough : encryptedDataWithHashSize data.length - sha1Len - data.length ≤ paddingBytes.length) :
    encryptDataWithHash data key iv paddingBytes (encryptedDataWithHashSize data.length) =
      .ok ((contextOf key).igeEncrypt iv (sha1 data ++ data ++
        paddingBytes.take (encryptedDataWithHashSize data.length - sha1Len - data.length))) := by
  have length := plaintext_length enough
  have whole : encryptedDataWithHashSize data.length % 16 = 0 := by
    rw [(padding_size data.length).2.2]
    exact (padding_size data.length).2.1
  unfold encryptDataWithHash
  rw [if_neg (not_not.mpr rfl)]
  dsimp only
  rw [if_neg (Nat.not_lt.mpr enough), ofKey_sized keySize, ok_bind]
  generalize sha1 data ++ data ++ paddingBytes.take (encryptedDataWithHashSize data.length - sha1Len - data.length) = text
    at length
  rw [← length] at whole ⊢
  exact @igeEncrypt_in_place (contextOf key) iv text rfl ivSize whole

theorem encryptDataWithHash_inv {outputSize : Nat}
    (made : encryptDataWithHash data key iv paddingBytes outputSize = .ok ciphertext) :
    outputSize = encryptedDataWithHashSize data.length ∧ key.length = 32 ∧ iv.length = 32 ∧
      encryptedDataWithHashSize data.length - sha1Len - data.length ≤ paddingBytes.length := by
  unfold encryptDataWithHash at made
  split at made
  · cases made
  · rename_i fits
    rw [not_not] at fits
    subst fits
    dsimp only at made
    split at made
    · cases made
    · rename_i enough
      obtain ⟨ctx, keyed, made⟩ := bind_ok made
      obtain ⟨keySize, -⟩ := ofKey_ok keyed
      unfold aes256IgeEncrypt at made
      split at made
      · cases made
      · obtain ⟨_, spans, -⟩ := bind_ok made
        exact ⟨rfl, keySize, (requireIgeSpans_inv spans).1, Nat.not_lt.mp enough⟩

theorem dataUnderHash_padded {padding : Bytes} (short : padding.length ≤ 15)
    (alone : ∀ other < padding.length, sha1 ((data ++ padding).take (data.length + padding.length - other)) ≠ sha1 data) :
    dataUnderHash (sha1 data) (data ++ padding) = some data := by
  have split_ : range 16 = range padding.length ++ padding.length ::
      (range (15 - padding.length)).map (padding.length + 1 + ·) := by
    have sixteen : 16 = padding.length + (1 + (15 - padding.length)) := by omega
    rw [sixteen, range_add, range_add, map_append, map_map]
    simp only [range_one, map_cons, map_nil, Nat.add_zero, singleton_append]
    congr 3
    funext i
    exact (Nat.add_assoc ..).symm
  have none_ : (range padding.length).findSome? (fun paddingSize =>
      if (data ++ padding).length < paddingSize then none
      else if sha1 data = sha1 ((data ++ padding).take ((data ++ padding).length - paddingSize)) then
        some ((data ++ padding).take ((data ++ padding).length - paddingSize)) else none) = none := by
    rw [findSome?_eq_none_iff]
    intro other inside
    have fewer := mem_range.mp inside
    rw [length_append, if_neg (by omega), if_neg (fun same => alone other fewer same.symm)]
  unfold dataUnderHash
  dsimp only
  rw [split_, findSome?_append, none_, Option.none_or, findSome?_cons, length_append,
    if_neg (by omega), Nat.add_sub_cancel, take_left, if_pos rfl]

theorem dataUnderHash_some {hash rest : Bytes} (found : dataUnderHash hash rest = some data) :
    hash = sha1 data ∧ ∃ padding : Bytes, rest = data ++ padding ∧ padding.length ≤ 15 := by
  unfold dataUnderHash at found
  obtain ⟨paddingSize, inside, found⟩ := exists_of_findSome?_eq_some found
  have small := mem_range.mp inside
  split at found
  · cases found
  · rename_i fits
    dsimp only at found
    split at found
    · rename_i same
      cases found
      refine ⟨same, rest.drop (rest.length - paddingSize), (take_append_drop _ _).symm, ?_⟩
      rw [length_drop]
      omega
    · cases found

theorem decryptDataWithHash_ok (opened : decryptDataWithHash ciphertext key iv output = .ok data) :
    key.length = 32 ∧ iv.length = 32 ∧ ciphertext.length % 16 = 0 ∧
      ∃ padding : Bytes, (contextOf key).igeDecrypt iv ciphertext = sha1 data ++ data ++ padding ∧
        padding.length ≤ 15 := by
  unfold decryptDataWithHash at opened
  split at opened
  · cases opened
  · rename_i shape
    simp only [Bool.or_eq_true, decide_eq_true_eq, not_or, not_not] at shape
    split at opened
    · cases opened
    · split at opened
      · cases opened
      · rename_i long fits
        obtain ⟨ctx, keyed, opened⟩ := bind_ok opened
        obtain ⟨keySize, rfl⟩ := ofKey_ok keyed
        obtain ⟨mem, decrypted, opened⟩ := bind_ok opened
        have ivSize : iv.length = 32 := by
          unfold aes256IgeDecrypt at decrypted
          split at decrypted
          · cases decrypted
          · obtain ⟨_, spans, -⟩ := bind_ok decrypted
            exact (requireIgeSpans_inv spans).1
        obtain ⟨mem', run, text⟩ := @igeDecrypt_apart (contextOf key) iv ciphertext rfl ivSize shape.2 output
          (not_not.mp fits)
        have same : mem = mem' := Except.ok.inj (decrypted.symm.trans run)
        subst same
        dsimp only at opened
        rw [text] at opened
        split at opened
        · rename_i found
          cases opened
          obtain ⟨hash, padding, rest, short⟩ := dataUnderHash_some found
          refine ⟨keySize, ivSize, shape.2, padding, ?_, short⟩
          rw [append_assoc, ← rest, ← hash, take_append_drop]
        · cases opened

theorem decrypt_encrypt {outputSize : Nat}
    (made : encryptDataWithHash data key iv paddingBytes outputSize = .ok ciphertext)
    (alone : ∀ other < outputSize - sha1Len - data.length,
      sha1 ((data ++ paddingBytes).take (outputSize - sha1Len - other)) ≠ sha1 data)
    (fits : output.length = ciphertext.length) : decryptDataWithHash ciphertext key iv output = .ok data := by
  obtain ⟨rfl, keySize, ivSize, enough⟩ := encryptDataWithHash_inv made
  rw [encryptDataWithHash_ok keySize ivSize enough] at made
  obtain ⟨short, aligned, total⟩ := padding_size data.length
  have length := plaintext_length enough
  have padLength := length_take_of_le enough
  generalize encryptedDataWithHashSize data.length - sha1Len - data.length = paddingSize at *
  have whole : (sha1 data ++ data ++ paddingBytes.take paddingSize).length % 16 = 0 := by
    rw [length, total]
    exact aligned
  cases made
  have sized := @Aes256Context.igeEncrypt_length (contextOf key) iv _ whole
  have back := @Aes256Context.igeDecrypt_igeEncrypt (contextOf key) iv _ whole
  generalize (contextOf key).igeEncrypt iv (sha1 data ++ data ++ paddingBytes.take paddingSize) = ciphertext at *
  have hashLength : (sha1 data).length = sha1Len := sha1_length data
  have twenty : sha1Len = 20 := rfl
  obtain ⟨mem, run, text⟩ := @igeDecrypt_apart (contextOf key) iv ciphertext rfl ivSize (by rw [sized]; exact whole) output
    fits
  have long : sha1Len ≤ ciphertext.length := by omega
  have some_ : ciphertext.isEmpty = false := by
    rw [isEmpty_eq_false_iff]
    exact ne_nil_of_length_pos (by omega)
  unfold decryptDataWithHash
  rw [some_, if_neg (by simp only [Bool.false_or, decide_eq_true_eq, not_not]; rw [sized]; exact whole),
    if_neg (Nat.not_lt.mpr long), if_neg (not_not.mpr fits), ofKey_sized keySize, ok_bind, run, ok_bind]
  dsimp only
  rw [text, back, append_assoc, take_left' hashLength, drop_left' hashLength,
    dataUnderHash_padded (by rw [padLength]; exact short)]
  rw [padLength]
  intro other fewer
  have candidate := alone other fewer
  have cut : encryptedDataWithHashSize data.length - sha1Len - other = data.length + paddingSize - other := by omega
  rw [cut] at candidate
  have inside : (data ++ paddingBytes.take paddingSize).take (data.length + paddingSize - other) =
      (data ++ paddingBytes).take (data.length + paddingSize - other) := by
    rw [List.take_append, List.take_append, take_take]
    congr 2
    omega
  rwa [inside]

end Hashed

end Nxt.Mt
