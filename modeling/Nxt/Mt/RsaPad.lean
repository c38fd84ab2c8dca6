import Nxt.Crypto.Rsa
import Nxt.Mt.Hashed

/- RSA with the padding of MTProto 2.0 (crypto.hpp): padded data reversed, its hash under a temporary
   key, IGE with that key, and the key masked by the hash of the result. Another key is tried until the
   block is below the modulus. -/
namespace Nxt.Mt
open Nxt.Lib Nxt.Crypto List

structure PublicKey where
  modulus : Bytes
  exponent : Nat := 65537
  fingerprint : BitVec 64 := 0
  deriving DecidableEq

/-- From the last byte on, while there is a carry. -/
def carryUp : Bytes → Bytes
  | [] => []
  | b :: rest => if b + 1 ≠ 0 then (b + 1) :: rest else (b + 1) :: carryUp rest

def incrementBe (value : Bytes) : Bytes := (carryUp value.reverse).reverse

def trimUnsignedBe (value : Bytes) : Bytes := value.dropWhile (· == 0)

def lexicographicalCompare : Bytes → Bytes → Bool
  | _, [] => false
  | [], _ :: _ => true
  | a :: lhs, b :: rhs => if a < b then true else if b < a then false else lexicographicalCompare lhs rhs

def unsignedBeLess (lhs rhs : Bytes) : Bool :=
  let lhs := trimUnsignedBe lhs
  let rhs := trimUnsignedBe rhs
  if lhs.length ≠ rhs.length then decide (lhs.length < rhs.length) else lexicographicalCompare lhs rhs

/-- `rsa_raw_public_encrypt`; the input is read before anything is written, so it may be the output. -/
def rsaRawPublicEncrypt (modulus : Bytes) (exponent : Nat) (input : Bytes) (outputSize : Nat) : Except String Bytes :=
  if modulus.isEmpty then .error "RSA modulus is empty"
  else if outputSize ≠ modulus.length then .error "RSA output must match modulus size"
  else if input.length > modulus.length then .error "RSA input is too large"
  else if exponent < 3 ∨ exponent % 2 = 0 then .error "unsupported RSA public exponent"
  else
    let n := beValue modulus
    let m := beValue input
    if m ≥ n then .error "RSA input is not below modulus" else bytesFromInt (powMod m exponent n) outputSize

def paddedBlock (dataWithPadding tempKey : Bytes) : Except String Bytes := do
  let digest := ((Sha256.update {} tempKey).update dataWithPadding).finalize
  let dataWithHash := dataWithPadding.reverse ++ digest
  let aes ← Aes256Context.ofKey tempKey
  let mem ← aes256IgeEncrypt aes (replicate 32 0) 0 dataWithHash.length dataWithHash.length 224
    (dataWithHash ++ replicate 224 0)
  let aesEncrypted := mem.drop dataWithHash.length
  let encryptedDigest := sha256 aesEncrypted
  .ok (List.zipWith (· ^^^ ·) tempKey encryptedDigest ++ aesEncrypted)

/-- The loop; no answer yet when the fuel is used up. -/
def rsaPadLoop (key : PublicKey) (dataWithPadding : Bytes) : Nat → Bytes → Except String (Option Bytes)
  | 0, _ => .ok none
  | fuel + 1, tempKey => do
      let output ← paddedBlock dataWithPadding tempKey
      if unsignedBeLess output key.modulus then
        let encrypted ← rsaRawPublicEncrypt key.modulus key.exponent output output.length
        .ok (some encrypted)
      else rsaPadLoop key dataWithPadding fuel (incrementBe tempKey)

def rsaRequiredRandomBytes : Nat := 224

def rsaEncryptPadded (fuel : Nat) (data : Bytes) (key : PublicKey) (randomBytes : Bytes) (outputSize : Nat) :
    Except String (Option Bytes) :=
  if data.length > 144 then .error "RSA padded data too large"
  else if key.modulus.length ≠ 256 then .error "RSA modulus must be 256 bytes"
  else if outputSize ≠ 256 then .error "RSA output must be 256 bytes"
  else if randomBytes.length < rsaRequiredRandomBytes then .error "insufficient RSA random bytes"
  else
    rsaPadLoop key (data ++ randomBytes.take (192 - data.length)) fuel ((randomBytes.drop 192).take 32)

/-- What a server does with a block: the key from the hash of the tail, the text under it, and its hash. -/
def rsaPadInverse (block : Bytes) : Option Bytes :=
  let aesEncrypted := block.drop 32
  let tempKey := List.zipWith (· ^^^ ·) (block.take 32) (sha256 aesEncrypted)
  let dataWithHash := (contextOf tempKey).igeDecrypt (replicate 32 0) aesEncrypted
  let dataWithPadding := (dataWithHash.take 192).reverse
  if dataWithHash.drop 192 = sha256 (tempKey ++ dataWithPadding) then some dataWithPadding else none

section Increment

theorem carryUp_length (bytes : Bytes) : (carryUp bytes).length = bytes.length := by
  induction bytes with
  | nil => rfl
  | cons b rest ih =>
    rw [carryUp]
    split
    · rfl
    · rw [length_cons, ih, length_cons]

theorem incrementBe_length (value : Bytes) : (incrementBe value).length = value.length := by
  rw [incrementBe, length_reverse, carryUp_length, length_reverse]

end Increment

section Inverse
variable {key : PublicKey} {dataWithPadding tempKey block output : Bytes}

theorem paddedBlock_inverse (size : dataWithPadding.length = 192) (keySize : tempKey.length = 32)
    (made : paddedBlock dataWithPadding tempKey = .ok block) :
    block.length = 256 ∧ rsaPadInverse block = some dataWithPadding := by
  unfold paddedBlock at made
  rw [ofKey_sized keySize, ok_bind] at made
  dsimp only at made
  have digested : ((Sha256.update {} tempKey).update dataWithPadding).finalize = sha256 (tempKey ++ dataWithPadding) := by
    rw [sha256_digest]
    exact ((Sha256.after_start.update tempKey).update dataWithPadding).finalize
  have hashLength := sha256_length (tempKey ++ dataWithPadding)
  rw [digested] at made
  have length : (dataWithPadding.reverse ++ sha256 (tempKey ++ dataWithPadding)).length = 224 := by
    rw [length_append, length_reverse, size, hashLength]
    rfl
  have whole : (dataWithPadding.reverse ++ sha256 (tempKey ++ dataWithPadding)).length % 16 = 0 := by rw [length]
  obtain ⟨mem, run, text⟩ := @igeEncrypt_apart (contextOf tempKey) (replicate 32 0) _ rfl length_replicate whole
    (replicate 224 0) (by rw [length_replicate, length])
  rw [length_replicate] at run
  rw [run, ok_bind, text] at made
  have sized := @Aes256Context.igeEncrypt_length (contextOf tempKey) (replicate 32 0) _ whole
  have back := @Aes256Context.igeDecrypt_igeEncrypt (contextOf tempKey) (replicate 32 0) _ whole
  generalize (contextOf tempKey).igeEncrypt (replicate 32 0)
    (dataWithPadding.reverse ++ sha256 (tempKey ++ dataWithPadding)) = aesEncrypted at made sized back
  cases made
  have maskLength := sha256_length aesEncrypted
  have masked : (List.zipWith (· ^^^ ·) tempKey (sha256 aesEncrypted)).length = 32 := by
    rw [length_zipWith, keySize, maskLength]
    rfl
  have unmasked : List.zipWith (· ^^^ ·) (List.zipWith (· ^^^ ·) tempKey (sha256 aesEncrypted)) (sha256 aesEncrypted) =
      tempKey := zipWith_xor_twice (by rw [maskLength, keySize]; rfl)
  have reversed : dataWithPadding.reverse.length = 192 := by rw [length_reverse, size]
  refine ⟨by rw [length_append, masked, sized, length], ?_⟩
  unfold rsaPadInverse
  rw [take_left' masked, drop_left' masked]
  dsimp only
  rw [unmasked, back, take_left' reversed, drop_left' reversed, reverse_reverse, if_pos rfl]

theorem rsaRawPublicEncrypt_ok {modulus input : Bytes} {exponent outputSize : Nat}
    (made : rsaRawPublicEncrypt modulus exponent input outputSize = .ok output) : beValue input < beValue modulus ∧
      output = beBytes modulus.length (beValue input ^ exponent % beValue modulus) := by
  unfold rsaRawPublicEncrypt at made
  split at made
  · cases made
  · split at made
    · cases made
    · rename_i fits
      rw [not_not] at fits
      split at made
      · cases made
      · split at made
        · cases made
        · rename_i bad
          dsimp only at made
          split at made
          · cases made
          · rename_i below
            rw [powMod_pow _ _ (by omega : exponent ≠ 0)] at made
            unfold bytesFromInt at made
            split at made
            · cases made
            · cases made
              exact ⟨Nat.not_le.mp below, by rw [fits]⟩

theorem rsaPadLoop_block (size : dataWithPadding.length = 192) {fuel : Nat} (keySize : tempKey.length = 32)
    (made : rsaPadLoop key dataWithPadding fuel tempKey = .ok (some output)) : ∃ block : Bytes, block.length = 256 ∧
    beValue block < beValue key.modulus ∧ output = beBytes key.modulus.length
    (beValue block ^ key.exponent % beValue key.modulus) ∧ rsaPadInverse block = some dataWithPadding := by
  induction fuel generalizing tempKey with
  | zero => cases made
  | succ fuel ih =>
    rw [rsaPadLoop] at made
    obtain ⟨block, padded, made⟩ := bind_ok made
    by_cases below : unsignedBeLess block key.modulus = true
    · rw [if_pos below] at made
      obtain ⟨encrypted, raw, made⟩ := bind_ok made
      cases made
      obtain ⟨length, inverse⟩ := paddedBlock_inverse size keySize padded
      obtain ⟨small, outputIs⟩ := rsaRawPublicEncrypt_ok raw
      exact ⟨block, length, small, outputIs, inverse⟩
    · rw [if_neg below] at made
      exact ih (by rw [incrementBe_length, keySize]) made

theorem rsaEncryptPadded_block {data randomBytes : Bytes} {fuel outputSize : Nat}
    (made : rsaEncryptPadded fuel data key randomBytes outputSize = .ok (some output)) :
    ∃ block : Bytes, block.length = 256 ∧ beValue block < beValue key.modulus ∧
      output = beBytes 256 (beValue block ^ key.exponent % beValue key.modulus) ∧
      rsaPadInverse block = some (data ++ randomBytes.take (192 - data.length)) := by
  unfold rsaEncryptPadded rsaRequiredRandomBytes at made
  split at made
  · cases made
  · split at made
    · cases made
    · rename_i modulus
      split at made
      · cases made
      · split at made
        · cases made
        · rw [not_not] at modulus
          have found := rsaPadLoop_block (by rw [length_append, length_take]; omega)
            (by rw [length_take, length_drop]; omega) made
          rwa [modulus] at found

end Inverse

/-- Both paddings can be taken off: data under its hash opens as that data, when no longer candidate has the hash;
    what opens at all is a hash, the data it is of and at most 15 bytes; and what RSA padding returns is the power of a
    block below the modulus, which the inverse takes back to the data and its random padding. -/
theorem paddings_invert : (∀ (data key iv paddingBytes ciphertext output : Bytes) (outputSize : Nat),
      encryptDataWithHash data key iv paddingBytes outputSize = .ok ciphertext →
      (∀ other < outputSize - sha1Len - data.length,
        sha1 ((data ++ paddingBytes).take (outputSize - sha1Len - other)) ≠ sha1 data) →
      output.length = ciphertext.length → decryptDataWithHash ciphertext key iv output = .ok data) ∧
    (∀ data key iv paddingBytes : Bytes, key.length = 32 → iv.length = 32 →
      encryptedDataWithHashSize data.length - sha1Len - data.length ≤ paddingBytes.length →
      ∃ ciphertext, encryptDataWithHash data key iv paddingBytes (encryptedDataWithHashSize data.length) =
        .ok ciphertext) ∧
    (∀ ciphertext key iv output data : Bytes, decryptDataWithHash ciphertext key iv output = .ok data →
      ∃ padding : Bytes, (contextOf key).igeDecrypt iv ciphertext = sha1 data ++ data ++ padding ∧
        padding.length ≤ 15) ∧
    ∀ (fuel : Nat) (data : Bytes) (key : PublicKey) (randomBytes output : Bytes) (outputSize : Nat),
      rsaEncryptPadded fuel data key randomBytes outputSize = .ok (some output) →
      ∃ block : Bytes, block.length = 256 ∧ beValue block < beValue key.modulus ∧
        output = beBytes 256 (beValue block ^ key.exponent % beValue key.modulus) ∧
        rsaPadInverse block = some (data ++ randomBytes.take (192 - data.length)) :=
  ⟨fun _ _ _ _ _ _ _ made alone fits => decrypt_encrypt made alone fits,
    fun _ _ _ _ keySize ivSize enough => ⟨_, encryptDataWithHash_ok keySize ivSize enough⟩,
    fun _ _ _ _ _ opened => (decryptDataWithHash_ok opened).2.2.2,
    fun _ _ _ _ _ _ made => rsaEncryptPadded_block made⟩

/-- Eleven bytes and one of padding, encrypted and read back. -/
theorem paddings_invert_padded : ∃ ciphertext output : Bytes, encryptDataWithHash (replicate 11 1) (replicate 32 0)
    (replicate 32 0) [7] (encryptedDataWithHashSize (replicate 11 (1 : UInt8)).length) = .ok ciphertext ∧
    decryptDataWithHash ciphertext (replicate 32 0) (replicate 32 0) output = .ok (replicate 11 1) := by
  obtain ⟨ciphertext, made⟩ := paddings_invert.2.1 (replicate 11 1) (replicate 32 0) (replicate 32 0) [7]
    length_replicate length_replicate (by decide)
  refine ⟨ciphertext, replicate ciphertext.length 0, made, ?_⟩
  refine paddings_invert.1 _ _ _ _ _ _ _ made ?_ length_replicate
  intro other fewer
  obtain rfl : other = 0 := by
    have one : encryptedDataWithHashSize (replicate 11 (1 : UInt8)).length - sha1Len -
      (replicate 11 (1 : UInt8)).length = 1 := by decide
    omega
  decide +kernel

end Nxt.Mt
