import Nxt.Lib.BigEndian
import Nxt.Lib.Exec

/- DER as the signatures and keys are read from it (nxt/crypto.cpp). A cursor is what is left of its
   input. -/
namespace Nxt.Crypto
open Nxt.Lib List

def takeU8 : List UInt8 → Except String (UInt8 × List UInt8)
  | [] => .error "truncated DER value"
  | b :: rest => .ok (b, rest)

def takeBytes (n : Nat) (rest : List UInt8) : Except String (List UInt8 × List UInt8) :=
  if n > rest.length then .error "truncated DER value" else .ok (rest.take n, rest.drop n)

def takeLength (rest : List UInt8) : Except String (Nat × List UInt8) := do
  let (first, rest) ← takeU8 rest
  if first &&& 0x80 = 0 then .ok (first.toNat, rest)
  else
    let octets := (first &&& 0x7f).toNat
    if octets = 0 ∨ octets > 8 then .error "unsupported DER length"
    else if octets > rest.length then .error "truncated DER length"
    else
      let out := beValue (rest.take octets)
      if out < 128 then .error "non-minimal DER length" else .ok (out, rest.drop octets)

def takeValue (expectedTag : UInt8) (rest : List UInt8) : Except String (List UInt8 × List UInt8) := do
  let (tag, rest) ← takeU8 rest
  if tag ≠ expectedTag then .error "unexpected DER tag"
  else
    let (len, rest) ← takeLength rest
    takeBytes len rest

def derPositiveInteger : List UInt8 → Except String (List UInt8)
  | [] => .error "empty DER integer"
  | first :: rest =>
      if first = 0 then
        match rest with
        | [] => .error "non-minimal DER integer"
        | next :: _ => if next &&& 0x80 = 0 then .error "non-minimal DER integer" else .ok rest
      else if first &&& 0x80 ≠ 0 then .error "negative DER integer"
      else .ok (first :: rest)

def refuse (bad : Prop) [Decidable bad] (message : String) : Except String Unit :=
  if bad then .error message else .ok ()

structure RsaPublicKey where
  modulus : List UInt8
  exponent : Nat
  deriving DecidableEq

def rsaEncryption : List UInt8 := [0x2a, 0x86, 0x48, 0x86, 0xf7, 0x0d, 0x01, 0x01, 0x01]

def rsaParameters (algorithm : List UInt8) : Except String Unit :=
  if algorithm = [] then .ok ()
  else do
    let (null, algorithm) ← takeValue 0x05 algorithm
    refuse (null ≠ [] ∨ algorithm ≠ []) "unsupported RSA public key parameters"

def rsaExponent (exponent : List UInt8) : Except String Nat := do
  refuse (exponent = [] ∨ exponent.length > 4) "unsupported RSA public exponent"
  refuse (beValue exponent < 3 ∨ beValue exponent % 2 = 0) "unsupported RSA public exponent"
  .ok (beValue exponent)

def parseRsaSpki (spkiDer : List UInt8) : Except String RsaPublicKey := do
  let (spki, _) ← takeValue 0x30 spkiDer
  let (algorithm, spki) ← takeValue 0x30 spki
  let (oid, algorithm) ← takeValue 0x06 algorithm
  refuse (oid ≠ rsaEncryption) "RSA-PSS verification requires an RSA public key"
  rsaParameters algorithm
  let (publicKey, spki) ← takeValue 0x03 spki
  let (unused, publicKey) ← takeU8 publicKey
  refuse (unused ≠ 0) "unsupported RSA BIT STRING"
  let (rsa, _) ← takeValue 0x30 publicKey
  let (modulus, rsa) ← takeValue 0x02 rsa
  let modulus ← derPositiveInteger modulus
  let (exponent, rsa) ← takeValue 0x02 rsa
  let exponent ← derPositiveInteger exponent
  refuse (rsa ≠ [] ∨ spki ≠ []) "trailing data in RSA public key"
  let exponent ← rsaExponent exponent
  .ok { modulus, exponent }

structure EcdsaSignature where
  r : Nat
  s : Nat
  deriving DecidableEq

def parseEcdsaDer (derSignature : List UInt8) : Except String EcdsaSignature := do
  let (sig, _) ← takeValue 0x30 derSignature
  let (r, sig) ← takeValue 0x02 sig
  let r ← derPositiveInteger r
  let (s, sig) ← takeValue 0x02 sig
  let s ← derPositiveInteger s
  refuse (sig ≠ []) "trailing data in ECDSA signature"
  .ok { r := beValue r, s := beValue s }

theorem refuse_ok {bad : Prop} [Decidable bad] {message : String} {done : Unit}
    (passed : refuse bad message = .ok done) : ¬bad := by
  unfold refuse at passed
  split at passed
  · cases passed
  · assumption

theorem refuse_pass {bad : Prop} [Decidable bad] (good : ¬bad) (message : String) : refuse bad message = .ok () :=
  if_neg good

theorem high_bit (b : UInt8) : b &&& 0x80 = 0 ↔ b.toNat < 128 := by
  have each : ∀ n < 256, (UInt8.ofNat n &&& 0x80 = 0 ↔ n < 128) := by decide +kernel
  have this := each b.toNat b.toNat_lt
  rwa [UInt8.ofNat_toNat] at this

theorem low_bits {b : UInt8} (high : ¬b.toNat < 128) : (b &&& 0x7f).toNat = b.toNat - 128 := by
  have each : ∀ n < 256, ¬n < 128 → (UInt8.ofNat n &&& 0x7f).toNat = n - 128 := by decide +kernel
  have this := each b.toNat b.toNat_lt high
  rwa [UInt8.ofNat_toNat] at this

section Encoding

/-- A length in its one definite form. -/
def derLength (n : Nat) : List UInt8 :=
  if n < 128 then [UInt8.ofNat n] else UInt8.ofNat (0x80 + (beLeast n).length) :: beLeast n

def derValue (tag : UInt8) (value : List UInt8) : List UInt8 := tag :: (derLength value.length ++ value)

def derUnsigned (n : Nat) : List UInt8 :=
  match beLeast n with
  | [] => [0]
  | b :: rest => if b.toNat < 128 then b :: rest else 0 :: b :: rest

def derInteger (n : Nat) : List UInt8 := derValue 0x02 (derUnsigned n)

end Encoding

section Reading
variable {input rest value : List UInt8} {tag : UInt8} {n : Nat}

/-- A long form whose first octet of the length is zero, in the value at the front. -/
def paddedLength : List UInt8 → Bool
  | _ :: first :: 0 :: _ => decide (128 ≤ first.toNat)
  | _ => false

theorem takeU8_ok {b : UInt8} (took : takeU8 input = .ok (b, rest)) : input = b :: rest := by
  cases input with
  | nil => cases took
  | cons c input => cases took; rfl

theorem takeBytes_ok (took : takeBytes n input = .ok (value, rest)) : input = value ++ rest ∧ value.length = n := by
  unfold takeBytes at took
  split at took
  · cases took
  · cases took
    exact ⟨(take_append_drop n input).symm, length_take_of_le (by omega)⟩

theorem takeBytes_front (value rest : List UInt8) : takeBytes value.length (value ++ rest) = .ok (value, rest) := by
  unfold takeBytes
  rw [if_neg (by rw [length_append]; omega), take_left, drop_left]

theorem takeLength_plain (took : takeLength input = .ok (n, rest)) (plain : paddedLength (tag :: input) = false) :
    input = derLength n ++ rest := by
  unfold takeLength at took
  obtain ⟨⟨first, input'⟩, one, took⟩ := bind_ok took
  rw [takeU8_ok one] at plain ⊢
  dsimp only at took
  by_cases short : first.toNat < 128
  · rw [if_pos ((high_bit first).mpr short)] at took
    cases took
    rw [derLength, if_pos short, UInt8.ofNat_toNat]
    rfl
  · rw [if_neg (fun zero => short ((high_bit first).mp zero)), low_bits short] at took
    split at took
    · cases took
    · rename_i octets
      split at took
      · cases took
      · rename_i inside
        split at took
        · cases took
        · rename_i large
          obtain ⟨rfl, rfl⟩ := Prod.mk.inj (Except.ok.inj took)
          have length : (input'.take (first.toNat - 128)).length = first.toNat - 128 :=
            length_take_of_le (by omega)
          have head : (input'.take (first.toNat - 128)).head? ≠ some 0 := by
            cases input' with
            | nil => simp
            | cons next more =>
              rw [head?_take, if_neg (by omega)]
              intro zero
              cases zero
              simp [paddedLength] at plain
              omega
          have least := beLeast_value head
          rw [derLength, if_neg large, least, length, cons_append, take_append_drop]
          have small := first.toNat_lt
          have marked : UInt8.ofNat (0x80 + (first.toNat - 128)) = first := by
            apply UInt8.toNat_inj.mp
            rw [UInt8.toNat_ofNat']
            omega
          rw [marked]

section
variable (took : takeValue tag input = .ok (value, rest))
include took

theorem takeValue_ok :
    ∃ after, input = tag :: after ∧ takeLength after = .ok (value.length, value ++ rest) := by
  unfold takeValue at took
  obtain ⟨⟨first, after⟩, one, took⟩ := bind_ok took
  dsimp only at took
  split at took
  · cases took
  · rename_i same
    obtain ⟨⟨len, body⟩, measured, took⟩ := bind_ok took
    obtain ⟨split, length⟩ := takeBytes_ok took
    refine ⟨after, ?_, ?_⟩
    · rw [takeU8_ok one, not_not.mp same]
    · rw [measured, ← split, length]

theorem takeValue_plain (plain : paddedLength input = false) :
    input = derValue tag value ++ rest := by
  obtain ⟨after, split, measured⟩ := takeValue_ok took
  rw [split] at plain
  rw [split, takeLength_plain measured plain, derValue, cons_append, append_assoc]

theorem takeValue_short (short : value.length < 128) :
    paddedLength input = false := by
  obtain ⟨after, split, measured⟩ := takeValue_ok took
  unfold takeLength at measured
  obtain ⟨⟨first, after'⟩, one, measured⟩ := bind_ok measured
  rw [split, takeU8_ok one]
  dsimp only at measured
  by_cases low : first.toNat < 128
  · cases after' with
    | nil => rfl
    | cons next more => simp [paddedLength]; split <;> simp_all
  · rw [if_neg (fun zero => low ((high_bit first).mp zero))] at measured
    split at measured
    · cases measured
    · split at measured
      · cases measured
      · split at measured
        · cases measured
        · rename_i large
          rw [← (Prod.mk.inj (Except.ok.inj measured)).1] at short
          exact absurd short large

end

theorem derPositiveInteger_ok (took : derPositiveInteger input = .ok value) :
    value ≠ [] ∧ value.head? ≠ some 0 ∧ input = derUnsigned (beValue value) := by
  unfold derPositiveInteger at took
  split at took
  · cases took
  · rename_i first rest
    by_cases zero : first = 0
    · rw [if_pos zero] at took
      split at took
      · cases took
      · rename_i next more
        split at took
        · cases took
        · rename_i high
          cases took
          have plain : (next :: more).head? ≠ some 0 := by
            intro none_
            cases none_
            exact high (by decide)
          refine ⟨cons_ne_nil _ _, plain, ?_⟩
          unfold derUnsigned
          rw [beLeast_value plain]
          dsimp only
          rw [if_neg (fun low => high ((high_bit next).mpr low)), zero]
    · rw [if_neg zero] at took
      split at took
      · cases took
      · rename_i low
        cases took
        have plain : (first :: rest).head? ≠ some 0 := fun none_ => zero (Option.some.inj none_)
        refine ⟨cons_ne_nil _ _, plain, ?_⟩
        unfold derUnsigned
        rw [beLeast_value plain]
        dsimp only
        rw [if_pos ((high_bit first).mp (not_not.mp low))]

theorem rsaExponent_ok {bytes : List UInt8} {exponent : Nat} (parsed : rsaExponent bytes = .ok exponent) :
    exponent = beValue bytes ∧ 3 ≤ exponent ∧ exponent % 2 = 1 ∧ exponent < 2 ^ 32 := by
  unfold rsaExponent at parsed
  obtain ⟨_, sized, parsed⟩ := bind_ok parsed
  obtain ⟨_, odd, parsed⟩ := bind_ok parsed
  cases parsed
  have length := (not_or.mp (refuse_ok sized)).2
  have bounds := not_or.mp (refuse_ok odd)
  refine ⟨rfl, Nat.not_lt.mp bounds.1, by omega, ?_⟩
  calc beValue bytes < 256 ^ bytes.length := beValue_lt bytes
    _ ≤ 256 ^ 4 := Nat.pow_le_pow_right (by decide) (Nat.not_lt.mp length)
    _ = 2 ^ 32 := by norm_num

structure RsaPublicKey.Parsed (key : RsaPublicKey) : Prop where
  some_ : key.modulus ≠ []
  plain : key.modulus.head? ≠ some 0
  exponent : 3 ≤ key.exponent
  odd : key.exponent % 2 = 1
  small : key.exponent < 2 ^ 32

theorem parseRsaSpki_parsed {key : RsaPublicKey} (read : parseRsaSpki input = .ok key) : key.Parsed := by
  unfold parseRsaSpki at read
  obtain ⟨⟨spki, rest⟩, -, read⟩ := bind_ok read
  obtain ⟨⟨algorithm, spki1⟩, -, read⟩ := bind_ok read
  obtain ⟨⟨oid, afterOid⟩, -, read⟩ := bind_ok read
  obtain ⟨_, -, read⟩ := bind_ok read
  obtain ⟨_, -, read⟩ := bind_ok read
  obtain ⟨⟨publicKey, spki2⟩, -, read⟩ := bind_ok read
  obtain ⟨⟨unused, publicKey1⟩, -, read⟩ := bind_ok read
  obtain ⟨_, -, read⟩ := bind_ok read
  obtain ⟨⟨rsa, rest1⟩, -, read⟩ := bind_ok read
  obtain ⟨⟨m, rsa1⟩, -, read⟩ := bind_ok read
  obtain ⟨modulus, positive, read⟩ := bind_ok read
  obtain ⟨⟨e, rsa2⟩, -, read⟩ := bind_ok read
  obtain ⟨eBytes, -, read⟩ := bind_ok read
  obtain ⟨_, -, read⟩ := bind_ok read
  obtain ⟨exponent, exponentIs, read⟩ := bind_ok read
  cases read
  obtain ⟨some_, plain, -⟩ := derPositiveInteger_ok positive
  obtain ⟨-, least, odd, small⟩ := rsaExponent_ok exponentIs
  exact ⟨some_, plain, least, odd, small⟩

end Reading

end Nxt.Crypto
