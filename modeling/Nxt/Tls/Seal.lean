import Nxt.Tls.Record

/- What is sealed opens again. -/
namespace Nxt.Tls
open Nxt.Lib List

/-- What the cryptographic functions promise of lengths, and that opening undoes sealing. -/
structure Lawful (p : Primitives) : Prop where
  expanded : ∀ {secret info : Bytes} {length : Nat}, length ≤ 255 * 32 →
    (p.hkdfExpandSha256 secret info length).length = length
  tagged : ∀ {key nonce : Bytes} (aad plaintext : Bytes), key.length = 16 → nonce.length = 12 →
    (p.aes128gcmSeal key nonce aad plaintext).length = plaintext.length + 16
  opened : ∀ {key nonce : Bytes} (aad plaintext : Bytes), key.length = 16 → nonce.length = 12 →
    p.aes128gcmOpen key nonce aad (p.aes128gcmSeal key nonce aad plaintext) = some plaintext

structure ReadKeys.Fit (keys : ReadKeys) : Prop where
  key : keys.key.length = 16
  iv : keys.iv.length = 12

def ReadKeys.next (keys : ReadKeys) : ReadKeys := { keys with sequence := keys.sequence + 1 }

theorem ReadKeys.Fit.next {keys : ReadKeys} (fit : keys.Fit) : keys.next.Fit := ⟨fit.key, fit.iv⟩

section Laws
variable {p : Primitives} (lawful : Lawful p)
include lawful

theorem derived_fit (trafficSecret : Bytes) : (deriveTrafficKeys p trafficSecret).Fit :=
  ⟨lawful.expanded (by decide), lawful.expanded (by decide)⟩

end Laws

section Reading

theorem take_append {xs : Bytes} {n : Nat} (length : xs.length = n) (rest : Bytes) :
    take n (xs ++ rest) = .ok (xs, rest) := by
  unfold take
  rw [if_neg (by rw [length_append]; omega), ← length, take_left, drop_left]

theorem put16_length (value : Nat) : (put16 value).length = 2 := rfl

theorem beValue_put16 {value : Nat} (small : value < 2 ^ 16) : beValue (put16 value) = value := by
  have high : value / 2 ^ 8 % 256 = value / 256 := Nat.mod_eq_of_lt (by omega)
  simp only [beValue, put16, foldl_cons, foldl_nil, UInt8.toNat_ofNat']
  omega

theorem takeU8_append {value : Nat} (small : value < 2 ^ 8) (rest : Bytes) :
    takeU8 (UInt8.ofNat value :: rest) = .ok (value, rest) := by
  have one : take 1 (UInt8.ofNat value :: rest) = .ok ([UInt8.ofNat value], rest) :=
    @take_append [UInt8.ofNat value] 1 rfl rest
  have same : beValue [UInt8.ofNat value] = value := by
    simp only [beValue, foldl_cons, foldl_nil, UInt8.toNat_ofNat']
    omega
  unfold takeU8
  rw [step_ok one, same]
  rfl

theorem takeU16_append {value : Nat} (small : value < 2 ^ 16) (rest : Bytes) :
    takeU16 (put16 value ++ rest) = .ok (value, rest) := by
  unfold takeU16
  rw [step_ok (take_append (put16_length value) rest), beValue_put16 small]
  rfl

theorem take_ok {n : Nat} {input part rest : Bytes} (done : take n input = .ok (part, rest)) :
    rest.length + n = input.length := by
  unfold take at done
  split at done
  · cases done
  · cases done
    rw [length_drop]
    omega

def recordBytes (record : Record) : Bytes :=
  recordAad record.type record.version record.payload.length ++ record.payload

theorem readRecord_append {record : Record} (typed : record.type < 2 ^ 8) (versioned : record.version < 2 ^ 16)
    (short : record.payload.length < 2 ^ 16) (rest : Bytes) :
    readRecord (recordBytes record ++ rest) = .ok (record, rest) := by
  have whole : recordBytes record ++ rest = UInt8.ofNat record.type ::
      (put16 record.version ++ (put16 record.payload.length ++ (record.payload ++ rest))) := by
    simp [recordBytes, recordAad]
  unfold readRecord
  rw [whole, step_ok (takeU8_append typed _), step_ok (takeU16_append versioned _),
    step_ok (takeU16_append short _), step_ok (take_append rfl rest)]
  rfl

theorem readRecord_shorter {input rest : Bytes} {record : Record} (done : readRecord input = .ok (record, rest)) :
    rest.length < input.length := by
  obtain ⟨type, a, first, done⟩ := step_inv done
  obtain ⟨version, b, second, done⟩ := step_inv done
  obtain ⟨length, c, third, done⟩ := step_inv done
  obtain ⟨payload, d, fourth, end_⟩ := step_inv done
  cases end_
  obtain ⟨_, _, first, end_⟩ := step_inv first
  cases end_
  obtain ⟨_, _, second, end_⟩ := step_inv second
  cases end_
  obtain ⟨_, _, third, end_⟩ := step_inv third
  cases end_
  have one := take_ok first
  have two := take_ok second
  have three := take_ok third
  have four := take_ok fourth
  omega

/-- What a reader takes does not depend on what follows. -/
def Extends {α : Type} (r : Reader String α) : Prop :=
  ∀ (input rest : Bytes) (a : α), r input = .ok (a, rest) → ∀ more, r (input ++ more) = .ok (a, rest ++ more)

theorem Extends.bind {α β : Type} {r : Reader String α} {f : α → Reader String β} (first : Extends r)
    (second : ∀ a, Extends (f a)) : Extends (r >>= f) := by
  intro input rest b done more
  obtain ⟨a, middle, taken, done⟩ := step_inv done
  rw [step_ok (first _ _ _ taken more)]
  exact second a _ _ _ done more

theorem extends_pure {α : Type} (a : α) : Extends (pure a : Reader String α) := by
  intro input rest b done more
  cases done
  rfl

theorem extends_take (n : Nat) : Extends (take n) := by
  intro input rest part done more
  unfold take at done ⊢
  split at done
  · cases done
  · cases done
    rw [length_append, if_neg (by omega), take_append_of_le_length (by omega),
      drop_append_of_le_length (by omega)]

theorem extends_readRecord : Extends readRecord :=
  ((extends_take 1).bind fun _ => extends_pure _).bind fun _ =>
    ((extends_take 2).bind fun _ => extends_pure _).bind fun _ =>
      ((extends_take 2).bind fun _ => extends_pure _).bind fun length =>
        (extends_take length).bind fun _ => extends_pure _

end Reading

section Opening

theorem stripZeros_padded {type : UInt8} (content : Bytes) (padding : Nat) (typed : type ≠ 0) :
    stripZeros (content ++ [type] ++ replicate padding 0) = content ++ [type] := by
  unfold stripZeros
  rw [reverse_append, reverse_replicate, dropWhile_append_of_pos]
  · rw [reverse_append, reverse_cons, reverse_nil, nil_append, singleton_append,
      dropWhile_cons_of_neg (by simpa using typed), reverse_cons, reverse_reverse]
  · intro b held
    rw [eq_of_mem_replicate held]
    rfl

theorem innerPlaintext_padded {type : UInt8} (content : Bytes) (padding : Nat) (typed : type ≠ 0) :
    innerPlaintext (content ++ [type] ++ replicate padding 0) = .ok { content, innerType := type.toNat } := by
  unfold innerPlaintext
  rw [stripZeros_padded content padding typed]
  simp

variable {p : Primitives}

theorem recordNonce_ok {iv : Bytes} (length : iv.length = 12) (sequence : BitVec 64) :
    ∃ nonce, recordNonce iv sequence = .ok nonce ∧ nonce.length = 12 := by
  unfold recordNonce
  rw [if_neg (by omega)]
  refine ⟨_, rfl, ?_⟩
  rw [length_append, length_take, length_map, length_range]
  omega

def sealed (p : Primitives) (keys : ReadKeys) (inner : Bytes) : Except String (Record × ReadKeys) := do
  let nonce ← recordNonce keys.iv keys.sequence
  let payload := p.aes128gcmSeal keys.key nonce (recordAad 23 0x0303 (inner.length + 16)) inner
  return ({ type := 23, version := 0x0303, payload }, keys.next)

theorem openRecord_ok {keys : ReadKeys} {record : Record} {nonce plaintext : Bytes} {inner : Plaintext}
    (typed : record.type = 23) (same : recordNonce keys.iv keys.sequence = .ok nonce)
    (opened : p.aes128gcmOpen keys.key nonce (recordAad record.type record.version record.payload.length)
      record.payload = some plaintext)
    (held : innerPlaintext plaintext = .ok inner) : openRecord p keys record = .ok (inner, keys.next) := by
  unfold openRecord
  rw [require_pass (by simpa using typed), same]
  dsimp only [bind, Except.bind]
  rw [opened]
  dsimp only
  rw [held]
  rfl

theorem sealed_opens (lawful : Lawful p) {keys : ReadKeys} (fit : keys.Fit) (content : Bytes) {type : UInt8} (padding : Nat)
    (typed : type ≠ 0) : ∃ record, sealed p keys (content ++ [type] ++ replicate padding 0) = .ok (record, keys.next) ∧
      record.type = 23 ∧ record.version = 0x0303 ∧ record.payload.length = content.length + padding + 17 ∧
      openRecord p keys record = .ok ({ content, innerType := type.toNat }, keys.next) := by
  obtain ⟨nonce, same, length⟩ := recordNonce_ok fit.iv keys.sequence
  have size := lawful.tagged (recordAad 23 0x0303 ((content ++ [type] ++ replicate padding 0).length + 16))
    (content ++ [type] ++ replicate padding 0) fit.key length
  refine ⟨_, by unfold sealed; rw [same]; rfl, rfl, rfl, ?_, ?_⟩
  · dsimp only
    rw [size]
    simp only [length_append, length_cons, length_nil, length_replicate]
    omega
  · refine openRecord_ok rfl same ?_ (innerPlaintext_padded content padding typed)
    dsimp only
    rw [size]
    exact lawful.opened _ _ fit.key length

end Opening

section Plain

def plain : Primitives where
  sha256 _ := replicate 32 0
  hmacSha256 _ _ := replicate 32 0
  hkdfExtractSha256 _ _ := replicate 32 0
  hkdfExpandSha256 _ _ length := replicate length 0
  aes128gcmSeal _ _ _ plaintext := plaintext ++ replicate 16 0
  aes128gcmOpen _ _ _ ciphertext := some (ciphertext.take (ciphertext.length - 16))
  x25519Dh _ _ := some (replicate 32 0)
  verifyServerCertificate _ _ _ := .ok ()
  ecdsaP256Sha256Verify _ _ _ := true
  rsaPssVerify _ _ _ _ := true

theorem plain_lawful : Lawful plain where
  expanded _ := length_replicate
  tagged aad plaintext _ _ := by
    show (plaintext ++ replicate 16 0).length = _
    rw [length_append, length_replicate]
  opened aad plaintext _ _ := by
    show some ((plaintext ++ replicate 16 0).take ((plaintext ++ replicate 16 0).length - 16)) = _
    rw [length_append, length_replicate, Nat.add_sub_cancel, take_left]

end Plain

end Nxt.Tls
