import Nxt.Crypto.Ecdsa

/- Which byte strings are accepted as one signature or one key. Bytes after the outermost value and
   zeros before a long length are not looked at by the reader; without them there is one encoding for
   a signature and, the parameters being optional, there are two for an RSA key. -/
namespace Nxt.Crypto
open Nxt.Lib List

def encodeEcdsa (sig : EcdsaSignature) : List UInt8 := derValue 0x30 (derInteger sig.r ++ derInteger sig.s)

def rsaAlgorithm (parameters : Bool) : List UInt8 :=
  derValue 0x30 (derValue 0x06 rsaEncryption ++ if parameters then derValue 0x05 [] else [])

def encodeRsa (parameters : Bool) (key : RsaPublicKey) : List UInt8 :=
  derValue 0x30 (rsaAlgorithm parameters ++
    derValue 0x03 (0 :: derValue 0x30 (derInteger (beValue key.modulus) ++ derInteger key.exponent)))

/-- The length at the front is not padded, and what is taken there with what is left satisfies a condition. -/
def Tidy (tag : UInt8) (input : List UInt8) (condition : List UInt8 → List UInt8 → Prop) : Prop :=
  paddedLength input = false ∧ ∀ value rest, takeValue tag input = .ok (value, rest) → condition value rest

instance (tag : UInt8) (input : List UInt8) (condition : List UInt8 → List UInt8 → Prop)
    [∀ value rest, Decidable (condition value rest)] : Decidable (Tidy tag input condition) :=
  match took : takeValue tag input with
  | .error _ => decidable_of_iff (paddedLength input = false)
      ⟨fun plain => ⟨plain, fun _ _ ok => nomatch took.symm.trans ok⟩, And.left⟩
  | .ok (value, rest) => decidable_of_iff (paddedLength input = false ∧ condition value rest)
      ⟨fun both => ⟨both.1, fun _ _ ok => by cases took.symm.trans ok; exact both.2⟩,
        fun tidy => ⟨tidy.1, tidy.2 value rest took⟩⟩

def TidyEcdsa (der : List UInt8) : Prop :=
  Tidy 0x30 der fun sig rest => rest = [] ∧
    Tidy 0x02 sig fun _ sig => Tidy 0x02 sig fun _ _ => True

/-- Nothing follows the key, nor the numbers in its bit string, and no length is padded. -/
def TidyRsa (der : List UInt8) : Prop :=
  Tidy 0x30 der fun spki rest => rest = [] ∧
    Tidy 0x30 spki fun _ spki =>
      Tidy 0x03 spki fun publicKey _ =>
        Tidy 0x30 (publicKey.drop 1) fun rsa rest => rest = [] ∧
          Tidy 0x02 rsa fun _ rsa => Tidy 0x02 rsa fun _ _ => True

section Reading
variable {tag : UInt8} {input value rest : List UInt8} {condition : List UInt8 → List UInt8 → Prop}

theorem Tidy.opens (tidy : Tidy tag input condition) (took : takeValue tag input = .ok (value, rest)) :
    input = derValue tag value ++ rest ∧ condition value rest :=
  ⟨takeValue_plain took tidy.1, tidy.2 value rest took⟩

theorem integer_encoded {contents bytes : List UInt8} (took : derPositiveInteger contents = .ok bytes) :
    derValue 0x02 contents = derInteger (beValue bytes) := by
  rw [derInteger, ← (derPositiveInteger_ok took).2.2]

theorem ecdsa_encoded {der : List UInt8} {sig : EcdsaSignature} (parsed : parseEcdsaDer der = .ok sig)
    (tidy : TidyEcdsa der) : der = encodeEcdsa sig := by
  unfold parseEcdsaDer at parsed
  obtain ⟨⟨body, rest⟩, outer, parsed⟩ := bind_ok parsed
  obtain ⟨⟨r, afterR⟩, first, parsed⟩ := bind_ok parsed
  obtain ⟨rBytes, rPositive, parsed⟩ := bind_ok parsed
  obtain ⟨⟨s, afterS⟩, second, parsed⟩ := bind_ok parsed
  obtain ⟨sBytes, sPositive, parsed⟩ := bind_ok parsed
  obtain ⟨_, finished, parsed⟩ := bind_ok parsed
  cases parsed
  obtain ⟨whole, none_, tidy⟩ := tidy.opens outer
  obtain ⟨bodyIs, tidy⟩ := tidy.opens first
  obtain ⟨restIs, -⟩ := tidy.opens second
  have last : afterS = [] := not_not.mp (refuse_ok finished)
  rw [whole, none_, bodyIs, restIs, last, integer_encoded rPositive, integer_encoded sPositive, append_nil,
    append_nil]
  rfl

theorem parameters_encoded {algorithm : List UInt8} {done : Unit} (passed : rsaParameters algorithm = .ok done) :
    ∃ parameters : Bool, algorithm = if parameters then derValue 0x05 [] else [] := by
  unfold rsaParameters at passed
  by_cases absent : algorithm = []
  · exact ⟨false, absent⟩
  · rw [if_neg absent] at passed
    obtain ⟨⟨null, rest⟩, took, passed⟩ := bind_ok passed
    have empty := refuse_ok passed
    rw [not_or, not_not, not_not] at empty
    refine ⟨true, ?_⟩
    have plain := takeValue_plain took (takeValue_short took (by rw [empty.1]; decide))
    rw [plain, empty.1, empty.2, append_nil]
    rfl

theorem rsa_encoded {der : List UInt8} {key : RsaPublicKey} (parsed : parseRsaSpki der = .ok key)
    (tidy : TidyRsa der) : ∃ parameters, der = encodeRsa parameters key := by
  unfold parseRsaSpki at parsed
  obtain ⟨⟨spki, rest⟩, outer, parsed⟩ := bind_ok parsed
  obtain ⟨⟨algorithm, spki1⟩, identified, parsed⟩ := bind_ok parsed
  obtain ⟨⟨oid, afterOid⟩, named, parsed⟩ := bind_ok parsed
  obtain ⟨_, rsaOid, parsed⟩ := bind_ok parsed
  obtain ⟨_, passed, parsed⟩ := bind_ok parsed
  obtain ⟨⟨publicKey, spki2⟩, bits, parsed⟩ := bind_ok parsed
  obtain ⟨⟨unused, publicKey1⟩, front, parsed⟩ := bind_ok parsed
  obtain ⟨_, zero, parsed⟩ := bind_ok parsed
  obtain ⟨⟨rsa, rest1⟩, inner, parsed⟩ := bind_ok parsed
  obtain ⟨⟨m, rsa1⟩, first, parsed⟩ := bind_ok parsed
  obtain ⟨modulus, mPositive, parsed⟩ := bind_ok parsed
  obtain ⟨⟨e, rsa2⟩, second, parsed⟩ := bind_ok parsed
  obtain ⟨eBytes, ePositive, parsed⟩ := bind_ok parsed
  obtain ⟨_, finished, parsed⟩ := bind_ok parsed
  obtain ⟨exponent, exponentIs, parsed⟩ := bind_ok parsed
  cases parsed
  have oidIs : oid = rsaEncryption := not_not.mp (refuse_ok rsaOid)
  have unusedIs : unused = 0 := not_not.mp (refuse_ok zero)
  obtain ⟨rsaEnd, spkiEnd⟩ := not_or.mp (refuse_ok finished)
  rw [not_not] at rsaEnd spkiEnd
  obtain ⟨parameters, parametersAre⟩ := parameters_encoded passed
  have publicIs := takeU8_ok front
  obtain ⟨whole, none_, tidy⟩ := tidy.opens outer
  obtain ⟨spkiIs, tidy⟩ := tidy.opens identified
  obtain ⟨bitsAre, tidy⟩ := tidy.opens bits
  rw [publicIs, drop_succ_cons, drop_zero] at tidy
  obtain ⟨innerIs, none1, tidy⟩ := tidy.opens inner
  obtain ⟨rsaIs, tidy⟩ := tidy.opens first
  obtain ⟨lastIs, -⟩ := tidy.opens second
  have algorithmIs : algorithm = derValue 0x06 rsaEncryption ++ afterOid := by
    rw [← oidIs]
    exact takeValue_plain named (takeValue_short named (by rw [oidIs]; decide))
  refine ⟨parameters, ?_⟩
  unfold encodeRsa rsaAlgorithm
  rw [← parametersAre, ← algorithmIs, (rsaExponent_ok exponentIs).1, ← integer_encoded mPositive,
    ← integer_encoded ePositive, whole, none_, spkiIs, bitsAre, spkiEnd, publicIs, unusedIs, innerIs, none1, rsaIs,
    lastIs, rsaEnd, append_nil, append_nil, append_nil, append_nil]

end Reading

section Writing
variable {tag : UInt8} {n : Nat}

theorem takeLength_derLength (small : n < 2 ^ 64) (rest : List UInt8) :
    takeLength (derLength n ++ rest) = .ok (n, rest) := by
  unfold takeLength derLength
  by_cases short : n < 128
  · have byte : (UInt8.ofNat n).toNat = n := by
      rw [UInt8.toNat_ofNat']
      omega
    rw [if_pos short, singleton_append, takeU8, ok_bind]
    dsimp only
    rw [if_pos ((high_bit _).mpr (byte.trans_lt short)), byte]
  · have few : (beLeast n).length ≤ 8 := beLeast_length_le (by norm_num; omega)
    have many : (beLeast n).length ≠ 0 := by
      intro none_
      have value := beValue_least n
      rw [eq_nil_of_length_eq_zero none_] at value
      exact short (value ▸ (by decide))
    have byte : (UInt8.ofNat (0x80 + (beLeast n).length)).toNat = 128 + (beLeast n).length := by
      rw [UInt8.toNat_ofNat']
      omega
    have long : ¬(UInt8.ofNat (0x80 + (beLeast n).length)).toNat < 128 := by omega
    rw [if_neg short, cons_append, takeU8, ok_bind]
    dsimp only
    rw [if_neg (fun zero => long ((high_bit _).mp zero)), low_bits long, byte, Nat.add_sub_cancel_left,
      if_neg (by omega), if_neg (by rw [length_append]; omega), take_left, drop_left, beValue_least,
      if_neg short]

theorem takeValue_derValue {value : List UInt8} (small : value.length < 2 ^ 64) (rest : List UInt8) :
    takeValue tag (derValue tag value ++ rest) = .ok (value, rest) := by
  unfold takeValue derValue
  rw [cons_append, takeU8, ok_bind]
  dsimp only
  rw [if_neg (not_not.mpr rfl), append_assoc, takeLength_derLength small, ok_bind]
  exact takeBytes_front value rest

theorem derLength_length (small : n < 2 ^ 64) : (derLength n).length ≤ 9 := by
  unfold derLength
  split
  · exact Nat.succ_le_succ (Nat.zero_le 8)
  · have few : (beLeast n).length ≤ 8 := beLeast_length_le (by norm_num; omega)
    rw [length_cons]
    omega

theorem derValue_length {value : List UInt8} (small : value.length < 2 ^ 64) :
    (derValue tag value).length ≤ value.length + 10 := by
  have length := derLength_length small
  rw [derValue, length_cons, length_append]
  omega

theorem derUnsigned_length (n : Nat) : (derUnsigned n).length ≤ (beLeast n).length + 1 := by
  unfold derUnsigned
  split
  · rename_i empty
    rw [empty]
    decide
  · rename_i b rest bytes
    rw [bytes]
    split
    · exact Nat.le_succ _
    · exact le_rfl

theorem derPositiveInteger_derUnsigned (some_ : n ≠ 0) : derPositiveInteger (derUnsigned n) = .ok (beLeast n) := by
  have plain := beLeast_plain n
  unfold derUnsigned
  cases bytes : beLeast n with
  | nil =>
    have value := beValue_least n
    rw [bytes] at value
    exact absurd value.symm some_
  | cons b rest =>
    rw [bytes] at plain
    have nonzero : b ≠ 0 := fun zero => plain (congrArg some zero)
    dsimp only
    by_cases low : b.toNat < 128
    · rw [if_pos low]
      unfold derPositiveInteger
      dsimp only
      rw [if_neg nonzero, if_neg (not_not.mpr ((high_bit b).mpr low))]
    · rw [if_neg low]
      unfold derPositiveInteger
      dsimp only
      rw [if_pos rfl]
      rw [if_neg (fun zero => low ((high_bit b).mp zero))]

theorem takeValue_alone {value : List UInt8} (small : value.length < 2 ^ 64) :
    takeValue tag (derValue tag value) = .ok (value, []) := by
  have took := @takeValue_derValue tag value small []
  rwa [append_nil] at took

theorem rsaParameters_null : rsaParameters (derValue 0x05 []) = .ok () := by decide +kernel

theorem rsaExponent_encoded (least : 3 ≤ n) (odd : n % 2 = 1) (small : n < 2 ^ 32) : rsaExponent (beLeast n) = .ok n := by
  have length : (beLeast n).length ≤ 4 := beLeast_length_le (by norm_num; omega)
  have some_ : beLeast n ≠ [] := by
    intro none_
    have value := beValue_least n
    rw [none_] at value
    have zero : n = 0 := value.symm
    omega
  unfold rsaExponent
  rw [refuse_pass (not_or.mpr ⟨some_, by omega⟩), ok_bind, beValue_least,
    refuse_pass (not_or.mpr ⟨by omega, by omega⟩), ok_bind]

theorem parse_encodeRsa {key : RsaPublicKey} (parsed : key.Parsed) (small : key.modulus.length < 2 ^ 62) :
    parseRsaSpki (encodeRsa true key) = .ok key := by
  have modulusIs : beLeast (beValue key.modulus) = key.modulus := beLeast_value parsed.plain
  have modulus : beValue key.modulus ≠ 0 := by
    intro zero
    rw [zero] at modulusIs
    exact parsed.some_ modulusIs.symm
  have exponent := parsed.exponent
  have four : (beLeast key.exponent).length ≤ 4 := beLeast_length_le (by norm_num; exact parsed.small)
  have mLength := derUnsigned_length (beValue key.modulus)
  rw [modulusIs] at mLength
  have eLength := derUnsigned_length key.exponent
  have mSize : (derInteger (beValue key.modulus)).length ≤ _ := derValue_length (by omega)
  have eSize : (derInteger key.exponent).length ≤ _ := derValue_length (by omega)
  generalize numbers : derInteger (beValue key.modulus) ++ derInteger key.exponent = rsa
  have rsaSize : rsa.length ≤ key.modulus.length + 30 := by
    rw [← numbers, length_append]
    omega
  have innerSize : (derValue 0x30 rsa).length ≤ _ := derValue_length (by omega)
  have bitsSize : (derValue 0x03 (0 :: derValue 0x30 rsa)).length ≤ _ :=
    derValue_length (by rw [length_cons]; omega)
  rw [length_cons] at bitsSize
  have algorithmSize : (rsaAlgorithm true).length = 15 := by decide
  have outer := @takeValue_alone 0x30 (rsaAlgorithm true ++ derValue 0x03 (0 :: derValue 0x30 rsa))
    (by rw [length_append]; omega)
  have identified := @takeValue_derValue 0x30 (derValue 0x06 rsaEncryption ++ derValue 0x05 []) (by decide)
    (derValue 0x03 (0 :: derValue 0x30 rsa))
  have named := @takeValue_derValue 0x06 rsaEncryption (by decide) (derValue 0x05 [])
  have bits := @takeValue_alone 0x03 (0 :: derValue 0x30 rsa) (by rw [length_cons]; omega)
  have inner := @takeValue_alone 0x30 rsa (by omega)
  have first := @takeValue_derValue 0x02 (derUnsigned (beValue key.modulus)) (by omega) (derInteger key.exponent)
  have second := @takeValue_alone 0x02 (derUnsigned key.exponent) (by omega)
  unfold parseRsaSpki encodeRsa
  rw [numbers, outer, ok_bind]
  dsimp only
  rw [show rsaAlgorithm true = derValue 0x30 (derValue 0x06 rsaEncryption ++ derValue 0x05 []) from rfl, identified,
    ok_bind]
  dsimp only
  rw [named, ok_bind]
  dsimp only
  rw [refuse_pass (not_not.mpr rfl), ok_bind, rsaParameters_null, ok_bind, bits, ok_bind]
  dsimp only
  rw [takeU8, ok_bind]
  dsimp only
  rw [refuse_pass (not_not.mpr rfl), ok_bind, inner, ok_bind, ← numbers]
  dsimp only
  rw [show derInteger (beValue key.modulus) = derValue 0x02 (derUnsigned (beValue key.modulus)) from rfl, first, ok_bind]
  dsimp only
  rw [derPositiveInteger_derUnsigned modulus, ok_bind,
    show derInteger key.exponent = derValue 0x02 (derUnsigned key.exponent) from rfl, second, ok_bind]
  dsimp only
  rw [derPositiveInteger_derUnsigned (by omega), ok_bind, refuse_pass (by simp), ok_bind,
    rsaExponent_encoded exponent parsed.odd parsed.small, ok_bind, modulusIs]

end Writing

/-- The smallest key, with its parameters left out. -/
def bareKey : List UInt8 :=
  [0x30, 0x18, 0x30, 0x0b, 0x06, 0x09, 0x2a, 0x86, 0x48, 0x86, 0xf7, 0x0d, 0x01, 0x01, 0x01, 0x03, 0x09, 0x00, 0x30,
    0x06, 0x02, 0x01, 0x01, 0x02, 0x01, 0x03]

/-- And with them. -/
def fullKey : List UInt8 :=
  [0x30, 0x1a, 0x30, 0x0d, 0x06, 0x09, 0x2a, 0x86, 0x48, 0x86, 0xf7, 0x0d, 0x01, 0x01, 0x01, 0x05, 0x00, 0x03, 0x09,
    0x00, 0x30, 0x06, 0x02, 0x01, 0x01, 0x02, 0x01, 0x03]

/-- One key is read from two strings, neither with anything behind it. -/
theorem parameters_optional : bareKey ≠ fullKey ∧
    parseRsaSpki bareKey = .ok { modulus := [0x01], exponent := 3 } ∧
    parseRsaSpki fullKey = .ok { modulus := [0x01], exponent := 3 } := by
  refine ⟨by decide, ?_, ?_⟩ <;> decide +kernel

/-- A tidy signature is the encoding of its numbers; a tidy RSA key is the encoding of its numbers with or without
    the parameters; and the keys that verify ECDSA signatures are the uncompressed points of the curve, one for each
    point with coordinates below the prime. -/
theorem encodings_unique : (∀ der sig, parseEcdsaDer der = .ok sig → TidyEcdsa der → der = encodeEcdsa sig) ∧
    (∀ der key, parseRsaSpki der = .ok key → TidyRsa der → der = encodeRsa true key ∨ der = encodeRsa false key) ∧
    (∀ publicKey message sig, ecdsaP256Sha256Verify publicKey message sig = .ok true → PublicKey publicKey) ∧ ∀ a b,
    PublicKey a → PublicKey b → (publicPoint a).x < p256P → (publicPoint a).y < p256P → (publicPoint b).x < p256P →
    (publicPoint b).y < p256P → (publicPoint a).x ≡ (publicPoint b).x [ZMOD p256P] → (publicPoint a).y ≡
    (publicPoint b).y [ZMOD p256P] → a = b := by
  refine ⟨fun der sig parsed tidy => ecdsa_encoded parsed tidy, ?_, fun _ _ _ accepted => verified_key accepted, ?_⟩
  · rintro der key parsed tidy
    obtain ⟨parameters, encoded⟩ := rsa_encoded parsed tidy
    cases parameters with
    | true => exact Or.inl encoded
    | false => exact Or.inr encoded
  · rintro a b first second ax ay bx by_ sameX sameY
    unfold Int.ModEq at sameX sameY
    rw [Int.emod_eq_of_lt (publicPoint_nonneg a).1 ax, Int.emod_eq_of_lt (publicPoint_nonneg b).1 bx] at sameX
    rw [Int.emod_eq_of_lt (publicPoint_nonneg a).2 ay, Int.emod_eq_of_lt (publicPoint_nonneg b).2 by_] at sameY
    exact first.unique second sameX sameY

/-- The key of the generator, which is its only one. -/
def generatorKey : List UInt8 := 0x04 :: (beBytes 32 p256G.x.toNat ++ beBytes 32 p256G.y.toNat)

theorem generatorKey_accepted : PublicKey generatorKey :=
  ⟨by decide, by decide, by decide +kernel⟩

set_option synthInstance.maxSize 1024 in
theorem encodings_unique_smallest :
    [0x30, 0x06, 0x02, 0x01, 0x01, 0x02, 0x01, 0x03] = encodeEcdsa { r := 1, s := 3 } ∧
    (fullKey = encodeRsa true { modulus := [0x01], exponent := 3 } ∨
      fullKey = encodeRsa false { modulus := [0x01], exponent := 3 }) ∧
    ∀ b, PublicKey b → publicPoint b = p256G → b = generatorKey := by
  refine ⟨encodings_unique.1 _ _ (by decide +kernel) ?_, encodings_unique.2.1 _ _ parameters_optional.2.2 ?_, ?_⟩
  · unfold TidyEcdsa
    decide +kernel
  · unfold TidyRsa
    decide +kernel
  · intro b key same
    have generator : publicPoint generatorKey = p256G := by decide +kernel
    have below : p256G.x < p256P ∧ p256G.y < p256P := by decide +kernel
    apply encodings_unique.2.2.2 b generatorKey key generatorKey_accepted
    all_goals simp only [same, generator, below, Int.ModEq.refl]

end Nxt.Crypto
