import Nxt.Crypto.Emsa
import Nxt.Crypto.Encodings

/- How far the code verifies as RFC 8017 does: up to masks of 2^32 digests, where the standard stops and
   the code goes on with a counter that has come round. Beyond it, for every size of a modulus, there is
   a key with a signature that is accepted. -/
namespace Nxt.Crypto
open Nxt.Lib List

def maskLength (bits : Nat) : Nat := (bits - 1 + 7) / 8 - 33

/-- The code comes to an answer, and accepts exactly what the standard accepts. -/
def MeetsStandard (spki : List UInt8) (key : RsaPublicKey) (message signature : List UInt8) : Prop :=
  ∃ accepted, rsaPssVerify spki message signature 256 = .ok accepted ∧
    (accepted = true ↔ rsassaPssVerify mgf1 key message signature = some true)

section Within
variable {message em signature : List UInt8} {emBits : Nat} {key : RsaPublicKey}

theorem mgf1_within {seed : List UInt8} {maskLen : Nat} (within : maskLen ≤ 2 ^ 32 * 32) :
    mgf1 seed maskLen = codeMgf seed maskLen := by
  unfold mgf1 codeMgf
  rw [if_neg (Nat.not_lt.mpr within), mgf1Sha256_mask]

theorem emsa_within (within : em.length - 33 ≤ 2 ^ 32 * 32) :
    emsaPssVerify mgf1 message em emBits = emsaPssVerify codeMgf message em emBits := by
  unfold emsaPssVerify
  dsimp only
  rw [mgf1_within within]

theorem rsassa_within (within : maskLength (Nat.size (beValue key.modulus)) ≤ 2 ^ 32 * 32) :
    rsassaPssVerify mgf1 key message signature = rsassaPssVerify codeMgf key message signature := by
  unfold rsassaPssVerify
  dsimp only
  rw [emsa_within (by rw [beBytes_length]; exact within)]

theorem emsa_beyond (beyond : 2 ^ 32 * 32 < em.length - 33) : emsaPssVerify mgf1 message em emBits ≠ some true := by
  unfold emsaPssVerify mgf1
  dsimp only
  rw [if_pos beyond]
  split
  · exact fun same => Bool.noConfusion (Option.some.inj same)
  · split
    · exact fun same => Bool.noConfusion (Option.some.inj same)
    · split
      · exact fun same => Bool.noConfusion (Option.some.inj same)
      · exact fun same => Option.noConfusion rfl (heq_of_eq same)

theorem rsassa_beyond (beyond : 2 ^ 32 * 32 < maskLength (Nat.size (beValue key.modulus))) :
    rsassaPssVerify mgf1 key message signature ≠ some true := by
  unfold rsassaPssVerify
  dsimp only
  split
  · exact fun same => Bool.noConfusion (Option.some.inj same)
  · split
    · exact fun same => Bool.noConfusion (Option.some.inj same)
    · split
      · exact fun same => Bool.noConfusion (Option.some.inj same)
      · exact emsa_beyond (by rw [beBytes_length]; exact beyond)

theorem meets_within {spki : List UInt8} (parsed : parseRsaSpki spki = .ok key)
    (within : maskLength (bitLength key.modulus) ≤ 2 ^ 32 * 32) : MeetsStandard spki key message signature := by
  have read := parseRsaSpki_parsed parsed
  obtain ⟨accepted, answered, standard⟩ := pssVerify_ok read message signature
  refine ⟨accepted, ?_, ?_⟩
  · unfold rsaPssVerify
    rw [if_neg (not_not.mpr rfl), parsed]
    exact answered
  · rw [rsassa_within (by rw [read.size]; exact within), standard, Option.some.injEq]

end Within

section Beyond

/-- A message encoded with the masks of the code and a salt of zeros. -/
def encodedMessage (message : List UInt8) (emBits : Nat) : List UInt8 :=
  let emLen := (emBits + 7) / 8
  let salt := replicate 32 0
  let h := digestSha256 (replicate 8 0 ++ digestSha256 message ++ salt)
  let db := replicate (emLen - 66) 0 ++ 0x01 :: salt
  clearLeft (8 * emLen - emBits) (List.zipWith (· ^^^ ·) db (mgf1Sha256 h (emLen - 33))) ++ (h ++ [0xbc])

theorem clearLeft_twice {unused : Nat} {b : UInt8} {db mask : List UInt8} (small : b.toNat < 2 ^ (8 - unused))
    (length : mask.length = (b :: db).length) : clearLeft unused
    (List.zipWith (· ^^^ ·) (clearLeft unused (List.zipWith (· ^^^ ·) (b :: db) mask)) mask) = b :: db := by
  cases mask with
  | nil => cases length
  | cons k mask =>
    rw [zipWith_cons_cons, clearLeft, zipWith_cons_cons, clearLeft,
      zipWith_xor_twice (Nat.succ.inj length)]
    congr 1
    apply UInt8.toNat_inj.mp
    have under : (2 : Nat) ^ (8 - unused) ≤ 256 := Nat.pow_le_pow_right (by decide) (by omega : 8 - unused ≤ 8)
    have cut : ∀ x : Nat, x % 2 ^ (8 - unused) % 256 = x % 2 ^ (8 - unused) := fun x =>
      Nat.mod_eq_of_lt ((Nat.mod_lt x (by positivity)).trans_le under)
    rw [UInt8.toNat_ofNat', cut, UInt8.toNat_xor, UInt8.toNat_ofNat', cut, UInt8.toNat_xor, Nat.xor_mod_two_pow,
      Nat.mod_mod, Nat.xor_mod_two_pow, Nat.xor_assoc, Nat.xor_self, Nat.xor_zero, Nat.mod_eq_of_lt small]

theorem clearLeft_high (unused : Nat) (db : List UInt8) : ((clearLeft unused db).headD 0).toNat < 2 ^ (8 - unused) := by
  cases db with
  | nil => exact Nat.two_pow_pos _
  | cons b rest =>
    rw [clearLeft, headD_cons, UInt8.toNat_ofNat']
    exact (Nat.mod_le _ _).trans_lt (Nat.mod_lt _ (Nat.two_pow_pos _))

section Encoded
variable (message : List UInt8) {emBits : Nat}

section
variable (large : 66 < (emBits + 7) / 8)
include large

theorem encodedMessage_parts :
    ∃ h masked db mask : List UInt8, encodedMessage message emBits = masked ++ (h ++ [0xbc]) ∧ h.length = 32 ∧
      masked.length = (emBits + 7) / 8 - 33 ∧
      masked = clearLeft (8 * ((emBits + 7) / 8) - emBits) (List.zipWith (· ^^^ ·) db mask) ∧
      mask = mgf1Sha256 h ((emBits + 7) / 8 - 33) ∧ db = replicate ((emBits + 7) / 8 - 66) 0 ++ 0x01 :: replicate 32 0 ∧
      clearLeft (8 * ((emBits + 7) / 8) - emBits) (List.zipWith (· ^^^ ·) masked mask) = db ∧
      h = digestSha256 (replicate 8 0 ++ digestSha256 message ++ replicate 32 0) := by
  generalize hash : digestSha256 (replicate 8 0 ++ digestSha256 message ++ replicate 32 0) = h
  generalize masking : mgf1Sha256 h ((emBits + 7) / 8 - 33) = mask
  have made : mask.length = (emBits + 7) / 8 - 33 := by
    rw [← masking]
    exact mgf1Loop_length le_rfl 0
  obtain ⟨zeros, counted⟩ : ∃ zeros, (emBits + 7) / 8 - 66 = zeros + 1 := ⟨(emBits + 7) / 8 - 67, by omega⟩
  have front : replicate ((emBits + 7) / 8 - 66) 0 ++ 0x01 :: replicate 32 0 =
      (0 : UInt8) :: (replicate zeros 0 ++ 0x01 :: replicate 32 0) := by
    rw [counted, replicate_succ, cons_append]
  have sized : ((0 : UInt8) :: (replicate zeros 0 ++ 0x01 :: replicate 32 0)).length =
      (emBits + 7) / 8 - 33 := by
    simp only [length_cons, length_append, length_replicate]
    omega
  refine ⟨h, _, _, mask, ?_, ?_, ?_, rfl, masking.symm, rfl, ?_, rfl⟩
  · unfold encodedMessage
    dsimp only
    rw [hash, masking]
  · rw [← hash, digestSha256_length]
    rfl
  · rw [clearLeft_length, length_zipWith, front, sized, made, Nat.min_self]
  · rw [front]
    exact clearLeft_twice (Nat.two_pow_pos _) (made.trans sized.symm)

theorem encodedMessage_length :
    (encodedMessage message emBits).length = (emBits + 7) / 8 := by
  obtain ⟨h, masked, db, mask, split, hLength, mLength, -⟩ := encodedMessage_parts message large
  rw [split, length_append, length_append, hLength, mLength, length_singleton]
  omega

theorem encodedMessage_verified :
    emsaPssVerify codeMgf message (encodedMessage message emBits) emBits = some true := by
  have length := encodedMessage_length message large
  obtain ⟨h, masked, db, mask, split, hLength, mLength, maskedIs, maskIs, dbIs, unmasked, hash⟩ :=
    encodedMessage_parts message large
  have front : (encodedMessage message emBits).take ((emBits + 7) / 8 - 33) = masked := by
    rw [split, take_left' mLength]
  have middle : ((encodedMessage message emBits).drop ((emBits + 7) / 8 - 33)).take 32 = h := by
    rw [split, drop_left' mLength, take_left' hLength]
  have back : (encodedMessage message emBits).getLast? = some 0xbc := by
    rw [split, ← append_assoc, getLast?_concat]
  have clear : (masked.headD 0).toNat / 2 ^ (8 - (8 * ((emBits + 7) / 8) - emBits)) = 0 := by
    rw [maskedIs]
    exact Nat.div_eq_of_lt (clearLeft_high _ _)
  have dbLength : db.length = (emBits + 7) / 8 - 66 + 33 := by
    rw [dbIs, length_append, length_replicate, length_cons, length_replicate]
  have zeros : db.take ((emBits + 7) / 8 - 66) = replicate ((emBits + 7) / 8 - 66) 0 := by
    rw [dbIs, take_left' (length_replicate)]
  have mark : db.getD ((emBits + 7) / 8 - 66) 0 = 0x01 := by
    rw [dbIs, getD_append_right _ _ _ _ (Nat.le_of_eq length_replicate), length_replicate, Nat.sub_self,
      getD_cons_zero]
  have salt : db.drop (db.length - 32) = replicate 32 0 := by
    rw [dbLength, dbIs, Nat.add_sub_assoc (by decide), ← drop_drop, drop_left' length_replicate]
    rfl
  unfold emsaPssVerify
  rw [length, if_neg (by omega), back, if_neg (not_not.mpr rfl), front, middle]
  dsimp only
  rw [if_neg (not_not.mpr clear)]
  unfold codeMgf
  dsimp only
  rw [← maskIs, unmasked, if_neg (not_or.mpr ⟨not_not.mpr zeros, not_not.mpr mark⟩), salt, ← hash,
    decide_eq_true rfl]

theorem encodedMessage_small : beValue (encodedMessage message emBits) < 2 ^ emBits := by
  have length := encodedMessage_length message large
  obtain ⟨h, masked, db, mask, split, hLength, mLength, maskedIs, -⟩ := encodedMessage_parts message large
  have high := clearLeft_high (8 * ((emBits + 7) / 8) - emBits) (List.zipWith (· ^^^ ·) db mask)
  rw [← maskedIs] at high
  cases masked with
  | nil =>
    rw [length_nil] at mLength
    omega
  | cons b rest =>
    rw [split, cons_append] at length
    rw [length_cons] at length
    have small := beValue_lt (rest ++ (h ++ [0xbc]))
    rw [headD_cons] at high
    have bits : emBits = 8 - (8 * ((emBits + 7) / 8) - emBits) + 8 * (rest ++ (h ++ [0xbc])).length := by omega
    have bytes : (256 : Nat) ^ (rest ++ (h ++ [0xbc])).length = 2 ^ (8 * (rest ++ (h ++ [0xbc])).length) := by
      rw [pow_mul]
      norm_num
    rw [split, cons_append, beValue_cons]
    calc b.toNat * 256 ^ (rest ++ (h ++ [0xbc])).length + beValue (rest ++ (h ++ [0xbc]))
        < (b.toNat + 1) * 256 ^ (rest ++ (h ++ [0xbc])).length := by
          rw [Nat.succ_mul]
          exact Nat.add_lt_add_left small _
      _ ≤ 2 ^ (8 - (8 * ((emBits + 7) / 8) - emBits)) * 256 ^ (rest ++ (h ++ [0xbc])).length :=
          Nat.mul_le_mul_right _ high
      _ = 2 ^ emBits := by rw [bytes, ← pow_add, ← bits]

end

end Encoded

theorem cube_between {bits m : Nat} (large : 9 ≤ bits) (small : m < 2 ^ (bits - 1)) :
    ∃ s, 2 ^ (bits - 1) + m ≤ s ^ 3 ∧ s ^ 3 < 2 ^ bits + m := by
  obtain ⟨half, halves⟩ : ∃ half, bits = half + 1 := ⟨bits - 1, by omega⟩
  subst halves
  rw [Nat.add_sub_cancel] at *
  have enough : ∃ s, 2 ^ half + m ≤ s ^ 3 := ⟨2 ^ half + m, Nat.le_self_pow (by decide) _⟩
  have least : 256 ≤ 2 ^ half := Nat.pow_le_pow_right (by decide : 0 < 2) (by omega : 8 ≤ half)
  have reached := Nat.find_spec enough
  have before : ∀ t < Nat.find enough, t ^ 3 < 2 ^ half + m := fun t earlier => Nat.not_le.mp (Nat.find_min enough earlier)
  generalize Nat.find enough = s at reached before
  refine ⟨s, reached, ?_⟩
  cases s with
  | zero => omega
  | succ t =>
    have short := before t (Nat.lt_succ_self t)
    rw [pow_succ 2 half]
    have grow : (t + 1) ^ 3 = t ^ 3 + (3 * t ^ 2 + 3 * t + 1) := by ring
    rw [grow]
    -- the step from one cube to the next is small beside the cube
    have step : 3 * t ^ 2 + 3 * t < 2 ^ half := by
      by_cases few : t < 8
      · have bound : 3 * t ^ 2 + 3 * t ≤ 3 * 7 ^ 2 + 3 * 7 := by gcongr <;> omega
        omega
      · have quarter : 8 * t ^ 2 ≤ t ^ 3 := by
          rw [pow_succ t 2, Nat.mul_comm 8]
          exact Nat.mul_le_mul_left _ (Nat.not_lt.mp few)
        have linear : 3 * t ≤ t ^ 2 := by
          rw [pow_two]
          exact Nat.mul_le_mul_right _ (by omega)
        omega
    omega

theorem size_of_bounds {n bits : Nat} (positive : 0 < bits) (least : 2 ^ (bits - 1) ≤ n) (most : n < 2 ^ bits) :
    Nat.size n = bits := by
  refine le_antisymm (Nat.size_le.mpr most) ?_
  have above := Nat.lt_size.mpr least
  omega

theorem accepted_beyond {bits : Nat} (machine : bits < 2 ^ 64) (beyond : 2 ^ 32 * 32 < maskLength bits) :
    ∃ spki key signature, parseRsaSpki spki = .ok key ∧ bitLength key.modulus = bits ∧
      rsaPssVerify spki [] signature 256 = .ok true ∧ rsassaPssVerify mgf1 key [] signature ≠ some true := by
  unfold maskLength at beyond
  have large : 66 < (bits - 1 + 7) / 8 := by omega
  have positive : 0 < bits := by omega
  have length := encodedMessage_length [] large
  have verified := encodedMessage_verified [] large
  have small := encodedMessage_small [] large
  generalize encodedMessage [] (bits - 1) = em at length verified small
  obtain ⟨s, least, most⟩ := cube_between (by omega : 9 ≤ bits) small
  obtain ⟨n, cube⟩ : ∃ n, s ^ 3 = beValue em + n := ⟨s ^ 3 - beValue em, by omega⟩
  have size : Nat.size n = bits := size_of_bounds positive (by omega) (by omega)
  have halves : 2 ^ bits = 2 * 2 ^ (bits - 1) := by rw [← pow_succ', Nat.sub_add_cancel positive]
  -- the signature is below the modulus, whose residue of its cube is the encoded message
  have below : s < n := by
    by_contra above
    have cubes : n ^ 3 ≤ s ^ 3 := Nat.pow_le_pow_left (Nat.not_lt.mp above) 3
    have four : 4 * n ≤ n ^ 3 := by
      have two : 2 * 2 ≤ n * n := by
        have least : 2 ^ 1 ≤ 2 ^ (bits - 1) := Nat.pow_le_pow_right (by decide) (by omega)
        exact Nat.mul_le_mul (by omega) (by omega)
      rw [pow_succ, pow_two]
      exact Nat.mul_le_mul_right n two
    omega
  have residue : s ^ 3 % n = beValue em := by
    rw [cube, Nat.add_mod_right]
    exact Nat.mod_eq_of_lt (by omega)
  have key : RsaPublicKey.Parsed { modulus := beLeast n, exponent := 3 } := by
    refine ⟨?_, beLeast_plain n, le_rfl, (by decide : 3 % 2 = 1), (by decide : 3 < 2 ^ 32)⟩
    intro none_
    have bytes : beLeast n = [] := none_
    have value := beValue_least n
    rw [bytes] at value
    have zero : n = 0 := value.symm
    omega
  have modulus : bitLength (beLeast n) = bits := by
    have same := key.size
    rw [beValue_least, size] at same
    exact same.symm
  have few : (beLeast n).length < 2 ^ 62 := by
    obtain ⟨-, -, -, bytes⟩ := bitLength_bounds key.some_ key.plain
    rw [modulus] at bytes
    rw [bytes]
    omega
  have parsed := parse_encodeRsa key few
  obtain ⟨accepted, answered, standard⟩ := pssVerify_ok key [] (beBytes ((bits + 7) / 8) s)
  have signature : beValue (beBytes ((bits + 7) / 8) s) = s := by
    rw [beValue_bytes]
    refine Nat.mod_eq_of_lt ?_
    calc s < n := below
      _ < 2 ^ bits := by omega
      _ ≤ 2 ^ (8 * ((bits + 7) / 8)) := Nat.pow_le_pow_right (by decide) (by omega)
      _ = 256 ^ ((bits + 7) / 8) := by rw [pow_mul]; norm_num
  have fits : beValue em < 256 ^ ((bits - 1 + 7) / 8) := by
    have room := beValue_lt em
    rwa [length] at room
  have encoded : beBytes ((bits - 1 + 7) / 8) (beValue em) = em := by rw [← length, beBytes_value]
  refine ⟨_, _, beBytes ((bits + 7) / 8) s, parsed, modulus, ?_, ?_⟩
  · unfold rsaPssVerify
    rw [if_neg (not_not.mpr rfl), parsed]
    show pssVerify _ [] _ = _
    rw [answered]
    unfold rsassaPssVerify at standard
    dsimp only at standard
    rw [beValue_least, size, beBytes_length, if_neg (not_not.mpr rfl), signature, if_neg (Nat.not_le.mpr below), residue,
      if_neg (Nat.not_le.mpr fits), encoded, verified, Option.some.injEq] at standard
    rw [standard]
  · refine rsassa_beyond ?_
    rw [beValue_least, size]
    exact beyond

/-- The smallest sizes past the limit are among them. -/
theorem mask_too_long : ∃ spki key message signature, parseRsaSpki spki = .ok key ∧
    rsaPssVerify spki message signature 256 = .ok true ∧ rsassaPssVerify mgf1 key message signature ≠ some true := by
  obtain ⟨spki, key, signature, parsed, -, accepted, standard⟩ :=
    @accepted_beyond (8 * (2 ^ 37 + 34)) (by norm_num) (by unfold maskLength; norm_num)
  exact ⟨spki, key, [], signature, parsed, accepted, standard⟩

end Beyond

/-- For each size a modulus can have: all of its keys, messages and signatures are verified as the standard does,
    without a length or a span going wrong, if and only if the mask is one the standard can make. -/
theorem pss_verify_iff (bits : Nat) (machine : bits < 2 ^ 64) :
    (∀ spki key message signature, parseRsaSpki spki = .ok key → bitLength key.modulus = bits →
      MeetsStandard spki key message signature) ↔ maskLength bits ≤ 2 ^ 32 * 32 := by
  constructor
  · intro meets
    by_contra beyond
    obtain ⟨spki, key, signature, parsed, sized, accepted, standard⟩ :=
      accepted_beyond machine (Nat.not_le.mp beyond)
    obtain ⟨answer, answered, same⟩ := meets spki key [] signature parsed sized
    rw [accepted] at answered
    exact standard (same.mp (Except.ok.inj answered).symm)
  · rintro within spki key message signature parsed sized
    exact meets_within parsed (by rw [sized]; exact within)

/-- A usual size. -/
theorem pss_verify_2048 : (2048 < 2 ^ 64) ∧ ∀ spki key message signature, parseRsaSpki spki = .ok key →
    bitLength key.modulus = 2048 → MeetsStandard spki key message signature :=
  ⟨by norm_num, (pss_verify_iff 2048 (by norm_num)).mpr (by decide)⟩

end Nxt.Crypto
