import Nxt.Crypto.Pss

/- The verification of RFC 8017 for RSASSA-PSS with SHA-256, MGF1 and salts of 32 bytes, and what the
   code computes beside it. -/
namespace Nxt.Crypto
open Nxt.Lib List

/-- Digests of the seed with a counter of four bytes behind it, as many as a mask takes. -/
def maskBytes (seed : List UInt8) (maskLen : Nat) : List UInt8 :=
  ((List.range ((maskLen + 31) / 32)).flatMap fun counter => digestSha256 (seed ++ beBytes 4 counter)).take maskLen

/-- MGF1; no longer mask than the counter can count. -/
def mgf1 (seed : List UInt8) (maskLen : Nat) : Option (List UInt8) :=
  if maskLen > 2 ^ 32 * 32 then none else some (maskBytes seed maskLen)

def clearLeft (unused : Nat) : List UInt8 → List UInt8
  | [] => []
  | b :: rest => UInt8.ofNat (b.toNat % 2 ^ (8 - unused)) :: rest

def emsaPssVerify (mgf : List UInt8 → Nat → Option (List UInt8)) (message em : List UInt8) (emBits : Nat) :
    Option Bool :=
  let unused := 8 * em.length - emBits
  let maskedDb := em.take (em.length - 33)
  let h := (em.drop (em.length - 33)).take 32
  if em.length < 66 then some false
  else if em.getLast? ≠ some 0xbc then some false
  else if (maskedDb.headD 0).toNat / 2 ^ (8 - unused) ≠ 0 then some false
  else
    match mgf h (em.length - 33) with
    | none => none
    | some dbMask =>
        let db := clearLeft unused (List.zipWith (· ^^^ ·) maskedDb dbMask)
        if db.take (em.length - 66) ≠ replicate (em.length - 66) 0 ∨ db.getD (em.length - 66) 0 ≠ 0x01 then
          some false
        else
          let salt := db.drop (db.length - 32)
          some (decide (digestSha256 (replicate 8 0 ++ digestSha256 message ++ salt) = h))

def rsassaPssVerify (mgf : List UInt8 → Nat → Option (List UInt8)) (key : RsaPublicKey)
    (message signature : List UInt8) : Option Bool :=
  let n := beValue key.modulus
  let modBits := Nat.size n
  let s := beValue signature
  let m := s ^ key.exponent % n
  let emLen := (modBits - 1 + 7) / 8
  if signature.length ≠ (modBits + 7) / 8 then some false
  else if s ≥ n then some false
  else if m ≥ 256 ^ emLen then some false
  else emsaPssVerify mgf message (beBytes emLen m) (modBits - 1)

section Masks

theorem store32Be_beBytes (n : Nat) : store32Be (UInt32.ofNat n) = beBytes 4 n := by
  have byte : ∀ (x : UInt32) (m : Nat), x.toNat % 256 = m % 256 → x.toUInt8 = UInt8.ofNat m := by
    intro x m same
    apply UInt8.toNat_inj.mp
    rw [UInt32.toNat_toUInt8, UInt8.toNat_ofNat']
    exact same
  have shifted : ∀ k : UInt32, (UInt32.ofNat n >>> k).toNat = n % 2 ^ 32 / 2 ^ (k.toNat % 32) := by
    intro k
    rw [UInt32.toNat_shiftRight, UInt32.toNat_ofNat', Nat.shiftRight_eq_div_pow]
  have top : (UInt32.ofNat n >>> 24).toUInt8 = UInt8.ofNat (n / 256 / 256 / 256) := by
    refine byte _ _ ?_
    rw [shifted, show (24 : UInt32).toNat % 32 = 24 from rfl]
    omega
  have second : (UInt32.ofNat n >>> 16).toUInt8 = UInt8.ofNat (n / 256 / 256) := by
    refine byte _ _ ?_
    rw [shifted, show (16 : UInt32).toNat % 32 = 16 from rfl]
    omega
  have third : (UInt32.ofNat n >>> 8).toUInt8 = UInt8.ofNat (n / 256) := by
    refine byte _ _ ?_
    rw [shifted, show (8 : UInt32).toNat % 32 = 8 from rfl]
    omega
  have last : (UInt32.ofNat n).toUInt8 = UInt8.ofNat n := by
    refine byte _ _ ?_
    rw [UInt32.toNat_ofNat']
    omega
  rw [store32Be, top, second, third, last]
  rfl

theorem mgf1Loop_length {seed : List UInt8} {fuel len : Nat} (enough : len ≤ fuel) (counter : UInt32) :
    (mgf1Loop seed fuel counter len).length = len := by
  induction fuel generalizing len counter with
  | zero => exact (Nat.le_zero.mp enough).symm
  | succ fuel ih =>
    rw [mgf1Loop]
    by_cases done : len = 0
    · rw [if_pos done, done]
      rfl
    · rw [if_neg done]
      dsimp only
      rw [finalize_length, length_append, ih (by unfold sha256Len; omega), length_take, finalize_length]
      unfold sha256Len
      omega

theorem seeded_digest (seed more : List UInt8) :
    ((Sha256.update {} seed).update more).finalize = digestSha256 (seed ++ more) :=
  ((Sha256.after_start.update seed).update more).finalize

theorem mgf1Loop_mask {seed : List UInt8} {fuel len : Nat} (enough : len ≤ fuel) (counter : Nat) :
    mgf1Loop seed fuel (UInt32.ofNat counter) len =
      ((List.range' counter ((len + 31) / 32)).flatMap fun i => digestSha256 (seed ++ beBytes 4 i)).take len := by
  induction fuel generalizing len counter with
  | zero =>
    rw [Nat.le_zero.mp enough]
    rfl
  | succ fuel ih =>
    rw [mgf1Loop]
    by_cases done : len = 0
    · rw [if_pos done, done]
      rfl
    · rw [if_neg done]
      dsimp only
      obtain ⟨blocks, counted⟩ : ∃ blocks, (len + 31) / 32 = blocks + 1 := ⟨(len + 31) / 32 - 1, by omega⟩
      have next : UInt32.ofNat counter + 1 = UInt32.ofNat (counter + 1) := by
        rw [UInt32.ofNat_add]
        rfl
      have length := digestSha256_length (seed ++ beBytes 4 counter)
      rw [seeded_digest, store32Be_beBytes, length, next, ih (by unfold sha256Len; omega), counted, List.range'_succ,
        flatMap_cons, List.take_append, length]
      unfold sha256Len at *
      have fewer : (len - min 32 len + 31) / 32 = blocks := by omega
      rw [fewer]
      congr 1
      · rcases Nat.le_total 32 len with whole | part
        · rw [Nat.min_eq_left whole, take_of_length_le (Nat.le_of_eq length), take_of_length_le (by omega)]
        · rw [Nat.min_eq_right part]
      · rcases Nat.le_total 32 len with whole | part
        · rw [Nat.min_eq_left whole]
        · rw [Nat.min_eq_right part, Nat.sub_self, Nat.sub_eq_zero_of_le part]

theorem mgf1Sha256_mask (seed : List UInt8) (len : Nat) : mgf1Sha256 seed len = maskBytes seed len := by
  unfold mgf1Sha256 maskBytes
  rw [range_eq_range']
  exact mgf1Loop_mask le_rfl 0

end Masks

section Spans
variable {span a b : List UInt8} {n : Nat}

theorem minus_ok {a b : Nat} (fits : b ≤ a) : minus a b = .ok (a - b) := if_pos fits

theorem spanFirst_ok (fits : n ≤ span.length) : spanFirst n span = .ok (span.take n) := if_pos fits

theorem spanLast_ok (fits : n ≤ span.length) : spanLast n span = .ok (span.drop (span.length - n)) := if_pos fits

theorem subspan_ok {offset : Nat} (fits : offset + n ≤ span.length) :
    subspan offset n span = .ok ((span.drop offset).take n) := if_pos fits

theorem spanAt_ok (inside : n < span.length) : spanAt span n = .ok (span.getD n 0) := by
  unfold spanAt
  rw [getElem?_eq_getElem inside, getD_eq_getElem span 0 inside]

theorem xorSpans_ok (first : n ≤ a.length) (second : n ≤ b.length) :
    xorSpans a b n = .ok (List.zipWith (· ^^^ ·) (a.take n) (b.take n)) := by
  induction n with
  | zero => rfl
  | succ n ih =>
    rw [xorSpans, ih (by omega) (by omega), spanAt_ok first, spanAt_ok second,
      take_succ_eq_append_getElem first, take_succ_eq_append_getElem second,
      zipWith_append (by rw [length_take, length_take]; omega), getD_eq_getElem a 0 first,
      getD_eq_getElem b 0 second]
    rfl

theorem differences_zero {diff : UInt8} (length : a.length = b.length) :
    (a.zip b).foldl (fun diff x => diff ||| (x.1 ^^^ x.2)) diff = 0 ↔ diff = 0 ∧ a = b := by
  induction a generalizing b diff with
  | nil =>
    rw [eq_nil_of_length_eq_zero length.symm]
    simp
  | cons x a ih =>
    cases b with
    | nil => cases length
    | cons y b =>
      rw [zip_cons_cons, foldl_cons, ih (Nat.succ.inj length), UInt8.or_eq_zero_iff, UInt8.xor_eq_zero_iff,
        List.cons.injEq, and_assoc]

theorem constantTimeEqual_iff (a b : List UInt8) : constantTimeEqual a b = decide (a = b) := by
  unfold constantTimeEqual
  by_cases length : a.length = b.length
  · rw [if_neg (not_not.mpr length)]
    have same := @differences_zero a b 0 length
    rw [Bool.eq_iff_iff, beq_iff_eq, decide_eq_true_iff, same]
    exact and_iff_right rfl
  · rw [if_pos length]
    exact (decide_eq_false fun same => length (congrArg List.length same)).symm

theorem all_zero_iff (bytes : List UInt8) : bytes.all (· == 0) = true ↔ bytes = replicate bytes.length 0 := by
  rw [eq_replicate_iff, all_eq_true]
  simp

theorem all_zero_value (bytes : List UInt8) : bytes.all (· == 0) = true ↔ beValue bytes = 0 := by
  rw [all_zero_iff]
  constructor
  · intro zeros
    rw [zeros, beValue_zeros]
  · intro zero
    exact beValue_injective (by rw [length_replicate]) (zero.trans (beValue_zeros _).symm)

end Spans

section Bits

theorem topClear_byte (b : UInt8) {unused : Nat} (some_ : unused ≠ 0) (few : unused < 8) :
    (b &&& UInt8.ofNat (0xff <<< (8 - unused)) == 0) = decide (b.toNat / 2 ^ (8 - unused) = 0) := by
  have each : ∀ u < 8, u ≠ 0 → ∀ n < 256,
      (UInt8.ofNat n &&& UInt8.ofNat (0xff <<< (8 - u)) == 0) = decide (n / 2 ^ (8 - u) = 0) := by decide +kernel
  have this := each unused few some_ b.toNat b.toNat_lt
  rwa [UInt8.ofNat_toNat] at this

theorem clearTop_byte (b : UInt8) {unused : Nat} (few : unused < 8) :
    b &&& UInt8.ofNat (0xff >>> unused) = UInt8.ofNat (b.toNat % 2 ^ (8 - unused)) := by
  have each : ∀ u < 8, ∀ n < 256,
      UInt8.ofNat n &&& UInt8.ofNat (0xff >>> u) = UInt8.ofNat (n % 2 ^ (8 - u)) := by decide +kernel
  have this := each unused few b.toNat b.toNat_lt
  rwa [UInt8.ofNat_toNat] at this

theorem topClear_ok {unused : Nat} {maskedDb : List UInt8} (few : unused < 8) (some_ : maskedDb ≠ []) :
    topClear unused maskedDb = .ok (decide ((maskedDb.headD 0).toNat / 2 ^ (8 - unused) = 0)) := by
  unfold topClear
  by_cases none_ : unused = 0
  · rw [if_neg (not_not.mpr none_), none_]
    have small := (maskedDb.headD 0).toNat_lt
    rw [decide_eq_true (Nat.div_eq_of_lt small)]
  · rw [if_pos none_, minus_ok (by omega), spanAt_ok (length_pos_iff.mpr some_)]
    have byte := topClear_byte (maskedDb.headD 0) none_ few
    rw [← byte]
    cases maskedDb with
    | nil => exact absurd rfl some_
    | cons b rest => rfl

theorem clearTop_ok {unused : Nat} {db : List UInt8} (few : unused < 8) (some_ : db ≠ []) :
    clearTop unused db = .ok (clearLeft unused db) := by
  cases db with
  | nil => exact absurd rfl some_
  | cons b rest =>
    unfold clearTop
    by_cases none_ : unused = 0
    · rw [if_neg (not_not.mpr none_), none_, clearLeft]
      have small := b.toNat_lt
      rw [Nat.mod_eq_of_lt small, UInt8.ofNat_toNat]
    · rw [if_pos none_, clearLeft, ← clearTop_byte b few]
      rfl

end Bits

section Agreement

/-- The code's mask generation has an answer for every length. -/
def codeMgf (seed : List UInt8) (maskLen : Nat) : Option (List UInt8) := some (mgf1Sha256 seed maskLen)

theorem clearLeft_length (unused : Nat) (db : List UInt8) : (clearLeft unused db).length = db.length := by
  cases db <;> rfl

theorem pssHash_ok {message db h : List UInt8} {psLen : Nat} (length : db.length = psLen + 33) :
    pssHash message db h psLen = .ok (if db.take psLen ≠ replicate psLen 0 ∨ db.getD psLen 0 ≠ 0x01 then false
        else decide (digestSha256 (replicate 8 0 ++ digestSha256 message ++ db.drop (db.length - 32)) = h)) := by
  have taken : (db.take psLen).length = psLen := length_take_of_le (by omega)
  have zeros := all_zero_iff (db.take psLen)
  rw [taken] at zeros
  unfold pssHash
  rw [spanFirst_ok (by omega), ok_bind]
  by_cases padded : db.take psLen = replicate psLen 0
  · rw [if_neg (by rw [zeros.mpr padded]; decide), spanAt_ok (by omega), ok_bind]
    by_cases mark : db.getD psLen 0 = 0x01
    · have state := ((((Sha256.after_start.update (replicate 8 0)).update (sha256 message)).update
        (db.drop (db.length - 32))).finalize)
      rw [nil_append] at state
      rw [if_neg (not_not.mpr mark), if_neg (not_or.mpr ⟨not_not.mpr padded, not_not.mpr mark⟩),
        spanLast_ok (by omega), ok_bind]
      dsimp only
      rw [state, constantTimeEqual_iff, sha256_digest]
    · rw [if_pos mark, if_pos (Or.inr mark)]
  · rw [if_pos (Bool.eq_false_iff.mpr fun all => padded (zeros.mp all)), if_pos (Or.inl padded)]

theorem pssEncoded_ok {message em : List UInt8} {emBits : Nat} (large : 66 ≤ em.length)
    (fits : emBits ≤ 8 * em.length) (few : 8 * em.length < emBits + 8) :
    ∃ verdict, pssEncoded message em em.length emBits = .ok verdict ∧
      emsaPssVerify codeMgf message em emBits = some verdict := by
  have back : em.getLast? = some (em.getD (em.length - 1) 0) := by
    rw [getLast?_eq_getElem?, getElem?_eq_getElem (by omega), getD_eq_getElem em 0 (by omega)]
  unfold pssEncoded emsaPssVerify
  rw [minus_ok (by omega), if_neg (Nat.not_lt.mpr large), back, ok_bind, spanAt_ok (by omega), ok_bind]
  by_cases trailer : em.getD (em.length - 1) 0 = 0xbc
  · rw [if_neg (not_not.mpr trailer), if_neg (not_not.mpr (congrArg some trailer)), minus_ok (by omega), ok_bind,
      minus_ok (by omega), Nat.sub_sub, ok_bind, spanFirst_ok (by omega), ok_bind, subspan_ok (by omega), ok_bind,
      minus_ok fits, ok_bind]
    have masked : (em.take (em.length - 33)).length = em.length - 33 := length_take_of_le (by omega)
    have some_ : em.take (em.length - 33) ≠ [] := ne_nil_of_length_pos (by omega)
    rw [topClear_ok (by omega) some_, ok_bind]
    by_cases clear : ((em.take (em.length - 33)).headD 0).toNat / 2 ^ (8 - (8 * em.length - emBits)) = 0
    · rw [if_neg (by rw [decide_eq_true clear]; decide), if_neg (not_not.mpr clear)]
      generalize (em.drop (em.length - 33)).take 32 = h
      have made : (mgf1Sha256 h (em.length - 33)).length = em.length - 33 := mgf1Loop_length le_rfl 0
      dsimp only [Nat.reduceAdd]
      rw [xorSpans_ok (Nat.le_of_eq masked.symm) (Nat.le_of_eq made.symm),
        take_of_length_le (Nat.le_of_eq masked), take_of_length_le (Nat.le_of_eq made), ok_bind]
      unfold codeMgf
      dsimp only
      generalize unmasked :
        List.zipWith (· ^^^ ·) (em.take (em.length - 33)) (mgf1Sha256 h (em.length - 33)) = db
      have length : db.length = em.length - 33 := by
        rw [← unmasked, length_zipWith, masked, made, Nat.min_self]
      rw [clearTop_ok (by omega) (ne_nil_of_length_pos (by omega)), ok_bind, ok_bind, minus_ok (by omega), ok_bind,
        minus_ok (by omega), ok_bind, Nat.sub_sub, Nat.sub_sub]
      rw [pssHash_ok (by rw [clearLeft_length]; omega)]
      refine ⟨_, rfl, ?_⟩
      split <;> rfl
    · rw [if_pos (by rw [decide_eq_false clear]), if_pos clear]
      exact ⟨false, rfl, rfl⟩
  · rw [if_pos trailer, if_pos (fun same => trailer (Option.some.inj same))]
    exact ⟨false, rfl, rfl⟩

theorem emsaPssVerify_short {mgf : List UInt8 → Nat → Option (List UInt8)} {message em : List UInt8} {emBits : Nat}
    (short : em.length < 66) : emsaPssVerify mgf message em emBits = some false := if_pos short

theorem RsaPublicKey.Parsed.size {key : RsaPublicKey} (parsed : key.Parsed) :
    Nat.size (beValue key.modulus) = bitLength key.modulus := by
  obtain ⟨positive, least, most, -⟩ := bitLength_bounds parsed.some_ parsed.plain
  refine le_antisymm (Nat.size_le.mpr most) ?_
  have above := Nat.lt_size.mpr least
  omega

theorem leading_zero {leading emLen m : Nat} (small : m < 256 ^ (leading + emLen)) :
    ((beBytes (leading + emLen) m).take leading).all (· == 0) = true ↔ m < 256 ^ emLen := by
  have split : (beBytes (leading + emLen) m).take leading = beBytes leading (m / 256 ^ emLen) := by
    rw [beBytes_append, take_left' (beBytes_length _ _)]
  have high : m / 256 ^ emLen < 256 ^ leading := by
    rw [Nat.div_lt_iff_lt_mul (by positivity), ← pow_add]
    exact small
  rw [split, all_zero_value, beValue_bytes, Nat.mod_eq_of_lt high, Nat.div_eq_zero_iff_lt (by positivity)]

theorem encoded_last {leading emLen m : Nat} :
    (beBytes (leading + emLen) m).drop (leading + emLen - emLen) = beBytes emLen m := by
  rw [beBytes_append, Nat.add_sub_cancel, drop_left' (beBytes_length _ _)]

/-- For every key that was read, the code comes to an answer, the one of the standard with the code's masks. -/
theorem pssVerify_ok {key : RsaPublicKey} (parsed : key.Parsed) (message signature : List UInt8) :
    ∃ verdict, pssVerify key message signature = .ok verdict ∧
      rsassaPssVerify codeMgf key message signature = some verdict := by
  obtain ⟨positive, least, most, sized⟩ := bitLength_bounds parsed.some_ parsed.plain
  unfold pssVerify rsassaPssVerify
  dsimp only [Nat.reduceAdd]
  rw [parsed.size, minus_ok positive, ok_bind]
  generalize bits : bitLength key.modulus = modBits at positive least most sized
  generalize modulus : beValue key.modulus = n at least most
  generalize beValue signature = s
  have exponent : key.exponent ≠ 0 := by
    have := parsed.exponent
    omega
  by_cases small : (modBits - 1 + 7) / 8 < 66
  · rw [if_pos small, emsaPssVerify_short (by rw [beBytes_length]; exact small)]
    refine ⟨false, rfl, ?_⟩
    split
    · rfl
    · split
      · rfl
      · split <;> rfl
  · rw [if_neg small, sized]
    by_cases length : signature.length = (modBits + 7) / 8
    · rw [if_neg (not_not.mpr length), if_neg (not_not.mpr length)]
      by_cases range : s ≥ n
      · rw [if_pos range, if_pos range]
        exact ⟨false, rfl, rfl⟩
      · rw [if_neg range, if_neg range, powMod_pow s n exponent]
        have below : s ^ key.exponent % n < n := Nat.mod_lt _ (by omega)
        generalize s ^ key.exponent % n = m at below
        obtain ⟨leading, whole⟩ : ∃ leading, signature.length = leading + (modBits - 1 + 7) / 8 :=
          ⟨signature.length - (modBits - 1 + 7) / 8, by omega⟩
        generalize counted : (modBits - 1 + 7) / 8 = emLen at small whole
        have fits : m < 256 ^ (leading + emLen) := by
          have room := beValue_lt key.modulus
          rw [modulus, sized, ← length, whole] at room
          exact below.trans room
        have emLength := beBytes_length emLen m
        rw [whole, bytesFromInt_ok fits, refusing, ok_bind, minus_ok (by omega), Nat.add_sub_cancel, ok_bind,
          spanFirst_ok (by rw [beBytes_length]; omega), ok_bind]
        by_cases inside : m < 256 ^ emLen
        · rw [if_neg (by rw [(leading_zero fits).mpr inside]; decide), if_neg (Nat.not_le.mpr inside),
            spanLast_ok (by rw [beBytes_length]; omega), ok_bind, beBytes_length, encoded_last]
          have encoded := @pssEncoded_ok message (beBytes emLen m) (modBits - 1)
          rw [emLength] at encoded
          exact encoded (by omega) (by omega) (by omega)
        · rw [if_pos (Bool.eq_false_iff.mpr fun all => inside ((leading_zero fits).mp all)),
            if_pos (Nat.not_lt.mp inside)]
          exact ⟨false, rfl, rfl⟩
    · rw [if_pos length, if_pos length]
      exact ⟨false, rfl, rfl⟩

end Agreement

end Nxt.Crypto
