import Mathlib

/- UTF-8 by arithmetic: the encoding of a character is one to four bytes whose ranges and values
   are said here once, and the bytes of such ranges are the encoding of a character. -/
namespace Nxt.Lib

theorem toNat_ofNat_small {n : Nat} (small : n < 256) : (UInt8.ofNat n).toNat = n := by
  rw [UInt8.toNat_ofNat']
  exact Nat.mod_eq_of_lt small

theorem byte_eq {n : Nat} {b : UInt8} (same : n = b.toNat) : UInt8.ofNat n = b := by
  rw [same, UInt8.ofNat_toNat]

def Scalar (v : Nat) : Prop := v < 0xd800 ∨ (0xdfff < v ∧ v < 0x110000)

instance (v : Nat) : Decidable (Scalar v) := inferInstanceAs (Decidable (_ ∨ _))

theorem char_scalar (c : Char) : Scalar c.val.toNat := c.valid

theorem char_exists {v : Nat} (valid : Scalar v) : ∃ c : Char, c.val.toNat = v := by
  have small : (UInt32.ofNat v).toNat = v := by
    rw [UInt32.toNat_ofNat']
    rcases valid with low | high
    · exact Nat.mod_eq_of_lt (by omega)
    · exact Nat.mod_eq_of_lt (by omega)
  exact ⟨⟨UInt32.ofNat v, by rw [UInt32.isValidChar, small]; exact valid⟩, small⟩

def Utf8Text (text : List UInt8) : Prop := ∃ chars : List Char, text = chars.flatMap String.utf8EncodeChar

theorem utf8Text_nil : Utf8Text [] := ⟨[], rfl⟩

theorem utf8Text_char (c : Char) : Utf8Text (String.utf8EncodeChar c) :=
  ⟨[c], by rw [List.flatMap_cons, List.flatMap_nil, List.append_nil]⟩

theorem Utf8Text.append {a b : List UInt8} (first : Utf8Text a) (second : Utf8Text b) : Utf8Text (a ++ b) := by
  obtain ⟨chars, rfl⟩ := first
  obtain ⟨more, rfl⟩ := second
  exact ⟨chars ++ more, by rw [List.flatMap_append]⟩

theorem lead_add : (∀ x < 32, 0xc0 ||| x = x + 0xc0) ∧ (∀ x < 16, 0xe0 ||| x = x + 0xe0) ∧
    (∀ x < 8, 0xf0 ||| x = x + 0xf0) ∧ ∀ x < 64, 0x80 ||| x = x + 0x80 := by decide

theorem trail_add (v : Nat) : 0x80 ||| v &&& 0x3f = v % 64 + 0x80 := by
  have low : v &&& 0x3f = v % 64 := Nat.and_two_pow_sub_one_eq_mod v 6
  rw [low, lead_add.2.2.2 _ (Nat.mod_lt _ (by decide))]

theorem utf8EncodeChar_bits (c : Char) : String.utf8EncodeChar c = if c.val.toNat ≤ 0x7f then [.ofNat c.val.toNat]
    else if c.val.toNat ≤ 0x7ff then [.ofNat (0xc0 ||| c.val.toNat >>> 6), .ofNat (0x80 ||| c.val.toNat &&& 0x3f)]
    else if c.val.toNat ≤ 0xffff then
      [.ofNat (0xe0 ||| c.val.toNat >>> 12), .ofNat (0x80 ||| (c.val.toNat >>> 6) &&& 0x3f),
        .ofNat (0x80 ||| c.val.toNat &&& 0x3f)] else
      [.ofNat (0xf0 ||| c.val.toNat >>> 18), .ofNat (0x80 ||| (c.val.toNat >>> 12) &&& 0x3f),
        .ofNat (0x80 ||| (c.val.toNat >>> 6) &&& 0x3f), .ofNat (0x80 ||| c.val.toNat &&& 0x3f)] := by
  have valid := char_scalar c
  unfold Scalar at valid
  obtain ⟨two, three, four, -⟩ := lead_add
  unfold String.utf8EncodeChar
  generalize c.val.toNat = v at valid
  simp only [trail_add, Nat.shiftRight_eq_div_pow, Nat.reducePow]
  split
  · rfl
  · split
    · rw [two _ (by omega), Nat.mod_eq_of_lt (show v / 64 < 0x20 by omega)]
    · split
      · rw [three _ (by omega), Nat.mod_eq_of_lt (show v / 4096 < 0x10 by omega)]
      · rw [four _ (by omega), Nat.mod_eq_of_lt (show v / 262144 < 0x08 by omega)]

def Trail (b : UInt8) : Prop := b.toNat / 64 = 2

/-- The bytes of a character and its value, by length. -/
inductive Encodes : Nat → List UInt8 → Prop where
  | one {a : UInt8} (low : a.toNat < 0x80) : Encodes a.toNat [a]
  | two {a b : UInt8} (lead : 0xc2 ≤ a.toNat ∧ a.toNat ≤ 0xdf) (second : Trail b) :
      Encodes (a.toNat % 32 * 64 + b.toNat % 64) [a, b]
  | three {a b c : UInt8} (lead : 0xe0 ≤ a.toNat ∧ a.toNat ≤ 0xef) (second : Trail b)
      (third : Trail c)
      (least : 0x800 ≤ (a.toNat % 16 * 64 + b.toNat % 64) * 64 + c.toNat % 64)
      (valid : Scalar ((a.toNat % 16 * 64 + b.toNat % 64) * 64 + c.toNat % 64)) :
      Encodes ((a.toNat % 16 * 64 + b.toNat % 64) * 64 + c.toNat % 64) [a, b, c]
  | four {a b c d : UInt8} (lead : 0xf0 ≤ a.toNat ∧ a.toNat ≤ 0xf4) (second : Trail b)
      (third : Trail c) (fourth : Trail d)
      (least : 0x10000 ≤ ((a.toNat % 8 * 64 + b.toNat % 64) * 64 + c.toNat % 64) * 64 + d.toNat % 64)
      (valid : Scalar (((a.toNat % 8 * 64 + b.toNat % 64) * 64 + c.toNat % 64) * 64 + d.toNat % 64)) :
      Encodes (((a.toNat % 8 * 64 + b.toNat % 64) * 64 + c.toNat % 64) * 64 + d.toNat % 64)
        [a, b, c, d]

theorem Encodes.length_pos {v : Nat} {bytes : List UInt8} (encodes : Encodes v bytes) : 0 < bytes.length := by
  cases encodes <;> simp

theorem encodes_char (c : Char) : Encodes c.val.toNat (String.utf8EncodeChar c) := by
  have valid := char_scalar c
  unfold String.utf8EncodeChar
  generalize c.val.toNat = v at valid
  have range : v < 0x110000 := by
    rcases valid with low | high
    · omega
    · exact high.2
  have trail (n : Nat) : (UInt8.ofNat (n % 64 + 0x80)).toNat = n % 64 + 0x80 :=
    toNat_ofNat_small (by omega)
  have trails (n : Nat) : Trail (UInt8.ofNat (n % 64 + 0x80)) := by
    rw [Trail, trail]
    omega
  dsimp only
  split
  · have first : (UInt8.ofNat v).toNat = v := toNat_ofNat_small (by omega)
    have found := Encodes.one (a := UInt8.ofNat v) (by omega)
    rwa [first] at found
  · split
    · have first : (UInt8.ofNat (v / 64 % 0x20 + 0xc0)).toNat = v / 64 % 0x20 + 0xc0 :=
        toNat_ofNat_small (by omega)
      have found := Encodes.two (a := UInt8.ofNat (v / 64 % 0x20 + 0xc0)) (by omega) (trails v)
      have value : (v / 64 % 0x20 + 0xc0) % 32 * 64 + (v % 64 + 0x80) % 64 = v := by omega
      rw [first, trail, value] at found
      exact found
    · split
      · have first : (UInt8.ofNat (v / 4096 % 0x10 + 0xe0)).toNat = v / 4096 % 0x10 + 0xe0 :=
          toNat_ofNat_small (by omega)
        have value : ((v / 4096 % 0x10 + 0xe0) % 16 * 64 + (v / 64 % 64 + 0x80) % 64) * 64 +
            (v % 64 + 0x80) % 64 = v := by omega
        have found := @Encodes.three (UInt8.ofNat (v / 4096 % 0x10 + 0xe0)) _ _ (by omega)
          (trails (v / 64)) (trails v)
        rw [first, trail, trail, value] at found
        exact found (by omega) valid
      · have first : (UInt8.ofNat (v / 262144 % 0x08 + 0xf0)).toNat = v / 262144 % 0x08 + 0xf0 :=
          toNat_ofNat_small (by omega)
        have value : (((v / 262144 % 0x08 + 0xf0) % 8 * 64 + (v / 4096 % 64 + 0x80) % 64) * 64 +
            (v / 64 % 64 + 0x80) % 64) * 64 + (v % 64 + 0x80) % 64 = v := by omega
        have found := @Encodes.four (UInt8.ofNat (v / 262144 % 0x08 + 0xf0)) _ _ _ (by omega)
          (trails (v / 4096)) (trails (v / 64)) (trails v)
        rw [first, trail, trail, trail, value] at found
        exact found (by omega) valid

theorem char_of_encodes {v : Nat} {bytes : List UInt8} (encodes : Encodes v bytes) :
    ∃ c : Char, c.val.toNat = v ∧ String.utf8EncodeChar c = bytes := by
  cases encodes with
  | @one a low =>
    obtain ⟨c, value⟩ := char_exists (v := a.toNat) (Or.inl (by omega))
    refine ⟨c, value, ?_⟩
    unfold String.utf8EncodeChar
    rw [value, if_pos (by omega), byte_eq rfl]
  | @two a b lead second =>
    unfold Trail at second
    obtain ⟨c, value⟩ := char_exists (v := a.toNat % 32 * 64 + b.toNat % 64) (Or.inl (by omega))
    refine ⟨c, value, ?_⟩
    unfold String.utf8EncodeChar
    rw [value]
    dsimp only
    rw [if_neg (by omega), if_pos (by omega), byte_eq (show _ = a.toNat by omega),
      byte_eq (show _ = b.toNat by omega)]
  | @three a b c lead second third least valid =>
    unfold Trail at second third
    obtain ⟨x, value⟩ := char_exists valid
    refine ⟨x, value, ?_⟩
    unfold String.utf8EncodeChar
    rw [value]
    dsimp only
    rw [if_neg (by omega), if_neg (by omega), if_pos (by omega), byte_eq (show _ = a.toNat by omega),
      byte_eq (show _ = b.toNat by omega), byte_eq (show _ = c.toNat by omega)]
  | @four a b c d lead second third fourth least valid =>
    unfold Trail at second third fourth
    have range : ((a.toNat % 8 * 64 + b.toNat % 64) * 64 + c.toNat % 64) * 64 + d.toNat % 64 <
        0x110000 := by
      rcases valid with low | high
      · omega
      · exact high.2
    obtain ⟨x, value⟩ := char_exists valid
    refine ⟨x, value, ?_⟩
    unfold String.utf8EncodeChar
    rw [value]
    dsimp only
    rw [if_neg (by omega), if_neg (by omega), if_neg (by omega),
      byte_eq (show _ = a.toNat by omega), byte_eq (show _ = b.toNat by omega),
      byte_eq (show _ = c.toNat by omega), byte_eq (show _ = d.toNat by omega)]

theorem Encodes.value_lt {v : Nat} {bytes : List UInt8} (encodes : Encodes v bytes) : v < 0x110000 := by
  obtain ⟨c, rfl, -⟩ := char_of_encodes encodes
  rcases char_scalar c with low | high
  · exact low.trans (by decide)
  · exact high.2

theorem encodes_iff {v : Nat} {bytes : List UInt8} :
    Encodes v bytes ↔ ∃ c : Char, c.val.toNat = v ∧ String.utf8EncodeChar c = bytes := by
  constructor
  · exact char_of_encodes
  · rintro ⟨c, rfl, rfl⟩
    exact encodes_char c

end Nxt.Lib
