import Mathlib

/- Numbers as bytes, the most significant first. -/
namespace Nxt.Lib
open List

def beValue (bytes : List UInt8) : Nat := bytes.foldl (fun value b => value * 256 + b.toNat) 0

def beBytes : Nat → Nat → List UInt8
  | 0, _ => []
  | len + 1, n => beBytes len (n / 256) ++ [UInt8.ofNat n]

/-- As few bytes as a number takes, none for zero. -/
def beLeast (n : Nat) : List UInt8 := beBytes (Nat.digits 256 n).length n

theorem beValue_concat (bytes : List UInt8) (b : UInt8) : beValue (bytes ++ [b]) = beValue bytes * 256 + b.toNat :=
  foldl_append

theorem beValue_append (front back : List UInt8) :
    beValue (front ++ back) = beValue front * 256 ^ back.length + beValue back := by
  induction back using List.reverseRecOn with
  | nil => simp [beValue]
  | append_singleton back b ih =>
    rw [← append_assoc, beValue_concat, ih, beValue_concat, length_append, length_singleton]
    ring

theorem beValue_cons (b : UInt8) (bytes : List UInt8) :
    beValue (b :: bytes) = b.toNat * 256 ^ bytes.length + beValue bytes := by
  have one : beValue [b] = b.toNat := by simp [beValue]
  rw [← one, ← beValue_append, singleton_append]

theorem beValue_lt (bytes : List UInt8) : beValue bytes < 256 ^ bytes.length := by
  induction bytes using List.reverseRecOn with
  | nil => decide
  | append_singleton bytes b ih =>
    have small := b.toNat_lt
    rw [beValue_concat, length_append, length_singleton, pow_succ]
    omega

theorem beValue_zeros (n : Nat) : beValue (replicate n 0) = 0 := by
  induction n with
  | zero => rfl
  | succ n ih => rw [replicate_succ', beValue_concat, ih]; rfl

@[simp] theorem beBytes_length (len n : Nat) : (beBytes len n).length = len := by
  induction len generalizing n with
  | zero => rfl
  | succ len ih => rw [beBytes, length_append, ih, length_singleton]

theorem beValue_bytes (len n : Nat) : beValue (beBytes len n) = n % 256 ^ len := by
  induction len generalizing n with
  | zero => simp [beBytes, beValue, Nat.mod_one]
  | succ len ih =>
    have split : n % 256 ^ (len + 1) = n % 256 + 256 * (n / 256 % 256 ^ len) := by
      rw [Nat.pow_succ', Nat.mod_mul]
    rw [beBytes, beValue_concat, ih, UInt8.toNat_ofNat', split]
    omega

theorem beBytes_value (bytes : List UInt8) : beBytes bytes.length (beValue bytes) = bytes := by
  induction bytes using List.reverseRecOn with
  | nil => rfl
  | append_singleton bytes b ih =>
    have small := b.toNat_lt
    have high : (beValue bytes * 256 + b.toNat) / 256 = beValue bytes := by omega
    have low : UInt8.ofNat (beValue bytes * 256 + b.toNat) = b := by
      apply UInt8.toNat_inj.mp
      rw [UInt8.toNat_ofNat']
      omega
    rw [length_append, length_singleton, beBytes, beValue_concat, high, ih, low]

theorem beValue_injective {a b : List UInt8} (length : a.length = b.length) (same : beValue a = beValue b) : a = b := by
  rw [← beBytes_value a, ← beBytes_value b, length, same]

theorem beBytes_append (front back n : Nat) :
    beBytes (front + back) n = beBytes front (n / 256 ^ back) ++ beBytes back n := by
  induction back generalizing n with
  | zero => simp [beBytes]
  | succ back ih =>
    rw [← Nat.add_assoc, beBytes, beBytes, ih, Nat.div_div_eq_div_mul, append_assoc, Nat.pow_succ,
      Nat.mul_comm (256 ^ back)]

theorem beValue_least (n : Nat) : beValue (beLeast n) = n := by
  rw [beLeast, beValue_bytes]
  exact Nat.mod_eq_of_lt (Nat.lt_base_pow_length_digits (by decide))

theorem beLeast_value {bytes : List UInt8} (plain : bytes.head? ≠ some 0) : beLeast (beValue bytes) = bytes := by
  cases bytes with
  | nil => rfl
  | cons b bytes =>
    have some_ : 0 < b.toNat := by
      refine Nat.pos_of_ne_zero fun none_ => plain ?_
      exact congrArg some (UInt8.toNat_inj.mp none_)
    have least : 256 ^ bytes.length ≤ beValue (b :: bytes) := by
      rw [beValue_cons]
      exact Nat.le_add_right_of_le (Nat.le_mul_of_pos_left _ some_)
    have nonzero : beValue (b :: bytes) ≠ 0 := by
      have positive : 0 < 256 ^ bytes.length := by positivity
      omega
    have length : (Nat.digits 256 (beValue (b :: bytes))).length = (b :: bytes).length := by
      rw [Nat.length_digits 256 _ (by decide) nonzero, length_cons]
      exact congrArg (· + 1) (Nat.log_eq_of_pow_le_of_lt_pow least (beValue_lt (b :: bytes)))
    rw [beLeast, length, beBytes_value]

theorem beLeast_plain (n : Nat) : (beLeast n).head? ≠ some 0 := by
  by_cases zero : n = 0
  · rw [zero]
    decide
  · intro padded
    obtain ⟨rest, split⟩ : ∃ rest, beLeast n = 0 :: rest := by
      cases bytes : beLeast n with
      | nil => rw [bytes] at padded; cases padded
      | cons b rest =>
        rw [bytes] at padded
        cases padded
        exact ⟨rest, rfl⟩
    have value := beValue_least n
    have length : (beLeast n).length = Nat.log 256 n + 1 := by
      rw [beLeast, beBytes_length, Nat.length_digits 256 _ (by decide) zero]
    rw [split] at value length
    rw [beValue_cons, UInt8.toNat_zero, Nat.zero_mul, Nat.zero_add] at value
    have small := beValue_lt rest
    rw [length_cons] at length
    rw [Nat.succ.inj length, value] at small
    exact absurd (Nat.pow_log_le_self 256 zero) (Nat.not_le.mpr small)

theorem beLeast_length_le {n len : Nat} (small : n < 256 ^ len) : (beLeast n).length ≤ len := by
  rw [beLeast, beBytes_length]
  exact (Nat.digits_length_le_iff (by decide) n).mpr small

theorem zipWith_xor_twice {bytes mask : List UInt8} (length : mask.length = bytes.length) :
    List.zipWith (· ^^^ ·) (List.zipWith (· ^^^ ·) bytes mask) mask = bytes := by
  induction bytes generalizing mask with
  | nil => rfl
  | cons x bytes ih =>
    cases mask with
    | nil => cases length
    | cons y mask =>
      rw [zipWith_cons_cons, zipWith_cons_cons, ih (Nat.succ.inj length), UInt8.xor_assoc, UInt8.xor_self,
        UInt8.xor_zero]

end Nxt.Lib
