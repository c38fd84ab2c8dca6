import Nxt.Crypto.Der
import Nxt.Crypto.Digest

/- The arithmetic of RSA keys and the mask generation (nxt/crypto.cpp). -/
namespace Nxt.Crypto
open Nxt.Lib

def bitsLoop : Nat → Nat → Nat
  | 0, _ => 0
  | fuel + 1, first => if first = 0 then 0 else bitsLoop fuel (first / 2) + 1

def bitLength (bytes : List UInt8) : Nat :=
  match bytes.dropWhile (· == 0) with
  | [] => 0
  | first :: rest => rest.length * 8 + bitsLoop 8 first.toNat

def powLoop (modulus : Nat) : Nat → Nat → Nat → Nat → Nat
  | 0, out, _, _ => out
  | fuel + 1, out, base, exponent =>
      if exponent = 0 then out
      else
        let out := if exponent % 2 = 1 then out * base % modulus else out
        let base := if exponent / 2 ≠ 0 then base * base % modulus else base
        powLoop modulus fuel out base (exponent / 2)

def powMod (base exponent modulus : Nat) : Nat := powLoop modulus exponent 1 (base % modulus) exponent

def bytesFromInt (value len : Nat) : Except String (List UInt8) :=
  if value / 256 ^ len ≠ 0 then .error "RSA value is too large" else .ok (beBytes len value)

def modularExponentiate (base exponent modulus : List UInt8) (outputSize : Nat) : Except String (List UInt8) :=
  if modulus = [] then .error "modular exponent modulus is empty"
  else if outputSize = 0 then .error "modular exponent output is empty"
  else
    let n := beValue modulus
    if n = 0 then .error "Integer Division by zero."
    else bytesFromInt (powMod (beValue base) (beValue exponent) n) outputSize

def mgf1Loop (seed : List UInt8) : Nat → UInt32 → Nat → List UInt8
  | 0, _, _ => []
  | fuel + 1, counter, len =>
      if len = 0 then []
      else
        let digest := ((Sha256.update {} seed).update (store32Be counter)).finalize
        digest.take (min digest.length len) ++ mgf1Loop seed fuel (counter + 1) (len - min digest.length len)

def mgf1Sha256 (seed : List UInt8) (len : Nat) : List UInt8 := mgf1Loop seed len 0 len

theorem bitsLoop_bounds {fuel first : Nat} (some_ : first ≠ 0) (enough : first < 2 ^ fuel) :
    0 < bitsLoop fuel first ∧ 2 ^ (bitsLoop fuel first - 1) ≤ first ∧ first < 2 ^ bitsLoop fuel first ∧
      bitsLoop fuel first ≤ fuel := by
  induction fuel generalizing first with
  | zero => exact absurd (Nat.lt_one_iff.mp enough) some_
  | succ fuel ih =>
    rw [bitsLoop, if_neg some_]
    rw [pow_succ] at enough
    by_cases last : first / 2 = 0
    · have none_ : bitsLoop fuel (first / 2) = 0 := by
        rw [last]
        cases fuel <;> rfl
      rw [none_]
      refine ⟨by decide, ?_, ?_, by omega⟩ <;> simp <;> omega
    · obtain ⟨positive, least, most, short⟩ := ih last (by omega)
      have step : 2 ^ bitsLoop fuel (first / 2) = 2 * 2 ^ (bitsLoop fuel (first / 2) - 1) := by
        rw [← pow_succ', Nat.sub_add_cancel positive]
      refine ⟨by omega, ?_, ?_, by omega⟩
      · rw [Nat.add_sub_cancel, step]
        omega
      · rw [pow_succ]
        omega

theorem bitLength_bounds {bytes : List UInt8} (some_ : bytes ≠ []) (plain : bytes.head? ≠ some 0) :
    0 < bitLength bytes ∧ 2 ^ (bitLength bytes - 1) ≤ beValue bytes ∧ beValue bytes < 2 ^ bitLength bytes ∧
      bytes.length = (bitLength bytes + 7) / 8 := by
  cases bytes with
  | nil => exact absurd rfl some_
  | cons first rest =>
    have nonzero : first.toNat ≠ 0 := fun zero =>
      plain (congrArg some (UInt8.toNat_inj.mp (zero.trans UInt8.toNat_zero.symm)))
    have kept : (first :: rest).dropWhile (· == 0) = first :: rest := by
      rw [List.dropWhile_cons_of_neg]
      intro zero
      exact plain (congrArg some (beq_iff_eq.mp zero))
    obtain ⟨positive, least, most, short⟩ := bitsLoop_bounds nonzero (first.toNat_lt : _ < 2 ^ 8)
    have counted : bitLength (first :: rest) = rest.length * 8 + bitsLoop 8 first.toNat := by
      rw [bitLength, kept]
    have bytewise : (256 : Nat) ^ rest.length = 2 ^ (rest.length * 8) := by
      rw [Nat.mul_comm, pow_mul]
      norm_num
    have small := beValue_lt rest
    rw [counted, beValue_cons, bytewise] at *
    refine ⟨by omega, ?_, ?_, ?_⟩
    · rw [Nat.add_sub_assoc positive, pow_add, Nat.mul_comm]
      exact Nat.le_add_right_of_le (Nat.mul_le_mul_right _ least)
    · rw [pow_add, Nat.mul_comm]
      calc 2 ^ (rest.length * 8) * first.toNat + beValue rest
          < 2 ^ (rest.length * 8) * (first.toNat + 1) := Nat.add_lt_add_left small _
        _ ≤ 2 ^ (rest.length * 8) * 2 ^ bitsLoop 8 first.toNat := Nat.mul_le_mul_left _ most
    · rw [List.length_cons]
      omega

theorem powLoop_pow {modulus fuel : Nat} {out base exponent : Nat} (enough : exponent ≤ fuel) (some_ : exponent ≠ 0) :
    powLoop modulus fuel out base exponent = out * base ^ exponent % modulus := by
  induction fuel generalizing out base exponent with
  | zero => exact absurd (Nat.le_zero.mp enough) some_
  | succ fuel ih =>
    rw [powLoop, if_neg some_]
    dsimp only
    by_cases last : exponent / 2 = 0
    · have one : exponent = 1 := by omega
      subst one
      rw [if_pos rfl, if_neg (by decide), pow_one]
      cases fuel with
      | zero => rfl
      | succ fuel => rfl
    · rw [if_pos last, ih (by omega) last]
      have halves : base ^ exponent = base ^ (exponent % 2) * (base * base) ^ (exponent / 2) := by
        rw [← pow_two, ← pow_mul, ← pow_add, Nat.mod_add_div]
      rw [halves]
      split
      · rename_i odd
        rw [odd, pow_one, ← Nat.mul_assoc]
        exact Nat.ModEq.mul (Nat.mod_modEq _ _) ((Nat.mod_modEq _ _).pow _)
      · rename_i even
        rw [Nat.mod_two_not_eq_one.mp even, pow_zero, Nat.one_mul]
        exact Nat.ModEq.mul rfl ((Nat.mod_modEq _ _).pow _)

theorem powMod_pow (base modulus : Nat) {exponent : Nat} (some_ : exponent ≠ 0) :
    powMod base exponent modulus = base ^ exponent % modulus := by
  rw [powMod, powLoop_pow le_rfl some_, Nat.one_mul]
  exact (Nat.mod_modEq _ _).pow _

theorem powMod_zero (base modulus : Nat) : powMod base 0 modulus = 1 := rfl

theorem powMod_residue {base exponent modulus : Nat} (proper : exponent ≠ 0 ∨ modulus ≠ 1) (some_ : modulus ≠ 0) :
    powMod base exponent modulus = base ^ exponent % modulus := by
  by_cases zero : exponent = 0
  · rw [zero, powMod_zero, pow_zero, Nat.mod_eq_of_lt]
    rcases proper with nonzero | other
    · exact absurd zero nonzero
    · omega
  · exact powMod_pow base modulus zero

theorem bytesFromInt_inv {value len : Nat} {bytes : List UInt8} (made : bytesFromInt value len = .ok bytes) :
    bytes = beBytes len value ∧ value < 256 ^ len := by
  unfold bytesFromInt at made
  split at made
  · cases made
  · rename_i fits
    rw [not_not, Nat.div_eq_zero_iff_lt (by positivity)] at fits
    exact ⟨(Except.ok.inj made).symm, fits⟩

theorem modularExponentiate_ok {base exponent modulus output : List UInt8} {outputSize : Nat}
    (made : modularExponentiate base exponent modulus outputSize = .ok output)
    (proper : beValue exponent ≠ 0 ∨ beValue modulus ≠ 1) :
    output.length = outputSize ∧ beValue output = beValue base ^ beValue exponent % beValue modulus := by
  unfold modularExponentiate at made
  split at made
  · cases made
  · split at made
    · cases made
    · dsimp only at made
      split at made
      · cases made
      · rename_i some_
        obtain ⟨rfl, fits⟩ := bytesFromInt_inv made
        rw [beBytes_length, beValue_bytes, Nat.mod_eq_of_lt fits, powMod_residue proper some_]
        exact ⟨rfl, rfl⟩

theorem bytesFromInt_ok {value len : Nat} (small : value < 256 ^ len) : bytesFromInt value len = .ok (beBytes len value) :=
  if_neg (not_not.mpr (Nat.div_eq_of_lt small))

end Nxt.Crypto
