import Mathlib

/- Decimal numerals as ASCII digits, most significant first and with no leading zero. -/
namespace Nxt.Lib
open List

def decimal (n : Nat) : List UInt8 :=
  if n = 0 then [0x30] else (Nat.digits 10 n).reverse.map fun d => UInt8.ofNat (0x30 + d)

def readDecimal (text : List UInt8) : Nat := text.foldl (fun value b => 10 * value + (b.toNat - 0x30)) 0

theorem decimal_ne_nil (n : Nat) : decimal n ≠ [] := by
  unfold decimal
  split
  · simp
  · next positive =>
    intro empty
    rw [map_eq_nil_iff, reverse_eq_nil_iff] at empty
    exact positive (Nat.digits_eq_nil_iff_eq_zero.mp empty)

theorem decimal_digit {n : Nat} {b : UInt8} (inside : b ∈ decimal n) : 0x30 ≤ b ∧ b ≤ 0x39 := by
  unfold decimal at inside
  split at inside
  · rw [mem_singleton.mp inside]
    decide
  · obtain ⟨d, digit, rfl⟩ := mem_map.mp inside
    have small : d < 10 := Nat.digits_lt_base (by decide) (mem_reverse.mp digit)
    interval_cases d <;> decide

theorem digit_value {d : Nat} (small : d < 10) : (UInt8.ofNat (0x30 + d)).toNat - 0x30 = d := by
  interval_cases d <;> rfl

theorem readDecimal_digits {digits : List Nat} (small : ∀ d ∈ digits, d < 10) :
    readDecimal (digits.reverse.map fun d => UInt8.ofNat (0x30 + d)) = Nat.ofDigits 10 digits := by
  induction digits with
  | nil => rfl
  | cons d rest ih =>
    have value := digit_value (small d mem_cons_self)
    have tail := ih fun e inside => small e (mem_cons_of_mem _ inside)
    unfold readDecimal at tail ⊢
    rw [reverse_cons, map_append, foldl_append, tail, Nat.ofDigits_cons]
    simp only [map_cons, map_nil, foldl_cons, foldl_nil, value]
    omega

theorem readDecimal_decimal (n : Nat) : readDecimal (decimal n) = n := by
  unfold decimal
  split
  · next zero => rw [zero]; rfl
  · rw [readDecimal_digits fun d inside => Nat.digits_lt_base (by decide) inside]
    exact Nat.ofDigits_digits 10 n

end Nxt.Lib
