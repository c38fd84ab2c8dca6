import Nxt.Lib.BigEndian
import Nxt.Lib.Wire

/- The factorization of the number in a resPQ (auth.hpp): two, or Pollard's rho with a few constants. -/
namespace Nxt.Mt
open Nxt.Lib

def decodeUnsignedU64 (input : Bytes) : Except String Nat :=
  if input.isEmpty ∨ input.length > 8 then .error "invalid uint64 bytes" else .ok (beValue input)

def rhoStep (value c v : Nat) : Nat := (v * v + c) % value

/-- The steps with one constant, until a divisor is found or the sequence has come round. -/
def rhoSteps (value c : Nat) : Nat → Nat → Nat → Option (Nat × Nat)
  | 0, _, _ => none
  | steps + 1, x, y =>
      let x := rhoStep value c x
      let y := rhoStep value c (rhoStep value c y)
      let diff := if x > y then x - y else y - x
      let divisor := Nat.gcd diff value
      if divisor = 1 then rhoSteps value c steps x y
      else if divisor = value then none
      else
        let other := value / divisor
        if divisor > other then some (other, divisor) else some (divisor, other)

/-- So many constants, from one on. -/
def rhoFrom (value : Nat) : Nat → Nat → Option (Nat × Nat)
  | 0, _ => none
  | tries + 1, c =>
      match rhoSteps value c 250000 2 2 with
      | some pq => some pq
      | none => rhoFrom value tries (c + 1)

def factorPq (pqBytes : Bytes) : Except String (Nat × Nat) := do
  let value ← decodeUnsignedU64 pqBytes
  if value ≤ 3 then .error "invalid pq"
  else if value % 2 = 0 then .ok (2, value / 2)
  else
    match rhoFrom value 32 1 with
    | some pq => .ok pq
    | none => .error "factorization failed"

def Factors (value p q : Nat) : Prop := p * q = value ∧ 1 < p ∧ p ≤ q

theorem factors_of_divisor {value divisor : Nat} (positive : 0 < value) (divides : divisor ∣ value)
    (proper : divisor ≠ 1) (less : divisor ≠ value) :
    Factors value (min divisor (value / divisor)) (max divisor (value / divisor)) := by
  obtain ⟨other, rfl⟩ := divides
  have first : 0 < divisor := Nat.pos_of_mul_pos_right positive
  have second : 0 < other := Nat.pos_of_mul_pos_left positive
  have alone : other ≠ 1 := by
    intro one
    rw [one, Nat.mul_one] at less
    exact less rfl
  rw [Nat.mul_div_cancel_left other first]
  exact ⟨min_mul_max divisor other, by omega, min_le_max⟩

theorem rhoSteps_factors {value c steps x y : Nat} {pq : Nat × Nat} (positive : 0 < value)
    (found : rhoSteps value c steps x y = some pq) : Factors value pq.1 pq.2 := by
  induction steps generalizing x y with
  | zero => cases found
  | succ steps ih =>
    rw [rhoSteps] at found
    dsimp only at found
    generalize (if rhoStep value c x > rhoStep value c (rhoStep value c y) then
      rhoStep value c x - rhoStep value c (rhoStep value c y)
      else rhoStep value c (rhoStep value c y) - rhoStep value c x) = diff at found
    split at found
    · exact ih found
    · rename_i proper
      split at found
      · cases found
      · rename_i less
        have factors := factors_of_divisor positive (Nat.gcd_dvd_right diff value) proper less
        split at found
        · rename_i larger
          cases found
          rwa [min_eq_right (Nat.le_of_lt larger), max_eq_left (Nat.le_of_lt larger)] at factors
        · rename_i smaller
          cases found
          rwa [min_eq_left (Nat.not_lt.mp smaller), max_eq_right (Nat.not_lt.mp smaller)] at factors

theorem rhoFrom_factors {value tries c : Nat} {pq : Nat × Nat} (positive : 0 < value)
    (found : rhoFrom value tries c = some pq) : Factors value pq.1 pq.2 := by
  induction tries generalizing c with
  | zero => cases found
  | succ tries ih =>
    rw [rhoFrom] at found
    split at found
    · rename_i steps
      cases found
      exact rhoSteps_factors positive steps
    · exact ih found

theorem factorPq_factors {pqBytes : Bytes} {p q : Nat} (found : factorPq pqBytes = .ok (p, q)) :
    Factors (beValue pqBytes) p q := by
  unfold factorPq at found
  obtain ⟨value, decoded, found⟩ := bind_ok found
  have valueIs : beValue pqBytes = value := by
    unfold decodeUnsignedU64 at decoded
    split at decoded
    · cases decoded
    · exact Except.ok.inj decoded
  rw [valueIs]
  split at found
  · cases found
  · rename_i large
    split at found
    · rename_i even
      cases found
      exact ⟨by omega, by decide, by omega⟩
    · split at found
      · rename_i pq rho
        cases found
        exact rhoFrom_factors (by omega) rho
      · cases found

end Nxt.Mt
