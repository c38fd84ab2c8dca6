import Nxt.Crypto.Der
import Nxt.Crypto.Sha256

/- Verification of ECDSA signatures over P-256 (nxt/crypto.cpp). -/
namespace Nxt.Crypto
open Nxt.Lib

def mod (value modulus : Int) : Int :=
  let value := value.tmod modulus
  if value < 0 then value + modulus else value

def inverseLoop : Nat → Int → Int → Int → Int → Int × Int
  | 0, oldR, _, oldS, _ => (oldR, oldS)
  | fuel + 1, oldR, r, oldS, s =>
      if r = 0 then (oldR, oldS)
      else
        let q := oldR.tdiv r
        inverseLoop fuel r (oldR - q * r) s (oldS - q * s)

def modInverse (value modulus : Int) : Except String Int :=
  if modulus = 0 then .error "zero modular inverse modulus"
  else
    let value := mod value modulus
    if value = 0 then .error "zero has no modular inverse"
    else
      let old := inverseLoop (value.toNat + 1) modulus value 0 1
      if old.1 ≠ 1 then .error "value has no modular inverse" else .ok (mod old.2 modulus)

structure P256Point where
  x : Int := 0
  y : Int := 0
  infinity : Bool := true
  deriving DecidableEq

def p256P : Int := 0xffffffff00000001000000000000000000000000ffffffffffffffffffffffff

def p256N : Int := 0xffffffff00000000ffffffffffffffffbce6faada7179e84f3b9cac2fc632551

def p256B : Int := 0x5ac635d8aa3a93e7b3ebbd55769886bc651d06b0cc53b0f63bce3c3e27d2604b

def p256G : P256Point where
  x := 0x6b17d1f2e12c4247f8bce6e563a440f277037d812deb33a0f4a13945d898c296
  y := 0x4fe342e2fe1a7f9b8ee7eb4a7c0f9e162bce33576b315ececbb6406837bf51f5
  infinity := false

def p256Add (a b : P256Point) : Except String P256Point :=
  if a.infinity then .ok b
  else if b.infinity then .ok a
  else if a.x = b.x then
    if mod (a.y + b.y) p256P = 0 then .ok {}
    else
      let denominator := mod (2 * a.y) p256P
      if denominator = 0 then .ok {}
      else do
        let inverse ← modInverse denominator p256P
        let lambda := mod ((3 * a.x * a.x - 3) * inverse) p256P
        let x := mod (lambda * lambda - 2 * a.x) p256P
        .ok { x, y := mod (lambda * (a.x - x) - a.y) p256P, infinity := false }
  else
    let denominator := mod (b.x - a.x) p256P
    if denominator = 0 then .ok {}
    else do
      let inverse ← modInverse denominator p256P
      let lambda := mod ((b.y - a.y) * inverse) p256P
      let x := mod (lambda * lambda - a.x - b.x) p256P
      .ok { x, y := mod (lambda * (a.x - x) - a.y) p256P, infinity := false }

/-- One turn for each bit of the scalar. -/
def p256MulLoop : Nat → Nat → P256Point → P256Point → Except String P256Point
  | 0, _, _, out => .ok out
  | fuel + 1, scalar, point, out =>
      if scalar = 0 then .ok out
      else do
        let out ← if scalar % 2 = 1 then p256Add out point else .ok out
        let point ← if scalar / 2 ≠ 0 then p256Add point point else .ok point
        p256MulLoop fuel (scalar / 2) point out

def p256Mul (scalar : Nat) (point : P256Point) : Except String P256Point := p256MulLoop scalar scalar point {}

def p256OnCurve (point : P256Point) : Bool :=
  if point.infinity then false
  else mod (point.y * point.y) p256P == mod (point.x * point.x * point.x - 3 * point.x + p256B) p256P

def publicPoint (publicKey : List UInt8) : P256Point where
  x := beValue ((publicKey.drop 1).take 32)
  y := beValue ((publicKey.drop 33).take 32)
  infinity := false

theorem publicPoint_nonneg (publicKey : List UInt8) : 0 ≤ (publicPoint publicKey).x ∧ 0 ≤ (publicPoint publicKey).y :=
  ⟨Int.natCast_nonneg _, Int.natCast_nonneg _⟩

def ecdsaP256Sha256Verify (publicKey message derSignature : List UInt8) : Except String Bool :=
  if publicKey.length ≠ 65 ∨ publicKey.headD 0 ≠ 0x04 then .ok false
  else
    let q := publicPoint publicKey
    if p256OnCurve q = false then .ok false
    else do
      let sig ← parseEcdsaDer derSignature
      if (sig.r : Int) ≤ 0 ∨ (sig.r : Int) ≥ p256N ∨ (sig.s : Int) ≤ 0 ∨ (sig.s : Int) ≥ p256N then .ok false
      else
        let z := beValue (sha256 message)
        let w ← modInverse sig.s p256N
        let u1 := mod (z * w) p256N
        let u2 := mod (sig.r * w) p256N
        let left ← p256Mul u1.toNat p256G
        let right ← p256Mul u2.toNat q
        let point ← p256Add left right
        if point.infinity then .ok false else .ok (mod point.x p256N == sig.r)

theorem mod_emod (value : Int) {modulus : Int} (positive : 0 < modulus) : mod value modulus = value % modulus := by
  unfold mod
  have bounds := Int.tmod_lt_of_pos value positive
  have above := Int.emod_nonneg value (Int.ne_of_gt positive)
  have below := Int.emod_lt_of_pos value positive
  have whole := Int.emod_emod_of_dvd value (dvd_refl modulus)
  have same : (value.tmod modulus) % modulus = value % modulus := by
    rw [Int.tmod_def, Int.sub_mul_emod_self_left]
  dsimp only
  split
  · rename_i negative
    rw [← same, ← Int.add_emod_right, Int.emod_eq_of_lt]
    · have low := Int.lt_tmod_of_pos value positive
      omega
    · omega
  · rename_i up
    rw [← same, Int.emod_eq_of_lt (Int.not_lt.mp up) bounds]

/-- The keys that verify anything are points of the curve, written in the one form that is read. -/
structure PublicKey (publicKey : List UInt8) : Prop where
  length : publicKey.length = 65
  uncompressed : publicKey.headD 0 = 0x04
  curve : (publicPoint publicKey).y ^ 2 ≡
    (publicPoint publicKey).x ^ 3 - 3 * (publicPoint publicKey).x + p256B [ZMOD p256P]

theorem verified_key {publicKey message derSignature : List UInt8}
    (accepted : ecdsaP256Sha256Verify publicKey message derSignature = .ok true) : PublicKey publicKey := by
  unfold ecdsaP256Sha256Verify at accepted
  split at accepted
  · cases accepted
  · rename_i form
    rw [not_or, not_not, not_not] at form
    dsimp only at accepted
    split at accepted
    · cases accepted
    · rename_i on
      refine ⟨form.1, form.2, ?_⟩
      rw [Bool.not_eq_false] at on
      unfold p256OnCurve at on
      rw [if_neg (by simp [publicPoint]), beq_iff_eq, mod_emod _ (by decide), mod_emod _ (by decide)] at on
      unfold Int.ModEq
      rw [pow_two, pow_three, ← on.symm, mul_assoc]

theorem PublicKey.unique {a b : List UInt8} (first : PublicKey a) (second : PublicKey b)
    (x : (publicPoint a).x = (publicPoint b).x) (y : (publicPoint a).y = (publicPoint b).y) : a = b := by
  have whole : ∀ {k : List UInt8}, PublicKey k → k = 0x04 :: ((k.drop 1).take 32 ++ (k.drop 33).take 32) := by
    intro k key
    cases k with
    | nil => cases key.length
    | cons head rest =>
      have tag : head = 0x04 := key.uncompressed
      have length : rest.length = 64 := Nat.succ.inj key.length
      rw [tag, List.drop_succ_cons, List.drop_zero, List.drop_succ_cons,
        List.take_of_length_le (by rw [List.length_drop, length] : (rest.drop 32).length ≤ 32), List.take_append_drop]
  have sizes : ∀ {k : List UInt8}, PublicKey k →
      ((k.drop 1).take 32).length = 32 ∧ ((k.drop 33).take 32).length = 32 := by
    intro k key
    simp [key.length]
  have xs := beValue_injective ((sizes first).1.trans (sizes second).1.symm) (Int.ofNat.inj x)
  have ys := beValue_injective ((sizes first).2.trans (sizes second).2.symm) (Int.ofNat.inj y)
  rw [whole first, whole second, xs, ys]

end Nxt.Crypto
