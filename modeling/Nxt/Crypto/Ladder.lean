import Nxt.Crypto.Canonical

/- The scalar multiplication of X25519: the Montgomery ladder on limbs against the ladder over the
   integers modulo 2^255 - 19. -/
namespace Nxt.Crypto
open Nxt.Lib

/-! ### The code -/

/-- `z` to the power `2^255 - 21`, by the addition chain of the source. -/
def feInvert (z : Fe) : Limbs Fe := do
  let z2 ← feSq z
  let t ← feSq z2
  let t ← feSq t
  let z9 ← feMul t z
  let z11 ← feMul z9 z2
  let t ← feSq z11
  let z2_5_0 ← feMul t z9
  let t ← times feSq 4 (← feSq z2_5_0)
  let z2_10_0 ← feMul t z2_5_0
  let t ← times feSq 9 (← feSq z2_10_0)
  let z2_20_0 ← feMul t z2_10_0
  let t ← times feSq 19 (← feSq z2_20_0)
  let t ← feMul t z2_20_0
  let t ← times feSq 9 (← feSq t)
  let z2_50_0 ← feMul t z2_10_0
  let t ← times feSq 49 (← feSq z2_50_0)
  let z2_100_0 ← feMul t z2_50_0
  let t ← times feSq 99 (← feSq z2_100_0)
  let t ← feMul t z2_100_0
  let t ← times feSq 49 (← feSq t)
  let t ← feMul t z2_50_0
  let t ← times feSq 5 t
  feMul t z11

/-- The scalar with its low three bits and its top bit cleared, and the bit below set. -/
def clamp (scalar : List UInt8) : List UInt8 :=
  let e := scalar.set 0 (scalar.getD 0 0 &&& 248)
  let e := e.set 31 (e.getD 31 0 &&& 127)
  e.set 31 (e.getD 31 0 ||| 64)

def scalarBit (e : List UInt8) (t : Nat) : Nat := ((e.getD (t >>> 3) 0).toNat >>> (t &&& 7)) &&& 1

structure Ladder where
  x2 : Fe
  z2 : Fe
  x3 : Fe
  z3 : Fe
  swap : Nat
  deriving DecidableEq

def ladderStep (x1 : Fe) (bit : Nat) (s : Ladder) : Limbs Ladder := do
  let swap := s.swap ^^^ bit
  let xs := feCswap s.x2 s.x3 swap
  let zs := feCswap s.z2 s.z3 swap
  let A ← feAdd xs.1 zs.1
  let AA ← feSq A
  let B ← feSub xs.1 zs.1
  let BB ← feSq B
  let E ← feSub AA BB
  let C ← feAdd xs.2 zs.2
  let D ← feSub xs.2 zs.2
  let DA ← feMul D A
  let CB ← feMul C B
  let t0 ← feAdd DA CB
  let x3 ← feSq t0
  let t1 ← feSub DA CB
  let z3 ← feMul (← feSq t1) x1
  let x2 ← feMul AA BB
  let t2 ← feMul121665 E
  let t3 ← feAdd AA t2
  let z2 ← feMul E t3
  pure { x2, z2, x3, z3, swap := bit }

/-- The field element that `x25519_raw` hands to `fe_to_bytes`. -/
def x25519Field (scalar point : List UInt8) : Limbs Fe := do
  let e := clamp scalar
  let x1 := feFromBytes point
  let s ← downward (fun t => ladderStep x1 (scalarBit e t)) 255
    { x2 := ⟨1, 0, 0, 0, 0⟩, z2 := ⟨0, 0, 0, 0, 0⟩, x3 := x1, z3 := ⟨1, 0, 0, 0, 0⟩, swap := 0 }
  let xs := feCswap s.x2 s.x3 s.swap
  let zs := feCswap s.z2 s.z3 s.swap
  let zinv ← feInvert zs.1
  feMul xs.1 zinv

def x25519Raw (scalar point : List UInt8) : Limbs (List UInt8) := do
  feToBytes (← x25519Field scalar point)

/-! ### The function of RFC 7748 -/

section Reference
variable {R : Type} [CommRing R]

def cswap (swap : Bool) (a b : R) : R × R := if swap then (b, a) else (a, b)

structure Rung (R : Type) where
  x2 : R
  z2 : R
  x3 : R
  z3 : R
  swap : Bool

def Rung.next (x1 : R) (bit : Bool) (s : Rung R) : Rung R :=
  let swap := s.swap ^^ bit
  let xs := cswap swap s.x2 s.x3
  let zs := cswap swap s.z2 s.z3
  let A := xs.1 + zs.1
  let AA := A ^ 2
  let B := xs.1 - zs.1
  let BB := B ^ 2
  let E := AA - BB
  let C := xs.2 + zs.2
  let D := xs.2 - zs.2
  let DA := D * A
  let CB := C * B
  { x2 := AA * BB, z2 := E * (AA + 121665 * E), x3 := (DA + CB) ^ 2, z3 := x1 * (DA - CB) ^ 2
    swap := bit }

def Rung.climb (k : Nat) (x1 : R) : Nat → Rung R → Rung R
  | 0, s => s
  | t + 1, s => climb k x1 t (s.next x1 (k.testBit t))

def montgomery (k : Nat) (u : ZMod modulus) : ZMod modulus :=
  let s := Rung.climb k u 255 { x2 := 1, z2 := 0, x3 := u, z3 := 1, swap := false }
  (cswap s.swap s.x2 s.x3).1 * (cswap s.swap s.z2 s.z3).1 ^ (modulus - 2)

end Reference

/-- X25519 of a scalar and of a point, whose top bit is not looked at. -/
def x25519Spec (scalar point : List UInt8) : ZMod modulus :=
  montgomery (leValue (clamp scalar)) ((leValue point % 2 ^ 255 : Nat) : ZMod modulus)

/-! ### Operations on residues -/

/-- Nothing wraps, and what is taken away is at most twice the modulus, limb by limb. -/
def Safe : Sight → Prop
  | .wrapped => False
  | .subtrahend b => b.BelowTwoP

structure Fe.Is (x : ZMod modulus) (a : Fe) : Prop where
  carried : a.Carried
  value : (a.val : ZMod modulus) = x

structure Fe.Loose (x : ZMod modulus) (a : Fe) : Prop where
  atMost : a.AtMost (2 ^ 53)
  value : (a.val : ZMod modulus) = x

section Residues
variable {a b : Fe} {x y z : ZMod modulus}

theorem Fe.Is.atMost (h : a.Is x) : a.AtMost (2 ^ 52) := h.carried.atMost.weaken (by decide)

theorem Fe.Is.loose (h : a.Is x) : a.Loose x := ⟨h.atMost.weaken (by decide), h.value⟩

theorem Fe.Is.below (h : a.Is x) : a.BelowTwoP := by
  obtain ⟨⟨b0, b1, b2, b3, b4⟩, -⟩ := h
  simp only [Fe.BelowTwoP, twoP]
  omega

theorem modulus_zero : (modulus : ZMod modulus) = 0 := ZMod.natCast_self modulus

theorem feMul_is (left : a.Loose x) (right : b.Loose y) : Meets Safe (feMul a b) (Fe.Is (x * y)) := by
  refine (feMul_meets left.atMost right.atMost).weaken ?_
  rintro r ⟨carried, -, value⟩
  refine ⟨carried, ?_⟩
  have cast := congrArg (Nat.cast : Nat → ZMod modulus) value
  rw [Nat.cast_add, Nat.cast_mul, modulus_zero, mul_zero, add_zero] at cast
  rw [cast, ← (ZMod.natCast_eq_natCast_iff _ _ _).mpr (folded_val a b), Nat.cast_mul, left.value,
    right.value]

theorem feSq_is (h : a.Loose x) : Meets Safe (feSq a) (Fe.Is (x ^ 2)) := by
  rw [sq]
  exact feMul_is h h

theorem feMul121665_is (h : a.Loose x) : Meets Safe (feMul121665 a) (Fe.Is (121665 * x)) := by
  refine (feMul121665_meets h.atMost).weaken ?_
  rintro r ⟨carried, value⟩
  refine ⟨carried, ?_⟩
  have cast := congrArg (Nat.cast : Nat → ZMod modulus) value
  rw [Nat.cast_add, Nat.cast_mul, modulus_zero, mul_zero, add_zero, Nat.cast_mul, h.value] at cast
  rw [cast, mul_comm]
  rfl

theorem feAdd_loose (left : a.Is x) (right : b.Is y) : Meets Safe (feAdd a b) (Fe.Loose (x + y)) := by
  refine (feAdd_meets left.atMost right.atMost).weaken ?_
  rintro r ⟨small, value⟩
  exact ⟨small, by rw [value, Nat.cast_add, left.value, right.value]⟩

theorem feSub_loose (left : a.Is x) (right : b.Is y) : Meets Safe (feSub a b) (Fe.Loose (x - y)) := by
  refine (feSub_meets left.atMost right.below right.below).weaken ?_
  rintro r ⟨small, value⟩
  refine ⟨small, ?_⟩
  have cast := congrArg (Nat.cast : Nat → ZMod modulus) value
  rw [Nat.cast_add, Nat.cast_add, Nat.cast_mul, modulus_zero, mul_zero, add_zero, left.value,
    right.value] at cast
  exact eq_sub_of_add_eq cast

/-! ### Inversion -/

theorem mul_power {i j : Nat} (left : a.Is (z ^ i)) (right : b.Is (z ^ j)) :
    Meets Safe (feMul a b) (Fe.Is (z ^ (i + j))) := by
  rw [pow_add]
  exact feMul_is left.loose right.loose

theorem sq_power {i : Nat} (h : a.Is (z ^ i)) : Meets Safe (feSq a) (Fe.Is (z ^ (2 * i))) := by
  rw [mul_comm, pow_mul]
  exact feSq_is h.loose

theorem times_power {i : Nat} (n : Nat) (h : a.Is (z ^ i)) : Meets Safe (times feSq n a) (Fe.Is (z ^ (2 ^ n * i))) := by
  have start : a.Is (z ^ (2 ^ 0 * i)) := by
    rw [pow_zero, one_mul]
    exact h
  have run := @meets_times _ _ Safe feSq (fun k a => a.Is (z ^ (2 ^ k * i))) a n 0 start fun k b held => by
    rw [pow_succ', mul_assoc]
    exact sq_power held
  rw [Nat.zero_add] at run
  exact run

theorem feInvert_is (h : a.Is z) : Meets Safe (feInvert a) (Fe.Is (z ^ (modulus - 2))) := by
  have first : a.Is (z ^ 1) := by
    rw [pow_one]
    exact h
  rw [feInvert]
  refine meets_bind (sq_power first) fun z2 p2 => ?_
  refine meets_bind (sq_power p2) fun _ p4 => ?_
  refine meets_bind (sq_power p4) fun _ p8 => ?_
  refine meets_bind (mul_power p8 first) fun z9 p9 => ?_
  refine meets_bind (mul_power p9 p2) fun z11 p11 => ?_
  refine meets_bind (sq_power p11) fun _ p22 => ?_
  refine meets_bind (mul_power p22 p9) fun z2_5_0 q5 => ?_
  refine meets_bind (sq_power q5) fun _ s5 => ?_
  refine meets_bind (times_power 4 s5) fun _ t5 => ?_
  refine meets_bind (mul_power t5 q5) fun z2_10_0 q10 => ?_
  refine meets_bind (sq_power q10) fun _ s10 => ?_
  refine meets_bind (times_power 9 s10) fun _ t10 => ?_
  refine meets_bind (mul_power t10 q10) fun z2_20_0 q20 => ?_
  refine meets_bind (sq_power q20) fun _ s20 => ?_
  refine meets_bind (times_power 19 s20) fun _ t20 => ?_
  refine meets_bind (mul_power t20 q20) fun _ q40 => ?_
  refine meets_bind (sq_power q40) fun _ s40 => ?_
  refine meets_bind (times_power 9 s40) fun _ t40 => ?_
  refine meets_bind (mul_power t40 q10) fun z2_50_0 q50 => ?_
  refine meets_bind (sq_power q50) fun _ s50 => ?_
  refine meets_bind (times_power 49 s50) fun _ t50 => ?_
  refine meets_bind (mul_power t50 q50) fun z2_100_0 q100 => ?_
  refine meets_bind (sq_power q100) fun _ s100 => ?_
  refine meets_bind (times_power 99 s100) fun _ t100 => ?_
  refine meets_bind (mul_power t100 q100) fun _ q200 => ?_
  refine meets_bind (sq_power q200) fun _ s200 => ?_
  refine meets_bind (times_power 49 s200) fun _ t200 => ?_
  refine meets_bind (mul_power t200 q50) fun _ q250 => ?_
  refine meets_bind (times_power 5 q250) fun _ t250 => ?_
  refine (mul_power t250 p11).weaken fun r power => ?_
  convert power using 2
  rw [modulus]
  norm_num

end Residues

/-! ### Bytes and bits -/

variable {n : Nat} {point e : List UInt8} {a x1 : Fe} {u : ZMod modulus} {s : Ladder}

theorem leValue_take_succ {bytes : List UInt8} (inside : n < bytes.length) :
    leValue (bytes.take (n + 1)) = leValue (bytes.take n) + 256 ^ n * (bytes.getD n 0).toNat := by
  rw [List.take_add_one, leValue_append, List.length_take, Nat.min_eq_left (Nat.le_of_lt inside),
    List.getElem?_eq_getElem inside, List.getD_eq_getElem?_getD, List.getElem?_eq_getElem inside]
  simp [leValue]

theorem leValue_lt (bytes : List UInt8) : leValue bytes < 256 ^ bytes.length := by
  have bound := Nat.ofDigits_lt_base_pow_length (b := 256) (l := bytes.map UInt8.toNat) (by decide)
    (by
      intro d held
      obtain ⟨byte, -, rfl⟩ := List.mem_map.mp held
      exact byte.toNat_lt)
  rw [List.length_map] at bound
  exact bound

theorem leValue_split (bytes : List UInt8) (inside : n ≤ bytes.length) :
    leValue bytes = leValue (bytes.take n) + 256 ^ n * leValue (bytes.drop n) := by
  conv_lhs => rw [← List.take_append_drop n bytes]
  rw [leValue_append, List.length_take, Nat.min_eq_left inside]

theorem load_prefix {bytes : List UInt8} (n : Nat) (inside : n ≤ bytes.length) :
    (List.range n).foldl (fun out i => out ||| (bytes.getD i 0).toNat <<< (8 * i)) 0 = leValue (bytes.take n) := by
  induction n with
  | zero => rfl
  | succ n ih =>
    have small : leValue (bytes.take n) < 2 ^ (8 * n) := by
      have bound := leValue_lt (bytes.take n)
      rw [List.length_take, Nat.min_eq_left (by omega)] at bound
      rw [pow_mul]
      exact bound
    rw [List.range_succ, List.foldl_append, List.foldl_cons, List.foldl_nil, ih (by omega),
      Nat.or_comm, ← Nat.shiftLeft_add_eq_or_of_lt small, leValue_take_succ (by omega),
      Nat.shiftLeft_eq, pow_mul]
    ring

theorem load64Le_drop {bytes : List UInt8} {o : Nat} (inside : o + 8 ≤ bytes.length) :
    load64Le (bytes.drop o) = leValue bytes / 256 ^ o % 2 ^ 64 := by
  have whole := leValue_split bytes (show o ≤ bytes.length by omega)
  have low := leValue_lt (bytes.take o)
  rw [List.length_take, Nat.min_eq_left (by omega)] at low
  have rest := leValue_split (bytes.drop o) (n := 8) (by rw [List.length_drop]; omega)
  have first := leValue_lt ((bytes.drop o).take 8)
  rw [List.length_take, List.length_drop, Nat.min_eq_left (by omega)] at first
  rw [load64Le, load_prefix 8 (by rw [List.length_drop]; omega), whole,
    Nat.add_mul_div_left _ _ (by positivity), Nat.div_eq_of_lt low, Nat.zero_add, rest]
  omega

theorem feFromBytes_is (size : point.length = 32) :
    (feFromBytes point).Is ((leValue point % 2 ^ 255 : Nat) : ZMod modulus) := by
  have first : load64Le (point.drop 0) = leValue point / 256 ^ 0 % 2 ^ 64 := load64Le_drop (by omega)
  rw [List.drop_zero] at first
  simp only [feFromBytes, and_mask51, Nat.shiftRight_eq_div_pow]
  rw [first, load64Le_drop (by omega), load64Le_drop (by omega), load64Le_drop (by omega),
    load64Le_drop (by omega)]
  refine ⟨⟨?_, ?_, ?_, ?_, ?_⟩, congrArg _ ?_⟩
  · exact Nat.mod_lt _ (by decide)
  · exact (Nat.mod_lt _ (by decide)).trans (by decide)
  · exact Nat.mod_lt _ (by decide)
  · exact Nat.mod_lt _ (by decide)
  · exact Nat.mod_lt _ (by decide)
  · unfold Fe.val weigh
    dsimp only
    omega

theorem scalarBit_eq {t : Nat} (inside : t < 8 * e.length) : scalarBit e t = ((leValue e).testBit t).toNat := by
  have at_ : t / 8 < e.length := by omega
  have below := leValue_split e (show t / 8 ≤ e.length by omega)
  have low := leValue_lt (e.take (t / 8))
  rw [List.length_take, Nat.min_eq_left (by omega)] at low
  have rest := leValue_split (e.drop (t / 8)) (n := 1) (by rw [List.length_drop]; omega)
  have byte : leValue ((e.drop (t / 8)).take 1) = (e.getD (t / 8) 0).toNat := by
    rw [leValue_take_succ (by rw [List.length_drop]; omega), List.take_zero]
    simp [leValue, List.getD_eq_getElem?_getD]
  have high : leValue e / 256 ^ (t / 8) =
      (e.getD (t / 8) 0).toNat + 256 * leValue ((e.drop (t / 8)).drop 1) := by
    rw [below, Nat.add_mul_div_left _ _ (by positivity), Nat.div_eq_of_lt low, Nat.zero_add, rest,
      byte, pow_one]
  have cut : leValue e / 2 ^ t = leValue e / 256 ^ (t / 8) / 2 ^ (t % 8) := by
    rw [Nat.div_div_eq_div_mul, show (256 : Nat) = 2 ^ 8 by rfl, ← pow_mul, ← pow_add,
      Nat.div_add_mod]
  rw [Nat.testBit_eq_decide_div_mod_eq, cut, high, scalarBit, Nat.shiftRight_eq_div_pow,
    Nat.shiftRight_eq_div_pow, Nat.and_one_is_mod, show t &&& 7 = t % 8 from
      Nat.and_two_pow_sub_one_eq_mod t 3, show t / 2 ^ 3 = t / 8 by rfl]
  have small : t % 8 < 8 := Nat.mod_lt _ (by decide)
  generalize t % 8 = r at small
  generalize leValue ((e.drop (t / 8)).drop 1) = m
  generalize (e.getD (t / 8) 0).toNat = b
  have even : (b + 256 * m) / 2 ^ r % 2 = b / 2 ^ r % 2 := by
    interval_cases r <;> omega
  rw [even]
  rcases Nat.mod_two_eq_zero_or_one (b / 2 ^ r) with zero | one
  · rw [zero]
    rfl
  · rw [one]
    rfl

/-! ### The ladder -/

theorem cswapLimb_zero (a b : Nat) : cswapLimb ((2 ^ 64 - 0) % 2 ^ 64) a b = (a, b) := by
  simp [cswapLimb]

theorem cswapLimb_one {a b : Nat} (left : a < 2 ^ 64) (right : b < 2 ^ 64) :
    cswapLimb ((2 ^ 64 - 1) % 2 ^ 64) a b = (b, a) := by
  have whole : (2 ^ 64 - 1) % 2 ^ 64 &&& (a ^^^ b) = a ^^^ b := by
    rw [Nat.and_comm, Nat.mod_eq_of_lt (by decide), Nat.and_two_pow_sub_one_eq_mod,
      Nat.mod_eq_of_lt (Nat.xor_lt_two_pow left right)]
  rw [cswapLimb, whole, ← Nat.xor_assoc, Nat.xor_self, Nat.zero_xor, Nat.xor_comm a b,
    ← Nat.xor_assoc, Nat.xor_self, Nat.zero_xor]

theorem feCswap_eq {b : Fe} (left : a.Carried) (right : b.Carried) (swap : Bool) :
    feCswap a b swap.toNat = if swap then (b, a) else (a, b) := by
  obtain ⟨a0, a1, a2, a3, a4⟩ := left
  obtain ⟨b0, b1, b2, b3, b4⟩ := right
  cases swap with
  | false =>
    simp only [feCswap, Bool.toNat_false, cswapLimb_zero]
    rfl
  | true =>
    simp only [feCswap, Bool.toNat_true]
    rw [cswapLimb_one (by omega) (by omega), cswapLimb_one (by omega) (by omega),
      cswapLimb_one (by omega) (by omega), cswapLimb_one (by omega) (by omega),
      cswapLimb_one (by omega) (by omega)]
    rfl

theorem feCswap_is {b : Fe} {x y : ZMod modulus} (left : a.Is x) (right : b.Is y) (swap : Bool) :
    (feCswap a b swap.toNat).1.Is (cswap swap x y).1 ∧ (feCswap a b swap.toNat).2.Is (cswap swap x y).2 := by
  rw [feCswap_eq left.carried right.carried]
  cases swap with
  | false => exact ⟨left, right⟩
  | true => exact ⟨right, left⟩

/-- The limbs of the code's ladder stand for the residues of the other. -/
structure Ladder.Follows (s : Ladder) (r : Rung (ZMod modulus)) : Prop where
  x2 : s.x2.Is r.x2
  z2 : s.z2.Is r.z2
  x3 : s.x3.Is r.x3
  z3 : s.z3.Is r.z3
  swap : s.swap = r.swap.toNat

theorem ladderStep_follows {r : Rung (ZMod modulus)} (base : x1.Is u) (follows : s.Follows r) (bit : Bool) :
    Meets Safe (ladderStep x1 bit.toNat s) fun s' => s'.Follows (r.next u bit) := by
  have swap : s.swap ^^^ bit.toNat = (r.swap ^^ bit).toNat := by
    rw [follows.swap]
    cases r.swap <;> cases bit <;> rfl
  rw [ladderStep, swap]
  obtain ⟨x2, x3⟩ := feCswap_is follows.x2 follows.x3 (r.swap ^^ bit)
  obtain ⟨z2, z3⟩ := feCswap_is follows.z2 follows.z3 (r.swap ^^ bit)
  refine meets_bind (feAdd_loose x2 z2) fun A isA => ?_
  refine meets_bind (feSq_is isA) fun AA isAA => ?_
  refine meets_bind (feSub_loose x2 z2) fun B isB => ?_
  refine meets_bind (feSq_is isB) fun BB isBB => ?_
  refine meets_bind (feSub_loose isAA isBB) fun E isE => ?_
  refine meets_bind (feAdd_loose x3 z3) fun C isC => ?_
  refine meets_bind (feSub_loose x3 z3) fun D isD => ?_
  refine meets_bind (feMul_is isD isA) fun DA isDA => ?_
  refine meets_bind (feMul_is isC isB) fun CB isCB => ?_
  refine meets_bind (feAdd_loose isDA isCB) fun t0 is0 => ?_
  refine meets_bind (feSq_is is0) fun x3' isX3 => ?_
  refine meets_bind (feSub_loose isDA isCB) fun t1 is1 => ?_
  refine meets_bind (feSq_is is1) fun t1' isSq => ?_
  refine meets_bind (feMul_is isSq.loose base.loose) fun z3' isZ3 => ?_
  refine meets_bind (feMul_is isAA.loose isBB.loose) fun x2' isX2 => ?_
  refine meets_bind (feMul121665_is isE) fun t2 is2 => ?_
  refine meets_bind (feAdd_loose isAA is2) fun t3 is3 => ?_
  refine meets_bind (feMul_is isE is3) fun z2' isZ2 => ?_
  rw [mul_comm] at isZ3
  exact meets_pure ⟨isX2, isZ2, isX3, isZ3, rfl⟩

theorem ladder_follows (base : x1.Is u) (inside : n ≤ 8 * e.length) {r : Rung (ZMod modulus)}
    (follows : s.Follows r) : Meets Safe (downward (fun t => ladderStep x1 (scalarBit e t)) n s)
      fun s' => s'.Follows (r.climb (leValue e) u n) := by
  have run := @meets_downward _ _ Safe (fun t => ladderStep x1 (scalarBit e t))
    (fun t s' => ∃ r' : Rung (ZMod modulus), s'.Follows r' ∧
      r'.climb (leValue e) u t = r.climb (leValue e) u n) s n ⟨r, follows, rfl⟩ ?_
  · refine run.weaken ?_
    rintro s' ⟨r', held, rfl⟩
    exact held
  · rintro t s' below ⟨r', held, same⟩
    rw [scalarBit_eq (by omega)]
    exact (ladderStep_follows base held _).weaken fun s'' moved => ⟨_, moved, same⟩

theorem clamp_length (scalar : List UInt8) : (clamp scalar).length = scalar.length := by
  simp only [clamp, List.length_set]

theorem x25519Field_is {scalar : List UInt8} (first : scalar.length = 32) (second : point.length = 32) :
    Meets Safe (x25519Field scalar point) (Fe.Is (x25519Spec scalar point)) := by
  have base := feFromBytes_is second
  have one : (⟨1, 0, 0, 0, 0⟩ : Fe).Is 1 := ⟨by constructor <;> decide, by simp [Fe.val, weigh]⟩
  have zero : (⟨0, 0, 0, 0, 0⟩ : Fe).Is 0 := ⟨by constructor <;> decide, by simp [Fe.val, weigh]⟩
  have inside : 255 ≤ 8 * (clamp scalar).length := by
    rw [clamp_length, first]
    decide
  have run := ladder_follows base inside (s := ⟨⟨1, 0, 0, 0, 0⟩, ⟨0, 0, 0, 0, 0⟩, feFromBytes point,
    ⟨1, 0, 0, 0, 0⟩, 0⟩) (r := ⟨1, 0, _, 1, false⟩) ⟨one, zero, base, one, rfl⟩
  rw [x25519Field, x25519Spec, montgomery]
  generalize Rung.climb (leValue (clamp scalar)) ((leValue point % 2 ^ 255 : Nat) : ZMod modulus) 255 _ =
    r at run ⊢
  refine meets_bind run fun s follows => ?_
  rw [follows.swap]
  have xs := (feCswap_is follows.x2 follows.x3 r.swap).1
  have zs := (feCswap_is follows.z2 follows.z3 r.swap).1
  exact meets_bind (feInvert_is zs) fun zinv inverse => feMul_is xs.loose inverse.loose

/-- In the whole run nothing wraps and what is subtracted is at most twice the modulus limb by limb,
    and what is handed to `feToBytes` stands for the function of RFC 7748. -/
theorem x25519_refines (scalar point : Vector UInt8 32) :
    let run := x25519Raw scalar.toList point.toList
    Sight.wrapped ∉ run.run.2 ∧ (∀ b, Sight.subtrahend b ∈ run.run.2 → b.BelowTwoP) ∧
      ((x25519Field scalar.toList point.toList).run.1.val : ZMod modulus) =
        x25519Spec scalar.toList point.toList ∧
      ∀ z : Fe, z.Carried →
        ((feInvert z).run.1.val : ZMod modulus) = (z.val : ZMod modulus) ^ (modulus - 2) := by
  have field := x25519Field_is scalar.length_toList point.length_toList
  have whole : Meets Safe (x25519Raw scalar.toList point.toList) fun _ => True :=
    meets_bind field fun f held => (feToBytes_meets held.carried).weaken fun _ _ => trivial
  refine ⟨fun held => whole.1 _ held, fun b held => whole.1 _ held, field.2.value, fun z carried => ?_⟩
  exact (feInvert_is ⟨carried, rfl⟩).2.value

end Nxt.Crypto
