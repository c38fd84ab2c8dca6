import Nxt.Crypto.Field

/- The value of a field element, what each operation does to it, and when the bytes of a product
   are the canonical ones. -/
namespace Nxt.Crypto
open Nxt.Lib List

def modulus : Nat := 2 ^ 255 - 19

def weigh (r0 r1 r2 r3 r4 : Nat) : Nat :=
  r0 + 2 ^ 51 * r1 + 2 ^ 102 * r2 + 2 ^ 153 * r3 + 2 ^ 204 * r4

def Fe.val (a : Fe) : Nat := weigh a.v0 a.v1 a.v2 a.v3 a.v4

/-- No limb is more than `b`. -/
structure Fe.AtMost (b : Nat) (a : Fe) : Prop where
  v0 : a.v0 ≤ b
  v1 : a.v1 ≤ b
  v2 : a.v2 ≤ b
  v3 : a.v3 ≤ b
  v4 : a.v4 ≤ b

/-- The limbs that a carry chain leaves: only the second may be more than 51 bits, and not much. -/
structure Fe.Carried (a : Fe) : Prop where
  v0 : a.v0 < 2 ^ 51
  v1 : a.v1 < 2 ^ 51 + 2 ^ 12
  v2 : a.v2 < 2 ^ 51
  v3 : a.v3 < 2 ^ 51
  v4 : a.v4 < 2 ^ 51

/-- The product of two elements with what is above 255 bits folded back nineteen times. -/
def folded (a b : Fe) : Nat :=
  weigh
    (a.v0 * b.v0 + 19 * a.v1 * b.v4 + 19 * a.v2 * b.v3 + 19 * a.v3 * b.v2 + 19 * a.v4 * b.v1)
    (a.v0 * b.v1 + a.v1 * b.v0 + 19 * a.v2 * b.v4 + 19 * a.v3 * b.v3 + 19 * a.v4 * b.v2)
    (a.v0 * b.v2 + a.v1 * b.v1 + a.v2 * b.v0 + 19 * a.v3 * b.v4 + 19 * a.v4 * b.v3)
    (a.v0 * b.v3 + a.v1 * b.v2 + a.v2 * b.v1 + a.v3 * b.v0 + 19 * a.v4 * b.v4)
    (a.v0 * b.v4 + a.v1 * b.v3 + a.v2 * b.v2 + a.v3 * b.v1 + a.v4 * b.v0)

theorem Fe.AtMost.weaken {a : Fe} {b c : Nat} (h : a.AtMost b) (more : b ≤ c) : a.AtMost c :=
  ⟨h.v0.trans more, h.v1.trans more, h.v2.trans more, h.v3.trans more, h.v4.trans more⟩

theorem Fe.Carried.atMost {a : Fe} (h : a.Carried) : a.AtMost (2 ^ 51 + 2 ^ 12) := by
  obtain ⟨h0, h1, h2, h3, h4⟩ := h
  constructor <;> omega

theorem and_mask51 (n : Nat) : n &&& mask51 = n % 2 ^ 51 := by
  rw [mask51, Nat.and_two_pow_sub_one_eq_mod]

/-! ### Words that fit -/

section Fit
variable {safe : Sight → Prop}

theorem fit_meets {width n : Nat} (small : n < 2 ^ width) : Meets safe (fit width n) (· = n) := by
  rw [fit, if_pos small]
  exact meets_pure rfl

theorem add64_meets {a b : Nat} (small : a + b < 2 ^ 64) : Meets safe (add64 a b) (· = a + b) :=
  fit_meets small

theorem sub64_meets {a b : Nat} (below : b ≤ a) : Meets safe (sub64 a b) (· = a - b) := by
  rw [sub64, if_pos below]
  exact meets_pure rfl

variable {A : Type} {width a b n : Nat} {k : Nat → Limbs A} {p : A → Prop}

theorem meets_fit (small : n < 2 ^ width) (rest : Meets safe (k n) p) : Meets safe (fit width n >>= k) p :=
  meets_bind (fit_meets small) fun _ same => same ▸ rest

theorem meets_add64 (small : a + b < 2 ^ 64) (rest : Meets safe (k (a + b)) p) : Meets safe (add64 a b >>= k) p :=
  meets_fit small rest

theorem meets_sub64 (below : b ≤ a) (rest : Meets safe (k (a - b)) p) : Meets safe (sub64 a b >>= k) p :=
  meets_bind (sub64_meets below) fun _ same => same ▸ rest

theorem accumulate_meets (terms : List (Nat × Nat × Nat)) :
    ∀ sum, (∀ t ∈ terms, t.1 ≤ 19 ∧ t.2.1 ≤ 2 ^ 53 ∧ t.2.2 ≤ 2 ^ 53) → sum + terms.length * 2 ^ 111 < 2 ^ 128 →
      Meets safe (accumulate sum terms) fun total => total = sum + (terms.map fun t => t.1 * t.2.1 * t.2.2).sum ∧
          total ≤ sum + (terms.map fun t => t.1).sum * 2 ^ 106 := by
  induction terms with
  | nil => exact fun sum _ _ => meets_pure (by simp)
  | cons t rest ih =>
    intro sum small room
    obtain ⟨k, left, right⟩ := small t mem_cons_self
    have first : t.1 * t.2.1 ≤ t.1 * 2 ^ 53 := Nat.mul_le_mul_left _ left
    have whole : t.1 * t.2.1 * t.2.2 ≤ t.1 * 2 ^ 53 * 2 ^ 53 := Nat.mul_le_mul first right
    rw [length_cons] at room
    rw [accumulate]
    refine meets_bind (p := (· = t.1 * t.2.1 * t.2.2)) ?_ ?_
    · refine meets_fit (by omega) ?_
      exact fit_meets (by omega)
    · rintro _ rfl
      refine meets_fit (by omega) ?_
      refine (ih _ (fun u held => small u (mem_cons_of_mem _ held)) (by omega)).weaken ?_
      rintro total ⟨rfl, bound⟩
      rw [map_cons, sum_cons, map_cons, sum_cons]
      omega

theorem carry_meets {r0 r1 r2 r3 r4 : Nat} (b0 : r0 ≤ 2 ^ 113) (b1 : r1 ≤ 2 ^ 113) (b2 : r2 ≤ 2 ^ 113)
    (b3 : r3 ≤ 2 ^ 113) (b4 : r4 ≤ 2 ^ 109) : Meets safe (carry r0 r1 r2 r3 r4) fun f => f.Carried ∧
      f.val + weigh r0 r1 r2 r3 r4 / 2 ^ 255 * modulus = weigh r0 r1 r2 r3 r4 := by
  simp only [carry, and_mask51, Nat.shiftRight_eq_div_pow]
  refine meets_fit (by omega) ?_
  refine meets_bind (fit_meets (by omega)) ?_
  rintro s1 e1
  refine meets_fit (by omega) ?_
  refine meets_bind (fit_meets (by omega)) ?_
  rintro s2 e2
  refine meets_fit (by omega) ?_
  refine meets_bind (fit_meets (by omega)) ?_
  rintro s3 e3
  refine meets_fit (by omega) ?_
  refine meets_bind (fit_meets (by omega)) ?_
  rintro s4 e4
  refine meets_fit (by omega) ?_
  refine meets_fit (by omega) ?_
  refine meets_bind (add64_meets (by omega)) ?_
  rintro s0 e0
  refine meets_add64 (by omega) ?_
  apply meets_pure
  have top : weigh r0 r1 r2 r3 r4 = weigh (r0 % 2 ^ 51) (s1 % 2 ^ 51) (s2 % 2 ^ 51) (s3 % 2 ^ 51)
      (s4 % 2 ^ 51) + s4 / 2 ^ 51 * 2 ^ 255 := by
    unfold weigh
    omega
  have low : weigh (r0 % 2 ^ 51) (s1 % 2 ^ 51) (s2 % 2 ^ 51) (s3 % 2 ^ 51) (s4 % 2 ^ 51) < 2 ^ 255 := by
    unfold weigh
    omega
  have quotient : weigh r0 r1 r2 r3 r4 / 2 ^ 255 = s4 / 2 ^ 51 := by omega
  refine ⟨⟨?_, ?_, ?_, ?_, ?_⟩, ?_⟩
  · exact Nat.mod_lt _ (by decide)
  · dsimp only
    omega
  · exact Nat.mod_lt _ (by decide)
  · exact Nat.mod_lt _ (by decide)
  · exact Nat.mod_lt _ (by decide)
  · rw [quotient, top, Fe.val]
    unfold weigh modulus
    dsimp only
    omega

theorem five {t0 t1 t2 t3 t4 : Nat × Nat × Nat} {P : Nat × Nat × Nat → Prop} :
    (∀ t ∈ [t0, t1, t2, t3, t4], P t) ↔ P t0 ∧ P t1 ∧ P t2 ∧ P t3 ∧ P t4 := by
  simp only [forall_mem_cons, not_mem_nil, false_imp_iff, implies_true, and_true]

theorem feMul_meets {a b : Fe} (left : a.AtMost (2 ^ 53)) (right : b.AtMost (2 ^ 53)) :
    Meets safe (feMul a b) fun r => r.Carried ∧ folded a b < 2 ^ 320 ∧
      r.val + folded a b / 2 ^ 255 * modulus = folded a b := by
  obtain ⟨a0, a1, a2, a3, a4⟩ := left
  obtain ⟨b0, b1, b2, b3, b4⟩ := right
  rw [feMul]
  refine meets_bind (accumulate_meets _ 0 (by
    rw [five]
    dsimp only
    omega) (by simp)) ?_
  rintro r0 ⟨e0, bound0⟩
  refine meets_bind (accumulate_meets _ 0 (by
    rw [five]
    dsimp only
    omega) (by simp)) ?_
  rintro r1 ⟨e1, bound1⟩
  refine meets_bind (accumulate_meets _ 0 (by
    rw [five]
    dsimp only
    omega) (by simp)) ?_
  rintro r2 ⟨e2, bound2⟩
  refine meets_bind (accumulate_meets _ 0 (by
    rw [five]
    dsimp only
    omega) (by simp)) ?_
  rintro r3 ⟨e3, bound3⟩
  refine meets_bind (accumulate_meets _ 0 (by
    rw [five]
    dsimp only
    omega) (by simp)) ?_
  rintro r4 ⟨e4, bound4⟩
  simp only [map_cons, map_nil, sum_cons, sum_nil] at e0 e1 e2 e3 e4
  simp only [map_cons, map_nil, sum_cons, sum_nil] at bound0 bound1 bound2 bound3 bound4
  have total : folded a b = weigh r0 r1 r2 r3 r4 := by
    rw [folded, e0, e1, e2, e3, e4]
    simp only [Nat.zero_add, Nat.add_zero, Nat.one_mul, Nat.add_assoc]
  rw [total]
  refine (carry_meets (by omega) (by omega) (by omega) (by omega) (by omega)).weaken ?_
  rintro r ⟨carried, value⟩
  refine ⟨carried, ?_, value⟩
  unfold weigh
  omega

theorem feMul121665_meets {a : Fe} (small : a.AtMost (2 ^ 53)) : Meets safe (feMul121665 a) fun r => r.Carried ∧
      r.val + a.val * 121665 / 2 ^ 255 * modulus = a.val * 121665 := by
  obtain ⟨a0, a1, a2, a3, a4⟩ := small
  rw [feMul121665]
  refine meets_fit (by omega) ?_
  refine meets_fit (by omega) ?_
  refine meets_fit (by omega) ?_
  refine meets_fit (by omega) ?_
  refine meets_fit (by omega) ?_
  have total : a.val * 121665 = weigh (a.v0 * 121665) (a.v1 * 121665) (a.v2 * 121665)
      (a.v3 * 121665) (a.v4 * 121665) := by
    rw [Fe.val, weigh, weigh]
    omega
  rw [total]
  exact carry_meets (by omega) (by omega) (by omega) (by omega) (by omega)

theorem feAdd_meets {a b : Fe} (left : a.AtMost (2 ^ 52)) (right : b.AtMost (2 ^ 52)) :
    Meets safe (feAdd a b) fun r => r.AtMost (2 ^ 53) ∧ r.val = a.val + b.val := by
  obtain ⟨a0, a1, a2, a3, a4⟩ := left
  obtain ⟨b0, b1, b2, b3, b4⟩ := right
  rw [feAdd]
  refine meets_add64 (by omega) ?_
  refine meets_add64 (by omega) ?_
  refine meets_add64 (by omega) ?_
  refine meets_add64 (by omega) ?_
  refine meets_add64 (by omega) ?_
  refine meets_pure ⟨⟨?_, ?_, ?_, ?_, ?_⟩, ?_⟩ <;> try (dsimp only; omega)
  simp only [Fe.val, weigh]
  omega

def Fe.BelowTwoP (b : Fe) : Prop :=
  b.v0 ≤ twoP.v0 ∧ b.v1 ≤ twoP.v1 ∧ b.v2 ≤ twoP.v2 ∧ b.v3 ≤ twoP.v3 ∧ b.v4 ≤ twoP.v4

theorem feSub_meets {a b : Fe} (left : a.AtMost (2 ^ 52)) (below : b.BelowTwoP) (seen : safe (.subtrahend b)) :
    Meets safe (feSub a b) fun r => r.AtMost (2 ^ 53) ∧ r.val + b.val = a.val + 2 * modulus := by
  obtain ⟨a0, a1, a2, a3, a4⟩ := left
  obtain ⟨b0, b1, b2, b3, b4⟩ := below
  simp only [twoP] at b0 b1 b2 b3 b4
  simp only [feSub, twoP]
  refine meets_bind (p := fun _ => True) (meets_sight seen trivial) ?_
  rintro - -
  refine meets_add64 (by omega) ?_
  refine meets_sub64 (by omega) ?_
  refine meets_add64 (by omega) ?_
  refine meets_sub64 (by omega) ?_
  refine meets_add64 (by omega) ?_
  refine meets_sub64 (by omega) ?_
  refine meets_add64 (by omega) ?_
  refine meets_sub64 (by omega) ?_
  refine meets_add64 (by omega) ?_
  refine meets_sub64 (by omega) ?_
  refine meets_pure ⟨⟨?_, ?_, ?_, ?_, ?_⟩, ?_⟩ <;> try (dsimp only; omega)
  simp only [Fe.val, weigh, modulus]
  omega

end Fit

theorem folded_val (a b : Fe) : a.val * b.val ≡ folded a b [MOD modulus] := by
  have split : a.val * b.val = folded a b + modulus * weigh
      (a.v1 * b.v4 + a.v2 * b.v3 + a.v3 * b.v2 + a.v4 * b.v1)
      (a.v2 * b.v4 + a.v3 * b.v3 + a.v4 * b.v2) (a.v3 * b.v4 + a.v4 * b.v3) (a.v4 * b.v4) 0 := by
    unfold folded Fe.val weigh
    rw [show modulus = 57896044618658097711785492504343953926634992332820282019728792003956564819949 by rw [modulus]; norm_num]
    ring
  rw [split]
  exact Nat.add_mul_mod_self_left _ _ _

/-! ### Bytes -/

def leValue (bytes : List UInt8) : Nat := Nat.ofDigits 256 (bytes.map UInt8.toNat)

theorem store64Le_value (w : Nat) : leValue (store64Le w) = w % 2 ^ 64 := by
  simp only [leValue, store64Le, range_succ, range_zero, nil_append, cons_append,
    map_cons, map_nil, Nat.ofDigits_cons, Nat.ofDigits_nil, UInt8.toNat_ofNat',
    Nat.shiftRight_eq_div_pow]
  omega

theorem store64Le_length (w : Nat) : (store64Le w).length = 8 := rfl

theorem leValue_append (xs ys : List UInt8) : leValue (xs ++ ys) = leValue xs + 256 ^ xs.length * leValue ys := by
  rw [leValue, map_append, Nat.ofDigits_append, length_map]
  rfl

theorem words_value (w0 w1 w2 w3 : Nat) : leValue ([w0, w1, w2, w3].flatMap store64Le) =
    w0 % 2 ^ 64 + 2 ^ 64 * (w1 % 2 ^ 64) + 2 ^ 128 * (w2 % 2 ^ 64) + 2 ^ 192 * (w3 % 2 ^ 64) := by
  simp only [flatMap_cons, flatMap_nil, append_nil, leValue_append, store64Le_value,
    store64Le_length]
  omega

theorem beside {x k : Nat} (y : Nat) (small : x < 2 ^ k) (room : k ≤ 64) :
    x ||| (y <<< k) % 2 ^ 64 = x + (y * 2 ^ k) % 2 ^ 64 := by
  have split : (2 : Nat) ^ 64 = 2 ^ k * 2 ^ (64 - k) := by
    rw [← Nat.pow_add, Nat.add_sub_cancel' room]
  have cut : y * 2 ^ k % 2 ^ 64 = (y % 2 ^ (64 - k)) <<< k := by
    rw [split, Nat.mul_comm y, Nat.mul_mod_mul_left, Nat.shiftLeft_eq, Nat.mul_comm]
  rw [Nat.shiftLeft_eq, cut, Nat.or_comm, ← Nat.shiftLeft_add_eq_or_of_lt small, Nat.add_comm]

theorem one_or (n : Nat) : 1 ||| n = if n % 2 = 1 then n else n + 1 := by
  have even : ∀ k : Nat, 2 * k + 1 = 2 * k ||| 1 := by
    intro k
    have shifted := Nat.shiftLeft_add_eq_or_of_lt (show 1 < 2 ^ 1 by decide) k
    rwa [Nat.shiftLeft_eq, Nat.pow_one, Nat.mul_comm] at shifted
  by_cases odd : n % 2 = 1
  · rw [if_pos odd]
    have shape : n = 2 * (n / 2) ||| 1 := by
      rw [← even]
      omega
    rw [shape, Nat.or_comm, Nat.or_assoc, Nat.or_self]
  · rw [if_neg odd, Nat.or_comm]
    have shape : n = 2 * (n / 2) := by omega
    rw [shape]
    exact (even _).symm

theorem beside_over {x y : Nat} (low : 2 ^ 51 ≤ x) (high : x < 2 ^ 52) :
    x ||| (y <<< 51) % 2 ^ 64 = x + (y * 2 ^ 51) % 2 ^ 64 - if y % 2 = 1 then 2 ^ 51 else 0 := by
  have cut : (y <<< 51) % 2 ^ 64 = (y % 2 ^ 13) <<< 51 := by
    rw [Nat.shiftLeft_eq, Nat.shiftLeft_eq]
    omega
  obtain ⟨j, rfl⟩ := Nat.exists_eq_add_of_le low
  have small : j < 2 ^ 51 := by omega
  have both : 1 <<< 51 ||| (y % 2 ^ 13) <<< 51 = (1 ||| y % 2 ^ 13) <<< 51 :=
    Nat.shiftLeft_or_distrib.symm
  have parity : y % 2 ^ 13 % 2 = y % 2 := by omega
  have first : 2 ^ 51 + j = 1 <<< 51 ||| j := by
    rw [← Nat.shiftLeft_add_eq_or_of_lt small]
    rfl
  rw [cut, first, Nat.or_assoc, Nat.or_comm j, ← Nat.or_assoc, both, one_or,
    parity, ← Nat.shiftLeft_add_eq_or_of_lt small, Nat.shiftLeft_eq]
  split <;> omega

end Nxt.Crypto
