import Nxt.Crypto.Reduce

/- When the bytes of a product are the canonical ones. The carry out of the top limb goes back into
   the first, which may then be more than 51 bits; it is packed beside the second all the same. -/
namespace Nxt.Crypto
open Nxt.Lib

section Passes
variable {safe : Sight → Prop}

theorem feReduce_meets {r : Fe} (carried : r.Carried) :
    Meets safe (feReduce r) fun t => t.v0 = r.v0 + 19 * (r.val / 2 ^ 255) ∧ t.v1 < 2 ^ 51 ∧
      t.v2 < 2 ^ 51 ∧ t.v3 < 2 ^ 51 ∧ t.v4 < 2 ^ 51 ∧
      t.val + r.val / 2 ^ 255 * modulus = r.val ∧ r.val / 2 ^ 255 ≤ 1 := by
  obtain ⟨b0, b1, b2, b3, b4⟩ := carried
  simp only [feReduce, and_mask51, Nat.shiftRight_eq_div_pow]
  refine meets_bind (add64_meets (by omega)) ?_
  rintro s1 e1
  refine meets_bind (add64_meets (by omega)) ?_
  rintro s2 e2
  refine meets_bind (add64_meets (by omega)) ?_
  rintro s3 e3
  refine meets_bind (add64_meets (by omega)) ?_
  rintro s4 e4
  refine meets_fit (by omega) ?_
  refine meets_add64 (by omega) ?_
  apply meets_pure
  have top : r.val = weigh r.v0 (s1 % 2 ^ 51) (s2 % 2 ^ 51) (s3 % 2 ^ 51) (s4 % 2 ^ 51) +
      s4 / 2 ^ 51 * 2 ^ 255 := by
    unfold Fe.val weigh
    omega
  have low : weigh r.v0 (s1 % 2 ^ 51) (s2 % 2 ^ 51) (s3 % 2 ^ 51) (s4 % 2 ^ 51) < 2 ^ 255 := by
    unfold weigh
    omega
  have quotient : r.val / 2 ^ 255 = s4 / 2 ^ 51 := by omega
  refine ⟨?_, Nat.mod_lt _ (by decide), Nat.mod_lt _ (by decide), Nat.mod_lt _ (by decide),
    Nat.mod_lt _ (by decide), ?_, ?_⟩
  · rw [quotient]
    dsimp only
    omega
  · rw [quotient, top, Fe.val]
    unfold weigh modulus
    dsimp only
    omega
  · omega

theorem pick_old {t : Nat} (small : t < 2 ^ 64) (g : Nat) : (t &&& (2 ^ 64 - 1 - 0)) ||| (g &&& 0) = t := by
  rw [Nat.and_zero, Nat.or_zero, Nat.sub_zero, Nat.and_two_pow_sub_one_eq_mod, Nat.mod_eq_of_lt small]

theorem pick_new (t : Nat) {g : Nat} (small : g < 2 ^ 64) :
    (t &&& (2 ^ 64 - 1 - (2 ^ 64 - 1))) ||| (g &&& (2 ^ 64 - 1)) = g := by
  rw [Nat.sub_self, Nat.and_zero, Nat.zero_or, Nat.and_two_pow_sub_one_eq_mod, Nat.mod_eq_of_lt small]

theorem feSelect_meets {t : Fe} (b0 : t.v0 < 2 ^ 51 + 19) (b1 : t.v1 < 2 ^ 51) (b2 : t.v2 < 2 ^ 51)
    (b3 : t.v3 < 2 ^ 51) (b4 : t.v4 < 2 ^ 51) : Meets safe (feSelect t) fun s => if t.val < modulus then s = t
      else s.v0 < 2 ^ 51 ∧ s.v1 < 2 ^ 51 ∧ s.v2 < 2 ^ 51 ∧ s.v3 < 2 ^ 51 ∧ s.v4 < 2 ^ 51 ∧ s.val + modulus = t.val := by
  simp only [feSelect, and_mask51, Nat.shiftRight_eq_div_pow]
  refine meets_bind (add64_meets (by omega)) ?_
  rintro g0 e0
  refine meets_bind (add64_meets (by omega)) ?_
  rintro g1 e1
  refine meets_bind (add64_meets (by omega)) ?_
  rintro g2 e2
  refine meets_bind (add64_meets (by omega)) ?_
  rintro g3 e3
  refine meets_bind (add64_meets (by omega)) ?_
  rintro g4 e4
  apply meets_pure
  have borrow : t.val < modulus ↔ g4 < 2 ^ 51 := by
    unfold Fe.val weigh modulus
    omega
  by_cases below : t.val < modulus
  · have mask : ((g4 + 2 ^ 64 - 2 ^ 51) % 2 ^ 64 / 2 ^ 63 + 2 ^ 64 - 1) % 2 ^ 64 = 0 := by omega
    rw [if_pos below, mask, pick_old (by omega), pick_old (by omega), pick_old (by omega),
      pick_old (by omega), pick_old (by omega)]
  · have mask : ((g4 + 2 ^ 64 - 2 ^ 51) % 2 ^ 64 / 2 ^ 63 + 2 ^ 64 - 1) % 2 ^ 64 = 2 ^ 64 - 1 := by
      omega
    rw [if_neg below, mask, pick_new _ (by omega), pick_new _ (by omega), pick_new _ (by omega),
      pick_new _ (by omega), pick_new _ (by omega)]
    refine ⟨Nat.mod_lt _ (by decide), Nat.mod_lt _ (by decide), Nat.mod_lt _ (by decide),
      Nat.mod_lt _ (by decide), Nat.mod_lt _ (by decide), ?_⟩
    unfold Fe.val weigh modulus at *
    dsimp only
    omega

end Passes

theorem fePack_value {t : Fe} (b0 : t.v0 < 2 ^ 52) (b1 : t.v1 < 2 ^ 51) (b2 : t.v2 < 2 ^ 51)
    (b3 : t.v3 < 2 ^ 51) (b4 : t.v4 < 2 ^ 51) (small : t.val < 2 ^ 255) :
    leValue (fePack t) = t.val - if 2 ^ 51 ≤ t.v0 ∧ t.v1 % 2 = 1 then 2 ^ 51 else 0 := by
  unfold Fe.val weigh at small
  rw [fePack, words_value]
  simp only [Nat.shiftRight_eq_div_pow]
  rw [beside t.v2 (show t.v1 / 2 ^ 13 < 2 ^ 38 by omega) (by decide),
    beside t.v3 (show t.v2 / 2 ^ 26 < 2 ^ 25 by omega) (by decide),
    beside t.v4 (show t.v3 / 2 ^ 39 < 2 ^ 12 by omega) (by decide)]
  by_cases full : 2 ^ 51 ≤ t.v0
  · rw [beside_over full b0]
    unfold Fe.val weigh
    split <;> split <;> omega
  · rw [beside t.v1 (Nat.lt_of_not_le full) (by decide), if_neg fun both => full both.1]
    unfold Fe.val weigh
    omega

/-! ### Products -/

def productBytes (a b : Fe) : List UInt8 := (do feToBytes (← feMul a b) : Limbs (List UInt8)).run.1

/-- The bytes are the little-endian encoding of the product modulo 2^255 - 19. -/
def Canonical (a b : Fe) : Prop :=
  (productBytes a b).length = 32 ∧ leValue (productBytes a b) = a.val * b.val % modulus

/-- The product modulo 2^255 - 19 is just above an even multiple of 2^51, and below nineteen times
    how often the modulus goes into the folded product. -/
def Slips (a b : Fe) : Prop :=
  let w := a.val * b.val % modulus
  2 ^ 51 ≤ w ∧ w < 19 * (folded a b / modulus) ∧ w % 2 ^ 51 < 19 ∧ w / 2 ^ 51 % 2 = 0

instance (a b : Fe) : Decidable (Canonical a b) := inferInstanceAs (Decidable (_ ∧ _))
instance (a b : Fe) : Decidable (Slips a b) := inferInstanceAs (Decidable (_ ∧ _))

theorem fePack_length (t : Fe) : (fePack t).length = 32 := rfl

theorem feToBytes_meets {safe : Sight → Prop} {r : Fe} (carried : r.Carried) :
    Meets safe (feToBytes r) fun bytes => bytes.length = 32 ∧
      leValue bytes = r.val % modulus - if 2 ^ 255 ≤ r.val ∧ r.val % modulus % 2 ^ 51 < 19 ∧
        r.val % modulus / 2 ^ 51 % 2 = 0 then 2 ^ 51 else 0 := by
  have loose : r.val < 2 ^ 255 + 2 ^ 64 := by
    obtain ⟨b0, b1, b2, b3, b4⟩ := carried
    unfold Fe.val weigh
    omega
  have room := carried.v0
  rw [feToBytes]
  refine meets_bind (feReduce_meets carried) ?_
  rintro t ⟨first, b1, b2, b3, b4, value, few⟩
  refine meets_bind (feSelect_meets (by omega) b1 b2 b3 b4) ?_
  intro s picked
  refine meets_pure ⟨fePack_length s, ?_⟩
  have shape : t.val = weigh t.v0 t.v1 t.v2 t.v3 t.v4 := rfl
  by_cases below : t.val < modulus
  · rw [if_pos below] at picked
    subst picked
    have rest : r.val % modulus = s.val := by
      rw [← value, Nat.add_mul_mod_self_right, Nat.mod_eq_of_lt below]
    rw [fePack_value (by omega) b1 b2 b3 b4 (by rw [modulus] at below; omega), rest]
    have low : s.val % 2 ^ 51 = s.v0 % 2 ^ 51 := by
      rw [shape, weigh]
      omega
    have high : s.val / 2 ^ 51 % 2 = (s.v0 / 2 ^ 51 + s.v1) % 2 := by
      rw [shape, weigh]
      omega
    have same : (2 ^ 51 ≤ s.v0 ∧ s.v1 % 2 = 1) ↔
        (2 ^ 255 ≤ r.val ∧ s.val % 2 ^ 51 < 19 ∧ s.val / 2 ^ 51 % 2 = 0) := by
      rw [low, high]
      omega
    rw [if_congr same rfl rfl]
  · rw [if_neg below] at picked
    obtain ⟨c0, c1, c2, c3, c4, less⟩ := picked
    have under : r.val < 2 ^ 255 := by
      by_contra over_
      rw [modulus] at below value
      omega
    have rest : r.val % modulus = s.val := by
      have none : r.val / 2 ^ 255 = 0 := by omega
      rw [none, Nat.zero_mul, Nat.add_zero] at value
      rw [← value, ← less, Nat.add_mod_right, Nat.mod_eq_of_lt]
      rw [modulus] at less ⊢
      omega
    rw [fePack_value (by omega) c1 c2 c3 c4 (by rw [modulus] at less; omega), rest,
      if_neg fun both => absurd both.1 (by omega), if_neg fun both => absurd both.1 (by omega)]

theorem top_iff {n v : Nat} (small : n < 2 ^ 320) (value : v + n / 2 ^ 255 * modulus = n) :
    2 ^ 255 ≤ v ↔ 19 ≤ n % modulus ∧ n % modulus < 19 * (n / modulus) := by
  unfold modulus at *
  omega

/-- The bytes of a product are the canonical ones unless the product slips. -/
theorem bytes_canonical_iff (a b : Fe) (left : a.AtMost (2 ^ 52)) (right : b.AtMost (2 ^ 52)) :
    Canonical a b ↔ ¬ Slips a b := by
  have run : Meets (fun _ => True) (do feToBytes (← feMul a b) : Limbs (List UInt8)) fun bytes =>
      bytes.length = 32 ∧ leValue bytes = a.val * b.val % modulus - if Slips a b then 2 ^ 51 else 0 := by
    refine meets_bind (feMul_meets (left.weaken (by decide)) (right.weaken (by decide))) ?_
    rintro r ⟨carried, small, value⟩
    have product : a.val * b.val % modulus = folded a b % modulus := folded_val a b
    have rest : r.val % modulus = folded a b % modulus := by
      rw [← value, Nat.add_mul_mod_self_right]
    have slips : (2 ^ 255 ≤ r.val ∧ r.val % modulus % 2 ^ 51 < 19 ∧ r.val % modulus / 2 ^ 51 % 2 = 0) ↔
        Slips a b := by
      rw [top_iff small value, rest]
      simp only [Slips, product]
      constructor
      · rintro ⟨⟨some_, below⟩, low, even⟩
        exact ⟨by omega, below, low, even⟩
      · rintro ⟨some_, below, low, even⟩
        exact ⟨⟨by omega, below⟩, low, even⟩
    refine (feToBytes_meets carried).weaken ?_
    rintro bytes ⟨length, written⟩
    rw [written, rest, ← product, ← if_congr slips rfl rfl, rest, ← product]
    exact ⟨length, rfl⟩
  obtain ⟨-, length, written⟩ := run
  rw [Canonical, productBytes, written]
  by_cases slips : Slips a b
  · rw [if_pos slips, iff_false_right (not_not_intro slips)]
    rintro ⟨-, same⟩
    have large := slips.1
    omega
  · rw [if_neg slips, Nat.sub_zero]
    exact iff_of_true ⟨length, rfl⟩ slips

theorem bytes_canonical_iff_ones : Canonical ⟨1, 2 ^ 52, 1, 1, 2 ^ 52⟩ ⟨2 ^ 52, 1, 1, 2 ^ 52, 1⟩ ↔
      ¬ Slips ⟨1, 2 ^ 52, 1, 1, 2 ^ 52⟩ ⟨2 ^ 52, 1, 1, 2 ^ 52, 1⟩ :=
  bytes_canonical_iff _ _ (by constructor <;> decide) (by constructor <;> decide)

/-- A product of 2^52 that is written without its bit 52. -/
theorem bytes_not_canonical : ¬ ∀ a b : Fe, a.AtMost (2 ^ 52) → b.AtMost (2 ^ 52) → Canonical a b := by
  intro canonical
  have wrong : ¬ Canonical ⟨2 ^ 52, 0, 0, 0, 0⟩
      ⟨2251799813685247, 2251799813685247, 2251799813685247, 1125899906842623, 237031559335289⟩ := by
    decide +kernel
  exact wrong (canonical _ _ (by constructor <;> decide) (by constructor <;> decide))

end Nxt.Crypto
