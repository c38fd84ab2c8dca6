import Nxt.Lib.Watch

/- The field of X25519 (nxt/crypto/x25519.cpp): elements modulo 2^255 - 19 as five limbs of 51 bits
   with room above. A limb is a 64-bit word; an operation that does not fit its width wraps, and
   the run sees it. -/
namespace Nxt.Crypto
open Nxt.Lib

structure Fe where
  v0 : Nat
  v1 : Nat
  v2 : Nat
  v3 : Nat
  v4 : Nat
  deriving DecidableEq

/-- What a run is watched for: a value that did not fit, and what `feSub` takes away. -/
inductive Sight where
  | wrapped
  | subtrahend (b : Fe)
  deriving DecidableEq

abbrev Limbs (α : Type) := Watched Sight α

def mask51 : Nat := 2 ^ 51 - 1

/-- A result in a word of some width. -/
def fit (width n : Nat) : Limbs Nat :=
  if n < 2 ^ width then pure n
  else do
    sight .wrapped
    pure (n % 2 ^ width)

def add64 (a b : Nat) : Limbs Nat := fit 64 (a + b)

def sub64 (a b : Nat) : Limbs Nat :=
  if b ≤ a then pure (a - b)
  else do
    sight .wrapped
    pure (a + 2 ^ 64 - b)

/-! ### Operations -/

def load64Le (bytes : List UInt8) : Nat :=
  (List.range 8).foldl (fun out i => out ||| (bytes.getD i 0).toNat <<< (8 * i)) 0

def store64Le (value : Nat) : List UInt8 :=
  (List.range 8).map fun i => UInt8.ofNat (value >>> (8 * i))

def feFromBytes (bytes : List UInt8) : Fe where
  v0 := load64Le bytes &&& mask51
  v1 := load64Le (bytes.drop 6) >>> 3 &&& mask51
  v2 := load64Le (bytes.drop 12) >>> 6 &&& mask51
  v3 := load64Le (bytes.drop 19) >>> 1 &&& mask51
  v4 := load64Le (bytes.drop 24) >>> 12 &&& mask51

def feAdd (a b : Fe) : Limbs Fe := do
  let v0 ← add64 a.v0 b.v0
  let v1 ← add64 a.v1 b.v1
  let v2 ← add64 a.v2 b.v2
  let v3 ← add64 a.v3 b.v3
  let v4 ← add64 a.v4 b.v4
  pure ⟨v0, v1, v2, v3, v4⟩

def twoP : Fe := ⟨0xFFFFFFFFFFFDA, 0xFFFFFFFFFFFFE, 0xFFFFFFFFFFFFE, 0xFFFFFFFFFFFFE, 0xFFFFFFFFFFFFE⟩

def feSub (a b : Fe) : Limbs Fe := do
  sight (.subtrahend b)
  let v0 ← sub64 (← add64 a.v0 twoP.v0) b.v0
  let v1 ← sub64 (← add64 a.v1 twoP.v1) b.v1
  let v2 ← sub64 (← add64 a.v2 twoP.v2) b.v2
  let v3 ← sub64 (← add64 a.v3 twoP.v3) b.v3
  let v4 ← sub64 (← add64 a.v4 twoP.v4) b.v4
  pure ⟨v0, v1, v2, v3, v4⟩

def product (t : Nat × Nat × Nat) : Limbs Nat := do fit 128 ((← fit 128 (t.1 * t.2.1)) * t.2.2)

/-- Products added in 128 bits, from the first. -/
def accumulate (sum : Nat) : List (Nat × Nat × Nat) → Limbs Nat
  | [] => pure sum
  | t :: rest => do accumulate (← fit 128 (sum + (← product t))) rest

/-- The carry chain of `fe_mul` and `fe_mul121665`, from 128-bit sums to limbs. -/
def carry (r0 r1 r2 r3 r4 : Nat) : Limbs Fe := do
  let c ← fit 64 (r0 >>> 51)
  let v0 := r0 % 2 ^ 64 &&& mask51
  let r1 ← fit 128 (r1 + c)
  let c ← fit 64 (r1 >>> 51)
  let v1 := r1 % 2 ^ 64 &&& mask51
  let r2 ← fit 128 (r2 + c)
  let c ← fit 64 (r2 >>> 51)
  let v2 := r2 % 2 ^ 64 &&& mask51
  let r3 ← fit 128 (r3 + c)
  let c ← fit 64 (r3 >>> 51)
  let v3 := r3 % 2 ^ 64 &&& mask51
  let r4 ← fit 128 (r4 + c)
  let c ← fit 64 (r4 >>> 51)
  let v4 := r4 % 2 ^ 64 &&& mask51
  let v0 ← add64 v0 (← fit 64 (19 * c))
  let c := v0 >>> 51
  let v1 ← add64 v1 c
  pure ⟨v0 &&& mask51, v1, v2, v3, v4⟩

def feMul (a b : Fe) : Limbs Fe := do
  let r0 ← accumulate 0
    [(1, a.v0, b.v0), (19, a.v1, b.v4), (19, a.v2, b.v3), (19, a.v3, b.v2), (19, a.v4, b.v1)]
  let r1 ← accumulate 0
    [(1, a.v0, b.v1), (1, a.v1, b.v0), (19, a.v2, b.v4), (19, a.v3, b.v3), (19, a.v4, b.v2)]
  let r2 ← accumulate 0
    [(1, a.v0, b.v2), (1, a.v1, b.v1), (1, a.v2, b.v0), (19, a.v3, b.v4), (19, a.v4, b.v3)]
  let r3 ← accumulate 0
    [(1, a.v0, b.v3), (1, a.v1, b.v2), (1, a.v2, b.v1), (1, a.v3, b.v0), (19, a.v4, b.v4)]
  let r4 ← accumulate 0
    [(1, a.v0, b.v4), (1, a.v1, b.v3), (1, a.v2, b.v2), (1, a.v3, b.v1), (1, a.v4, b.v0)]
  carry r0 r1 r2 r3 r4

def feSq (a : Fe) : Limbs Fe := feMul a a

def feMul121665 (a : Fe) : Limbs Fe := do
  let r0 ← fit 128 (a.v0 * 121665)
  let r1 ← fit 128 (a.v1 * 121665)
  let r2 ← fit 128 (a.v2 * 121665)
  let r3 ← fit 128 (a.v3 * 121665)
  let r4 ← fit 128 (a.v4 * 121665)
  carry r0 r1 r2 r3 r4

/-- One limb of a conditional swap: the words `a ^ t` and `b ^ t`. -/
def cswapLimb (mask a b : Nat) : Nat × Nat := (a ^^^ (mask &&& (a ^^^ b)), b ^^^ (mask &&& (a ^^^ b)))

/-- The mask wraps on purpose: it is zero or all ones. -/
def feCswap (a b : Fe) (swap : Nat) : Fe × Fe :=
  let mask := (2 ^ 64 - swap) % 2 ^ 64
  let limb := cswapLimb mask
  (⟨(limb a.v0 b.v0).1, (limb a.v1 b.v1).1, (limb a.v2 b.v2).1, (limb a.v3 b.v3).1, (limb a.v4 b.v4).1⟩,
    ⟨(limb a.v0 b.v0).2, (limb a.v1 b.v1).2, (limb a.v2 b.v2).2, (limb a.v3 b.v3).2, (limb a.v4 b.v4).2⟩)

/-! ### Writing an element -/

/-- The first pass of `fe_to_bytes` over the limbs. -/
def feReduce (f : Fe) : Limbs Fe := do
  let v1 ← add64 f.v1 (f.v0 >>> 51)
  let v2 ← add64 f.v2 (v1 >>> 51)
  let v3 ← add64 f.v3 (v2 >>> 51)
  let v4 ← add64 f.v4 (v3 >>> 51)
  let v0 ← add64 (f.v0 &&& mask51) (← fit 64 (19 * (v4 >>> 51)))
  pure ⟨v0, v1 &&& mask51, v2 &&& mask51, v3 &&& mask51, v4 &&& mask51⟩

/-- The element less the modulus, where that is not negative. The subtraction in the top limb wraps
    on purpose: its top bit says that the element was below the modulus. -/
def feSelect (t : Fe) : Limbs Fe := do
  let g0 ← add64 t.v0 19
  let g1 ← add64 t.v1 (g0 >>> 51)
  let g2 ← add64 t.v2 (g1 >>> 51)
  let g3 ← add64 t.v3 (g2 >>> 51)
  let g4 := ((← add64 t.v4 (g3 >>> 51)) + 2 ^ 64 - 2 ^ 51) % 2 ^ 64
  let mask := (g4 >>> 63 + 2 ^ 64 - 1) % 2 ^ 64
  let pick := fun t g => (t &&& (2 ^ 64 - 1 - mask)) ||| (g &&& mask)
  pure ⟨pick t.v0 (g0 &&& mask51), pick t.v1 (g1 &&& mask51), pick t.v2 (g2 &&& mask51),
    pick t.v3 (g3 &&& mask51), pick t.v4 (g4 &&& mask51)⟩

/-- The limbs side by side in four words. -/
def fePack (t : Fe) : List UInt8 :=
  [t.v0 ||| (t.v1 <<< 51) % 2 ^ 64, t.v1 >>> 13 ||| (t.v2 <<< 38) % 2 ^ 64,
    t.v2 >>> 26 ||| (t.v3 <<< 25) % 2 ^ 64, t.v3 >>> 39 ||| (t.v4 <<< 12) % 2 ^ 64].flatMap store64Le

def feToBytes (f : Fe) : Limbs (List UInt8) := do
  let t ← feReduce f
  let t ← feSelect t
  pure (fePack t)

end Nxt.Crypto
