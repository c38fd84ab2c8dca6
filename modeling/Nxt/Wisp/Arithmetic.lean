import Nxt.Wisp.Registers

/- Fixnum arithmetic (eval.cpp): folds over an argument list in a 64-bit host integer, checked
   after every step. Whatever the host language leaves undefined (an overflow, a failed
   assertion) is an outcome of its own, so that its absence is a statement. -/
namespace Nxt.Wisp
open List

inductive Fault where
  | signal (c : Condition)
  | undefined
  deriving DecidableEq

abbrev Step (α : Type) := Except Fault α

def signal {α : Type} (name : Known) (details : List Word) : Step α :=
  .error (.signal (.named name details))

/-- A value of `std::int64_t`. -/
def hostInteger (x : Int) : Step Int :=
  if -(2 ^ 63) ≤ x ∧ x < 2 ^ 63 then .ok x else .error .undefined

def fixnumRange (x : Int) : Prop := minFixnum ≤ x ∧ x ≤ maxFixnum

instance (x : Int) : Decidable (fixnumRange x) := by unfold fixnumRange; infer_instance

/-- `fixnum(static_cast<std::int32_t>(x))`, under its assertion. -/
def makeFixnum (x : Int) : Step Word :=
  if fixnumRange x then .ok (fixnum x) else .error .undefined

section Builtins
variable (known : Known → Word)

def requireInteger (x : Word) : Step Unit :=
  if tagOf x = .integer then .ok () else signal .typeMismatch [known .integer, x]

def number (x : Word) : Step Int := do
  requireInteger known x
  return integer x

def arithmetic (operation : Int → Int → Int) (result : Int) : List Word → Step Word
  | [] => makeFixnum result
  | x :: rest => do
      let result ← hostInteger (operation result (← number known x))
      if result < minFixnum ∨ result > maxFixnum then signal .fixnumOverflow []
      else arithmetic operation result rest

def add (args : List Word) : Step Word := arithmetic known (· + ·) 0 args

def multiply (args : List Word) : Step Word := arithmetic known (· * ·) 1 args

/-- Unary subtraction is the identity. -/
def subtract (first : Word) (rest : List Word) : Step Word := do
  arithmetic known (· - ·) (← number known first) rest

def divideLoop (result : Int) : List Word → Step Word
  | [] => makeFixnum result
  | x :: rest => do
      let divisor ← number known x
      if divisor = 0 ∨ result = minFixnum ∧ divisor = -1 then
        signal .badFixnumDivision [← makeFixnum result, x]
      else
        -- The host truncates toward zero; Wisp rounds toward minus infinity.
        let remainder ← hostInteger (result.tmod divisor)
        let quotient ← hostInteger (result.tdiv divisor)
        if remainder ≠ 0 ∧ (decide (remainder < 0) ≠ decide (divisor < 0)) then
          divideLoop (quotient - 1) rest
        else divideLoop quotient rest

def divide (first : Word) (rest : List Word) : Step Word :=
  if rest = [] then divideLoop known 1 [first]
  else do
    divideLoop known (← number known first) rest

def moduloOf (dividend divisor : Int) (y : Word) : Step Word :=
  if divisor ≤ 0 then signal .badModulo [y]
  else do
    let result ← hostInteger (dividend.tmod divisor)
    makeFixnum (if result < 0 then result + divisor else result)

def modulo (x y : Word) : Step Word := do
  let dividend ← number known x
  let divisor ← number known y
  moduloOf dividend divisor y

/-- A row of the builtin table: its arity, read off its signature, and its code. -/
structure Native where
  minimum : Nat
  maximum : Option Nat
  invoke : List Word → Step Word

def arithmeticBuiltin : Builtin → Option Native
  | .add => some ⟨0, none, add known⟩
  | .multiply => some ⟨0, none, multiply known⟩
  | .subtract => some ⟨1, none, fun
      | first :: rest => subtract known first rest
      | [] => .error .undefined⟩
  | .divide => some ⟨1, none, fun
      | first :: rest => divide known first rest
      | [] => .error .undefined⟩
  | .modulo => some ⟨2, some 2, fun
      | [x, y] => modulo known x y
      | _ => .error .undefined⟩
  | _ => none

def jetOf (b : Builtin) : Word := immediate .jet (Builtin.all.idxOf b)

def applyNative (b : Builtin) (n : Native) (args : List Word) : Step Word :=
  if args.length < n.minimum ∨ n.maximum.any (fun most => args.length > most) then
    signal .programError [known .invalidArgumentCount, jetOf b]
  else n.invoke args

/-- `operate()`: a condition a builtin throws is wrapped with the builtin. -/
def operate (b : Builtin) (n : Native) (args : List Word) : Step Word :=
  match applyNative known b n args with
  | .error (.signal c) => .error (.signal (.builtinFailure (jetOf b) c))
  | outcome => outcome

end Builtins

/-- The integer a list of integers stands for. -/
def exact : Builtin → List Int → Option Int
  | .add, xs => some xs.sum
  | .multiply, xs => some xs.prod
  | .subtract, x :: xs => some (x - xs.sum)
  | .divide, [x] => some (Int.fdiv 1 x)
  | .divide, x :: y :: xs => some ((y :: xs).foldl Int.fdiv x)
  | .modulo, [x, y] => some (Int.fmod x y)
  | _, _ => none

/-- What the builtins refuse: a wrong number of arguments, a partial result that is no fixnum,
    a zero divisor, a modulus that is not positive. -/
def Refused : Builtin → List Int → Prop
  | .add, xs => ∃ k, ¬ fixnumRange ((xs.take k).sum)
  | .multiply, xs => ∃ k, ¬ fixnumRange ((xs.take k).prod)
  | .subtract, x :: xs => ∃ k, ¬ fixnumRange (x - (xs.take k).sum)
  | .divide, [x] => x = 0
  | .divide, x :: y :: xs => 0 ∈ y :: xs ∨ ∃ k, ¬ fixnumRange (((y :: xs).take k).foldl Int.fdiv x)
  | .modulo, [_, y] => y ≤ 0
  | _, _ => True

theorem integer_small {x : Word} (tag : tagOf x = .integer) : x.toNat < 2 ^ 31 := by
  unfold tagOf at tag
  split at tag
  · assumption
  · unfold Tag.ofCode at tag
    split at tag <;> cases tag

theorem integer_range {x : Word} (tag : tagOf x = .integer) : fixnumRange (integer x) := by
  have small := integer_small tag
  unfold fixnumRange integer minFixnum maxFixnum
  omega

theorem fixnum_toNat (r : Int) : ((fixnum r).toNat : Int) = r % 2 ^ 31 := by
  have low := Int.emod_nonneg r (by decide : (2 ^ 31 : Int) ≠ 0)
  have high := Int.emod_lt_of_pos r (by decide : (0 : Int) < 2 ^ 31)
  rw [fixnum, UInt32.toNat_ofNat', Nat.mod_eq_of_lt (by omega)]
  omega

theorem tagOf_fixnum (r : Int) : tagOf (fixnum r) = .integer := by
  have value := fixnum_toNat r
  have high := Int.emod_lt_of_pos r (by decide : (0 : Int) < 2 ^ 31)
  rw [tagOf, if_pos (by omega)]

theorem integer_fixnum {r : Int} (range : fixnumRange r) : integer (fixnum r) = r := by
  have value := fixnum_toNat r
  unfold fixnumRange minFixnum maxFixnum at range
  unfold integer
  omega

theorem host_fits {x : Int} (low : -(2 ^ 63) ≤ x) (high : x < 2 ^ 63) : hostInteger x = .ok x := by
  simp only [hostInteger, low, high, and_self, if_true]

section Folds
variable {known : Known → Word}

theorem number_fixnum {x : Word} (tag : tagOf x = .integer) : number known x = .ok (integer x) := by
  simp only [number, requireInteger, tag, if_true]
  rfl

variable (known) in
theorem arithmetic_spec {f : Int → Int → Int}
    (bounded : ∀ a b, fixnumRange a → fixnumRange b → -(2 ^ 63) ≤ f a b ∧ f a b < 2 ^ 63) (args : List Word)
    (fixnums : ∀ x ∈ args, tagOf x = .integer) {result : Int} (range : fixnumRange result) :
    (∀ k, fixnumRange (((args.map integer).take k).foldl f result)) ∧ arithmetic known f result args = .ok
    (fixnum ((args.map integer).foldl f result)) ∨ (∃ k, ¬ fixnumRange (((args.map integer).take k).foldl f result)) ∧
    arithmetic known f result args = signal .fixnumOverflow [] := by
  induction args generalizing result with
  | nil =>
    left
    simp only [map_nil, take_nil, foldl_nil, arithmetic, makeFixnum, range, if_true]
    exact ⟨fun _ => trivial, trivial⟩
  | cons x rest ih =>
    have tag := fixnums x (by simp)
    obtain ⟨low, high⟩ := bounded result (integer x) range (integer_range tag)
    have step : arithmetic known f result (x :: rest) =
        if f result (integer x) < minFixnum ∨ f result (integer x) > maxFixnum then
          signal .fixnumOverflow []
        else arithmetic known f (f result (integer x)) rest := by
      simp only [arithmetic, number_fixnum tag, host_fits low high, Bind.bind, Except.bind]
    rw [step]
    by_cases fits : fixnumRange (f result (integer x))
    · have inside : ¬ (f result (integer x) < minFixnum ∨ f result (integer x) > maxFixnum) := by
        unfold fixnumRange at fits
        omega
      rw [if_neg inside]
      rcases ih (fun y mem => fixnums y (by simp [mem])) fits with ⟨all, done⟩ | ⟨⟨k, out⟩, refused⟩
      · left
        refine ⟨fun k => ?_, done⟩
        cases k with
        | zero => simpa using range
        | succ k => exact all k
      · exact Or.inr ⟨⟨k + 1, out⟩, refused⟩
    · have outside : f result (integer x) < minFixnum ∨ f result (integer x) > maxFixnum := by
        unfold fixnumRange at fits
        omega
      rw [if_pos outside]
      exact Or.inr ⟨⟨1, by simpa using fits⟩, rfl⟩

end Folds

theorem floor_of_truncated {a b : Int} (nonzero : b ≠ 0) :
    (if a.tmod b ≠ 0 ∧ (decide (a.tmod b < 0) ≠ decide (b < 0)) then a.tdiv b - 1 else a.tdiv b) = a.fdiv b := by
  rw [Int.fdiv_eq_tdiv]
  by_cases divides : b ∣ a
  · have none_left := Int.dvd_iff_tmod_eq_zero.mp divides
    simp [divides, none_left]
  · have some_left : a.tmod b ≠ 0 := fun zero => divides (Int.dvd_iff_tmod_eq_zero.mpr zero)
    have sign := Int.sign_tmod a b
    rw [if_neg divides] at sign
    have negative : a.tmod b < 0 ↔ a < 0 := by
      rw [← Int.sign_eq_neg_one_iff_neg, sign, Int.sign_eq_neg_one_iff_neg]
    rcases lt_or_gt_of_ne nonzero with below | above
    · have minus := Int.sign_eq_neg_one_of_neg below
      by_cases dividend : a < 0 <;> simp [divides, some_left, negative, dividend, below, minus] <;>
        omega
    · have plus := Int.sign_eq_one_of_pos above
      by_cases dividend : a < 0 <;> simp [divides, some_left, negative, dividend, plus] <;> omega

theorem floor_between {a b : Int} (pos : 0 < b) : min a 0 ≤ a / b ∧ a / b ≤ max a 0 := by
  rcases lt_or_ge a 0 with below | above
  · have upper : a / b < 0 := Int.ediv_neg_of_neg_of_pos below pos
    have lower : a ≤ a / b := by
      apply Int.le_ediv_of_mul_le pos
      nlinarith
    omega
  · have lower := Int.ediv_nonneg above (Int.le_of_lt pos)
    have upper := Int.ediv_le_self b above
    omega

theorem floor_range {a b : Int} (dividend : fixnumRange a) (nonzero : b ≠ 0) :
    fixnumRange (a.fdiv b) ↔ ¬ (a = minFixnum ∧ b = -1) := by
  unfold fixnumRange minFixnum maxFixnum at *
  rcases lt_or_gt_of_ne nonzero with below | above
  · have flip : a.fdiv b = -a / -b := by
      rw [← Int.neg_fdiv_neg, Int.fdiv_eq_ediv_of_nonneg _ (by omega)]
    rw [flip]
    have between := floor_between (a := -a) (b := -b) (by omega)
    by_cases unit : b = -1
    · subst unit
      simp
      omega
    · have half : 2 * (-a / -b) ≤ max (-a) 0 := by
        have product := Int.mul_ediv_self_le (x := -a) (k := -b) (by omega)
        rcases le_or_gt (-a / -b) 0 with small | large
        · omega
        · have twice := Int.mul_le_mul_of_nonneg_right (by omega : 2 ≤ -b) (Int.le_of_lt large)
          omega
      simp only [unit, and_false, not_false_eq_true, iff_true]
      omega
  · rw [Int.fdiv_eq_ediv_of_nonneg _ (Int.le_of_lt above)]
    have between := floor_between (a := a) above
    have positive : b ≠ -1 := by omega
    simp only [positive, and_false, not_false_eq_true, iff_true]
    omega

section Division
variable {known : Known → Word}

theorem truncated_host {a b : Int} (dividend : fixnumRange a) (divisor : fixnumRange b)
    (nonzero : b ≠ 0) : hostInteger (a.tmod b) = .ok (a.tmod b) ∧ hostInteger (a.tdiv b) = .ok (a.tdiv b) := by
  have quotient := Int.natAbs_tdiv_le_natAbs a b
  have remainder : (a.tmod b).natAbs < b.natAbs := by
    rw [Int.natAbs_tmod]
    exact Nat.mod_lt _ (Int.natAbs_pos.mpr nonzero)
  unfold fixnumRange minFixnum maxFixnum at dividend divisor
  exact ⟨host_fits (by omega) (by omega), host_fits (by omega) (by omega)⟩

/-- A fold of floors: exact while every divisor is nonzero and every partial result is a
    fixnum, and otherwise a signal. -/
def Floors (result : Int) (xs : List Int) (outcome : Step Word) : Prop :=
  ((0 ∉ xs ∧ ∀ k, fixnumRange ((xs.take k).foldl Int.fdiv result)) ∧
      outcome = .ok (fixnum (xs.foldl Int.fdiv result))) ∨
    ((0 ∈ xs ∨ ∃ k, ¬ fixnumRange ((xs.take k).foldl Int.fdiv result)) ∧
      ∃ details, outcome = signal .badFixnumDivision details)

theorem divideLoop_floors (args : List Word) (fixnums : ∀ x ∈ args, tagOf x = .integer)
    {result : Int} (range : fixnumRange result) : Floors result (args.map integer) (divideLoop known result args) := by
  induction args generalizing result with
  | nil =>
    left
    simp only [map_nil, take_nil, foldl_nil, divideLoop, makeFixnum, range, if_true]
    exact ⟨⟨not_mem_nil, fun _ => trivial⟩, trivial⟩
  | cons x rest ih =>
    have tag := fixnums x (by simp)
    have divisor := integer_range tag
    by_cases refused : integer x = 0 ∨ result = minFixnum ∧ integer x = -1
    · right
      refine ⟨?_, [fixnum result, x], ?_⟩
      · rcases refused with zero | corner
        · exact Or.inl (by simp [zero])
        · have nonzero : integer x ≠ 0 := by omega
          have out := mt (floor_range range nonzero).mp (not_not.mpr corner)
          exact Or.inr ⟨1, by simpa using out⟩
      · simp only [divideLoop, number_fixnum tag, Bind.bind, Except.bind, refused, if_true, makeFixnum, range]
    · obtain ⟨nonzero, corner⟩ := not_or.mp refused
      obtain ⟨remainder, quotient⟩ := truncated_host range divisor nonzero
      have fits := (floor_range range nonzero).mpr corner
      have step : divideLoop known result (x :: rest) =
          divideLoop known (result.fdiv (integer x)) rest := by
        rw [← floor_of_truncated nonzero]
        simp only [divideLoop, number_fixnum tag, Bind.bind, Except.bind, refused, if_false, remainder,
          quotient]
        split <;> rfl
      rw [step]
      rcases ih (fun y mem => fixnums y (by simp [mem])) fits with
        ⟨⟨none_zero, all⟩, done⟩ | ⟨bad, details, signalled⟩
      · left
        refine ⟨⟨?_, fun k => ?_⟩, done⟩
        · rw [map_cons, mem_cons, not_or]
          exact ⟨fun zero => nonzero zero.symm, none_zero⟩
        cases k with
        | zero => simpa using range
        | succ k => exact all k
      · refine Or.inr ⟨?_, details, signalled⟩
        rcases bad with zero | ⟨k, out⟩
        · exact Or.inl (mem_cons_of_mem _ zero)
        · exact Or.inr ⟨k + 1, out⟩

theorem remainder_of_truncated {a b : Int} (pos : 0 < b) :
    (if a.tmod b < 0 then a.tmod b + b else a.tmod b) = a.fmod b := by
  have low := Int.emod_nonneg a (by omega : b ≠ 0)
  have high := Int.emod_lt_of_pos a pos
  rw [Int.fmod_eq_emod_of_nonneg _ (Int.le_of_lt pos), Int.tmod_eq_emod]
  split <;> split <;> omega

theorem moduloOf_spec {a b : Int} (dividend : fixnumRange a) (divisor : fixnumRange b) (y : Word) : 0 < b ∧ fixnumRange
    (a.fmod b) ∧ moduloOf a b y = .ok (fixnum (a.fmod b)) ∨ b ≤ 0 ∧ moduloOf a b y = signal .badModulo [y] := by
  rcases le_or_gt b 0 with refused | pos
  · exact Or.inr ⟨refused, by simp only [moduloOf, refused, if_true]⟩
  · left
    have positive : ¬ b ≤ 0 := by omega
    obtain ⟨remainder, _⟩ := truncated_host dividend divisor (by omega)
    have low := Int.fmod_nonneg_of_pos a pos
    have high := Int.fmod_lt_of_pos a pos
    have fits : fixnumRange (a.fmod b) := by
      unfold fixnumRange minFixnum maxFixnum at *
      omega
    refine ⟨pos, fits, ?_⟩
    simp only [moduloOf, positive, if_false, remainder, Bind.bind, Except.bind,
      remainder_of_truncated pos, makeFixnum, fits, if_true]

theorem modulo_eq {x y : Word} (left : tagOf x = .integer) (right : tagOf y = .integer) :
    modulo known x y = moduloOf (integer x) (integer y) y := by
  simp only [modulo, number_fixnum left, number_fixnum right, Bind.bind, Except.bind]

end Division

theorem foldl_add (xs : List Int) (a : Int) : xs.foldl (· + ·) a = a + xs.sum := by
  induction xs generalizing a with
  | nil => simp
  | cons x xs ih => rw [foldl_cons, ih, sum_cons, Int.add_assoc]

theorem foldl_mul (xs : List Int) (a : Int) : xs.foldl (· * ·) a = a * xs.prod := by
  induction xs generalizing a with
  | nil => simp
  | cons x xs ih => rw [foldl_cons, ih, prod_cons, Int.mul_assoc]

theorem foldl_sub (xs : List Int) (a : Int) : xs.foldl (· - ·) a = a - xs.sum := by
  induction xs generalizing a with
  | nil => simp
  | cons x xs ih =>
    rw [foldl_cons, ih, sum_cons]
    omega

theorem host_sum {a b : Int} (first : fixnumRange a) (second : fixnumRange b) : -(2 ^ 63) ≤ a + b ∧ a + b < 2 ^ 63 := by
  unfold fixnumRange minFixnum maxFixnum at *
  omega

theorem host_difference {a b : Int} (first : fixnumRange a) (second : fixnumRange b) :
    -(2 ^ 63) ≤ a - b ∧ a - b < 2 ^ 63 := by
  unfold fixnumRange minFixnum maxFixnum at *
  omega

theorem host_product {a b : Int} (first : fixnumRange a) (second : fixnumRange b) :
    -(2 ^ 63) ≤ a * b ∧ a * b < 2 ^ 63 := by
  unfold fixnumRange minFixnum maxFixnum at *
  have size : |a * b| ≤ 2 ^ 30 * 2 ^ 30 := by
    rw [abs_mul]
    exact mul_le_mul (by rw [abs_le]; omega) (by rw [abs_le]; omega) (abs_nonneg b) (by omega)
  rw [abs_le] at size
  omega

section Exact
variable {known : Known → Word} {args : List Word}

/-- What a call on integers comes to: the exact integer as a fixnum, unless it is refused. -/
def Answers (b : Builtin) (xs : List Int) (outcome : Step Word) : Prop :=
  (¬ Refused b xs ∧ ∃ r, exact b xs = some r ∧ fixnumRange r ∧ outcome = .ok (fixnum r)) ∨
    (Refused b xs ∧ ∃ name details, outcome = signal name details)

theorem add_answers (fixnums : ∀ x ∈ args, tagOf x = .integer) : Answers .add (args.map integer) (add known args) := by
  have folds := arithmetic_spec known (@host_sum) args fixnums
    (by decide : fixnumRange 0)
  simp only [foldl_add, Int.zero_add] at folds
  rcases folds with ⟨all, done⟩ | ⟨out, refused⟩
  · have whole := all args.length
    rw [take_of_length_le (by simp)] at whole
    exact Or.inl ⟨fun ⟨k, out⟩ => out (all k), _, rfl, whole, done⟩
  · exact Or.inr ⟨out, _, _, refused⟩

theorem multiply_answers (fixnums : ∀ x ∈ args, tagOf x = .integer) :
    Answers .multiply (args.map integer) (multiply known args) := by
  have folds := arithmetic_spec known (@host_product) args fixnums
    (by decide : fixnumRange 1)
  simp only [foldl_mul, Int.one_mul] at folds
  rcases folds with ⟨all, done⟩ | ⟨out, refused⟩
  · have whole := all args.length
    rw [take_of_length_le (by simp)] at whole
    exact Or.inl ⟨fun ⟨k, out⟩ => out (all k), _, rfl, whole, done⟩
  · exact Or.inr ⟨out, _, _, refused⟩

theorem subtract_answers {first : Word} (tag : tagOf first = .integer) (fixnums : ∀ x ∈ args, tagOf x = .integer) :
    Answers .subtract ((first :: args).map integer) (subtract known first args) := by
  have folds := arithmetic_spec known (@host_difference) args fixnums
    (integer_range tag)
  simp only [foldl_sub] at folds
  have start : subtract known first args =
      arithmetic known (· - ·) (integer first) args := by
    simp only [subtract, number_fixnum tag, Bind.bind, Except.bind]
  rw [start]
  rcases folds with ⟨all, done⟩ | ⟨out, refused⟩
  · have whole := all args.length
    rw [take_of_length_le (by simp)] at whole
    exact Or.inl ⟨fun ⟨k, out⟩ => out (all k), _, rfl, whole, done⟩
  · exact Or.inr ⟨out, _, _, refused⟩

theorem reciprocal_answers {a : Int} {outcome : Step Word} (floors : Floors 1 [a] outcome) :
    Answers .divide [a] outcome := by
  rcases floors with ⟨⟨nonzero, all⟩, done⟩ | ⟨bad, details, signalled⟩
  · refine Or.inl ⟨?_, _, rfl, all 1, done⟩
    intro zero
    have same : a = 0 := zero
    exact nonzero (by simp [same])
  · refine Or.inr ⟨?_, _, _, signalled⟩
    rcases bad with zero | ⟨k, out⟩
    · have same : a = 0 := (mem_singleton.mp zero).symm
      exact same
    · -- The reciprocal of a nonzero fixnum is always a fixnum.
      by_contra nonzero
      have one : fixnumRange 1 := by decide
      have fits := (floor_range one nonzero).mpr (by simp [minFixnum])
      cases k with
      | zero => exact out (by simpa using one)
      | succ k => exact out (by simpa using fits)

theorem quotient_answers {a b : Int} {xs : List Int} {outcome : Step Word}
    (floors : Floors a (b :: xs) outcome) : Answers .divide (a :: b :: xs) outcome := by
  rcases floors with ⟨⟨nonzero, all⟩, done⟩ | ⟨bad, details, signalled⟩
  · have whole := all (xs.length + 1)
    rw [take_of_length_le (by simp)] at whole
    refine Or.inl ⟨?_, _, rfl, whole, done⟩
    rintro (zero | ⟨k, out⟩)
    · exact nonzero zero
    · exact out (all k)
  · exact Or.inr ⟨bad, _, _, signalled⟩

theorem divide_answers {first : Word} (tag : tagOf first = .integer) (fixnums : ∀ x ∈ args, tagOf x = .integer) :
    Answers .divide (integer first :: args.map integer) (divide known first args) := by
  cases args with
  | nil =>
    apply reciprocal_answers
    exact divideLoop_floors [first] (by simpa using tag) (by decide : fixnumRange 1)
  | cons y rest =>
    apply quotient_answers
    simp only [divide, reduceCtorEq, if_false, number_fixnum tag, Bind.bind, Except.bind]
    exact divideLoop_floors (y :: rest) fixnums (integer_range tag)

theorem modulo_answers {x y : Word} (left : tagOf x = .integer) (right : tagOf y = .integer) :
    Answers .modulo ([x, y].map integer) (modulo known x y) := by
  rw [modulo_eq left right]
  rcases moduloOf_spec (integer_range left) (integer_range right) y with
    ⟨pos, fits, done⟩ | ⟨refused, signalled⟩
  · exact Or.inl ⟨fun refused => by
      simp only [map_cons, map_nil, Refused] at refused
      omega, _, rfl, fits, done⟩
  · exact Or.inr ⟨refused, _, _, signalled⟩

theorem applyNative_answers {b : Builtin} {n : Native} (row : arithmeticBuiltin known b = some n) (args : List Word)
    (fixnums : ∀ x ∈ args, tagOf x = .integer) : Answers b (args.map integer) (applyNative known b n args) := by
  cases b <;> simp only [arithmeticBuiltin, Option.some.injEq, reduceCtorEq] at row <;> subst row
  case add =>
    simpa [applyNative] using add_answers fixnums
  case multiply =>
    simpa [applyNative] using multiply_answers fixnums
  case subtract =>
    cases args with
    | nil => exact Or.inr ⟨trivial, _, _, rfl⟩
    | cons first rest =>
      simpa [applyNative] using subtract_answers (fixnums first (by simp))
        (fun x mem => fixnums x (by simp [mem]))
  case divide =>
    cases args with
    | nil => exact Or.inr ⟨trivial, _, _, rfl⟩
    | cons first rest =>
      simpa [applyNative] using divide_answers (fixnums first (by simp))
        (fun x mem => fixnums x (by simp [mem]))
  case modulo =>
    match args with
    | [] => exact Or.inr ⟨trivial, _, _, rfl⟩
    | [_] => exact Or.inr ⟨trivial, _, _, rfl⟩
    | [x, y] =>
      simpa [applyNative] using modulo_answers (fixnums x (by simp)) (fixnums y (by simp))
    | _ :: _ :: _ :: _ => exact Or.inr ⟨trivial, _, _, by simp [applyNative]; rfl⟩

end Exact

theorem exact_modulo {xs : List Int} {r : Int} (value : exact .modulo xs = some r)
    (accepted : ¬ Refused .modulo xs) : ∃ a b q, xs = [a, b] ∧ a = q * b + r ∧ 0 ≤ r ∧ r < b := by
  match xs with
  | [] => cases value
  | [_] => cases value
  | [a, b] =>
    have pos : 0 < b := not_le.mp accepted
    cases value
    exact ⟨a, b, a.fdiv b, rfl, (Int.fdiv_mul_add_fmod a b).symm, Int.fmod_nonneg_of_pos a pos,
      Int.fmod_lt_of_pos a pos⟩
  | _ :: _ :: _ :: _ => cases value

/-- Every list of fixnums: the builtins give the fixnum of the exact integer, and they signal
    exactly on what they refuse. Nothing the host leaves undefined is ever reached. -/
theorem arithmetic_exact (known : Known → Word) (b : Builtin) (n : Native)
    (row : arithmeticBuiltin known b = some n) (args : List Word) (fixnums : ∀ x ∈ args, tagOf x = .integer) :
    (∃ w, operate known b n args = .ok w ∧ tagOf w = .integer ∧ fixnumRange (integer w) ∧
        exact b (args.map integer) = some (integer w) ∧ ¬ Refused b (args.map integer) ∧
        (b = .modulo → ∃ x y q, args.map integer = [x, y] ∧ x = q * y + integer w ∧
          0 ≤ integer w ∧ integer w < y)) ∨ ∃ name details, operate known b n args =
          .error (.signal (.builtinFailure (jetOf b) (.named name details))) ∧ Refused b (args.map integer) := by
  rcases applyNative_answers row args fixnums with ⟨accepted, r, value, range, done⟩ |
    ⟨refused, name, details, signalled⟩
  · left
    have decoded := integer_fixnum range
    refine ⟨fixnum r, by simp only [operate, done], tagOf_fixnum r, by rwa [decoded],
      by rw [decoded, value], accepted, ?_⟩
    rintro rfl
    rw [decoded]
    exact exact_modulo value accepted
  · right
    exact ⟨name, details, by simp only [operate, signalled, signal], refused⟩

/-- A remainder of a negative number. -/
theorem arithmetic_exact_modulo :
    let n : Native := ⟨2, some 2, fun
      | [x, y] => modulo (fun _ => nil) x y
      | _ => .error .undefined⟩
    (∃ w, operate (fun _ => nil) .modulo n [fixnum (-7), fixnum 2] = .ok w ∧
        exact .modulo ([fixnum (-7), fixnum 2].map integer) = some (integer w)) ∨
      Refused .modulo ([fixnum (-7), fixnum 2].map integer) := by
  intro n
  rcases arithmetic_exact (fun _ => nil) .modulo n rfl [fixnum (-7), fixnum 2] (by simp [tagOf_fixnum]) with
    ⟨w, done, _, _, value, _⟩ | ⟨_, _, _, refused⟩
  · exact Or.inl ⟨w, done, value⟩
  · exact Or.inr refused

end Nxt.Wisp
