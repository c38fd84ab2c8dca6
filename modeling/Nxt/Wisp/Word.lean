import Mathlib

/- Tagged 32-bit words and the column schemas of Wisp's tables (word.hpp, vat.hpp).
   The source packs fields with shifts and masks; within the ranges its assertions state,
   these are the products and remainders written here. -/
namespace Nxt.Wisp

abbrev Word := UInt32

/-- The tag space of words from 0x80000000 on; 0x10 is the one pattern without a name. -/
inductive Tag where
  | integer | unknown | sys | chr | jet | record | duo | sym | func | mac | v32 | v08 | pkg
  | run | ktx | ext | pin
  deriving DecidableEq

def Tag.code : Tag → Nat
  | .integer => 0x00
  | .unknown => 0x10
  | .sys => 0x11
  | .chr => 0x12
  | .jet => 0x13
  | .record => 0x14
  | .duo => 0x15
  | .sym => 0x16
  | .func => 0x17
  | .mac => 0x18
  | .v32 => 0x19
  | .v08 => 0x1a
  | .pkg => 0x1b
  | .run => 0x1c
  | .ktx => 0x1d
  | .ext => 0x1e
  | .pin => 0x1f

def Tag.ofCode : Nat → Tag
  | 0x11 => .sys
  | 0x12 => .chr
  | 0x13 => .jet
  | 0x14 => .record
  | 0x15 => .duo
  | 0x16 => .sym
  | 0x17 => .func
  | 0x18 => .mac
  | 0x19 => .v32
  | 0x1a => .v08
  | 0x1b => .pkg
  | 0x1c => .run
  | 0x1d => .ktx
  | 0x1e => .ext
  | 0x1f => .pin
  | _ => .unknown

/-- The pointer tags, in the order of the vat's tables. -/
inductive Kind where
  | duo | sym | func | mac | v32 | v08 | pkg | run | ktx | ext | record
  deriving DecidableEq

def Kind.all : List Kind :=
  [.duo, .sym, .func, .mac, .v32, .v08, .pkg, .run, .ktx, .ext, .record]

theorem Kind.mem_all (k : Kind) : k ∈ Kind.all := by cases k <;> decide

def Kind.tag : Kind → Tag
  | .duo => .duo
  | .sym => .sym
  | .func => .func
  | .mac => .mac
  | .v32 => .v32
  | .v08 => .v08
  | .pkg => .pkg
  | .run => .run
  | .ktx => .ktx
  | .ext => .ext
  | .record => .record

def Tag.kind? : Tag → Option Kind
  | .duo => some .duo
  | .sym => some .sym
  | .func => some .func
  | .mac => some .mac
  | .v32 => some .v32
  | .v08 => some .v08
  | .pkg => some .pkg
  | .run => some .run
  | .ktx => some .ktx
  | .ext => some .ext
  | .record => some .record
  | _ => none

def maxIndex : Nat := 2 ^ 26 - 1
def maxImmediate : Nat := 2 ^ 27 - 1
def maxWord : Nat := 2 ^ 32 - 1
def minFixnum : Int := -(2 ^ 30)
def maxFixnum : Int := 2 ^ 30 - 1

def tagOf (x : Word) : Tag :=
  if x.toNat < 2 ^ 31 then .integer else Tag.ofCode (x.toNat / 2 ^ 27)

def isPointer (t : Tag) : Bool := t.kind?.isSome

def fixnum (x : Int) : Word := UInt32.ofNat (x % 2 ^ 31).toNat

/-- Sign extension of bit 30. -/
def integer (x : Word) : Int := (x.toNat % 2 ^ 30 : Nat) - (x.toNat / 2 ^ 30 % 2 * 2 ^ 30 : Nat)

def immediate (t : Tag) (payload : Nat) : Word := UInt32.ofNat (t.code * 2 ^ 27 + payload)

def pointer (k : Kind) (index : Nat) (era : Bool) : Word :=
  UInt32.ofNat (k.tag.code * 2 ^ 27 + index * 2 + era.toNat)

def indexOf (x : Word) : Nat := x.toNat / 2 % 2 ^ 26

def eraOf (x : Word) : Bool := x.toNat % 2 = 1

def payloadOf (x : Word) : Nat := x.toNat % 2 ^ 27

def nil : Word := immediate .sys 0
def t : Word := immediate .sys 1
def nah : Word := immediate .sys 2
def zap : Word := immediate .sys 3
def top : Word := immediate .sys 4

inductive Field where
  | car | cdr | str | pkg | val | func | dyn | env | par | exp | sym | cnt | idx | len | nam
  | use | hop | acc | arg | err | way | mta
  deriving DecidableEq

inductive FieldKind where
  | value | offset | length | count | external
  deriving DecidableEq

structure Column where
  id : Field
  name : String
  kind : FieldKind
  deriving DecidableEq

private def closureColumns : List Column :=
  [⟨.env, "env", .value⟩, ⟨.par, "par", .value⟩, ⟨.exp, "exp", .value⟩, ⟨.sym, "sym", .value⟩,
   ⟨.cnt, "cnt", .count⟩]

private def sliceColumns : List Column := [⟨.idx, "idx", .offset⟩, ⟨.len, "len", .length⟩]

def schema : Kind → List Column
  | .duo => [⟨.car, "car", .value⟩, ⟨.cdr, "cdr", .value⟩]
  | .sym => [⟨.str, "str", .value⟩, ⟨.pkg, "pkg", .value⟩, ⟨.val, "val", .value⟩,
             ⟨.func, "fun", .value⟩, ⟨.dyn, "dyn", .value⟩]
  | .func => closureColumns
  | .mac => closureColumns
  | .v08 => sliceColumns
  | .v32 => sliceColumns
  | .record => sliceColumns
  | .pkg => [⟨.nam, "nam", .value⟩, ⟨.sym, "sym", .value⟩, ⟨.use, "use", .value⟩]
  | .run => [⟨.exp, "exp", .value⟩, ⟨.val, "val", .value⟩, ⟨.err, "err", .value⟩,
             ⟨.env, "env", .value⟩, ⟨.way, "way", .value⟩, ⟨.mta, "meta", .value⟩]
  | .ktx => [⟨.hop, "hop", .value⟩, ⟨.env, "env", .value⟩, ⟨.func, "fun", .value⟩,
             ⟨.acc, "acc", .value⟩, ⟨.arg, "arg", .value⟩]
  | .ext => [⟨.idx, "idx", .external⟩, ⟨.val, "val", .value⟩]

def width (k : Kind) : Nat := (schema k).length

def columnIndex (k : Kind) (f : Field) : Nat := (schema k).findIdx (·.id = f)

def wordPayload : Kind → Bool
  | .v32 => true
  | .record => true
  | _ => false

theorem two_le_width (k : Kind) : 2 ≤ width k := by cases k <;> decide

@[simp] theorem kind?_tag (k : Kind) : k.tag.kind? = some k := by cases k <;> rfl

theorem kind?_eq_some {g : Tag} {k : Kind} : g.kind? = some k ↔ g = k.tag := by
  constructor
  · intro h
    cases g <;> simp only [Tag.kind?, Option.some.injEq, reduceCtorEq] at h <;> subst h <;> rfl
  · rintro rfl
    exact kind?_tag k

theorem index_lt (x : Word) : indexOf x < 2 ^ 26 := Nat.mod_lt _ (by decide)

theorem code_range (k : Kind) : 0x14 ≤ k.tag.code ∧ k.tag.code ≤ 0x1e := by cases k <;> decide

theorem ofCode_tag (k : Kind) : Tag.ofCode k.tag.code = k.tag := by cases k <;> rfl

section Pointers
variable (k : Kind) {i : Nat} (e : Bool)

theorem pointer_toNat (hi : i < 2 ^ 26) : (pointer k i e).toNat = k.tag.code * 2 ^ 27 + i * 2 + e.toNat := by
  have range := code_range k
  have bit : e.toNat ≤ 1 := by cases e <;> decide
  rw [pointer, UInt32.toNat_ofNat']
  apply Nat.mod_eq_of_lt
  omega

@[simp] theorem tagOf_pointer (hi : i < 2 ^ 26) : tagOf (pointer k i e) = k.tag := by
  have range := code_range k
  have bit : e.toNat ≤ 1 := by cases e <;> decide
  rw [tagOf, pointer_toNat k e hi, if_neg (by omega)]
  rw [show (k.tag.code * 2 ^ 27 + i * 2 + e.toNat) / 2 ^ 27 = k.tag.code by omega]
  exact ofCode_tag k

@[simp] theorem indexOf_pointer (hi : i < 2 ^ 26) : indexOf (pointer k i e) = i := by
  have bit : e.toNat ≤ 1 := by cases e <;> decide
  rw [indexOf, pointer_toNat k e hi]
  omega

@[simp] theorem eraOf_pointer (hi : i < 2 ^ 26) : eraOf (pointer k i e) = e := by
  rw [eraOf, pointer_toNat k e hi]
  cases e <;> simp [Nat.add_mod, Nat.mul_mod]

theorem pointer_ne_zap (hi : i < 2 ^ 26) {e : Bool} : pointer k i e ≠ zap := by
  intro same
  have tag := congrArg tagOf same
  rw [tagOf_pointer k e hi] at tag
  have system : tagOf zap = .sys := by decide
  rw [system] at tag
  cases k <;> cases tag

end Pointers

theorem ofCode_eq_tag {n : Nat} {k : Kind} (h : Tag.ofCode n = k.tag) : n = k.tag.code := by
  unfold Tag.ofCode at h
  split at h <;> cases k <;> simp_all [Kind.tag, Tag.code]

theorem pointer_eta {x : Word} {k : Kind} (h : tagOf x = k.tag) : pointer k (indexOf x) (eraOf x) = x := by
  have bound := x.toNat_lt
  have code : x.toNat / 2 ^ 27 = k.tag.code := by
    unfold tagOf at h
    split at h
    · cases k <;> simp [Kind.tag] at h
    · exact ofCode_eq_tag h
  rw [← UInt32.toNat_inj, pointer_toNat k _ (index_lt x), indexOf, eraOf]
  have bit : (decide (x.toNat % 2 = 1)).toNat = x.toNat % 2 := by
    rcases Nat.mod_two_eq_zero_or_one x.toNat with zero | one
    · simp [zero]
    · simp [one]
  rw [bit]
  omega

theorem immediate_eta {x : Word} (h : tagOf x = .jet) : immediate .jet (payloadOf x) = x := by
  have bound := x.toNat_lt
  have code : x.toNat / 2 ^ 27 = 0x13 := by
    unfold tagOf at h
    split at h
    · cases h
    · unfold Tag.ofCode at h
      split at h <;> first | assumption | cases h
  rw [← UInt32.toNat_inj, immediate, UInt32.toNat_ofNat', payloadOf]
  simp only [Tag.code]
  omega

end Nxt.Wisp
