import Mathlib

/- The AES block cipher (nxt/crypto/aes128gcm.cpp), and that decryption undoes encryption. -/
namespace Nxt.Crypto

abbrev Block := Vector UInt8 16

def sboxTable : List UInt8 :=
  [0x63,0x7c,0x77,0x7b,0xf2,0x6b,0x6f,0xc5,0x30,0x01,0x67,0x2b,0xfe,0xd7,0xab,0x76,
   0xca,0x82,0xc9,0x7d,0xfa,0x59,0x47,0xf0,0xad,0xd4,0xa2,0xaf,0x9c,0xa4,0x72,0xc0,
   0xb7,0xfd,0x93,0x26,0x36,0x3f,0xf7,0xcc,0x34,0xa5,0xe5,0xf1,0x71,0xd8,0x31,0x15,
   0x04,0xc7,0x23,0xc3,0x18,0x96,0x05,0x9a,0x07,0x12,0x80,0xe2,0xeb,0x27,0xb2,0x75,
   0x09,0x83,0x2c,0x1a,0x1b,0x6e,0x5a,0xa0,0x52,0x3b,0xd6,0xb3,0x29,0xe3,0x2f,0x84,
   0x53,0xd1,0x00,0xed,0x20,0xfc,0xb1,0x5b,0x6a,0xcb,0xbe,0x39,0x4a,0x4c,0x58,0xcf,
   0xd0,0xef,0xaa,0xfb,0x43,0x4d,0x33,0x85,0x45,0xf9,0x02,0x7f,0x50,0x3c,0x9f,0xa8,
   0x51,0xa3,0x40,0x8f,0x92,0x9d,0x38,0xf5,0xbc,0xb6,0xda,0x21,0x10,0xff,0xf3,0xd2,
   0xcd,0x0c,0x13,0xec,0x5f,0x97,0x44,0x17,0xc4,0xa7,0x7e,0x3d,0x64,0x5d,0x19,0x73,
   0x60,0x81,0x4f,0xdc,0x22,0x2a,0x90,0x88,0x46,0xee,0xb8,0x14,0xde,0x5e,0x0b,0xdb,
   0xe0,0x32,0x3a,0x0a,0x49,0x06,0x24,0x5c,0xc2,0xd3,0xac,0x62,0x91,0x95,0xe4,0x79,
   0xe7,0xc8,0x37,0x6d,0x8d,0xd5,0x4e,0xa9,0x6c,0x56,0xf4,0xea,0x65,0x7a,0xae,0x08,
   0xba,0x78,0x25,0x2e,0x1c,0xa6,0xb4,0xc6,0xe8,0xdd,0x74,0x1f,0x4b,0xbd,0x8b,0x8a,
   0x70,0x3e,0xb5,0x66,0x48,0x03,0xf6,0x0e,0x61,0x35,0x57,0xb9,0x86,0xc1,0x1d,0x9e,
   0xe1,0xf8,0x98,0x11,0x69,0xd9,0x8e,0x94,0x9b,0x1e,0x87,0xe9,0xce,0x55,0x28,0xdf,
   0x8c,0xa1,0x89,0x0d,0xbf,0xe6,0x42,0x68,0x41,0x99,0x2d,0x0f,0xb0,0x54,0xbb,0x16]

def invSboxTable : List UInt8 :=
  (List.range 256).foldl (fun out i => out.set (sboxTable.getD i 0).toNat (UInt8.ofNat i))
    (List.replicate 256 0)

def sbox (b : UInt8) : UInt8 := sboxTable.getD b.toNat 0
def invSbox (b : UInt8) : UInt8 := invSboxTable.getD b.toNat 0

def xtime (value : UInt8) : UInt8 := (value <<< 1) ^^^ ((value >>> 7) * 0x1b)

/-- One round of the loop of `gmul` after another. -/
def gmulLoop : Nat → UInt8 → UInt8 → UInt8 → UInt8
  | 0, out, _, _ => out
  | n + 1, out, a, b =>
      gmulLoop n (if b &&& 1 ≠ 0 then out ^^^ a else out)
        (if a &&& 0x80 ≠ 0 then (a <<< 1) ^^^ 0x1b else a <<< 1) (b >>> 1)

def gmul (a b : UInt8) : UInt8 := gmulLoop 8 0 a b

def addRoundKey (state : Block) (roundKeys : List UInt8) (round : Nat) : Block :=
  Vector.ofFn fun i => state[i] ^^^ roundKeys.getD (round * 16 + i.val) 0

def rowsFrom : Vector (Fin 16) 16 := #v[0,5,10,15, 4,9,14,3, 8,13,2,7, 12,1,6,11]
def invRowsFrom : Vector (Fin 16) 16 := #v[0,13,10,7, 4,1,14,11, 8,5,2,15, 12,9,6,3]

def shiftRows (state : Block) : Block := Vector.ofFn fun i => state[rowsFrom[i]]
def invShiftRows (state : Block) : Block := Vector.ofFn fun i => state[invRowsFrom[i]]

@[ext] structure Column where
  a0 : UInt8
  a1 : UInt8
  a2 : UInt8
  a3 : UInt8
  deriving DecidableEq

def mixColumn (a : Column) : Column where
  a0 := gmul a.a0 2 ^^^ gmul a.a1 3 ^^^ a.a2 ^^^ a.a3
  a1 := a.a0 ^^^ gmul a.a1 2 ^^^ gmul a.a2 3 ^^^ a.a3
  a2 := a.a0 ^^^ a.a1 ^^^ gmul a.a2 2 ^^^ gmul a.a3 3
  a3 := gmul a.a0 3 ^^^ a.a1 ^^^ a.a2 ^^^ gmul a.a3 2

def invMixColumn (a : Column) : Column where
  a0 := gmul a.a0 14 ^^^ gmul a.a1 11 ^^^ gmul a.a2 13 ^^^ gmul a.a3 9
  a1 := gmul a.a0 9 ^^^ gmul a.a1 14 ^^^ gmul a.a2 11 ^^^ gmul a.a3 13
  a2 := gmul a.a0 13 ^^^ gmul a.a1 9 ^^^ gmul a.a2 14 ^^^ gmul a.a3 11
  a3 := gmul a.a0 11 ^^^ gmul a.a1 13 ^^^ gmul a.a2 9 ^^^ gmul a.a3 14

def onColumns (f : Column → Column) (s : Block) : Block :=
  let c0 := f ⟨s[0], s[1], s[2], s[3]⟩
  let c1 := f ⟨s[4], s[5], s[6], s[7]⟩
  let c2 := f ⟨s[8], s[9], s[10], s[11]⟩
  let c3 := f ⟨s[12], s[13], s[14], s[15]⟩
  #v[c0.a0, c0.a1, c0.a2, c0.a3, c1.a0, c1.a1, c1.a2, c1.a3,
    c2.a0, c2.a1, c2.a2, c2.a3, c3.a0, c3.a1, c3.a2, c3.a3]

def mixColumns (state : Block) : Block := onColumns mixColumn state
def invMixColumns (state : Block) : Block := onColumns invMixColumn state

/-- A round of the loop of `aes_encrypt_block`. -/
def encryptRound (roundKeys : List UInt8) (rounds : Nat) (s : Block) (round : Nat) : Block :=
  let s := shiftRows (s.map sbox)
  let s := if round < rounds then mixColumns s else s
  addRoundKey s roundKeys round

def aesEncryptBlock (roundKeys : List UInt8) (rounds : Nat) (input : Block) : Block :=
  (List.range' 1 rounds).foldl (encryptRound roundKeys rounds) (addRoundKey input roundKeys 0)

/-- A round of the loop of `aes_decrypt_block`. -/
def decryptRound (roundKeys : List UInt8) (s : Block) (round : Nat) : Block :=
  invMixColumns (addRoundKey ((invShiftRows s).map invSbox) roundKeys round)

def aesDecryptBlock (roundKeys : List UInt8) (rounds : Nat) (input : Block) : Block :=
  let s := addRoundKey input roundKeys rounds
  let s := (List.range' 1 (rounds - 1)).reverse.foldl (decryptRound roundKeys) s
  addRoundKey ((invShiftRows s).map invSbox) roundKeys 0

/-! ### Steps undone -/

theorem addRoundKey_twice (s : Block) (roundKeys : List UInt8) (round : Nat) :
    addRoundKey (addRoundKey s roundKeys round) roundKeys round = s := by
  apply Vector.ext
  intro i small
  simp [addRoundKey]

theorem invShiftRows_shiftRows (s : Block) : invShiftRows (shiftRows s) = s := by
  have back : ∀ i : Fin 16, rowsFrom[invRowsFrom[i]] = i := by decide
  apply Vector.ext
  intro i small
  have here := back ⟨i, small⟩
  simp only [invShiftRows, shiftRows, Vector.getElem_ofFn, Fin.getElem_fin] at here ⊢
  simp only [here]

theorem onColumns_inverse {f g : Column → Column} (back : ∀ a, g (f a) = a) (s : Block) :
    onColumns g (onColumns f s) = s := by
  have fused : onColumns g (onColumns f s) = onColumns (fun a => g (f a)) s := rfl
  rw [fused, funext back]
  apply Vector.ext
  intro i small
  interval_cases i <;> rfl

/-! ### The substitution -/

theorem fill_inverse {f : Nat → Nat} (n : Nat) (init : List UInt8)
    (inside : ∀ i < n, f i < init.length) (injective : ∀ i < n, ∀ j < n, f i = f j → i = j) :
    ∀ i < n, ((List.range n).foldl (fun out i => out.set (f i) (UInt8.ofNat i)) init).getD (f i) 0 = UInt8.ofNat i := by
  have length : ∀ m, ((List.range m).foldl (fun out i => out.set (f i) (UInt8.ofNat i)) init).length =
      init.length := by
    intro m
    induction m with
    | zero => rfl
    | succ m ih => rw [List.range_succ, List.foldl_append, List.foldl_cons, List.foldl_nil, List.length_set, ih]
  induction n with
  | zero => exact fun i small => absurd small (Nat.not_lt_zero i)
  | succ n ih =>
    intro i small
    rw [List.range_succ, List.foldl_append, List.foldl_cons, List.foldl_nil,
      List.getD_eq_getElem?_getD, List.getElem?_set, length]
    by_cases last : f n = f i
    · rw [if_pos last, if_pos (inside n (Nat.lt_succ_self n)), injective n (Nat.lt_succ_self n) i small last]
      rfl
    · have before : i < n := Nat.lt_of_le_of_ne (Nat.le_of_lt_succ small) fun eq => last (by rw [eq])
      rw [if_neg last, ← List.getD_eq_getElem?_getD]
      exact ih (fun j less => inside j (Nat.lt_succ_of_lt less)) (fun j less k less' => injective j
        (Nat.lt_succ_of_lt less) k (Nat.lt_succ_of_lt less')) i before

theorem sbox_nodup : sboxTable.Nodup := by decide +kernel

theorem invSbox_sbox (b : UInt8) : invSbox (sbox b) = b := by
  have whole : sboxTable.length = 256 := by decide +kernel
  have injective : ∀ i < 256, ∀ j < 256, (sboxTable.getD i 0).toNat = (sboxTable.getD j 0).toNat →
      i = j := by
    intro i first j second same
    have equal := UInt8.toNat_inj.mp same
    rw [List.getD_eq_getElem _ _ (whole ▸ first), List.getD_eq_getElem _ _ (whole ▸ second)] at equal
    exact (List.Nodup.getElem_inj_iff sbox_nodup).mp equal
  have filled := fill_inverse 256 (List.replicate 256 0)
    (fun i _ => by rw [List.length_replicate]; exact (sboxTable.getD i 0).toNat_lt) injective
    b.toNat b.toNat_lt
  rw [invSbox, sbox, invSboxTable, filled, UInt8.ofNat_toNat]

/-! ### The mixing of columns -/

/-- The step from one power to the next in `gmul`. -/
def double (a : UInt8) : UInt8 := if a &&& 0x80 ≠ 0 then (a <<< 1) ^^^ 0x1b else a <<< 1

theorem double_eq (a : UInt8) :
    double a = (a <<< 1) ^^^ ((a >>> 7) ^^^ ((a >>> 7) <<< 1) ^^^ ((a >>> 7) <<< 3) ^^^ ((a >>> 7) <<< 4)) := by
  have all : ∀ n < 256, double (UInt8.ofNat n) = (UInt8.ofNat n <<< 1) ^^^ ((UInt8.ofNat n >>> 7) ^^^
      ((UInt8.ofNat n >>> 7) <<< 1) ^^^ ((UInt8.ofNat n >>> 7) <<< 3) ^^^
      ((UInt8.ofNat n >>> 7) <<< 4)) := by decide +kernel
  have here := all a.toNat a.toNat_lt
  rwa [UInt8.ofNat_toNat] at here

theorem double_xor (a b : UInt8) : double (a ^^^ b) = double a ^^^ double b := by
  simp only [double_eq, UInt8.shiftLeft_xor, UInt8.shiftRight_xor]
  ac_rfl

theorem gmulLoop_xor (n : Nat) (p q a b k : UInt8) :
    gmulLoop n (p ^^^ q) (a ^^^ b) k = gmulLoop n p a k ^^^ gmulLoop n q b k := by
  induction n generalizing p q a b k with
  | zero => rfl
  | succ n ih =>
    change gmulLoop n (if k &&& 1 ≠ 0 then p ^^^ q ^^^ (a ^^^ b) else p ^^^ q) (double (a ^^^ b)) (k >>> 1) =
      gmulLoop n (if k &&& 1 ≠ 0 then p ^^^ a else p) (double a) (k >>> 1) ^^^
        gmulLoop n (if k &&& 1 ≠ 0 then q ^^^ b else q) (double b) (k >>> 1)
    rw [← ih, ← double_xor]
    congr 1
    split
    · ac_rfl
    · rfl

theorem gmul_xor (a b k : UInt8) : gmul (a ^^^ b) k = gmul a k ^^^ gmul b k := by
  rw [gmul, gmul, gmul, ← gmulLoop_xor, UInt8.xor_zero]

theorem rows_unit (a : UInt8) : gmul (gmul a 2) 14 ^^^ gmul a 11 ^^^ gmul a 13 ^^^ gmul (gmul a 3) 9 = a ∧ gmul
    (gmul a 3) 14 ^^^ gmul (gmul a 2) 11 ^^^ gmul a 13 ^^^ gmul a 9 = 0 ∧ gmul a 14 ^^^ gmul (gmul a 3) 11 ^^^ gmul
    (gmul a 2) 13 ^^^ gmul a 9 = 0 ∧ gmul a 14 ^^^ gmul a 11 ^^^ gmul (gmul a 3) 13 ^^^ gmul (gmul a 2) 9 = 0 := by
  have all : ∀ n < 256, let a := UInt8.ofNat n
      gmul (gmul a 2) 14 ^^^ gmul a 11 ^^^ gmul a 13 ^^^ gmul (gmul a 3) 9 = a ∧
      gmul (gmul a 3) 14 ^^^ gmul (gmul a 2) 11 ^^^ gmul a 13 ^^^ gmul a 9 = 0 ∧
      gmul a 14 ^^^ gmul (gmul a 3) 11 ^^^ gmul (gmul a 2) 13 ^^^ gmul a 9 = 0 ∧
      gmul a 14 ^^^ gmul a 11 ^^^ gmul (gmul a 3) 13 ^^^ gmul (gmul a 2) 9 = 0 := by
    decide +kernel
  have here := all a.toNat a.toNat_lt
  rwa [UInt8.ofNat_toNat] at here

theorem invMixColumn_mixColumn (a : Column) : invMixColumn (mixColumn a) = a := by
  obtain ⟨one0, b0, c0, d0⟩ := rows_unit a.a0
  obtain ⟨one1, b1, c1, d1⟩ := rows_unit a.a1
  obtain ⟨one2, b2, c2, d2⟩ := rows_unit a.a2
  obtain ⟨one3, b3, c3, d3⟩ := rows_unit a.a3
  have four : ∀ {p q r s : UInt8} (w x y z : UInt8), w = p → x = q → y = r → z = s →
      w ^^^ x ^^^ y ^^^ z = p ^^^ q ^^^ r ^^^ s := by
    rintro _ _ _ _ _ _ _ _ rfl rfl rfl rfl
    rfl
  apply Column.ext
  · have sum := four _ _ _ _ one0 b1 c2 d3
    rw [UInt8.xor_zero, UInt8.xor_zero, UInt8.xor_zero] at sum
    rw [← sum]
    simp only [invMixColumn, mixColumn, gmul_xor]
    ac_rfl
  · have sum := four _ _ _ _ d0 one1 b2 c3
    rw [UInt8.zero_xor, UInt8.xor_zero, UInt8.xor_zero] at sum
    rw [← sum]
    simp only [invMixColumn, mixColumn, gmul_xor]
    ac_rfl
  · have sum := four _ _ _ _ c0 d1 one2 b3
    rw [UInt8.zero_xor, UInt8.zero_xor, UInt8.xor_zero] at sum
    rw [← sum]
    simp only [invMixColumn, mixColumn, gmul_xor]
    ac_rfl
  · have sum := four _ _ _ _ b0 c1 d2 one3
    rw [UInt8.zero_xor, UInt8.zero_xor, UInt8.zero_xor] at sum
    rw [← sum]
    simp only [invMixColumn, mixColumn, gmul_xor]
    ac_rfl

/-! ### Blocks -/

theorem map_invSbox_sbox (s : Block) : (s.map sbox).map invSbox = s := by
  apply Vector.ext
  intro i small
  rw [Vector.getElem_map, Vector.getElem_map, invSbox_sbox]

theorem unshift (s : Block) : (invShiftRows (shiftRows (s.map sbox))).map invSbox = s := by
  rw [invShiftRows_shiftRows, map_invSbox_sbox]

theorem decryptRound_encryptRound (roundKeys : List UInt8) {rounds round : Nat} (before : round < rounds)
    (s : Block) : decryptRound roundKeys
      (shiftRows ((encryptRound roundKeys rounds s round).map sbox)) round = shiftRows (s.map sbox) := by
  rw [decryptRound, unshift, encryptRound, if_pos before, addRoundKey_twice]
  exact onColumns_inverse invMixColumn_mixColumn _

theorem rounds_undone (roundKeys : List UInt8) {rounds : Nat} (s : Block) (n : Nat) (few : n < rounds) :
    (List.range' 1 n).reverse.foldl (decryptRound roundKeys)
      (shiftRows (((List.range' 1 n).foldl (encryptRound roundKeys rounds) s).map sbox)) = shiftRows (s.map sbox) := by
  induction n with
  | zero => rfl
  | succ n ih =>
    rw [List.range'_concat, List.foldl_append, List.reverse_append, List.foldl_append,
      List.reverse_singleton, List.foldl_cons, List.foldl_nil, List.foldl_cons, List.foldl_nil,
      decryptRound_encryptRound roundKeys (by omega)]
    exact ih (by omega)

theorem aesDecryptBlock_encryptBlock (roundKeys : List UInt8) {rounds : Nat} (some_round : 0 < rounds)
    (input : Block) : aesDecryptBlock roundKeys rounds (aesEncryptBlock roundKeys rounds input) = input := by
  obtain ⟨n, rfl⟩ : ∃ n, rounds = n + 1 := ⟨rounds - 1, by omega⟩
  have last : ∀ s : Block, encryptRound roundKeys (n + 1) s (1 + 1 * n) =
      addRoundKey (shiftRows (s.map sbox)) roundKeys (n + 1) := by
    intro s
    rw [Nat.one_mul, Nat.add_comm 1 n, encryptRound, if_neg (Nat.lt_irrefl _)]
  rw [aesEncryptBlock, List.range'_concat, List.foldl_append, List.foldl_cons, List.foldl_nil, last,
    aesDecryptBlock, addRoundKey_twice, Nat.add_sub_cancel, rounds_undone roundKeys _ n (Nat.lt_succ_self n), unshift,
    addRoundKey_twice]

end Nxt.Crypto
