import Nxt.Crypto.Modes

/- Each mode undoes what it did, also over one memory. -/
namespace Nxt.Crypto
open List

theorem xorBlock_get (a b : Block) (i : Nat) (small : i < 16) : (xorBlock a b)[i] = a[i] ^^^ b[i] := by
  rw [xorBlock, Vector.getElem_ofFn]
  rfl

theorem xorBlock_twice (a b : Block) : xorBlock (xorBlock a b) b = a := by
  apply Vector.ext
  intro i small
  rw [xorBlock_get, xorBlock_get, UInt8.xor_assoc, UInt8.xor_self, UInt8.xor_zero]

theorem readBlock_congr {mem mem' : List UInt8} {a b : Nat}
    (same : ∀ i < 16, mem.getD (a + i) 0 = mem'.getD (b + i) 0) : readBlock mem a = readBlock mem' b := by
  apply Vector.ext
  intro i small
  simp only [readBlock, Vector.getElem_ofFn]
  exact same i small

theorem readBlock_get (mem : List UInt8) (a i : Nat) (small : i < 16) : (readBlock mem a)[i] = mem.getD (a + i) 0 := by
  simp only [readBlock, Vector.getElem_ofFn]

section Write
variable {mem : List UInt8} {off : Nat} {b : Block}

section
variable (inside : off + 16 ≤ mem.length)
include inside

theorem writeBlock_length : (writeBlock mem off b).length = mem.length := by
  rw [writeBlock, length_append, length_append, length_take, length_drop,
    Vector.length_toList]
  omega

theorem writeBlock_outside {p : Nat} (out : p < off ∨ off + 16 ≤ p) :
    (writeBlock mem off b).getD p 0 = mem.getD p 0 := by
  rw [getD_eq_getElem?_getD, getD_eq_getElem?_getD, writeBlock, append_assoc]
  have front : (mem.take off).length = off := by
    rw [length_take]
    omega
  rcases out with before | behind
  · rw [getElem?_append_left (by rw [front]; exact before), getElem?_take_of_lt before]
  · rw [getElem?_append_right (by rw [front]; omega), front, getElem?_append_right (by
      rw [Vector.length_toList]; omega), Vector.length_toList, getElem?_drop]
    congr 2
    omega

theorem writeBlock_inside {i : Nat} (small : i < 16) :
    (writeBlock mem off b).getD (off + i) 0 = b[i] := by
  have front : (mem.take off).length = off := by
    rw [length_take]
    omega
  rw [getD_eq_getElem?_getD, writeBlock, append_assoc,
    getElem?_append_right (by rw [front]; omega), front, Nat.add_sub_cancel_left,
    getElem?_append_left (by rw [Vector.length_toList]; exact small), Vector.getElem?_toList,
    Vector.getElem?_eq_getElem small]
  rfl

theorem readBlock_writeBlock : readBlock (writeBlock mem off b) off = b := by
  apply Vector.ext
  intro i small
  rw [readBlock_get _ _ _ small, writeBlock_inside inside small]

end

end Write

/-! ### IGE -/

/-- Writing from the front never reaches input that is still to be read. -/
def Forward (src dst size : Nat) : Prop := dst ≤ src ∨ src + size ≤ dst

def readBlocks (mem : List UInt8) : Nat → Nat → List Block
  | 0, _ => []
  | n + 1, off => readBlock mem off :: readBlocks mem n (off + 16)

def ige (cipher : Block → Block) : Block → Block → List Block → List Block
  | _, _, [] => []
  | written, read, b :: rest =>
      let out := xorBlock (cipher (xorBlock b written)) read
      out :: ige cipher out b rest

theorem ige_inverse {enc dec : Block → Block} (back : ∀ b, dec (enc b) = b) (blocks : List Block) :
    ∀ written read, ige dec read written (ige enc written read blocks) = blocks := by
  induction blocks with
  | nil => exact fun _ _ => rfl
  | cons b rest ih =>
    intro written read
    simp only [ige, xorBlock_twice, back, ih]

theorem readBlocks_congr {mem mem' : List UInt8} (n : Nat) : ∀ a b : Nat,
    (∀ i < 16 * n, mem.getD (a + i) 0 = mem'.getD (b + i) 0) → readBlocks mem n a = readBlocks mem' n b := by
  induction n with
  | zero => exact fun _ _ _ => rfl
  | succ n ih =>
    intro a b same
    rw [readBlocks, readBlocks, readBlock_congr fun i small => same i (by omega),
      ih (a + 16) (b + 16) fun i small => by
        have here := same (16 + i) (by omega)
        rwa [← Nat.add_assoc, ← Nat.add_assoc] at here]

theorem readBlocks_get {mem mem' : List UInt8} (n : Nat) : ∀ a b : Nat,
    readBlocks mem n a = readBlocks mem' n b → ∀ i < 16 * n, mem.getD (a + i) 0 = mem'.getD (b + i) 0 := by
  induction n with
  | zero => exact fun _ _ _ i small => absurd small (by omega)
  | succ n ih =>
    intro a b same i small
    obtain ⟨first, rest⟩ := cons.inj same
    by_cases here : i < 16
    · rw [← readBlock_get _ _ _ here, ← readBlock_get _ _ _ here, first]
    · have later := ih _ _ rest (i - 16) (by omega)
      rwa [show a + 16 + (i - 16) = a + i by omega, show b + 16 + (i - 16) = b + i by omega] at later

theorem igeLoop_blocks (cipher : Block → Block) (n : Nat) : ∀ (written read : Block) (src dst : Nat)
    (mem : List UInt8), Forward src dst (16 * n) → src + 16 * n ≤ mem.length → dst + 16 * n ≤ mem.length →
    readBlocks (igeLoop cipher n written read src dst mem) n dst = ige cipher written read (readBlocks mem n src) ∧
      (igeLoop cipher n written read src dst mem).length = mem.length ∧ ∀ p, p < dst ∨ dst + 16 * n ≤ p →
        (igeLoop cipher n written read src dst mem).getD p 0 = mem.getD p 0 := by
  induction n with
  | zero => exact fun _ _ _ _ _ _ _ _ => ⟨rfl, rfl, fun _ _ => rfl⟩
  | succ n ih =>
    intro written read src dst mem forward from_ to_
    rw [igeLoop, readBlocks, readBlocks, ige]
    set out := xorBlock (cipher (xorBlock (readBlock mem src) written)) read
    have room : dst + 16 ≤ mem.length := by omega
    obtain ⟨blocks, length, rest⟩ := ih out (readBlock mem src) (src + 16) (dst + 16)
      (writeBlock mem dst out) (by unfold Forward at *; omega) (by rw [writeBlock_length room]; omega)
      (by rw [writeBlock_length room]; omega)
    refine ⟨?_, by rw [length, writeBlock_length room], fun p outside => ?_⟩
    · have unread : readBlocks (writeBlock mem dst out) n (src + 16) = readBlocks mem n (src + 16) :=
        readBlocks_congr n _ _ fun i small => writeBlock_outside room (by
          unfold Forward at forward
          omega)
      have kept : ∀ i < 16, (igeLoop cipher n out (readBlock mem src) (src + 16) (dst + 16)
          (writeBlock mem dst out)).getD (dst + i) 0 = (writeBlock mem dst out).getD (dst + i) 0 :=
        fun i small => rest (dst + i) (Or.inl (by omega))
      rw [readBlock_congr kept, readBlock_writeBlock room, blocks, unread]
    · rw [rest p (by omega), writeBlock_outside room (by omega)]

theorem slice_eq {mem mem' : List UInt8} {a b n : Nat} (left : a + n ≤ mem.length) (right : b + n ≤ mem'.length)
    (same : ∀ i < n, mem.getD (a + i) 0 = mem'.getD (b + i) 0) : (mem.drop a).take n = (mem'.drop b).take n := by
  apply ext_getElem?
  intro i
  by_cases small : i < n
  · have here := same i small
    rw [getD_eq_getElem?_getD, getD_eq_getElem?_getD,
      getElem?_eq_getElem (by omega), getElem?_eq_getElem (by omega)] at here
    rw [getElem?_take_of_lt small, getElem?_take_of_lt small, getElem?_drop,
      getElem?_drop, getElem?_eq_getElem (by omega), getElem?_eq_getElem (by omega)]
    exact congrArg some here
  · rw [getElem?_eq_none (by rw [length_take]; omega), getElem?_eq_none (by rw [length_take]; omega)]

theorem igeLoop_inverse {enc dec : Block → Block} (back : ∀ b, dec (enc b) = b) {n : Nat} {written read : Block}
    {src mid dst : Nat} {mem : List UInt8} (first : Forward src mid (16 * n)) (second : Forward mid dst (16 * n))
    (from_ : src + 16 * n ≤ mem.length) (through : mid + 16 * n ≤ mem.length) (to_ : dst + 16 * n ≤ mem.length) :
    ((igeLoop dec n read written mid dst (igeLoop enc n written read src mid mem)).drop dst).take (16 * n) =
    (mem.drop src).take (16 * n) := by
  obtain ⟨out, length, -⟩ := igeLoop_blocks enc n written read src mid mem first from_ through
  obtain ⟨again, length', -⟩ := igeLoop_blocks dec n read written mid dst
    (igeLoop enc n written read src mid mem) second (by omega) (by omega)
  rw [out, ige_inverse back] at again
  exact slice_eq (by omega) from_ (readBlocks_get n dst src again)

/-! ### Counter mode -/

def streamByte (roundKeys : List UInt8) (counter : Block) (i : Nat) : UInt8 :=
  (aesEncryptBlock roundKeys 10 (increment32^[i / 16 + 1] counter)).toList.getD (i % 16) 0

theorem xorRun_get (stream : Block) (src dst n : Nat) (mem : List UInt8) (forward : Forward src dst n)
    (from_ : src + n ≤ mem.length) (to_ : dst + n ≤ mem.length) : (xorRun stream src dst n mem).length = mem.length ∧
      ∀ p, (xorRun stream src dst n mem).getD p 0 = if dst ≤ p ∧ p < dst + n then
        mem.getD (src + (p - dst)) 0 ^^^ stream.toList.getD (p - dst) 0 else mem.getD p 0 := by
  induction n with
  | zero =>
    refine ⟨rfl, fun p => ?_⟩
    rw [if_neg (by omega)]
    rfl
  | succ n ih =>
    obtain ⟨length, get⟩ := ih (by unfold Forward at *; omega) (by omega) (by omega)
    have step : xorRun stream src dst (n + 1) mem = (xorRun stream src dst n mem).set (dst + n)
        ((xorRun stream src dst n mem).getD (src + n) 0 ^^^ stream.toList.getD n 0) := by
      rw [xorRun, range_succ, foldl_append, foldl_cons, foldl_nil]
      rfl
    have unread : (xorRun stream src dst n mem).getD (src + n) 0 = mem.getD (src + n) 0 := by
      unfold Forward at forward
      rw [get, if_neg (by omega)]
    rw [step, length_set, unread]
    refine ⟨length, fun p => ?_⟩
    rw [getD_eq_getElem?_getD, getElem?_set]
    by_cases here : dst + n = p
    · subst here
      rw [if_pos rfl, if_pos (by omega), if_pos (by omega), Nat.add_sub_cancel_left]
      rfl
    · rw [if_neg here, ← getD_eq_getElem?_getD, get]
      by_cases inside : dst ≤ p ∧ p < dst + n
      · rw [if_pos inside, if_pos (by omega)]
      · rw [if_neg inside, if_neg (by omega)]

theorem cryptCtr_get (roundKeys : List UInt8) (n : Nat) : ∀ (counter : Block) (src dst : Nat)
    (mem : List UInt8), Forward src dst n → src + n ≤ mem.length → dst + n ≤ mem.length →
    (cryptCtr roundKeys counter src dst n mem).length = mem.length ∧
      ∀ p, (cryptCtr roundKeys counter src dst n mem).getD p 0 = if dst ≤ p ∧ p < dst + n then
        mem.getD (src + (p - dst)) 0 ^^^ streamByte roundKeys counter (p - dst) else mem.getD p 0 := by
  induction n using Nat.strong_induction_on with
  | h n ih =>
    intro counter src dst mem forward from_ to_
    rw [cryptCtr]
    by_cases more : n ≠ 0
    · rw [dif_pos more]
      set stream := aesEncryptBlock roundKeys 10 (increment32 counter) with stream_eq
      obtain ⟨length, get⟩ := xorRun_get stream src dst (min 16 n) mem
        (by unfold Forward at *; omega) (by omega) (by omega)
      obtain ⟨length', get'⟩ := ih (n - min 16 n) (by omega) (increment32 counter) (src + min 16 n)
        (dst + min 16 n) (xorRun stream src dst (min 16 n) mem) (by unfold Forward at *; omega)
        (by omega) (by omega)
      refine ⟨length'.trans length, fun p => ?_⟩
      rw [get']
      unfold Forward at forward
      by_cases first : dst ≤ p ∧ p < dst + min 16 n
      · rw [if_neg (by omega), get, if_pos first, if_pos (by omega), streamByte,
          Nat.div_eq_of_lt (by omega), Nat.mod_eq_of_lt (by omega)]
        rfl
      · by_cases later : dst ≤ p ∧ p < dst + n
        · have whole : min 16 n = 16 := by omega
          rw [whole] at get first ⊢
          have place : src + 16 + (p - (dst + 16)) = src + (p - dst) := by omega
          have offset : p - dst = p - (dst + 16) + 16 := by omega
          rw [if_pos (by omega), if_pos later, get, if_neg (by omega), place, streamByte, streamByte,
            offset, Nat.add_div_right _ (by decide), Nat.add_mod_right]
          rfl
        · rw [if_neg (by omega), if_neg later, get, if_neg first]
    · rw [dif_neg more]
      refine ⟨rfl, fun p => ?_⟩
      rw [if_neg (by omega)]

def cryptText (roundKeys : List UInt8) (counter : Block) (text : List UInt8) : List UInt8 :=
  (range text.length).map fun i => text.getD i 0 ^^^ streamByte roundKeys counter i

theorem cryptText_length (roundKeys : List UInt8) (counter : Block) (text : List UInt8) :
    (cryptText roundKeys counter text).length = text.length := by
  rw [cryptText, length_map, length_range]

theorem cryptText_get (roundKeys : List UInt8) (counter : Block) (text : List UInt8) {i : Nat}
    (small : i < text.length) : (cryptText roundKeys counter text).getD i 0 =
      text.getD i 0 ^^^ streamByte roundKeys counter i := by
  rw [cryptText, getD_eq_getElem?_getD, getElem?_map, getElem?_range small]
  rfl

theorem bytes_ext {xs ys : List UInt8} (length : xs.length = ys.length)
    (same : ∀ i < ys.length, xs.getD i 0 = ys.getD i 0) : xs = ys := by
  have whole := @slice_eq xs ys 0 0 ys.length (by omega) (by omega) fun i small => by
    rw [Nat.zero_add]
    exact same i small
  rwa [drop_zero, drop_zero, take_length, ← length, take_length] at whole

theorem cryptText_twice (roundKeys : List UInt8) (counter : Block) (text : List UInt8) :
    cryptText roundKeys counter (cryptText roundKeys counter text) = text := by
  have length := cryptText_length roundKeys counter text
  apply bytes_ext
  · rw [cryptText_length, length]
  · intro i small
    rw [cryptText_get _ _ _ (by omega), cryptText_get _ _ _ small, UInt8.xor_assoc, UInt8.xor_self,
      UInt8.xor_zero]

theorem cryptCtr_apart (roundKeys : List UInt8) (counter : Block) (text : List UInt8) :
    (cryptCtr roundKeys counter 0 text.length text.length
      (text ++ replicate text.length 0)).drop text.length = cryptText roundKeys counter text := by
  have size : (text ++ replicate text.length (0 : UInt8)).length = text.length + text.length := by
    rw [length_append, length_replicate]
  obtain ⟨length, get⟩ := cryptCtr_get roundKeys text.length counter 0 text.length
    (text ++ replicate text.length 0) (Or.inr (by omega)) (by omega) (by omega)
  apply bytes_ext
  · rw [length_drop, length, size, cryptText_length]
    omega
  · intro i small
    rw [cryptText_length] at small
    have here := get (text.length + i)
    rw [if_pos (by omega), Nat.add_sub_cancel_left, Nat.zero_add] at here
    rw [cryptText_get _ _ _ small, getD_eq_getElem?_getD, getElem?_drop,
      ← getD_eq_getElem?_getD, here, getD_eq_getElem?_getD, getElem?_append_left small, ← getD_eq_getElem?_getD]

theorem cryptCtr_in_place (roundKeys : List UInt8) (counter : Block) (buffer : List UInt8) {n : Nat}
    (inside : n ≤ buffer.length) : (cryptCtr roundKeys counter 0 0 n buffer).take n =
      cryptText roundKeys counter (buffer.take n) := by
  obtain ⟨length, get⟩ := cryptCtr_get roundKeys n counter 0 0 buffer (Or.inl (Nat.le_refl 0))
    (by omega) (by omega)
  have size : (buffer.take n).length = n := by
    rw [length_take]
    omega
  apply bytes_ext
  · rw [cryptText_length, length_take, size, length]
    omega
  · intro i small
    rw [cryptText_length, size] at small
    have here := get i
    rw [if_pos (by omega), Nat.sub_zero, Nat.zero_add] at here
    rw [cryptText_get _ _ _ (by omega), getD_eq_getElem?_getD, getElem?_take_of_lt small,
      ← getD_eq_getElem?_getD, here, getD_eq_getElem?_getD (l := buffer.take n),
      getElem?_take_of_lt small, ← getD_eq_getElem?_getD]

/-! ### GCM -/

theorem tagEqual_self (a : Block) : tagEqual a a.toList = true := by
  have none : ∀ places : List Nat,
      places.foldl (fun diff i => diff ||| (a.toList.getD i 0 ^^^ a.toList.getD i 0)) (0 : UInt8) = 0 := by
    intro places
    induction places with
    | nil => rfl
    | cons i rest ih => rw [foldl_cons, UInt8.xor_self, UInt8.or_zero, ih]
  rw [tagEqual, none]
  rfl

section Gcm
variable {ctx : Aes128gcmContext} {nonce : List UInt8}

theorem open_agrees (ctx : Aes128gcmContext) (nonce aad ciphertext : List UInt8) :
    (aes128gcmOpenInPlace ctx nonce aad ciphertext).1 = aes128gcmOpen ctx nonce aad ciphertext := by
  rw [aes128gcmOpenInPlace, aes128gcmOpen]
  split
  · rfl
  · split
    · rfl
    · split
      · rfl
      · dsimp only
        split
        · rfl
        · rw [cryptCtr_in_place _ _ _ (Nat.sub_le _ _), cryptCtr_apart]

theorem refused_unchanged (ctx : Aes128gcmContext) (nonce aad ciphertext : List UInt8)
    (refused : ∀ text, aes128gcmOpen ctx nonce aad ciphertext ≠ .ok (some text)) :
    (aes128gcmOpenInPlace ctx nonce aad ciphertext).2 = ciphertext := by
  rw [← open_agrees] at refused
  rw [aes128gcmOpenInPlace] at refused ⊢
  split
  · rfl
  · split
    · rfl
    · split
      · rfl
      · dsimp only
        split
        · rfl
        · rename_i ready sized long accepted
          rw [if_neg ready, if_neg sized, if_neg long, if_neg accepted] at refused
          exact absurd rfl (refused _)

theorem opened_buffer {aad ciphertext text : List UInt8}
    (opened : (aes128gcmOpenInPlace ctx nonce aad ciphertext).1 = .ok (some text)) :
    (aes128gcmOpenInPlace ctx nonce aad ciphertext).2.take text.length = text := by
  rw [aes128gcmOpenInPlace] at opened ⊢
  by_cases ready : ctx.initialized = false
  · rw [if_pos ready] at opened
    cases opened
  · by_cases sized : nonce.length ≠ 12
    · rw [if_neg ready, if_pos sized] at opened
      cases opened
    · by_cases short : ciphertext.length < 16
      · rw [if_neg ready, if_neg sized, if_pos short] at opened
        cases opened
      · rw [if_neg ready, if_neg sized, if_neg short] at opened ⊢
        dsimp only at opened ⊢
        split at opened
        · cases opened
        · rename_i accepted
          rw [if_neg accepted]
          cases opened
          rw [length_take, ← take_eq_take_min]

theorem open_seal (ctx : Aes128gcmContext) (ready : ctx.initialized = true) (sized : nonce.length = 12)
    (aad plaintext : List UInt8) : ∃ made, aes128gcmSeal ctx nonce aad plaintext = .ok made ∧
      aes128gcmOpen ctx nonce aad made = .ok (some plaintext) ∧ made.length = plaintext.length + 16 := by
  have up : ¬ ctx.initialized = false := by simp [ready]
  rw [aes128gcmSeal, if_neg up, if_neg (not_not_intro sized)]
  refine ⟨_, rfl, ?_, ?_⟩
  swap
  · rw [cryptCtr_apart, length_append, cryptText_length, Vector.length_toList]
  rw [cryptCtr_apart]
  set text := cryptText ctx.roundKeys (initialCounter nonce) plaintext with text_eq
  set tag := xorBlock (ghashFinish ctx aad text) (aesEncryptBlock ctx.roundKeys 10 (initialCounter nonce))
  have size : (text ++ tag.toList).length - 16 = text.length := by
    rw [length_append, Vector.length_toList, Nat.add_sub_cancel]
  have long : ¬ (text ++ tag.toList).length < 16 := by
    rw [length_append, Vector.length_toList]
    omega
  rw [aes128gcmOpen, if_neg up, if_neg (not_not_intro sized), if_neg long, size, take_left, drop_left, if_neg (by rw [tagEqual_self]; decide)]
  dsimp only
  rw [cryptCtr_apart, text_eq, cryptText_twice]

end Gcm

/-- Decrypting a block, an IGE text or a sealed text gives back what was encrypted, in place or not;
    both ways of opening answer the same, and a refused one leaves the buffer as it was. Every
    cipher of the source has a round. -/
theorem modes_invert : (∀ (roundKeys : List UInt8) (rounds : Nat), 0 < rounds → ∀ input : Block,
      aesDecryptBlock roundKeys rounds (aesEncryptBlock roundKeys rounds input) = input) ∧
    (∀ key iv : List UInt8, key.length = 32 → iv.length = 32 → ∀ (src mid dst size : Nat)
      (mem : List UInt8), size % 16 = 0 → Forward src mid size → Forward mid dst size →
      src + size ≤ mem.length → mid + size ≤ mem.length → dst + size ≤ mem.length →
      ∃ ctx encrypted decrypted, Aes256Context.ofKey key = .ok ctx ∧
        aes256IgeEncrypt ctx iv src mid size size mem = .ok encrypted ∧
        aes256IgeDecrypt ctx iv mid dst size size encrypted = .ok decrypted ∧
        (decrypted.drop dst).take size = (mem.drop src).take size) ∧
    (∀ key nonce : List UInt8, key.length = 16 → nonce.length = 12 → ∀ aad plaintext : List UInt8,
      ∃ ctx made, Aes128gcmContext.ofKey key = .ok ctx ∧ aes128gcmSeal ctx nonce aad plaintext = .ok made ∧
        aes128gcmOpen ctx nonce aad made = .ok (some plaintext) ∧
        (aes128gcmOpenInPlace ctx nonce aad made).1 = .ok (some plaintext) ∧
        (aes128gcmOpenInPlace ctx nonce aad made).2.take plaintext.length = plaintext) ∧
    ∀ (ctx : Aes128gcmContext) (nonce aad ciphertext : List UInt8),
      (aes128gcmOpenInPlace ctx nonce aad ciphertext).1 = aes128gcmOpen ctx nonce aad ciphertext ∧
      ((∀ text, aes128gcmOpen ctx nonce aad ciphertext ≠ .ok (some text)) →
        (aes128gcmOpenInPlace ctx nonce aad ciphertext).2 = ciphertext) := by
  refine ⟨fun roundKeys rounds some_round => aesDecryptBlock_encryptBlock roundKeys some_round,
    fun key iv keySize ivSize src mid dst size mem whole first second from_ through to_ => ?_,
    fun key nonce keySize sized aad plaintext => ?_,
    fun ctx nonce aad ciphertext => ⟨open_agrees ctx nonce aad ciphertext,
      refused_unchanged ctx nonce aad ciphertext⟩⟩
  · have blocks : 16 * (size / 16) = size := by omega
    have spans : requireIgeSpans iv size size = .ok () := by
      rw [requireIgeSpans, if_neg (not_not_intro ivSize), if_neg (not_not_intro whole),
        if_neg (not_not_intro rfl)]
    rw [← blocks] at first second from_ through to_
    set keys := expandAesKey key 240 with keys_eq
    have back := @igeLoop_inverse (aesEncryptBlock keys 14) (aesDecryptBlock keys 14)
      (aesDecryptBlock_encryptBlock keys (by decide)) (size / 16) (readBlock iv 0) (readBlock iv 16)
      src mid dst mem first second from_ through to_
    rw [blocks] at back
    refine ⟨⟨keys, true⟩, igeLoop (aesEncryptBlock keys 14) (size / 16) (readBlock iv 0)
      (readBlock iv 16) src mid mem, _, if_neg (not_not_intro keySize), ?_, ?_, back⟩
    · rw [aes256IgeEncrypt, if_neg Bool.noConfusion, spans]
      rfl
    · rw [aes256IgeDecrypt, if_neg Bool.noConfusion, spans]
      rfl
  · set keys := expandAesKey key 176
    obtain ⟨made, wrote, opened, -⟩ :=
      open_seal ⟨keys, aesEncryptBlock keys 10 zeroBlock, true⟩ rfl sized aad plaintext
    have in_place := (open_agrees _ nonce aad made).trans opened
    exact ⟨_, made, if_neg (not_not_intro keySize), wrote, opened, in_place, opened_buffer in_place⟩

end Nxt.Crypto
