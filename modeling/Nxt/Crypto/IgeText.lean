import Nxt.Crypto.Undone

/- AES-256-IGE as a function of texts: what the loops over a memory leave at the place of the output. -/
namespace Nxt.Crypto
open List

def blocksText (blocks : List Block) : List UInt8 := blocks.flatMap Vector.toList

def igeText (cipher : Block → Block) (written read : Block) (text : List UInt8) : List UInt8 :=
  blocksText (ige cipher written read (readBlocks text (text.length / 16) 0))

def Aes256Context.igeEncrypt (ctx : Aes256Context) (iv text : List UInt8) : List UInt8 :=
  igeText (aesEncryptBlock ctx.roundKeys 14) (readBlock iv 0) (readBlock iv 16) text

def Aes256Context.igeDecrypt (ctx : Aes256Context) (iv text : List UInt8) : List UInt8 :=
  igeText (aesDecryptBlock ctx.roundKeys 14) (readBlock iv 16) (readBlock iv 0) text

section Texts

theorem blocksText_length (blocks : List Block) : (blocksText blocks).length = 16 * blocks.length := by
  induction blocks with
  | nil => rfl
  | cons b rest ih =>
    rw [blocksText, flatMap_cons, length_append, Vector.length_toList]
    rw [blocksText] at ih
    rw [ih, length_cons]
    omega

theorem readBlocks_length (mem : List UInt8) (n off : Nat) : (readBlocks mem n off).length = n := by
  induction n generalizing off with
  | zero => rfl
  | succ n ih => rw [readBlocks, length_cons, ih]

theorem ige_length (cipher : Block → Block) (written read : Block) (blocks : List Block) :
    (ige cipher written read blocks).length = blocks.length := by
  induction blocks generalizing written read with
  | nil => rfl
  | cons b rest ih => rw [ige, length_cons, ih, length_cons]

theorem readBlock_text (mem : List UInt8) {off : Nat} (inside : off + 16 ≤ mem.length) :
    (readBlock mem off).toList = (mem.drop off).take 16 := by
  apply ext_getElem
  · rw [Vector.length_toList, length_take, length_drop]
    omega
  · intro i small _
    rw [Vector.length_toList] at small
    rw [Vector.getElem_toList, readBlock_get mem off i small, getElem_take, getElem_drop,
      getD_eq_getElem mem 0 (by omega)]

theorem readBlocks_text (mem : List UInt8) (n : Nat) : ∀ off, off + 16 * n ≤ mem.length →
    blocksText (readBlocks mem n off) = (mem.drop off).take (16 * n) := by
  induction n with
  | zero => exact fun _ _ => rfl
  | succ n ih =>
    intro off inside
    have rest := ih (off + 16) (by omega)
    rw [blocksText] at rest ⊢
    rw [readBlocks, flatMap_cons, rest, readBlock_text mem (by omega), Nat.mul_succ, Nat.add_comm (16 * n),
      take_add, drop_drop]

theorem readBlocks_blocksText (blocks : List Block) : readBlocks (blocksText blocks) blocks.length 0 = blocks := by
  have same : ∀ (blocks : List Block) (front : List UInt8),
      readBlocks (front ++ blocksText blocks) blocks.length front.length = blocks := by
    intro blocks
    induction blocks with
    | nil => exact fun _ => rfl
    | cons b rest ih =>
      intro front
      have next := ih (front ++ b.toList)
      rw [length_append, Vector.length_toList, append_assoc] at next
      rw [length_cons, readBlocks, blocksText, flatMap_cons]
      rw [blocksText] at next
      rw [next]
      congr 1
      apply Vector.toList_inj.mp
      rw [readBlock_text _ (by simp only [length_append, Vector.length_toList]; omega), drop_left,
        take_left' (Vector.length_toList ..)]
  exact same blocks []

variable {cipher : Block → Block} {written read : Block} {text : List UInt8}

theorem igeText_length (whole : text.length % 16 = 0) : (igeText cipher written read text).length = text.length := by
  rw [igeText, blocksText_length, ige_length, readBlocks_length]
  omega

theorem igeText_inverse {enc dec : Block → Block} (back : ∀ b, dec (enc b) = b) (whole : text.length % 16 = 0) :
    igeText dec read written (igeText enc written read text) = text := by
  have blocks : 16 * (text.length / 16) = text.length := by omega
  have again := readBlocks_blocksText (ige enc written read (readBlocks text (text.length / 16) 0))
  rw [ige_length, readBlocks_length] at again
  rw [igeText, igeText_length whole, igeText, again, ige_inverse back, readBlocks_text _ _ _ (by omega), drop_zero,
    blocks, take_length]

theorem igeLoop_text {mem : List UInt8} {src dst : Nat} (whole : text.length % 16 = 0)
    (source : (mem.drop src).take text.length = text) (forward : Forward src dst text.length)
    (from_ : src + text.length ≤ mem.length) (to_ : dst + text.length ≤ mem.length) :
    ((igeLoop cipher (text.length / 16) written read src dst mem).drop dst).take text.length =
        igeText cipher written read text ∧
      (igeLoop cipher (text.length / 16) written read src dst mem).length = mem.length := by
  have blocks : 16 * (text.length / 16) = text.length := by omega
  obtain ⟨out, length, -⟩ := igeLoop_blocks cipher (text.length / 16) written read src dst mem
    (by rw [blocks]; exact forward) (by rw [blocks]; exact from_) (by rw [blocks]; exact to_)
  refine ⟨?_, length⟩
  have input : readBlocks mem (text.length / 16) src = readBlocks text (text.length / 16) 0 := by
    refine readBlocks_congr _ _ _ fun i small => ?_
    rw [blocks] at small
    have byte := congrArg (List.getD · i 0) source
    rw [Nat.zero_add, ← byte, getD_eq_getElem?_getD, getD_eq_getElem?_getD, getElem?_take_of_lt small,
      getElem?_drop]
  have text_ := readBlocks_text (igeLoop cipher (text.length / 16) written read src dst mem) (text.length / 16) dst
    (by rw [length, blocks]; exact to_)
  rw [blocks, out, input] at text_
  exact text_.symm

end Texts

section Contexts
variable {ctx : Aes256Context} {iv text : List UInt8}

theorem Aes256Context.igeEncrypt_length (whole : text.length % 16 = 0) :
    (ctx.igeEncrypt iv text).length = text.length := igeText_length whole

theorem Aes256Context.igeDecrypt_igeEncrypt (whole : text.length % 16 = 0) :
    ctx.igeDecrypt iv (ctx.igeEncrypt iv text) = text :=
  igeText_inverse (aesDecryptBlock_encryptBlock ctx.roundKeys (by decide)) whole

theorem requireIgeSpans_ok {size outputSize : Nat} (sized : iv.length = 32) (whole : size % 16 = 0)
    (fits : outputSize = size) : requireIgeSpans iv size outputSize = .ok () := by
  rw [requireIgeSpans, if_neg (not_not_intro sized), if_neg (not_not_intro whole), if_neg (not_not_intro fits)]

theorem requireIgeSpans_inv {size outputSize : Nat} (done : requireIgeSpans iv size outputSize = .ok ()) :
    iv.length = 32 ∧ size % 16 = 0 ∧ outputSize = size := by
  unfold requireIgeSpans at done
  split at done
  · cases done
  · rename_i sized
    split at done
    · cases done
    · rename_i whole
      split at done
      · cases done
      · rename_i fits
        exact ⟨not_not.mp sized, not_not.mp whole, not_not.mp fits⟩

theorem slice_front (front back : List UInt8) : ((front ++ back).drop 0).take front.length = front := by
  rw [drop_zero, take_left]

theorem igeEncrypt_in_place (ready : ctx.initialized = true) (sized : iv.length = 32) (whole : text.length % 16 = 0) :
    aes256IgeEncrypt ctx iv 0 0 text.length text.length text = .ok (ctx.igeEncrypt iv text) := by
  have left := slice_front text []
  rw [append_nil] at left
  obtain ⟨out, length⟩ := @igeLoop_text (aesEncryptBlock ctx.roundKeys 14) (readBlock iv 0) (readBlock iv 16) text text 0 0
    whole left (Or.inl le_rfl) (by omega) (by omega)
  rw [drop_zero, take_of_length_le (Nat.le_of_eq length)] at out
  rw [aes256IgeEncrypt, if_neg (by rw [ready]; exact Bool.noConfusion), requireIgeSpans_ok sized whole rfl, out]
  rfl

theorem igeLoop_apart (block : Block → Block) (before after : Block) (whole : text.length % 16 = 0)
    {output : List UInt8} (fits : output.length = text.length) :
    (igeLoop block (text.length / 16) before after 0 text.length (text ++ output)).drop text.length =
      igeText block before after text := by
  obtain ⟨out, length⟩ := @igeLoop_text block before after text (text ++ output) 0 text.length whole
    (slice_front text output) (Or.inr (by omega)) (by rw [length_append]; omega) (by rw [length_append]; omega)
  refine Eq.trans (take_of_length_le ?_).symm out
  rw [length_drop, length, length_append]
  omega

theorem igeEncrypt_apart (ready : ctx.initialized = true) (sized : iv.length = 32) (whole : text.length % 16 = 0)
    {output : List UInt8} (fits : output.length = text.length) :
    ∃ mem, aes256IgeEncrypt ctx iv 0 text.length text.length output.length (text ++ output) = .ok mem ∧
      mem.drop text.length = ctx.igeEncrypt iv text := by
  refine ⟨_, ?_, igeLoop_apart (aesEncryptBlock ctx.roundKeys 14) (readBlock iv 0) (readBlock iv 16) whole fits⟩
  rw [aes256IgeEncrypt, if_neg (by rw [ready]; exact Bool.noConfusion), requireIgeSpans_ok sized whole fits]
  rfl

theorem igeDecrypt_apart (ready : ctx.initialized = true) (sized : iv.length = 32) (whole : text.length % 16 = 0)
    {output : List UInt8} (fits : output.length = text.length) :
    ∃ mem, aes256IgeDecrypt ctx iv 0 text.length text.length output.length (text ++ output) = .ok mem ∧
      mem.drop text.length = ctx.igeDecrypt iv text := by
  refine ⟨_, ?_, igeLoop_apart (aesDecryptBlock ctx.roundKeys 14) (readBlock iv 16) (readBlock iv 0) whole fits⟩
  rw [aes256IgeDecrypt, if_neg (by rw [ready]; exact Bool.noConfusion), requireIgeSpans_ok sized whole fits]
  rfl

end Contexts

end Nxt.Crypto
