import Nxt.Crypto.Hmac
import Nxt.Crypto.Sha1

/- The digests of the standards: the compression function folded over the padded message. The
   incremental states come to them however the message is cut. -/
namespace Nxt.Crypto
open Nxt.Lib List

def padZeros (length : Nat) : Nat := (119 - length % 64) % 64

def lengthField (length : Nat) : List UInt8 :=
  (range 8).map fun i => UInt8.ofNat (8 * length / 2 ^ (8 * (7 - i)))

def padded (message : List UInt8) : List UInt8 :=
  message ++ [0x80] ++ replicate (padZeros message.length) 0 ++ lengthField message.length

def digestSha256 (message : List UInt8) : List UInt8 :=
  let r := foldBlocks sha256Compress 64 ({} : Sha256).state (padded message)
  [r.a, r.b, r.c, r.d, r.e, r.f, r.g, r.h].flatMap store32Be

def digestSha1 (message : List UInt8) : List UInt8 :=
  let r := foldBlocks sha1Compress 64 ({} : Sha1).state (padded message)
  [r.a, r.b, r.c, r.d, r.e].flatMap store32Be

/-- A key as one block: a longer one is hashed, and zeros fill it up. -/
def keyBlock (key : List UInt8) : List UInt8 :=
  let key := if key.length > 64 then digestSha256 key else key
  key ++ replicate (64 - key.length) 0

def codeHmacSha256 (key message : List UInt8) : List UInt8 :=
  digestSha256 ((keyBlock key).map (· ^^^ 0x5c) ++ digestSha256 ((keyBlock key).map (· ^^^ 0x36) ++ message))

section Closing
variable {σ : Type} {step : σ → List UInt8 → σ} {init s : σ} {message waiting : List UInt8}

theorem ofNat_congr {a b : Nat} (same : a % 256 = b % 256) : UInt8.ofNat a = UInt8.ofNat b := by
  apply UInt8.toNat_inj.mp
  rw [UInt8.toNat_ofNat', UInt8.toNat_ofNat']
  exact same

theorem lengthField_counted (length : Nat) :
    ((range 8).map fun i => UInt8.ofNat (length % 2 ^ 64 * 8 % 2 ^ 64 / 2 ^ (8 * (7 - i)))) = lengthField length := by
  refine map_congr_left fun i inside => ofNat_congr ?_
  have small : i < 8 := mem_range.mp inside
  interval_cases i <;> omega

def lastBlocks (waiting : List UInt8) (size : Nat) : List UInt8 :=
  waiting ++ [0x80] ++ replicate ((if waiting.length < 56 then 64 else 128) - waiting.length - 9) 0 ++
    (range 8).map fun i => UInt8.ofNat (size * 8 % 2 ^ 64 / 2 ^ (8 * (7 - i)))

theorem lastBlocks_length (short : waiting.length < 64) (size : Nat) :
    (lastBlocks waiting size).length = if waiting.length < 56 then 64 else 128 := by
  simp only [lastBlocks, length_append, length_cons, length_nil, length_replicate, length_map,
    length_range]
  split <;> omega

theorem padded_lastBlocks {front : List UInt8} {k : Nat} (length : front.length = 64 * k) (short : waiting.length < 64) :
    padded (front ++ waiting) = front ++ lastBlocks waiting ((front ++ waiting).length % 2 ^ 64) := by
  have zeros : padZeros (front ++ waiting).length = (if waiting.length < 56 then 64 else 128) - waiting.length - 9 := by
    unfold padZeros
    rw [length_append]
    split <;> omega
  unfold padded lastBlocks
  rw [lengthField_counted, zeros]
  simp only [append_assoc]

theorem closing (fed : Fed step 64 init message s waiting) :
    let block := lastBlocks waiting (message.length % 2 ^ 64)
    let first := step s (block.take 64)
    (if (if waiting.length < 56 then 64 else 128) = 128 then step first (block.drop 64) else first) =
      foldBlocks step 64 init (padded message) := by
  obtain ⟨front, k, rfl, length, folded⟩ := fed.front
  have short := fed.short
  rw [padded_lastBlocks length short, foldBlocks_append (by decide) k length, ← folded]
  have size := lastBlocks_length short ((front ++ waiting).length % 2 ^ 64)
  generalize lastBlocks waiting ((front ++ waiting).length % 2 ^ 64) = block at size
  dsimp only
  by_cases one : waiting.length < 56
  · rw [if_pos one] at size ⊢
    have whole := @foldBlocks_block _ _ step 64 (by decide) s block size []
    rw [append_nil, foldBlocks_nil] at whole
    rw [if_neg (by decide), take_of_length_le (Nat.le_of_eq size), whole]
  · rw [if_neg one] at size ⊢
    have first : (block.take 64).length = 64 := length_take_of_le (by omega)
    have second : (block.drop 64).length = 64 := by rw [length_drop, size]
    have whole := @foldBlocks_block _ _ step 64 (by decide) (step s (block.take 64)) (block.drop 64) second []
    rw [append_nil, foldBlocks_nil] at whole
    rw [if_pos rfl, ← whole, ← foldBlocks_block (by decide) first, take_append_drop]

end Closing

section Incremental

theorem sha256_absorb (fuel : Nat) (state : Registers) (input : List UInt8) :
    Sha256.absorb fuel state input = absorb sha256Compress 64 fuel state input := by
  induction fuel generalizing state input with
  | zero => rfl
  | succ fuel ih =>
    rw [Sha256.absorb, absorb]
    show (if 64 ≤ input.length then _ else _) = if 64 ≤ input.length then _ else _
    by_cases more : 64 ≤ input.length
    · rw [if_pos more, if_pos more]
      exact ih _ _
    · rw [if_neg more, if_neg more]

theorem sha256_update (s : Sha256) (input : List UInt8) : s.update input =
    { state := (feedBlocks sha256Compress 64 s.state s.buffer input).1
      buffer := (feedBlocks sha256Compress 64 s.state s.buffer input).2
      size := (s.size + input.length) % 2 ^ 64 } := by
  unfold Sha256.update feedBlocks sha256BlockLen
  simp only [sha256_absorb, List.isEmpty_iff]

structure Sha256.After (s : Sha256) (message : List UInt8) : Prop where
  fed : Fed sha256Compress 64 ({} : Sha256).state message s.state s.buffer
  size : s.size = message.length % 2 ^ 64

structure Sha1.After (s : Sha1) (message : List UInt8) : Prop where
  fed : Fed sha1Compress 64 ({} : Sha1).state message s.state s.buffer
  size : s.size = message.length % 2 ^ 64

variable {message : List UInt8} {s : Sha256}

theorem counted_on {size : Nat} (counted : size = message.length % 2 ^ 64) (input : List UInt8) :
    (size + input.length) % 2 ^ 64 = (message ++ input).length % 2 ^ 64 := by
  rw [counted, length_append, Nat.mod_add_mod]

theorem Sha256.after_start : Sha256.After {} [] := ⟨Fed.start (by decide) _, rfl⟩

theorem Sha1.after_start : Sha1.After {} [] := ⟨Fed.start (by decide) _, rfl⟩

theorem Sha256.After.update (after : s.After message) (input : List UInt8) :
    (s.update input).After (message ++ input) := by
  rw [sha256_update]
  exact ⟨after.fed.feed (by decide) input, counted_on after.size input⟩

theorem Sha1.After.update {s : Sha1} (after : s.After message) (input : List UInt8) :
    (s.update input).After (message ++ input) :=
  ⟨after.fed.feed (by decide) input, counted_on after.size input⟩

theorem Sha256.After.updates (after : s.After message) (pieces : List (List UInt8)) :
    (pieces.foldl Sha256.update s).After (message ++ pieces.flatten) := by
  induction pieces generalizing s message with
  | nil =>
    rw [flatten_nil, append_nil]
    exact after
  | cons piece pieces ih =>
    rw [flatten_cons, ← append_assoc]
    exact ih (after.update piece)

theorem Sha1.After.updates {s : Sha1} (after : s.After message) (pieces : List (List UInt8)) :
    (pieces.foldl Sha1.update s).After (message ++ pieces.flatten) := by
  induction pieces generalizing s message with
  | nil =>
    rw [flatten_nil, append_nil]
    exact after
  | cons piece pieces ih =>
    rw [flatten_cons, ← append_assoc]
    exact ih (after.update piece)

theorem Sha256.After.finalize (after : s.After message) : s.finalize = digestSha256 message := by
  have closed := closing after.fed
  unfold digestSha256
  rw [← closed, ← after.size]
  rfl

theorem Sha1.After.finalize {s : Sha1} (after : s.After message) : s.finalize = digestSha1 message := by
  have closed := closing after.fed
  unfold digestSha1
  rw [← closed, ← after.size]
  rfl

theorem sha256_digest (message : List UInt8) : sha256 message = digestSha256 message :=
  (Sha256.after_start.update message).finalize

theorem sha1_digest (message : List UInt8) : sha1 message = digestSha1 message :=
  (Sha1.after_start.update message).finalize

theorem digestSha256_length (message : List UInt8) : (digestSha256 message).length = sha256Len := by
  rw [← sha256_digest, sha256_length]

theorem hmacKeyBlock_keyBlock (key : List UInt8) : hmacKeyBlock key = keyBlock key := by
  unfold hmacKeyBlock keyBlock sha256BlockLen
  by_cases long : key.length > 64
  · rw [if_pos long, if_pos long]
    dsimp only
    rw [sha256_digest, digestSha256_length]
  · rw [if_neg long, if_neg long]

theorem HmacSha256.updates_inner (s : HmacSha256) (pieces : List (List UInt8)) :
    pieces.foldl HmacSha256.update s = { s with inner := pieces.foldl Sha256.update s.inner } := by
  induction pieces generalizing s with
  | nil => rfl
  | cons piece pieces ih => exact ih _

theorem HmacSha256.finalize_updates (key : List UInt8) (pieces : List (List UInt8)) :
    (pieces.foldl HmacSha256.update (HmacSha256.ofKey key)).finalize = codeHmacSha256 key pieces.flatten := by
  have inner := ((Sha256.after_start.update ((keyBlock key).map (· ^^^ 0x36))).updates pieces).finalize
  have outer := ((Sha256.after_start.update ((keyBlock key).map (· ^^^ 0x5c))).update
    (digestSha256 ((keyBlock key).map (· ^^^ 0x36) ++ pieces.flatten))).finalize
  rw [HmacSha256.updates_inner]
  unfold HmacSha256.finalize HmacSha256.ofKey codeHmacSha256
  rw [hmacKeyBlock_keyBlock]
  rw [nil_append] at inner outer
  dsimp only
  rw [inner, outer]

/-- However a message is cut, the hashes come to its digest, and the keyed hash to its code. -/
theorem incremental_digests (pieces : List (List UInt8)) :
    (pieces.foldl Sha256.update {}).finalize = digestSha256 pieces.flatten ∧
      (pieces.foldl Sha1.update {}).finalize = digestSha1 pieces.flatten ∧
      ∀ key, (pieces.foldl HmacSha256.update (HmacSha256.ofKey key)).finalize = codeHmacSha256 key pieces.flatten :=
  ⟨(Sha256.after_start.updates pieces).finalize, (Sha1.after_start.updates pieces).finalize,
    fun key => HmacSha256.finalize_updates key pieces⟩

end Incremental

end Nxt.Crypto
