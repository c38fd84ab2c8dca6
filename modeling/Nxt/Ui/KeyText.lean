import Nxt.Lib.Utf8
import Nxt.Ui.Input

/- The text of character keys. What a report or a control byte tells is always the encoding of
   characters; a typed character is taken by the form of its bytes alone, and bytes of that form
   that are no character's come through as they are. -/
namespace Nxt.Ui.Input
open Nxt.Lib List
variable {pending : List UInt8} {event : KeyEvent} {n : Nat}

section Reports

theorem encodeUtf8_char (c : Char) : encodeUtf8 c.val.toNat = String.utf8EncodeChar c := (utf8EncodeChar_bits c).symm

theorem encoded_text {cp : Nat} (valid : Scalar cp) : Utf8Text (encodeUtf8 cp) := by
  obtain ⟨c, rfl⟩ := char_exists valid
  rw [encodeUtf8_char]
  exact utf8Text_char c

theorem parseCodepoint_scalar {text : List UInt8} {cp : Nat} (read : parseCodepoint text = some cp) : Scalar cp := by
  unfold parseCodepoint at read
  split at read
  · cases read
  · rename_i value _
    split at read
    · cases read
    · split at read
      · cases read
      · rename_i range surrogate
        cases read
        simp only [Bool.or_eq_true, decide_eq_true_eq, not_or, Bool.and_eq_true, not_and] at range surrogate
        unfold Scalar
        omega

theorem mapM_parseCodepoint_text {parts : List (List UInt8)} {cps : List Nat}
    (read : parts.mapM parseCodepoint = some cps) : Utf8Text (cps.flatMap encodeUtf8) := by
  induction parts generalizing cps with
  | nil =>
    cases read
    exact utf8Text_nil
  | cons part rest ih =>
    rw [mapM_cons] at read
    obtain ⟨cp, first, read⟩ := Option.bind_eq_some_iff.mp read
    obtain ⟨more, others, read⟩ := Option.bind_eq_some_iff.mp read
    cases read
    rw [flatMap_cons]
    exact (encoded_text (parseCodepoint_scalar first)).append (ih others)

theorem parseAssociatedText_text {part text : List UInt8} (read : parseAssociatedText part = some text) :
    Utf8Text text := by
  unfold parseAssociatedText at read
  split at read
  · cases read
    exact utf8Text_nil
  · obtain ⟨cps, codes, rfl⟩ := Option.map_eq_some_iff.mp read
    exact mapM_parseCodepoint_text codes

def StaysText (event result : KeyEvent) : Prop := Utf8Text event.text → Utf8Text result.text

theorem staysText_carried : Carried StaysText where
  refl _ := id
  trans first second := second ∘ first
  shifted _ _ := id
  base _ _ := id
  mods _ _ := id
  type _ _ := id

theorem readText_text (params : List (List UInt8)) (event : KeyEvent) :
    StaysText event (outcome (readText params event)) := by
  unfold readText
  split
  · exact id
  · split
    · exact id
    · rename_i text found
      exact fun _ => parseAssociatedText_text found

theorem readCommand_text (command : UInt8) {first : Nat} (valid : Scalar first) (event : KeyEvent) :
    StaysText event (readCommand command first event) := by
  intro before
  unfold readCommand
  dsimp only
  split
  · split
    · split
      · exact encoded_text valid
      · exact before
    · split
      · exact encoded_text valid
      · exact before
  · split
    · exact before
    · split
      · exact before
      · exact before

theorem firstCode_scalar (keyParts : List (List UInt8)) : Scalar ((firstCode keyParts).getD 0) := by
  cases code : firstCode keyParts with
  | none => exact .inl (by decide)
  | some cp =>
    unfold firstCode at code
    split at code
    · cases code
    · exact parseCodepoint_scalar code

theorem readKey_text (raw : List UInt8) (params : List (List UInt8)) (command : UInt8) :
    Utf8Text (outcome (readKey raw params command)).text := by
  unfold readKey
  dsimp only
  split
  · exact utf8Text_nil
  · have kept := staysText_carried
    refine kept.bind (kept.readAlternates _ _) (fun one => ?_) (utf8Text_nil : Utf8Text ({ raw } : KeyEvent).text)
    refine kept.bind (kept.readModifiers _ _) fun two => ?_
    exact kept.bind (readText_text _ _) fun three => readCommand_text _ (firstCode_scalar _) three

theorem readPosition_text {raw row col : List UInt8} (read : readPosition raw row col = .ok event) :
    Utf8Text event.text := by
  unfold readPosition at read
  split at read
  · split at read
    · cases read
    · cases read
      exact utf8Text_nil
  · cases read

theorem parseCsi_text {end_ : Nat} (parsed : parseCsi pending end_ = (.parsed, event)) : Utf8Text event.text := by
  unfold parseCsi at parsed
  dsimp only at parsed
  split at parsed
  · cases parsed
  · split at parsed
    · rename_i result read
      cases parsed
      split at read
      · exact readPosition_text read
      · have text := readKey_text (pending.take (end_ + 1)) (((pending.drop 2).take (end_ - 2)).splitOn 0x3b)
          (pending[end_]?.getD 0)
        rw [read] at text
        exact text
    · cases parsed

end Reports

def FromCsi (event : KeyEvent) : Prop := event.raw.take 2 = [0x1b, 0x5b]

def Spelled (event : KeyEvent) : Prop :=
  event.key = .character → Utf8Text event.text ∧
    (¬FromCsi event → ∃ c : Char, event.codepoint = c.val.toNat ∧ event.text = String.utf8EncodeChar c)

/-- The front has the form of a character: a first byte, and as many more as it tells. -/
def formed (pending : List UInt8) : Bool :=
  match utf8Lead (pending.headD 0) with
  | none => false
  | some (len, _) => decide (len ≤ pending.length) && ((pending.take len).drop 1).all fun c => c &&& 0xc0 = 0x80

/-- Two bytes that no character starts with: overlong forms, surrogates, and values that are too large. -/
def stray : List UInt8 → Bool
  | a :: b :: _ =>
      a = 0xc0 || a = 0xc1 || (a = 0xe0 && b < 0xa0) || (a = 0xed && 0xa0 ≤ b) || (a = 0xf0 && b < 0x90) ||
        (a = 0xf4 && 0x90 ≤ b) || (0xf5 ≤ a && a ≤ 0xf7)
  | _ => false

def Misspelled (pending : List UInt8) : Prop := formed pending = true ∧ stray pending = true

section Typed

theorem trail_iff (c : UInt8) : c &&& 0xc0 = 0x80 ↔ Trail c := by
  have all : ∀ n < 256, (UInt8.ofNat n &&& 0xc0 = 0x80 ↔ n / 64 = 2) := by decide +kernel
  have here := all c.toNat (UInt8.toNat_lt c)
  rwa [UInt8.ofNat_toNat] at here

theorem trail_bits (cp : Nat) (c : UInt8) : cp <<< 6 ||| (c &&& 0x3f).toNat = cp * 64 + c.toNat % 64 := by
  have low : (c &&& 0x3f).toNat = c.toNat % 64 := by
    rw [UInt8.toNat_and]
    exact Nat.and_two_pow_sub_one_eq_mod c.toNat 6
  rw [low, ← Nat.shiftLeft_add_eq_or_of_lt (show c.toNat % 64 < 2 ^ 6 by omega), Nat.shiftLeft_eq]

theorem utf8Lead_value (a : UInt8) : utf8Lead a = if a.toNat < 0x80 then some (1, a.toNat)
    else if a.toNat / 32 = 6 then some (2, a.toNat % 32) else if a.toNat / 16 = 14 then some (3, a.toNat % 16)
    else if a.toNat / 8 = 30 then some (4, a.toNat % 8) else none := by
  have all : ∀ n < 256, utf8Lead (UInt8.ofNat n) =
      if n < 0x80 then some (1, n)
      else if n / 32 = 6 then some (2, n % 32)
      else if n / 16 = 14 then some (3, n % 16)
      else if n / 8 = 30 then some (4, n % 8)
      else none := by decide +kernel
  have here := all a.toNat (UInt8.toNat_lt a)
  rwa [UInt8.ofNat_toNat] at here

variable {a b : UInt8} {v : Nat} {rest : List UInt8} {len : Nat}

theorem byte_lt : (a < b) = (a.toNat < b.toNat) := propext UInt8.lt_iff_toNat_lt

theorem byte_le : (a ≤ b) = (a.toNat ≤ b.toNat) := propext UInt8.le_iff_toNat_le

theorem byte_eq_iff : (a = b) = (a.toNat = b.toNat) := propext UInt8.toNat_inj.symm

theorem stray_iff (a b : UInt8) (rest : List UInt8) : stray (a :: b :: rest) = true ↔
    a.toNat = 0xc0 ∨ a.toNat = 0xc1 ∨ (a.toNat = 0xe0 ∧ b.toNat < 0xa0) ∨ (a.toNat = 0xed ∧ 0xa0 ≤ b.toNat) ∨
      (a.toNat = 0xf0 ∧ b.toNat < 0x90) ∨ (a.toNat = 0xf4 ∧ 0x90 ≤ b.toNat) ∨ (0xf5 ≤ a.toNat ∧ a.toNat ≤ 0xf7) := by
  simp only [stray, Bool.or_eq_true, Bool.and_eq_true, decide_eq_true_eq, byte_lt, byte_le, byte_eq_iff, or_assoc]
  rfl

theorem encodes_two (encodes : Encodes v [a, b]) : 0xc2 ≤ a.toNat := by
  cases encodes with
  | two lead second => exact lead.1

theorem encodes_three {c : UInt8} (encodes : Encodes v [a, b, c]) : 0x800 ≤ v ∧ Scalar v := by
  cases encodes with
  | three lead second third least valid => exact ⟨least, valid⟩

theorem encodes_four {c d : UInt8} (encodes : Encodes v [a, b, c, d]) : 0x10000 ≤ v ∧ Scalar v := by
  cases encodes with
  | four lead second third fourth least valid => exact ⟨least, valid⟩

theorem encodes_formed {lead : Nat} (told : utf8Lead a = some (len, lead))
    (enough : len ≤ (a :: rest).length) (trails : ∀ c ∈ ((a :: rest).take len).drop 1, Trail c) :
    Encodes ((((a :: rest).take len).drop 1).foldl (fun cp c => cp <<< 6 ||| (c &&& 0x3f).toNat) lead)
      ((a :: rest).take len) ↔ ¬stray (a :: rest) = true := by
  simp only [trail_bits]
  rw [utf8Lead_value] at told
  split at told
  · rename_i low
    cases told
    refine iff_of_true (Encodes.one low) fun bad => ?_
    cases rest with
    | nil => cases bad
    | cons b rest =>
      rw [stray_iff] at bad
      omega
  split at told
  · rename_i two
    cases told
    obtain _ | ⟨b, rest⟩ := rest
    · simp at enough
    have second : Trail b := trails b (by simp)
    rw [stray_iff]
    constructor
    · intro encodes
      have least := encodes_two encodes
      omega
    · intro sound
      exact Encodes.two (by omega) second
  split at told
  · rename_i three
    cases told
    obtain _ | ⟨b, _ | ⟨c, rest⟩⟩ := rest
    · simp at enough
    · simp at enough
    have second : Trail b := trails b (by simp)
    have third : Trail c := trails c (by simp)
    have ranges := And.intro second third
    unfold Trail at ranges
    rw [stray_iff]
    constructor
    · intro encodes
      obtain ⟨least, valid⟩ := encodes_three encodes
      unfold Scalar at valid
      simp only [take_succ_cons, take_zero, drop_succ_cons, drop_zero, foldl_cons, foldl_nil] at least valid
      omega
    · intro sound
      refine Encodes.three (by omega) second third (by omega) ?_
      unfold Scalar
      omega
  split at told
  · rename_i four
    cases told
    obtain _ | ⟨b, _ | ⟨c, _ | ⟨d, rest⟩⟩⟩ := rest
    · simp at enough
    · simp at enough
    · simp at enough
    have second : Trail b := trails b (by simp)
    have third : Trail c := trails c (by simp)
    have fourth : Trail d := trails d (by simp)
    have ranges := And.intro second (And.intro third fourth)
    unfold Trail at ranges
    rw [stray_iff]
    constructor
    · intro encodes
      obtain ⟨least, valid⟩ := encodes_four encodes
      unfold Scalar at valid
      simp only [take_succ_cons, take_zero, drop_succ_cons, drop_zero, foldl_cons, foldl_nil] at least valid
      omega
    · intro sound
      refine Encodes.four (by omega) second third fourth (by omega) ?_
      unfold Scalar
      omega
  · cases told

theorem head_of_csi (csi : ((a :: rest).take len).take 2 = [0x1b, 0x5b]) : a = 0x1b := by
  cases len with
  | zero => cases csi
  | succ len =>
    rw [take_succ_cons, take_succ_cons] at csi
    exact (cons.inj csi).1

theorem spelled_iff (character : event.key = .character) (outside : ¬FromCsi event) :
    Spelled event ↔ Encodes event.codepoint event.text := by
  constructor
  · intro spelled
    obtain ⟨c, value, text⟩ := (spelled character).2 outside
    exact encodes_iff.mpr ⟨c, value.symm, text.symm⟩
  · intro encodes _
    obtain ⟨c, value, text⟩ := encodes_iff.mp encodes
    exact ⟨text ▸ utf8Text_char c, fun _ => ⟨c, value.symm, text.symm⟩⟩

theorem formed_iff {pending : List UInt8} {lead : Nat} (told : utf8Lead (pending.headD 0) = some (len, lead)) :
    formed pending = true ↔ len ≤ pending.length ∧ ∀ c ∈ (pending.take len).drop 1, Trail c := by
  unfold formed
  rw [told]
  simp only [Bool.and_eq_true, decide_eq_true_eq, all_eq_true, trail_iff]

theorem parseUtf8_spelled (typed : a ≠ 0x1b)
    (found : parseUtf8 (a :: rest) = some (event, n)) : Spelled event ↔ ¬Misspelled (a :: rest) := by
  unfold parseUtf8 at found
  split at found
  · rename_i told
    cases found
    refine iff_of_true (fun character => by cases character) fun bad => ?_
    have formed := bad.1
    unfold Input.formed at formed
    rw [told] at formed
    cases formed
  · rename_i len lead told
    split at found
    · cases found
    · rename_i enough
      dsimp only at found
      split at found
      · rename_i wrong
        cases found
        refine iff_of_true (fun character => by cases character) fun bad => ?_
        obtain ⟨c, inside, differs⟩ := any_eq_true.mp wrong
        have trail := ((formed_iff told).mp bad.1).2 c inside
        exact (of_decide_eq_true differs) ((trail_iff c).mpr trail)
      · rename_i right
        cases found
        have trails : ∀ c ∈ ((a :: rest).take n).drop 1, Trail c := by
          intro c inside
          by_contra wrong
          refine right (any_eq_true.mpr ⟨c, inside, decide_eq_true ?_⟩)
          exact fun is => wrong ((trail_iff c).mp is)
        have formed := (formed_iff told).mpr ⟨by omega, trails⟩
        have outside : ¬((a :: rest).take n).take 2 = [0x1b, 0x5b] := fun csi => typed (head_of_csi csi)
        have sound := @encodes_formed a rest n lead told (by omega) trails
        refine Iff.trans (spelled_iff rfl ?_) (sound.trans (not_congr (and_iff_right formed).symm))
        exact outside

end Typed

theorem parseControl_spelled (c : UInt8) : Spelled (parseControl c) := by
  intro character
  unfold parseControl at character ⊢
  split at character
  · cases character
  split at character
  · cases character
  split at character
  · cases character
  split at character
  · rename_i enter tab backspace letter
    rw [if_neg enter, if_neg tab, if_neg backspace, if_pos letter]
    simp only [Bool.and_eq_true, decide_eq_true_eq, byte_le] at letter
    have least : 1 ≤ c.toNat := letter.1
    have most : c.toNat ≤ 26 := letter.2
    obtain ⟨x, value⟩ := char_exists (v := 0x61 + c.toNat - 1) (Or.inl (by omega))
    dsimp only
    rw [← value, encodeUtf8_char]
    exact ⟨utf8Text_char x, fun _ => ⟨x, rfl, rfl⟩⟩
  · cases character

theorem flushByte_spelled (c : UInt8) : Spelled (Parser.flushByte c) := by
  unfold Parser.flushByte
  split
  · intro character
    cases character
  · split
    · exact parseControl_spelled c
    · intro character
      cases character

theorem not_misspelled {a : UInt8} (low : a.toNat < 0x80) (rest : List UInt8) : ¬Misspelled (a :: rest) := by
  intro bad
  cases rest with
  | nil => cases bad.2
  | cons b rest =>
    have range := (stray_iff a b rest).mp bad.2
    omega

theorem nextEvent_spelled (found : nextEvent pending = some (event, n)) : Spelled event ↔ ¬Misspelled pending := by
  cases pending with
  | nil => cases found
  | cons c rest =>
    simp only [nextEvent] at found
    split at found
    · rename_i escape
      refine iff_of_true ?_ (not_misspelled (by rw [escape]; decide) rest)
      split at found
      · cases found
      · rename_i second next
        split at found
        · rename_i bracket
          split at found
          · cases found
          · rename_i end_ at_
            split at found
            · rename_i result parsed
              cases found
              refine fun _ => ⟨parseCsi_text parsed, fun outside => absurd ?_ outside⟩
              obtain ⟨-, two, -⟩ := csiEnd_append at_ []
              obtain ⟨tail, rfl⟩ := head?_eq_some_iff.mp next
              unfold FromCsi
              rw [parseCsi_raw parsed, take_take, Nat.min_eq_left (by omega), escape, bracket]
              rfl
            · cases found
              intro character
              cases character
            · cases found
              intro character
              cases character
        · cases found
          intro character
          cases character
    · rename_i typed
      split at found
      · rename_i control
        cases found
        refine iff_of_true (parseControl_spelled c) (not_misspelled ?_ rest)
        simp only [Bool.or_eq_true, decide_eq_true_eq, byte_lt, byte_eq_iff] at control
        rcases control with low | delete
        · exact lt_trans low (by decide)
        · rw [delete]
          decide
      · exact parseUtf8_spelled typed found

namespace Parser

/-- The texts of the character keys are right as long as no turn of the parser starts with bytes that only
    have the form of a character. -/
theorem key_text_iff (all : List (Option (List UInt8))) : (∀ event ∈ (({} : Parser).calls all).1, Spelled event) ↔
      ∀ front ∈ ({} : Parser).turns all, ¬Misspelled front := by
  rw [calls_turns flushByte_spelled]
  refine forall₂_congr fun front inside => ?_
  obtain ⟨event, n, found⟩ := turns_event inside
  constructor
  · intro spelled
    exact (nextEvent_spelled found).mp (spelled event n found)
  · intro plain event' n' found'
    exact (nextEvent_spelled found').mpr plain

/-- Two bytes that spell no character come through as the text of a key. -/
theorem overlong_key : ¬∀ event ∈ (({} : Parser).calls [some [0xc0, 0x80]]).1, Spelled event := by
  intro spelled
  have read : (({} : Parser).calls [some [0xc0, 0x80]]).1 =
      [{ key := .character, codepoint := 0, text := [0xc0, 0x80], raw := [0xc0, 0x80] }] := by
    decide +kernel
  rw [read] at spelled
  have encodes := (spelled_iff rfl (by unfold FromCsi; decide)).mp (spelled _ mem_cons_self)
  exact absurd (encodes_two encodes) (by decide)

end Parser

end Nxt.Ui.Input
