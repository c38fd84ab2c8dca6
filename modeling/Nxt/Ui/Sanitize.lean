import Nxt.Lib.Characters

/- sanitize_terminal_text, which goes byte by byte, on texts of characters. It drops one byte after an ESC, be it the first
   of several that make up a character, and knows no control characters past DEL. -/
namespace Nxt.Ui
open Nxt.Lib List

/-- The bytes after a control sequence, from its `[` on. -/
def afterCsi (bytes : List UInt8) : List UInt8 := (bytes.dropWhile fun x => !(0x40 ≤ x && x ≤ 0x7e)).drop 1

theorem afterCsi_length (bytes : List UInt8) : (afterCsi bytes).length ≤ bytes.length := by
  have shorter := length_dropWhile_le (fun x : UInt8 => !(0x40 ≤ x && x ≤ 0x7e)) bytes
  unfold afterCsi
  rw [length_drop]
  omega

def sanitizeTerminalText : List UInt8 → List UInt8
  | [] => []
  | c :: rest =>
      if c = 0x1b then
        match rest with
        | [] => []
        | x :: more => if x = 0x5b then sanitizeTerminalText (afterCsi more) else sanitizeTerminalText more
      else if c = 0x09 then [0x20, 0x20, 0x20, 0x20] ++ sanitizeTerminalText rest
      else if c = 0x0a then 0x0a :: sanitizeTerminalText rest
      else if c = 0x0d then
        if rest.head? = some 0x0a then 0x0a :: sanitizeTerminalText (rest.drop 1) else sanitizeTerminalText rest
      else if c < 0x20 || c = 0x7f then sanitizeTerminalText rest
      else c :: sanitizeTerminalText rest
termination_by text => text.length
decreasing_by
  all_goals simp only [length_cons, length_drop]
  · have shorter := afterCsi_length more
    omega
  all_goals omega

/-- A character of a text that is outside of escape sequences, the one that an ESC takes with it, or a control
    sequence. -/
inductive Part where
  | plain (c : Char)
  | escape (next : Option Char)
  | csi
  deriving DecidableEq

def afterSequence (text : List Char) : List Char := (text.dropWhile fun c => !('@' ≤ c && c ≤ '~')).drop 1

theorem afterSequence_length (text : List Char) : (afterSequence text).length ≤ text.length := by
  have shorter := length_dropWhile_le (fun c => !('@' ≤ c && c ≤ '~')) text
  unfold afterSequence
  rw [length_drop]
  omega

def parts : List Char → List Part
  | [] => []
  | c :: rest =>
      if c = '\x1b' then
        match rest with
        | [] => [.escape none]
        | x :: more => if x = '[' then .csi :: parts (afterSequence more) else .escape (some x) :: parts more
      else .plain c :: parts rest
termination_by text => text.length
decreasing_by
  all_goals simp only [length_cons]
  · have shorter := afterSequence_length more
    omega
  all_goals omega

def Part.char : Part → Option Char
  | plain c => some c
  | _ => none

/-- The characters outside of escape sequences. -/
def outside (text : List Char) : List Char := (parts text).filterMap Part.char

def c1 (c : Char) : Bool := 0x80 ≤ c.val.toNat && c.val.toNat < 0xa0

def control (c : Char) : Bool := c.val.toNat < 0x20 || c.val.toNat = 0x7f || c1 c

/-- The result is a text without control characters but newlines, with all others that are outside of escape sequences
    in order, and stays as it is. -/
structure Safe (text : List Char) : Prop where
  clean : ∃ chars, sanitizeTerminalText (encoded text) = encoded chars ∧ (∀ c ∈ chars, control c = true → c = '\n') ∧
    ((outside text).filter fun c => !control c).Sublist chars
  stable : sanitizeTerminalText (sanitizeTerminalText (encoded text)) = sanitizeTerminalText (encoded text)

namespace Part

/-- No C1 character, and no ESC that takes a character of several bytes with it. -/
def harmless : Part → Bool
  | plain c => !c1 c
  | escape (some c) => c.val.toNat < 0x80
  | escape none => true
  | csi => true

def emitted : Part → List UInt8
  | plain c =>
      if c = '\t' then [0x20, 0x20, 0x20, 0x20]
      else if c ≠ '\n' ∧ (c.val.toNat < 0x20 ∨ c.val.toNat = 0x7f) then []
      else String.utf8EncodeChar c
  | escape (some c) => (String.utf8EncodeChar c).drop 1
  | escape none => []
  | csi => []

def cleaned : Part → List Char
  | plain c =>
      if c = '\t' then [' ', ' ', ' ', ' ']
      else if c ≠ '\n' ∧ (c.val.toNat < 0x20 ∨ c.val.toNat = 0x7f) then []
      else [c]
  | _ => []

end Part

section Bytes

def kept (b : UInt8) : Bool := b = 0x0a || 0x20 ≤ b && b ≠ 0x7f

theorem sanitize_unescaped {c : UInt8} (plain : c ≠ 0x1b) (rest : List UInt8) :
    sanitizeTerminalText (c :: rest) = if c = 0x09 then [0x20, 0x20, 0x20, 0x20] ++ sanitizeTerminalText rest
      else if c = 0x0a then 0x0a :: sanitizeTerminalText rest else if c = 0x0d then
        if rest.head? = some 0x0a then 0x0a :: sanitizeTerminalText (rest.drop 1) else sanitizeTerminalText rest
      else if c < 0x20 || c = 0x7f then sanitizeTerminalText rest else c :: sanitizeTerminalText rest := by
  rw [sanitizeTerminalText.eq_def]
  dsimp only
  rw [if_neg plain]

theorem sanitize_escape (x : UInt8) (more : List UInt8) : sanitizeTerminalText (0x1b :: x :: more) =
      if x = 0x5b then sanitizeTerminalText (afterCsi more) else sanitizeTerminalText more := by
  rw [sanitizeTerminalText.eq_def]
  dsimp only
  rw [if_pos rfl]

theorem sanitize_kept {b : UInt8} (keeps : kept b = true) (rest : List UInt8) :
    sanitizeTerminalText (b :: rest) = b :: sanitizeTerminalText rest := by
  unfold kept at keeps
  simp only [Bool.or_eq_true, Bool.and_eq_true, decide_eq_true_eq] at keeps
  rcases keeps with rfl | ⟨low, del⟩
  · rw [sanitize_unescaped (by decide)]
    rfl
  · have other (x : UInt8) (small : ¬0x20 ≤ x) : b ≠ x := by
      rintro rfl
      exact small low
    rw [sanitize_unescaped (other _ (by decide)), if_neg (other _ (by decide)), if_neg (other _ (by decide)),
      if_neg (other _ (by decide)), if_neg]
    simp only [Bool.or_eq_true, decide_eq_true_eq, not_or]
    exact ⟨UInt8.not_lt.mpr low, by simpa using del⟩

theorem sanitize_keeps {bytes : List UInt8} (keeps : ∀ b ∈ bytes, kept b = true) (rest : List UInt8) :
    sanitizeTerminalText (bytes ++ rest) = bytes ++ sanitizeTerminalText rest := by
  induction bytes with
  | nil => rfl
  | cons b bytes ih =>
    rw [cons_append, sanitize_kept (keeps b mem_cons_self),
      ih fun x inside => keeps x (mem_cons_of_mem _ inside), cons_append]

theorem sanitize_cr (rest : List UInt8) : sanitizeTerminalText (0x0d :: rest) = sanitizeTerminalText rest := by
  rw [sanitize_unescaped (by decide)]
  show (if rest.head? = some 0x0a then _ else _) = _
  split
  · rename_i newline
    obtain ⟨more, rfl⟩ := head?_eq_some_iff.mp newline
    rw [@sanitize_kept 0x0a (by decide)]
    rfl
  · rfl

theorem sanitize_all_kept (text : List UInt8) : ∀ b ∈ sanitizeTerminalText text, kept b = true := by
  fun_induction sanitizeTerminalText text with
  | case1 => exact fun b inside => absurd inside not_mem_nil
  | case2 => exact fun b inside => absurd inside not_mem_nil
  | case3 more ih => exact ih
  | case4 x more other ih => exact ih
  | case5 rest plain ih => simpa using ⟨by decide, ih⟩
  | case6 rest plain tab ih => simpa using ⟨by decide, ih⟩
  | case7 rest plain tab line newline ih => exact forall_mem_cons.mpr ⟨by decide, ih⟩
  | case8 rest plain tab line newline ih => exact ih
  | case9 c rest plain tab line cr below ih => exact ih
  | case10 c rest plain tab line cr below ih =>
    refine forall_mem_cons.mpr ⟨?_, ih⟩
    simp only [Bool.or_eq_true, decide_eq_true_eq, not_or] at below
    unfold kept
    simp only [Bool.or_eq_true, Bool.and_eq_true, decide_eq_true_eq]
    exact .inr ⟨UInt8.not_lt.mp below.1, by simpa using below.2⟩

theorem sanitize_stable (text : List UInt8) :
    sanitizeTerminalText (sanitizeTerminalText text) = sanitizeTerminalText text := by
  have whole := sanitize_keeps (sanitize_all_kept text) []
  rw [append_nil] at whole
  rw [whole, sanitizeTerminalText, append_nil]

end Bytes

section Characters

theorem high_kept {b : UInt8} (high : 0x80 ≤ b.toNat) : kept b = true := by
  unfold kept
  rw [Bool.or_eq_true, Bool.and_eq_true, decide_eq_true_eq, decide_eq_true_eq]
  refine .inr ⟨UInt8.le_iff_toNat_le.mpr (show 32 ≤ b.toNat by omega), decide_eq_true ?_⟩
  rintro rfl
  exact absurd high (by decide)

theorem char_high {c : Char} (high : 0x80 ≤ c.val.toNat) : ∀ b ∈ String.utf8EncodeChar c, 0x80 ≤ b.toNat := by
  obtain ⟨lead, trails, bytes, least, -, trail⟩ := char_multibyte high
  rw [bytes]
  intro b inside
  rcases mem_cons.mp inside with rfl | later
  · omega
  · have after := trail b later
    unfold Trail at after
    omega

theorem char_val {c d : Char} : c = d ↔ c.val.toNat = d.val.toNat := by
  rw [UInt32.toNat_inj, Char.val_inj]

theorem ascii_eq {c d : Char} (low : c.val.toNat < 0x80) (low' : d.val.toNat < 0x80) :
    UInt8.ofNat c.val.toNat = UInt8.ofNat d.val.toNat ↔ c = d := by
  rw [← UInt8.toNat_inj, toNat_ofNat_small (by omega), toNat_ofNat_small (by omega), char_val]

theorem lead_ne {lead : UInt8} (least : 0xc2 ≤ lead.toNat) {n : Nat} (low : n < 0x80) : lead ≠ UInt8.ofNat n := by
  rintro rfl
  rw [toNat_ofNat_small (by omega)] at least
  omega

theorem dropWhile_high {bytes : List UInt8} (high : ∀ b ∈ bytes, 0x80 ≤ b.toNat) (rest : List UInt8) :
    (bytes ++ rest).dropWhile (fun x => !(0x40 ≤ x && x ≤ 0x7e)) = rest.dropWhile fun x => !(0x40 ≤ x && x ≤ 0x7e) := by
  refine dropWhile_append_of_pos ?_
  intro b inside
  have above := high b inside
  have past : ¬b ≤ 0x7e := by
    rw [UInt8.le_iff_toNat_le]
    show ¬b.toNat ≤ 126
    omega
  rw [decide_eq_false past, Bool.and_false]
  rfl

theorem afterCsi_encoded (text : List Char) : afterCsi (encoded text) = encoded (afterSequence text) := by
  unfold afterCsi afterSequence
  induction text with
  | nil => rfl
  | cons c rest ih =>
    rw [encoded_cons]
    by_cases low : c.val.toNat < 0x80
    · rw [char_ascii low]
      have final : ((0x40 : UInt8) ≤ UInt8.ofNat c.val.toNat && UInt8.ofNat c.val.toNat ≤ 0x7e) =
          ('@' ≤ c && c ≤ '~') := by
        have value := toNat_ofNat_small (n := c.val.toNat) (by omega)
        rw [Bool.eq_iff_iff, Bool.and_eq_true, Bool.and_eq_true, decide_eq_true_eq, decide_eq_true_eq,
          decide_eq_true_eq, decide_eq_true_eq, UInt8.le_iff_toNat_le, UInt8.le_iff_toNat_le, value]
        exact Iff.rfl
      rw [singleton_append, dropWhile_cons, dropWhile_cons, final]
      split
      · exact ih
      · rfl
    · have high : 0x80 ≤ c.val.toNat := by omega
      have past : ¬c ≤ '~' := by
        intro inside
        have most : c.val.toNat ≤ 126 := inside
        omega
      rw [dropWhile_high (char_high high), dropWhile_cons, decide_eq_false past, Bool.and_false]
      exact ih

theorem sanitize_ascii {c : Char} (low : c.val.toNat < 0x80) (plain : c ≠ '\x1b') (rest : List UInt8) :
    sanitizeTerminalText (String.utf8EncodeChar c ++ rest) = (Part.plain c).emitted ++ sanitizeTerminalText rest := by
  have value := toNat_ofNat_small (n := c.val.toNat) (by omega)
  have other (d : Char) (low' : d.val.toNat < 0x80) (apart : c ≠ d) :
      UInt8.ofNat c.val.toNat ≠ UInt8.ofNat d.val.toNat := fun same => apart ((ascii_eq low low').mp same)
  rw [char_ascii low, singleton_append, Part.emitted, char_ascii low]
  by_cases tab : c = '\t'
  · rw [tab, if_pos rfl]
    exact sanitize_unescaped (by decide) rest
  · rw [if_neg tab]
    by_cases newline : c = '\n'
    · rw [newline, if_neg (by simp)]
      exact sanitize_unescaped (by decide) rest
    · by_cases cr : c = '\r'
      · rw [cr, if_pos (by decide)]
        exact sanitize_cr rest
      · have controls : (UInt8.ofNat c.val.toNat < 0x20 || UInt8.ofNat c.val.toNat = 0x7f) = true ↔
            c.val.toNat < 0x20 ∨ c.val.toNat = 0x7f := by
          rw [Bool.or_eq_true, decide_eq_true_eq, decide_eq_true_eq, UInt8.lt_iff_toNat_lt, ← UInt8.toNat_inj, value]
          exact Iff.rfl
        have not_tab : UInt8.ofNat c.val.toNat ≠ 0x09 := other '\t' (by decide) tab
        have not_newline : UInt8.ofNat c.val.toNat ≠ 0x0a := other '\n' (by decide) newline
        have not_cr : UInt8.ofNat c.val.toNat ≠ 0x0d := other '\r' (by decide) cr
        rw [sanitize_unescaped (other '\x1b' (by decide) plain), if_neg not_tab, if_neg not_newline, if_neg not_cr]
        by_cases below : c.val.toNat < 0x20 ∨ c.val.toNat = 0x7f
        · rw [if_pos (controls.mpr below), if_pos ⟨newline, below⟩]
          rfl
        · rw [if_neg (mt controls.mp below), if_neg fun both => below both.2]
          rfl

theorem sanitize_parts (text : List Char) : sanitizeTerminalText (encoded text) = (parts text).flatMap Part.emitted := by
  fun_induction parts text with
  | case1 => rw [encoded_nil, sanitizeTerminalText]; rfl
  | case2 =>
    rw [sanitizeTerminalText.eq_def]
    rfl
  | case3 more ih =>
    have bytes : encoded ('\x1b' :: '[' :: more) = 0x1b :: 0x5b :: encoded more := rfl
    rw [bytes, sanitize_escape, if_pos rfl, afterCsi_encoded, ih]
    rfl
  | case4 x more other ih =>
    have bytes : encoded ('\x1b' :: x :: more) = 0x1b :: (String.utf8EncodeChar x ++ encoded more) := rfl
    rw [bytes, flatMap_cons, ← ih]
    by_cases low : x.val.toNat < 0x80
    · have bracket : UInt8.ofNat x.val.toNat ≠ 0x5b := fun same => other ((@ascii_eq x '[' low (by decide)).mp same)
      rw [char_ascii low, singleton_append, sanitize_escape, if_neg bracket, Part.emitted, char_ascii low]
      rfl
    · obtain ⟨lead, trails, bytes, least, -, trail⟩ := @char_multibyte x (by omega)
      have bracket : lead ≠ 0x5b := lead_ne least (n := 0x5b) (by decide)
      have keeps : ∀ b ∈ trails, kept b = true := fun b inside => high_kept (by
        have after := trail b inside
        unfold Trail at after
        omega)
      rw [Part.emitted, bytes, cons_append, sanitize_escape, if_neg bracket, sanitize_keeps keeps]
      rfl
  | case5 c rest plain ih =>
    rw [encoded_cons, flatMap_cons, ← ih]
    by_cases low : c.val.toNat < 0x80
    · exact sanitize_ascii low plain (encoded rest)
    · have high : 0x80 ≤ c.val.toNat := by omega
      rw [sanitize_keeps fun b inside => high_kept (char_high high b inside), Part.emitted, if_neg, if_neg]
      · omega
      · rintro rfl
        exact absurd high (by decide)

end Characters

section Results

theorem Part.emitted_cleaned {part : Part} (harmless : part.harmless = true) : part.emitted = encoded part.cleaned := by
  match part with
  | plain c =>
    rw [emitted, cleaned]
    split
    · rfl
    · split
      · rfl
      · rw [encoded_cons, encoded_nil, append_nil]
  | escape (some c) =>
    have low : c.val.toNat < 0x80 := by simpa [Part.harmless] using harmless
    show (String.utf8EncodeChar c).drop 1 = []
    rw [char_ascii low]
    rfl
  | escape none => rfl
  | csi => rfl

theorem Part.cleaned_control {part : Part} (harmless : part.harmless = true) :
    ∀ c ∈ part.cleaned, control c = true → c = '\n' := by
  match part with
  | plain c =>
    have past : c1 c = false := by simpa [Part.harmless] using harmless
    rw [cleaned]
    split
    · intro d inside controls
      have space : d = ' ' := by simpa using inside
      rw [space] at controls
      exact absurd controls (by decide)
    · split
      · exact fun d inside => absurd inside not_mem_nil
      · rename_i low
        intro d inside controls
        obtain rfl := mem_singleton.mp inside
        unfold control at controls
        rw [past] at controls
        simp only [Bool.or_eq_true, decide_eq_true_eq, Bool.false_eq_true, or_false] at controls
        exact not_not.mp fun other => low ⟨other, controls⟩
  | escape (some c) => exact fun d inside => absurd inside not_mem_nil
  | escape none => exact fun d inside => absurd inside not_mem_nil
  | csi => exact fun d inside => absurd inside not_mem_nil

/-- No character but controls is lost outside of escape sequences. -/
theorem cleaned_keeps (all : List Part) :
    ((all.filterMap Part.char).filter fun c => !control c).Sublist (all.flatMap Part.cleaned) := by
  induction all with
  | nil => exact List.Sublist.slnil
  | cons part rest ih =>
    rw [flatMap_cons]
    cases part with
    | plain c =>
      have here : ((Part.plain c :: rest).filterMap Part.char) = c :: rest.filterMap Part.char := rfl
      rw [here]
      by_cases controls : control c = true
      · rw [filter_cons_of_neg (by simp [controls])]
        exact ih.trans (sublist_append_right _ _)
      · have same : (Part.plain c).cleaned = [c] := by
          have unchanged := controls
          unfold control at unchanged
          simp only [Bool.or_eq_true, decide_eq_true_eq, not_or] at unchanged
          rw [Part.cleaned, if_neg, if_neg fun both => both.2.elim unchanged.1.1 unchanged.1.2]
          rintro rfl
          exact controls (by decide)
        rw [filter_cons_of_pos (by simp [controls]), same]
        exact List.Sublist.cons_cons c ih
    | escape next => exact ih
    | csi => exact ih

theorem harmless_of_encoded {all : List Part} {chars : List Char} (same : all.flatMap Part.emitted = encoded chars)
    (clean : ∀ c ∈ chars, control c = true → c = '\n') : ∀ part ∈ all, part.harmless = true := by
  induction all generalizing chars with
  | nil => exact fun part inside => absurd inside not_mem_nil
  | cons part rest ih =>
    rw [flatMap_cons] at same
    have first : part.harmless = true := by
      match part with
      | .plain c =>
        by_contra harm
        have past : c1 c = true := by simpa [Part.harmless] using harm
        have high := past
        unfold c1 at high
        rw [Bool.and_eq_true, decide_eq_true_eq, decide_eq_true_eq] at high
        have bytes : (Part.plain c).emitted = encoded [c] := by
          rw [Part.emitted, encoded_cons, encoded_nil, append_nil, if_neg, if_neg]
          · omega
          · rintro rfl
            exact absurd high (by decide)
        rw [bytes] at same
        obtain ⟨tail, rfl, -⟩ := encoded_append_inj same
        have newline := clean c mem_cons_self (by unfold control; rw [past, Bool.or_true])
        rw [newline] at high
        exact absurd high (by decide)
      | .escape (some c) =>
        by_contra harm
        have high : 0x80 ≤ c.val.toNat := by simpa [Part.harmless] using harm
        obtain ⟨lead, trails, bytes, -, some_, trail⟩ := char_multibyte high
        obtain ⟨b, more, rfl⟩ := exists_cons_of_ne_nil some_
        have left_ : (Part.escape (some c)).emitted = b :: more := by
          rw [Part.emitted, bytes]
          rfl
        rw [left_] at same
        exact encoded_head same.symm (trail b mem_cons_self)
      | .escape none => rfl
      | .csi => rfl
    rw [Part.emitted_cleaned first] at same
    obtain ⟨tail, rfl, later⟩ := encoded_append_inj same
    exact forall_mem_cons.mpr
      ⟨first, ih later fun c inside => clean c (mem_append_right _ inside)⟩

/-- The result is safe exactly if no ESC takes a character of several bytes with it and no C1 character is outside of
    escape sequences. -/
theorem sanitize_safe_iff (text : List Char) : Safe text ↔ ∀ part ∈ parts text, part.harmless = true := by
  constructor
  · rintro ⟨⟨chars, same, clean, -⟩, -⟩
    rw [sanitize_parts] at same
    exact harmless_of_encoded same clean
  · intro harmless
    refine ⟨⟨(parts text).flatMap Part.cleaned, ?_, ?_, cleaned_keeps (parts text)⟩, sanitize_stable _⟩
    · rw [sanitize_parts, encoded_flatMap]
      exact flatMap_congr fun part inside => Part.emitted_cleaned (harmless part inside)
    · intro c inside
      obtain ⟨part, among, here⟩ := mem_flatMap.mp inside
      exact Part.cleaned_control (harmless part among) c here

/-- An ESC before a character of two bytes, and a C1 character alone. -/
theorem escape_cuts_character :
    sanitizeTerminalText (encoded ['\x1b', 'é']) = [0xa9] ∧ ¬Safe ['\x1b', 'é'] ∧ ¬Safe ['\u009b'] := by
  have bytes : encoded ['\x1b', 'é'] = [0x1b, 0xc3, 0xa9] := by decide
  have cut : sanitizeTerminalText (encoded ['\x1b', 'é']) = [0xa9] := by
    rw [bytes, sanitize_escape, if_neg (by decide), sanitize_kept (by decide), sanitizeTerminalText]
  have whole : sanitizeTerminalText (encoded ['\u009b']) = encoded ['\u009b'] := by
    have two : encoded ['\u009b'] = [0xc2, 0x9b] := by decide
    rw [two, sanitize_kept (by decide), sanitize_kept (by decide), sanitizeTerminalText]
  refine ⟨cut, ?_, ?_⟩
  · rintro ⟨⟨chars, same, -, -⟩, -⟩
    rw [cut] at same
    exact encoded_head same.symm (show (0xa9 : UInt8).toNat / 64 = 2 by decide)
  · rintro ⟨⟨chars, same, clean, -⟩, -⟩
    rw [whole] at same
    obtain rfl := encoded_inj same
    exact absurd (clean _ mem_cons_self (by decide)) (by decide)

end Results

end Nxt.Ui
