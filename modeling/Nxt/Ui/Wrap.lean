import Nxt.Ui.Words

/- Word wrapping (tui_text.hpp, `wrap_text`) against lines that are laid out from words: an indentation, and words with
   one space between them. -/
namespace Nxt.Ui
open Nxt.Lib List

def trimTrailingSpace (text : Bytes) : Bytes := text.rdropWhile (· == 0x20)

def markdownListContinuationIndent (text : Bytes) : Nat :=
  if [0x2d, 0x20].isPrefixOf text || [0x2a, 0x20].isPrefixOf text then 2
  else
    let i := (text.takeWhile fun b => 0x30 ≤ b && b ≤ 0x39).length
    if 0 < i && i + 1 < text.length && text.getD i 0 == 0x2e && text.getD (i + 1) 0 == 0x20 then i + 2 else 0

structure Wrapping where
  lines : List Bytes := []
  current : Bytes := []
  cursor : Nat := 0
  deriving DecidableEq

namespace Wrapping

def finishLine (s : Wrapping) : Wrapping := { lines := s.lines ++ [trimTrailingSpace s.current] }

def startContinuation (indent emitted : Nat) (s : Wrapping) : Wrapping :=
  if indent = 0 ∨ emitted = 0 then s
  else { s with current := replicate indent 0x20, cursor := indent }

/-- The text and how many lines of the paragraph are emitted. -/
def finishParagraphLine (indent : Nat) (s : Wrapping × Nat) : Wrapping × Nat :=
  (startContinuation indent (s.2 + 1) s.1.finishLine, s.2 + 1)

def append (word : Word) (s : Wrapping) : Wrapping :=
  { s with current := s.current ++ word.text ++ [0x20], cursor := s.cursor + word.width + 1 }

def addSegment (wrapWidth indent : Nat) (s : Wrapping × Nat) : Segment → Wrapping × Nat
  | .lineBreak => finishParagraphLine indent s
  | .word word =>
      let s := if 0 < s.1.cursor ∧ wrapWidth < s.1.cursor + word.width then finishParagraphLine indent s else s
      (s.1.append word, s.2)

section Text
variable (u : Utf8proc) (category : Nat → Category)

/-- One paragraph, with an empty line before it unless it is the first. -/
def addParagraph (wrapWidth : Nat) (s : Wrapping × Bool) (paragraph : Bytes) : Wrapping × Bool :=
  let start := if s.2 then { s.1.finishLine with lines := s.1.finishLine.lines ++ [[]] } else s.1
  let indent := markdownListContinuationIndent paragraph
  (((segments u category paragraph).foldl (addSegment wrapWidth indent) (start, 0)).1, true)

end Text
end Wrapping

def wrapText (u : Utf8proc) (category : Nat → Category) (text : Bytes) (wrapWidth : Nat) : List Bytes :=
  let s := ((paragraphs u category text).foldl (Wrapping.addParagraph u category (max wrapWidth 1)) ({}, false)).1
  if s.current ≠ [] ∨ s.lines = [] then s.finishLine.lines else s.lines

structure Laid where
  indent : Nat
  words : List Word
  deriving DecidableEq

namespace Laid

def text (line : Laid) : Bytes :=
  if line.words = [] then [] else replicate line.indent 0x20 ++ [0x20].intercalate (line.words.map Word.text)

def width (line : Laid) : Nat := line.indent + (line.words.map Word.width).sum + (line.words.length - 1)

/-- What the current line holds before it is trimmed, and the column behind it. -/
def render (line : Laid) : Bytes :=
  replicate line.indent 0x20 ++ (line.words.map fun word => word.text ++ [0x20]).flatten

def column (line : Laid) : Nat := line.indent + (line.words.map fun word => word.width + 1).sum

def Clean (line : Laid) : Prop := ∀ word ∈ line.words, word.text ≠ [] ∧ word.text.getLast? ≠ some 0x20

theorem column_eq (line : Laid) (some_ : line.words ≠ []) : line.column = line.width + 1 := by
  have sum : ∀ ws : List Word, (ws.map fun word => word.width + 1).sum = (ws.map Word.width).sum + ws.length := by
    intro ws
    induction ws with
    | nil => rfl
    | cons w ws ih =>
      rw [map_cons, map_cons, sum_cons, sum_cons, ih, length_cons]
      omega
  have least := length_pos_iff.mpr some_
  unfold column width
  rw [sum]
  omega

theorem render_append (line : Laid) (word : Word) :
    ({ line with words := line.words ++ [word] } : Laid).render = line.render ++ word.text ++ [0x20] := by
  unfold render
  simp only [map_append, map_cons, map_nil, flatten_append, flatten_singleton, append_assoc]

theorem column_append (line : Laid) (word : Word) :
    ({ line with words := line.words ++ [word] } : Laid).column = line.column + word.width + 1 := by
  unfold column
  simp only [map_append, map_cons, map_nil, sum_append, sum_singleton]
  omega

theorem flatten_spaced {words : List Word} (some_ : words ≠ []) :
    (words.map fun word => word.text ++ [0x20]).flatten = [0x20].intercalate (words.map Word.text) ++ [0x20] := by
  induction words with
  | nil => exact absurd rfl some_
  | cons w rest ih =>
    cases rest with
    | nil => simp [intercalate_singleton]
    | cons v rest =>
      rw [map_cons, flatten_cons, ih (cons_ne_nil _ _)]
      simp only [map_cons, intercalate_cons_cons, append_assoc]

theorem trim_render {line : Laid} (clean : line.Clean) : trimTrailingSpace line.render = line.text := by
  unfold trimTrailingSpace render text
  by_cases none_ : line.words = []
  · rw [if_pos none_, none_, map_nil, flatten_nil, append_nil, rdropWhile_eq_nil_iff]
    intro b inside
    rw [eq_of_mem_replicate inside]
    rfl
  · rw [if_neg none_, flatten_spaced none_, ← append_assoc, rdropWhile_concat_pos _ _ _ rfl]
    obtain ⟨front, last, words⟩ : ∃ front last, line.words = front ++ [last] :=
      ⟨_, _, (dropLast_append_getLast none_).symm⟩
    obtain ⟨some_, end_⟩ := clean last (by rw [words]; exact mem_concat_self)
    have tail : ∃ before, [0x20].intercalate (line.words.map Word.text) = before ++ last.text := by
      rw [words, map_append, map_singleton]
      by_cases alone : front.map Word.text = []
      · exact ⟨[], by rw [alone, nil_append, intercalate_singleton, nil_append]⟩
      · exact ⟨_, by rw [intercalate_concat _ alone, ← append_assoc]⟩
    obtain ⟨before, tail⟩ := tail
    rw [tail, ← append_assoc, rdropWhile_eq_self_iff]
    intro whole
    rw [getLast_append_of_ne_nil _ some_, beq_iff_eq]
    intro space
    exact end_ (by rw [getLast?_eq_getLast_of_ne_nil some_, space])

theorem render_ne_nil {line : Laid} (some_ : line.words ≠ []) : line.render ≠ [] := by
  unfold render
  rw [flatten_spaced some_, ← append_assoc]
  exact concat_ne_nil _ _

theorem text_ne_nil {line : Laid} (clean : line.Clean) (some_ : line.words ≠ []) : line.text ≠ [] := by
  unfold text
  rw [if_neg some_]
  cases words : line.words with
  | nil => exact absurd words some_
  | cons w rest =>
    have text := (clean w (by rw [words]; exact mem_cons_self)).1
    intro empty
    have part := (append_eq_nil_iff.mp empty).2
    cases rest with
    | nil =>
      rw [map_cons, map_nil, intercalate_singleton] at part
      exact text part
    | cons v rest =>
      rw [map_cons, map_cons, intercalate_cons_cons] at part
      exact text (append_eq_nil_iff.mp (append_eq_nil_iff.mp part).1).1

end Laid
structure LaidText where
  done : List Laid := []
  cur : Laid := { indent := 0, words := [] }
  deriving DecidableEq

namespace LaidText

def lines (l : LaidText) : List Laid := l.done ++ [l.cur]

def finish (indent : Nat) (l : LaidText) : LaidText := { done := l.done ++ [l.cur], cur := { indent, words := [] } }

def append (word : Word) (l : LaidText) : LaidText :=
  { l with cur := { l.cur with words := l.cur.words ++ [word] } }

/-- Greedy filling: a word goes on the open line if it fits there, or if nothing stands before it. -/
def add (wrapWidth indent : Nat) (l : LaidText) : Segment → LaidText
  | .lineBreak => l.finish indent
  | .word word =>
      (if 0 < l.cur.column ∧ wrapWidth < l.cur.column + word.width then l.finish indent else l).append word

end LaidText

/-- The wrapping state that a layout stands for, behind the lines of earlier paragraphs. -/
structure Stands (before : List Bytes) (l : LaidText) (s : Wrapping × Nat) : Prop where
  lines : s.1.lines = before ++ l.done.map Laid.text
  current : s.1.current = l.cur.render
  cursor : s.1.cursor = l.cur.column
  emitted : s.2 = l.done.length
  clean : l.cur.Clean

section Stands
variable {before : List Bytes} {l : LaidText} {s : Wrapping × Nat} {wrapWidth indent : Nat}

theorem Stands.finish (stands : Stands before l s) :
    Stands before (l.finish indent) (Wrapping.finishParagraphLine indent s) := by
  have lines : s.1.lines ++ [trimTrailingSpace s.1.current] = before ++ (l.done ++ [l.cur]).map Laid.text := by
    rw [stands.lines, stands.current, Laid.trim_render stands.clean, map_append, append_assoc]
    rfl
  have emitted : s.2 + 1 = (l.done ++ [l.cur]).length := by
    rw [stands.emitted, length_append, length_singleton]
  have none_ : (l.finish indent).cur.Clean := fun word inside => absurd inside not_mem_nil
  have spaces : ({ indent, words := [] } : Laid).render = replicate indent 0x20 := append_nil _
  unfold Wrapping.finishParagraphLine Wrapping.startContinuation
  by_cases zero : indent = 0
  · rw [if_pos (.inl zero)]
    refine ⟨lines, ?_, ?_, emitted, none_⟩
    · show [] = Laid.render _
      rw [zero]
      rfl
    · show 0 = Laid.column _
      rw [zero]
      rfl
  · rw [if_neg (by omega)]
    exact ⟨lines, spaces.symm, rfl, emitted, none_⟩

theorem Stands.append (stands : Stands before l s) {word : Word}
    (clean : word.text ≠ [] ∧ word.text.getLast? ≠ some 0x20) :
    Stands before (l.append word) (s.1.append word, s.2) := by
  refine ⟨stands.lines, ?_, ?_, stands.emitted, ?_⟩
  · show s.1.current ++ word.text ++ [0x20] = Laid.render _
    rw [stands.current]
    exact (Laid.render_append l.cur word).symm
  · show s.1.cursor + word.width + 1 = Laid.column _
    rw [stands.cursor]
    exact (Laid.column_append l.cur word).symm
  · intro other inside
    rcases mem_append.mp inside with earlier | last
    · exact stands.clean other earlier
    · rwa [mem_singleton.mp last]

theorem Stands.add (stands : Stands before l s) {segment : Segment}
    (clean : ∀ word, segment = .word word → word.text ≠ [] ∧ word.text.getLast? ≠ some 0x20) :
    Stands before (l.add wrapWidth indent segment) (Wrapping.addSegment wrapWidth indent s segment) := by
  cases segment with
  | lineBreak => exact stands.finish
  | word word =>
    unfold LaidText.add Wrapping.addSegment
    dsimp only
    rw [stands.cursor]
    split
    · exact stands.finish.append (clean word rfl)
    · exact stands.append (clean word rfl)

theorem Stands.run {segs : List Segment} (stands : Stands before l s)
    (clean : ∀ word, .word word ∈ segs → word.text ≠ [] ∧ word.text.getLast? ≠ some 0x20) : Stands before
    (segs.foldl (LaidText.add wrapWidth indent) l) (segs.foldl (Wrapping.addSegment wrapWidth indent) s) := by
  induction segs generalizing l s with
  | nil => exact stands
  | cons segment rest ih =>
    refine ih (stands.add fun word same => clean word ?_) fun word inside => clean word (mem_cons_of_mem _ inside)
    rw [same]
    exact mem_cons_self

end Stands

/-- What holds of the lines laid out from the words `ws`, where `cramped` says that a word after a line break does not
    fit beside the indentation. -/
structure Filled (wrapWidth indent : Nat) (cramped : Prop) (l : LaidText) (ws : List Word) : Prop where
  words : l.lines.flatMap Laid.words = ws
  fits : ∀ line ∈ l.lines, 2 ≤ line.words.length → line.width ≤ wrapWidth
  first : ∀ line rest, l.done = line :: rest → line.indent = 0 ∧ line.words ≠ [] ∧ ∀ other ∈ rest, other.indent = indent
  start : l.done = [] → l.cur.indent = 0
  continued : l.done ≠ [] → l.cur.indent = indent
  full : ¬cramped → ∀ line ∈ l.done, line.words ≠ []

section Filled
variable {wrapWidth indent : Nat} {cramped : Prop} {l : LaidText} {ws : List Word}

section
variable (filled : Filled wrapWidth indent cramped l ws)
include filled

theorem Filled.finish (opened : l.done = [] → l.cur.words ≠ [])
    (some_ : ¬cramped → l.cur.words ≠ []) : Filled wrapWidth indent cramped (l.finish indent) ws := by
  refine ⟨?_, ?_, ?_, ?_, fun _ => rfl, ?_⟩
  · show ((l.done ++ [l.cur]) ++ [_]).flatMap Laid.words = ws
    rw [flatMap_append, ← LaidText.lines, filled.words]
    exact append_nil ws
  · intro line inside long
    rcases mem_append.mp inside with before | last
    · exact filled.fits line before long
    · rw [mem_singleton.mp last] at long
      cases long
  · intro line rest same
    have done : l.done ++ [l.cur] = line :: rest := same
    cases earlier : l.done with
    | nil =>
      rw [earlier] at done
      obtain ⟨rfl, rfl⟩ := cons.inj done
      exact ⟨filled.start earlier, opened earlier, fun other inside => absurd inside not_mem_nil⟩
    | cons head tail =>
      rw [earlier] at done
      obtain ⟨rfl, rfl⟩ := cons.inj done
      obtain ⟨zero, words, others⟩ := filled.first head tail earlier
      refine ⟨zero, words, fun other inside => ?_⟩
      rcases mem_append.mp inside with before | last
      · exact others other before
      · rw [mem_singleton.mp last]
        exact filled.continued (by rw [earlier]; exact cons_ne_nil _ _)
  · intro none_
    exact absurd none_ (concat_ne_nil _ _)
  · intro loose line inside
    rcases mem_append.mp inside with before | last
    · exact filled.full loose line before
    · rw [mem_singleton.mp last]
      exact some_ loose

theorem Filled.append {word : Word}
    (fits : l.cur.words ≠ [] → l.cur.column + word.width ≤ wrapWidth) :
    Filled wrapWidth indent cramped (l.append word) (ws ++ [word]) := by
  refine ⟨?_, ?_, filled.first, filled.start, filled.continued, filled.full⟩
  · show (l.done ++ [({ l.cur with words := l.cur.words ++ [word] } : Laid)]).flatMap Laid.words = _
    rw [← filled.words, LaidText.lines, flatMap_append, flatMap_append, append_assoc]
    simp
  · intro line inside long
    rcases mem_append.mp inside with before | last
    · exact filled.fits line (mem_append_left _ before) long
    · obtain rfl := mem_singleton.mp last
      have more : l.cur.words ≠ [] := by
        intro none_
        rw [LaidText.append, none_] at long
        exact absurd long (show ¬2 ≤ 1 by decide)
      have whole : (l.append word).cur.width + 1 = l.cur.column + word.width + 1 :=
        (Laid.column_eq _ (concat_ne_nil _ _)).symm.trans (Laid.column_append l.cur word)
      have bound := fits more
      omega

theorem Filled.word {word : Word}
    (loose : l.cur.words = [] → l.done ≠ [] → 0 < indent → wrapWidth < indent + word.width → cramped) :
    Filled wrapWidth indent cramped (l.add wrapWidth indent (.word word)) (ws ++ [word]) := by
  unfold LaidText.add
  dsimp only
  have bare : l.cur.words = [] → l.cur.column = l.cur.indent := by
    intro none_
    unfold Laid.column
    rw [none_]
    rfl
  split
  · rename_i full
    -- an open line without words is pushed only for its indentation
    have opened : l.done = [] → l.cur.words ≠ [] := by
      intro first none_
      rw [bare none_, filled.start first] at full
      exact absurd full.1 (Nat.lt_irrefl 0)
    refine (filled.finish opened fun not_cramped none_ => ?_).append fun some_ => absurd rfl some_
    have later : l.done ≠ [] := fun first => opened first none_
    rw [bare none_, filled.continued later] at full
    exact not_cramped (loose none_ later full.1 full.2)
  · rename_i room
    refine filled.append fun some_ => ?_
    have column := Laid.column_eq l.cur some_
    omega

end

theorem LaidText.add_words (l : LaidText) (word : Word) : (l.add wrapWidth indent (.word word)).cur.words ≠ [] := by
  unfold LaidText.add
  exact concat_ne_nil _ _

theorem Filled.line {line : List Word} (filled : Filled wrapWidth indent cramped l ws)
    (loose : ∀ word more, line = word :: more → l.cur.words = [] → l.done ≠ [] → 0 < indent →
      wrapWidth < indent + word.width → cramped) (some_ : line ≠ [] ∨ l.cur.words ≠ []) :
    Filled wrapWidth indent cramped ((line.map Segment.word).foldl (LaidText.add wrapWidth indent) l) (ws ++ line) ∧
      ((line.map Segment.word).foldl (LaidText.add wrapWidth indent) l).cur.words ≠ [] := by
  induction line generalizing l ws with
  | nil => exact ⟨by rw [append_nil]; exact filled, some_.resolve_left fun wrong => wrong rfl⟩
  | cons word more ih =>
    have words := @LaidText.add_words wrapWidth indent l word
    rw [append_cons]
    exact ih (filled.word (loose word more rfl)) (fun _ _ _ none_ => absurd none_ words) (.inr words)

theorem Filled.lines {lines : List (List Word)} (filled : Filled wrapWidth indent cramped l ws)
    (words : ∀ line ∈ lines, line ≠ []) (some_ : l.cur.words ≠ [])
    (loose : ∀ word more, word :: more ∈ lines → 0 < indent → wrapWidth < indent + word.width → cramped) :
    Filled wrapWidth indent cramped ((lines.flatMap fun line => Segment.lineBreak :: line.map .word).foldl
        (LaidText.add wrapWidth indent) l) (ws ++ lines.flatten) ∧
      ((lines.flatMap fun line => Segment.lineBreak :: line.map .word).foldl
        (LaidText.add wrapWidth indent) l).cur.words ≠ [] := by
  induction lines generalizing l ws with
  | nil => exact ⟨by rw [flatten_nil, append_nil]; exact filled, some_⟩
  | cons line rest ih =>
    have broken : Filled wrapWidth indent cramped (l.finish indent) ws :=
      filled.finish (fun _ => some_) fun _ => some_
    obtain ⟨filled', some'⟩ := broken.line
      (fun word more same _ _ positive long => loose word more (same ▸ mem_cons_self) positive long)
      (.inl (words line mem_cons_self))
    rw [flatMap_cons, foldl_append, flatten_cons, ← append_assoc]
    exact ih filled' (fun other inside => words other (mem_cons_of_mem _ inside)) some'
      fun word more inside => loose word more (mem_cons_of_mem _ inside)

end Filled
def layoutOf (wrapWidth indent : Nat) (segs : List Segment) : LaidText := segs.foldl (LaidText.add wrapWidth indent) {}

/-- In a list item, a word directly behind a line break does not fit beside the indentation. -/
def Cramped (wrapWidth indent : Nat) (segs : List Segment) : Prop :=
  0 < indent ∧ ∃ before word rest, segs = before ++ .lineBreak :: .word word :: rest ∧ wrapWidth < indent + word.width

theorem intercalate_flatMap {α : Type} (sep first : List α) (rest : List (List α)) :
    sep.intercalate (first :: rest) = first ++ rest.flatMap (sep ++ ·) := by
  induction rest generalizing first with
  | nil => rw [intercalate_singleton, flatMap_nil, append_nil]
  | cons second rest ih =>
    rw [intercalate_cons_cons, ih, flatMap_cons]
    simp only [append_assoc]

theorem Lines.behind {segs : List Segment} {first : List Word} {rest : List (List Word)}
    (formed : Lines segs (first :: rest)) :
    segs = first.map Segment.word ++ rest.flatMap fun line => Segment.lineBreak :: line.map .word := by
  rw [formed.segments, map_cons, intercalate_flatMap, flatMap_map]
  rfl

theorem layoutOf_filled {wrapWidth indent : Nat} {segs : List Segment} {lines : List (List Word)}
    (formed : Lines segs lines) : Filled wrapWidth indent (Cramped wrapWidth indent segs)
    (layoutOf wrapWidth indent segs) lines.flatten ∧ (layoutOf wrapWidth indent segs).cur.words ≠ [] := by
  cases lines with
  | nil => exact absurd rfl formed.some_
  | cons first rest =>
    have behind := formed.behind
    have start : Filled wrapWidth indent (Cramped wrapWidth indent segs) {} [] := by
      refine ⟨rfl, ?_, fun line rest same => (by cases same), fun _ => rfl, fun wrong => absurd rfl wrong,
        fun _ line inside => absurd inside not_mem_nil⟩
      intro line inside long
      rw [mem_singleton.mp inside] at long
      cases long
    obtain ⟨filled, some_⟩ := @Filled.line _ _ _ _ _ first start (fun _ _ _ _ wrong => absurd rfl wrong)
      (.inl (formed.words first mem_cons_self))
    unfold layoutOf
    rw [behind, foldl_append, flatten_cons, ← behind]
    refine filled.lines (fun line inside => formed.words line (mem_cons_of_mem _ inside)) some_ ?_
    intro word more inside positive long
    obtain ⟨before, after, split⟩ := append_of_mem inside
    refine ⟨positive, first.map Segment.word ++ before.flatMap fun line => Segment.lineBreak :: line.map .word, word,
      more.map Segment.word ++ after.flatMap fun line => Segment.lineBreak :: line.map .word, ?_, long⟩
    rw [behind, split, flatMap_append, flatMap_cons]
    simp only [append_assoc, map_cons, cons_append]

structure WrappedParagraph (indent : Nat) (cramped : Prop) (lines : List Laid) : Prop where
  front : ∃ line rest, lines = line :: rest ∧ line.indent = 0 ∧ line.text ≠ []
  back : ∃ before line, lines = before ++ [line] ∧ line.text ≠ []
  full : ¬cramped → ∀ line ∈ lines, line.text ≠ []
  continued : ∀ line ∈ lines.tail, line.indent = indent

theorem Filled.wrapped {wrapWidth indent : Nat} {cramped : Prop} {l : LaidText} {ws : List Word}
    (filled : Filled wrapWidth indent cramped l ws) (some_ : l.cur.words ≠ []) (clean : ∀ line ∈ l.lines, line.Clean) :
    WrappedParagraph indent cramped l.lines := by
  have last := Laid.text_ne_nil (clean l.cur (mem_append_right _ mem_cons_self)) some_
  refine ⟨?_, ⟨l.done, l.cur, rfl, last⟩, fun loose line inside => ?_, fun line inside => ?_⟩
  · cases done : l.done with
    | nil => exact ⟨l.cur, [], by rw [LaidText.lines, done]; rfl, filled.start done, last⟩
    | cons line rest =>
      obtain ⟨zero, words, -⟩ := filled.first line rest done
      refine ⟨line, rest ++ [l.cur], by rw [LaidText.lines, done]; rfl, zero, Laid.text_ne_nil (clean line ?_) words⟩
      rw [LaidText.lines, done]
      exact mem_cons_self
  · refine Laid.text_ne_nil (clean line inside) ?_
    rcases mem_append.mp inside with before | open_
    · exact filled.full loose line before
    · rwa [mem_singleton.mp open_]
  · cases done : l.done with
    | nil =>
      rw [LaidText.lines, done] at inside
      cases inside
    | cons head rest =>
      obtain ⟨-, -, others⟩ := filled.first head rest done
      rw [LaidText.lines, done, cons_append, tail_cons] at inside
      rcases mem_append.mp inside with before | open_
      · exact others line before
      · rw [mem_singleton.mp open_]
        exact filled.continued (by rw [done]; exact cons_ne_nil _ _)

section Wrap
variable {u : Utf8proc} {category : Nat → Category} {wrapWidth : Nat}

def paragraphLayout (u : Utf8proc) (category : Nat → Category) (wrapWidth : Nat) (p : Bytes) : LaidText :=
  layoutOf wrapWidth (markdownListContinuationIndent p) (segments u category p)

structure Paragraphs (u : Utf8proc) (category : Nat → Category) (ps : List Bytes) : Prop where
  clean : ∀ p ∈ ps, ∀ word, .word word ∈ segments u category p → word.text ≠ [] ∧ word.text.getLast? ≠ some 0x20
  lines : ∀ p ∈ ps, ∃ lines, Lines (segments u category p) lines

theorem Paragraphs.tail {p : Bytes} {ps : List Bytes} (paragraphs_ : Paragraphs u category (p :: ps)) :
    Paragraphs u category ps :=
  ⟨fun q inside => paragraphs_.clean q (mem_cons_of_mem _ inside),
    fun q inside => paragraphs_.lines q (mem_cons_of_mem _ inside)⟩

theorem Stands.start (before : List Bytes) : Stands before {} ({ lines := before }, 0) :=
  ⟨(append_nil before).symm, rfl, rfl, rfl, fun _ inside => absurd inside not_mem_nil⟩

theorem Stands.finished {before : List Bytes} {l : LaidText} {s : Wrapping × Nat} (stands : Stands before l s) :
    s.1.finishLine.lines = before ++ l.lines.map Laid.text := by
  show s.1.lines ++ [trimTrailingSpace s.1.current] = _
  rw [stands.lines, stands.current, Laid.trim_render stands.clean, LaidText.lines, map_append, append_assoc]
  rfl

theorem addParagraphs_lines {ps : List Bytes} (paragraphs_ : Paragraphs u category ps) {before : List Bytes} {l : LaidText}
    {s : Wrapping × Nat} (stands : Stands before l s) (some_ : l.cur.words ≠ []) :
    ((ps.foldl (Wrapping.addParagraph u category wrapWidth) (s.1, true)).1).finishLine.lines =
        before ++ l.lines.map Laid.text ++
          ps.flatMap (fun p => [] :: (paragraphLayout u category wrapWidth p).lines.map Laid.text) ∧
      ((ps.foldl (Wrapping.addParagraph u category wrapWidth) (s.1, true)).1).current ≠ [] := by
  induction ps generalizing before l s with
  | nil =>
    refine ⟨by rw [flatMap_nil, append_nil]; exact stands.finished, ?_⟩
    rw [foldl_nil, stands.current]
    exact Laid.render_ne_nil some_
  | cons p ps ih =>
    obtain ⟨lines, formed⟩ := paragraphs_.lines p mem_cons_self
    have next_ : Stands (s.1.finishLine.lines ++ [[]]) (paragraphLayout u category wrapWidth p) _ :=
      (Stands.start _).run fun word inside => paragraphs_.clean p mem_cons_self word inside
    obtain ⟨all, more⟩ := ih paragraphs_.tail next_ (layoutOf_filled formed).2
    refine ⟨Eq.trans all ?_, more⟩
    rw [stands.finished, flatMap_cons]
    simp only [append_assoc, cons_append, nil_append]

theorem wrapText_layout {text : Bytes} (paragraphs_ : Paragraphs u category (paragraphs u category text)) :
    wrapText u category text wrapWidth = if paragraphs u category text = [] then [[]]
      else [[]].intercalate ((paragraphs u category text).map fun p =>
        (paragraphLayout u category (max wrapWidth 1) p).lines.map Laid.text) := by
  unfold wrapText
  cases all : paragraphs u category text with
  | nil => rfl
  | cons p ps =>
    rw [all] at paragraphs_
    obtain ⟨lines, formed⟩ := paragraphs_.lines p mem_cons_self
    have first : Stands [] (paragraphLayout u category (max wrapWidth 1) p) _ :=
      (Stands.start []).run fun word inside => paragraphs_.clean p mem_cons_self word inside
    obtain ⟨whole, some_⟩ := @addParagraphs_lines u category (max wrapWidth 1) ps paragraphs_.tail _ _ _ first
      (layoutOf_filled formed).2
    rw [if_neg (cons_ne_nil _ _), map_cons, intercalate_flatMap, flatMap_map]
    exact (if_pos (.inl some_)).trans whole

theorem Lines.word {segs : List Segment} {lines : List (List Word)} (formed : Lines segs lines) {word : Word}
    (inside : .word word ∈ segs) : word ∈ lines.flatten := by
  have among : ∀ line : List Word, Segment.word word ∈ line.map Segment.word → word ∈ line := by
    intro line member
    obtain ⟨other, here, same⟩ := mem_map.mp member
    rwa [← Segment.word.inj same]
  cases lines with
  | nil => exact absurd rfl formed.some_
  | cons first rest =>
    rw [formed.behind] at inside
    rw [flatten_cons]
    rcases mem_append.mp inside with front | later
    · exact mem_append_left _ (among first front)
    · obtain ⟨line, member, here⟩ := mem_flatMap.mp later
      rcases mem_cons.mp here with wrong | here
      · cases wrong
      · exact mem_append_right _ (mem_flatten.mpr ⟨line, member, among line here⟩)

theorem layouts_words {ps : List Bytes} {split : List (List (List Word))}
    (formed : List.Forall₂ (fun p lines => Lines (segments u category p) lines) ps split) :
    (ps.map fun p => (paragraphLayout u category wrapWidth p).lines).flatten.flatMap Laid.words =
      split.flatten.flatten := by
  induction formed with
  | nil => rfl
  | cons first rest ih =>
    rw [map_cons, flatten_cons, flatMap_append, ih, flatten_cons, flatten_append]
    rw [show (paragraphLayout u category wrapWidth _).lines.flatMap Laid.words = _ from (layoutOf_filled first).1.words]

theorem lines_of {ps : List Bytes} {split : List (List (List Word))}
    (formed : List.Forall₂ (fun p lines => Lines (segments u category p) lines) ps split) {p : Bytes} (inside : p ∈ ps) :
    ∃ lines ∈ split, Lines (segments u category p) lines := by
  induction formed with
  | nil => cases inside
  | cons first rest ih =>
    rcases mem_cons.mp inside with rfl | later
    · exact ⟨_, mem_cons_self, first⟩
    · obtain ⟨lines, member, here⟩ := ih later
      exact ⟨lines, mem_cons_of_mem _ member, here⟩

theorem width_two {line : Laid} (wide : ∀ word ∈ line.words, 0 < word.width) (two : 2 ≤ line.words.length) :
    1 < line.width := by
  unfold Laid.width
  cases words : line.words with
  | nil =>
    rw [words] at two
    cases two
  | cons first rest =>
    have positive := wide first (by rw [words]; exact mem_cons_self)
    rw [words, length_cons] at two
    rw [map_cons, sum_cons, length_cons]
    omega

/-- What wrapping keeps: the lines are laid out from the words of the text, in order; paragraphs have one empty line
    between them, and a text without words is one empty line; where two words stand on a line it is in the width. -/
def WrapKeeps (u : Utf8proc) (category : Nat → Category) (text : Bytes) (wrapWidth : Nat) : Prop :=
  ∃ laid : List (List Laid),
    wrapText u category text wrapWidth =
      (if laid = [] then [[]] else [[]].intercalate (laid.map fun lines => lines.map Laid.text)) ∧
    laid.flatten.flatMap Laid.words = words u category text ∧
    (∀ line ∈ laid.flatten, 2 ≤ line.words.length → line.width ≤ wrapWidth) ∧
    List.Forall₂ (fun p lines => WrappedParagraph (markdownListContinuationIndent p)
      (Cramped (max wrapWidth 1) (markdownListContinuationIndent p) (segments u category p)) lines)
      (paragraphs u category text) laid

/-- Wrapping keeps the words, the width and the paragraphs. -/
theorem wrapText_keeps (spaces : Spaces u category) (local_ : u.Local) (text : Bytes) (wrapWidth : Nat) :
    WrapKeeps u category text wrapWidth := by
  obtain ⟨split, formed, whole⟩ := paragraphsOf_lines spaces local_ (clusters_cut text)
  have in_text : ∀ lines ∈ split, ∀ word ∈ lines.flatten, word ∈ wordsOf u category (clusters u text) := by
    intro lines member word inside
    rw [whole, mem_flatten]
    obtain ⟨line, on, here⟩ := mem_flatten.mp inside
    exact ⟨line, mem_flatten.mpr ⟨lines, member, on⟩, here⟩
  have paragraphs_ : Paragraphs u category (paragraphs u category text) := by
    refine ⟨fun p inside word segment => ?_, fun p inside => ?_⟩
    · obtain ⟨lines, member, here⟩ := lines_of formed inside
      exact words_text spaces local_ (clusters_cut text) (in_text lines member word (here.word segment))
    · obtain ⟨lines, -, here⟩ := lines_of formed inside
      exact ⟨lines, here⟩
  have kept := @layouts_words u category (max wrapWidth 1) _ _ formed
  rw [← whole] at kept
  refine ⟨(paragraphs u category text).map fun p => (paragraphLayout u category (max wrapWidth 1) p).lines, ?_, kept, ?_, ?_⟩
  · rw [wrapText_layout paragraphs_, map_map]
    simp only [map_eq_nil_iff]
    rfl
  · intro line inside two
    have wide : ∀ word ∈ line.words, 0 < word.width := fun word member =>
      words_wide (kept ▸ mem_flatMap.mpr ⟨line, inside, member⟩)
    obtain ⟨lines, member, here⟩ := mem_flatten.mp inside
    obtain ⟨p, among, rfl⟩ := mem_map.mp member
    obtain ⟨split_, -, on⟩ := lines_of formed among
    have fits := (layoutOf_filled on).1.fits line here two
    have least := width_two wide two
    omega
  · rw [forall₂_map_right_iff, forall₂_same]
    intro p inside
    obtain ⟨split_, member, on⟩ := lines_of formed inside
    obtain ⟨filled, some_⟩ := layoutOf_filled on
    refine filled.wrapped some_ fun line here word words_ => ?_
    refine words_text spaces local_ (clusters_cut text) (in_text split_ member word ?_)
    rw [← filled.words]
    exact mem_flatMap.mpr ⟨line, here, words_⟩

end Wrap

/-- The space is the one separator that is no control character. -/
def spaceCategory (codepoint : Nat) : Category := if codepoint = 0x20 then .zs else .other

theorem basicUtf8proc_spaces : Spaces basicUtf8proc spaceCategory where
  ascii rest low := by
    show (if _ then _ else _) = _
    rw [if_pos low]
  last := by
    intro text len cp found last
    rcases text with _ | ⟨a, rest⟩
    · cases last
    · by_cases low : a < 0x80
      · rw [show basicUtf8proc.iterate (a :: rest) = some (1, a.toNat) from if_pos low] at found
        cases found
        obtain rfl : a = 0x20 := Option.some.inj last
        rfl
      · simp only [basicUtf8proc, low, if_false] at found
        rcases rest with _ | ⟨b, rest⟩
        · cases found
        · simp only at found
          split at found
          · rename_i two
            cases found
            obtain rfl : b = 0x20 := Option.some.inj last
            simp at two
          · rcases rest with _ | ⟨c, rest⟩
            · cases found
            · simp only at found
              split at found
              · rename_i three
                cases found
                obtain rfl : c = 0x20 := Option.some.inj last
                simp at three
              · cases found
  space := by decide

/-- A list item of three words in five columns, and a paragraph behind it. -/
def itemText : Bytes :=
  [0x2d, 0x20, 0x61, 0x62, 0x20, 0x63, 0x64, 0x0a, 0x0a, 0x65]

theorem itemText_wrapped : WrapKeeps basicUtf8proc spaceCategory itemText 5 ∧
    wrapText basicUtf8proc spaceCategory itemText 5 =
      [[0x2d, 0x20, 0x61, 0x62], [0x20, 0x20, 0x63, 0x64], [], [0x65]] :=
  ⟨wrapText_keeps basicUtf8proc_spaces basicUtf8proc_local itemText 5, by decide +kernel⟩

/-- A text without words has an empty line that separates nothing and comes from no line break. -/
theorem blankText_wrapped : wrapText basicUtf8proc spaceCategory [] 80 = [[]] ∧
    paragraphs basicUtf8proc spaceCategory [] = [] ∧ segments basicUtf8proc spaceCategory [] = [] := by decide +kernel

end Nxt.Ui
