import Nxt.Host.Paths

/- The segments of a request path (main.cpp): the path split at its slashes, each piece percent-decoded. -/
namespace Nxt.Host
open Nxt.Lib List

def percent : UInt8 := 0x25

/-- The pieces from one on, of which the first has begun. -/
def splitFrom (sep : UInt8) (piece : Bytes) : Bytes → List Bytes
  | [] => [piece]
  | c :: rest => if c = sep then piece :: splitFrom sep [] rest else splitFrom sep (piece ++ [c]) rest

/-- `std::views::split`: an empty range has no piece, and a separator at the end has an empty one after it. -/
def viewsSplit (sep : UInt8) (text : Bytes) : List Bytes := if text = [] then [] else splitFrom sep [] text

def isxdigit (c : UInt8) : Bool := (0x30 ≤ c && c ≤ 0x39) || (0x41 ≤ c && c ≤ 0x46) || (0x61 ≤ c && c ≤ 0x66)

def hexValue (c : UInt8) : UInt8 := if c ≤ 0x39 then c - 0x30 else if c ≤ 0x46 then c - 0x37 else c - 0x57

/-- `from_chars` of two hexadecimal digits. -/
def hexByte (d e : UInt8) : UInt8 := hexValue d * 16 + hexValue e

/-- The loop of `path_segments` over a piece, from some byte on. -/
def decodePiece : Bytes → Option Bytes
  | [] => some []
  | [c] => if c ≠ percent then some [c] else none
  | [c, d] => if c ≠ percent then (decodePiece [d]).map (c :: ·) else none
  | c :: d :: e :: rest =>
      if c ≠ percent then (decodePiece (d :: e :: rest)).map (c :: ·)
      else if isxdigit d && isxdigit e then (decodePiece rest).map (hexByte d e :: ·)
      else none

def pathRest (path : Bytes) : Bytes := if path.head? = some slash then path.tail else path

def pathSegments (path : Bytes) : Option (List Bytes) := (viewsSplit slash (pathRest path)).mapM decodePiece

/-! ### What the segments are to be -/

def Escaped (text : Bytes) : Prop := ∃ d e rest, text = d :: e :: rest ∧ isxdigit d = true ∧ isxdigit e = true

/-- A percent sign stands where no two hexadecimal digits follow it. -/
def BadEscape (piece : Bytes) : Prop := ∃ before after, piece = before ++ percent :: after ∧ ¬Escaped after

inductive Spells : Bytes → Bytes → Prop
  | nil : Spells [] []
  | plain {c text bytes} : c ≠ percent → Spells text bytes → Spells (c :: text) (c :: bytes)
  | escape {d e text bytes} : isxdigit d = true → isxdigit e = true → Spells text bytes →
      Spells (percent :: d :: e :: text) (hexByte d e :: bytes)

section Decoding
variable {text piece bytes : Bytes} {c d e : UInt8}

theorem digit_not_percent (digit : isxdigit c = true) : c ≠ percent := by
  rintro rfl
  exact absurd digit (by decide)

theorem decodePiece_plain (other : c ≠ percent) (text : Bytes) :
    decodePiece (c :: text) = (decodePiece text).map (c :: ·) := by
  rcases text with _ | ⟨d, _ | ⟨e, rest⟩⟩
  · simp [decodePiece, other]
  · exact if_pos other
  · exact if_pos other

theorem decodePiece_escape (first : isxdigit d = true) (second : isxdigit e = true) (text : Bytes) :
    decodePiece (percent :: d :: e :: text) = (decodePiece text).map (hexByte d e :: ·) := by
  rw [decodePiece, if_neg (not_not.mpr rfl), first, second]
  rfl

theorem decodePiece_bad (bad : ¬Escaped text) : decodePiece (percent :: text) = none := by
  rcases text with _ | ⟨d, _ | ⟨e, rest⟩⟩
  · rfl
  · rfl
  · have other : (isxdigit d && isxdigit e) = false := by
      rw [Bool.eq_false_iff, ne_eq, Bool.and_eq_true]
      exact fun both => bad ⟨d, e, rest, rfl, both⟩
    rw [decodePiece, if_neg (not_not.mpr rfl), other]
    rfl

theorem Spells.decode (spelt : Spells text bytes) : decodePiece text = some bytes := by
  induction spelt with
  | nil => rfl
  | plain other rest ih => rw [decodePiece_plain other, ih, Option.map_some]
  | escape first second rest ih => rw [decodePiece_escape first second, ih, Option.map_some]

theorem Spells.good (spelt : Spells text bytes) : ¬BadEscape text := by
  induction spelt with
  | nil => exact fun ⟨before, after, same, _⟩ => absurd same (by simp)
  | @plain c text bytes other rest ih =>
    rintro ⟨before, after, same, bad⟩
    rcases before with _ | ⟨b, before⟩
    · exact other (cons.inj same).1
    · exact ih ⟨before, after, (cons.inj same).2, bad⟩
  | @escape d e text bytes first second rest ih =>
    rintro ⟨before, after, same, bad⟩
    rcases before with _ | ⟨b, _ | ⟨b', _ | ⟨b'', before⟩⟩⟩
    · exact bad ⟨d, e, text, (cons.inj same).2.symm, first, second⟩
    · exact digit_not_percent first (cons.inj (cons.inj same).2).1
    · exact digit_not_percent second (cons.inj (cons.inj (cons.inj same).2).2).1
    · exact ih ⟨before, after, (cons.inj (cons.inj (cons.inj same).2).2).2, bad⟩

theorem spells_or_bad (text : Bytes) : (∃ bytes, Spells text bytes) ∨ BadEscape text ∧ decodePiece text = none := by
  induction size : text.length using Nat.strongRecOn generalizing text with
  | _ size' ih =>
    rcases text with _ | ⟨c, text⟩
    · exact .inl ⟨[], .nil⟩
    · rw [length_cons] at size
      by_cases plain : c ≠ percent
      · rcases ih text.length (by omega) text rfl with ⟨bytes, spelt⟩ | ⟨⟨before, after, same, bad⟩, failed⟩
        · exact .inl ⟨c :: bytes, .plain plain spelt⟩
        · refine .inr ⟨⟨c :: before, after, by rw [same]; rfl, bad⟩, ?_⟩
          rw [decodePiece_plain plain, failed]
          rfl
      · obtain rfl : c = percent := not_not.mp plain
        by_cases escaped : Escaped text
        · obtain ⟨d, e, rest, rfl, first, second⟩ := escaped
          rw [length_cons, length_cons] at size
          rcases ih rest.length (by omega) rest rfl with ⟨bytes, spelt⟩ | ⟨⟨before, after, same, bad⟩, failed⟩
          · exact .inl ⟨_, .escape first second spelt⟩
          · refine .inr ⟨⟨percent :: d :: e :: before, after, by rw [same]; rfl, bad⟩, ?_⟩
            rw [decodePiece_escape first second, failed]
            rfl
        · exact .inr ⟨⟨[], text, rfl, escaped⟩, decodePiece_bad escaped⟩

end Decoding

section Splitting

theorem splitFrom_segments (text piece : Bytes) (clear : slash ∉ piece) :
    splitFrom slash piece text = segments (piece ++ text) := by
  induction text generalizing piece with
  | nil =>
    rw [append_nil, segments, splitOn_eq_singleton clear]
    rfl
  | cons c rest ih =>
    rw [splitFrom]
    by_cases same : c = slash
    · subst same
      rw [if_pos rfl, ih [] not_mem_nil, segments, segments, splitOn_append_cons_self_of_not_mem clear]
      rfl
    · rw [if_neg same, ih (piece ++ [c]) (by simp [clear, Ne.symm same]), append_assoc]
      rfl

theorem viewsSplit_segments {text : Bytes} (some_ : text ≠ []) : viewsSplit slash text = segments text := by
  rw [viewsSplit, if_neg some_]
  exact splitFrom_segments text [] not_mem_nil

theorem mapM_decode (texts : List Bytes) :
    (∃ parts, List.Forall₂ Spells texts parts ∧ texts.mapM decodePiece = some parts) ∨
      (∃ text ∈ texts, BadEscape text) ∧ texts.mapM decodePiece = none := by
  induction texts with
  | nil => exact .inl ⟨[], .nil, rfl⟩
  | cons text texts ih =>
    rcases spells_or_bad text with ⟨bytes, spelt⟩ | ⟨bad, failed⟩
    · rcases ih with ⟨parts, all, done⟩ | ⟨⟨other, mem, bad⟩, failed⟩
      · refine .inl ⟨bytes :: parts, .cons spelt all, ?_⟩
        rw [mapM_cons, spelt.decode, done]
        rfl
      · refine .inr ⟨⟨other, mem_cons_of_mem _ mem, bad⟩, ?_⟩
        rw [mapM_cons, spelt.decode, failed]
        rfl
    · refine .inr ⟨⟨text, mem_cons_self, bad⟩, ?_⟩
      rw [mapM_cons, failed]
      rfl

theorem forall₂_good {texts parts : List Bytes} (all : List.Forall₂ Spells texts parts) :
    ¬∃ text ∈ texts, BadEscape text := by
  induction all with
  | nil => exact fun ⟨_, mem, _⟩ => absurd mem not_mem_nil
  | cons spelt all ih =>
    rintro ⟨text, mem, bad⟩
    rcases mem_cons.mp mem with rfl | later
    · exact spelt.good bad
    · exact ih ⟨text, later, bad⟩

theorem forall₂_decode {texts parts : List Bytes} (all : List.Forall₂ Spells texts parts) :
    texts.mapM decodePiece = some parts := by
  induction all with
  | nil => rfl
  | cons spelt all ih =>
    rw [mapM_cons, spelt.decode, ih]
    rfl

def SegmentsDecode (path : Bytes) : Prop :=
  (pathSegments path = none ↔ ∃ piece ∈ segments (pathRest path), BadEscape piece) ∧
    ∀ parts, pathSegments path = some parts ↔ List.Forall₂ Spells (segments (pathRest path)) parts

/-- Encodings of some byte strings that have no slash of their own. -/
def Encodes (texts parts : List Bytes) : Prop := List.Forall₂ Spells texts parts ∧ ∀ text ∈ texts, slash ∉ text

theorem segmentsDecode_some {path : Bytes} (some_ : pathRest path ≠ []) : SegmentsDecode path := by
  rw [SegmentsDecode, pathSegments, viewsSplit_segments some_]
  rcases mapM_decode (segments (pathRest path)) with ⟨parts, all, done⟩ | ⟨bad, failed⟩
  · rw [done]
    refine ⟨⟨nofun, fun bad => absurd bad (forall₂_good all)⟩, fun other => ⟨?_, fun all' => ?_⟩⟩
    · rintro ⟨⟩
      exact all
    · rw [← done]
      exact forall₂_decode all'
  · rw [failed]
    exact ⟨⟨fun _ => bad, fun _ => rfl⟩, fun other => ⟨nofun, fun all => absurd bad (forall₂_good all)⟩⟩

theorem pathSegments_nothing {path : Bytes} (none_ : pathRest path = []) : pathSegments path = some [] := by
  rw [pathSegments, none_]
  rfl

/-- A path gives its segments unless nothing is left of it without its leading slash; encoded byte strings come back
    from the path they make unless they are one empty string. -/
theorem pathSegments_decode (path : Bytes) : (SegmentsDecode path ↔ pathRest path ≠ []) ∧ ∀ texts parts, parts ≠ [] →
    Encodes texts parts → (pathSegments (slash :: joinStrings [slash] texts) = some parts ↔ parts ≠ [[]]) := by
  constructor
  · refine ⟨fun decoded none_ => ?_, segmentsDecode_some⟩
    have gone := (decoded.2 []).mp (pathSegments_nothing none_)
    rw [none_] at gone
    cases gone
  · intro texts parts some_ ⟨spelt, clear⟩
    have same : texts ≠ [] := by
      rintro rfl
      cases spelt
      exact some_ rfl
    have rest : pathRest (slash :: joinStrings [slash] texts) = joinStrings [slash] texts := if_pos rfl
    by_cases nothing : joinStrings [slash] texts = []
    · have only : texts = [[]] := by
        rw [← segments_join same clear, nothing]
        rfl
      subst only
      cases spelt with
      | cons first none_ =>
        cases none_
        cases first
        rw [pathSegments_nothing (rest.trans nothing)]
        exact ⟨fun wrong => absurd wrong (by decide), fun wrong => absurd rfl wrong⟩
    · have decoded : SegmentsDecode (slash :: joinStrings [slash] texts) := segmentsDecode_some (rest.symm ▸ nothing)
      have back := (decoded.2 parts).mpr
      rw [rest, segments_join same clear] at back
      refine ⟨?_, fun _ => back spelt⟩
      rintro - rfl
      cases spelt with
      | cons first none_ =>
        cases none_
        cases first
        exact nothing rfl

theorem pathSegments_decode_two :
    pathSegments (slash :: joinStrings [slash] [[0x61], [percent, 0x32, 0x66]]) = some [[0x61], [slash]] :=
  ((pathSegments_decode []).2 [[0x61], [percent, 0x32, 0x66]] [[0x61], [slash]] nofun
    ⟨.cons (.plain (by decide) .nil) (.cons (.escape (by decide) (by decide) .nil) .nil), by decide⟩).mpr (by decide)

/-- The path `/` has one empty segment. -/
theorem root_segments : ¬∀ path, SegmentsDecode path := by
  intro every
  have one := (every [slash]).2 []
  have gone := one.mp rfl
  cases gone

end Splitting
end Nxt.Host
