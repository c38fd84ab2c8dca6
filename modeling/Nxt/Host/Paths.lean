import Nxt.Lib.Wire

/- Guest paths as the Lisp side normalizes them before a load (host.wisp, with `split-string` and
   `join-strings` of base.wisp). A string is its bytes. -/
namespace Nxt.Host
open Nxt.Lib List

abbrev Name := Bytes

def slash : UInt8 := 0x2f
def dot : Name := [0x2e]
def dotdot : Name := [0x2e, 0x2e]

def splitString (string : Bytes) (separator : UInt8) (acc : List Bytes) : List Bytes :=
  match found : string.findIdx? (· = separator) with
  | some idx => splitString (string.drop (idx + 1)) separator (string.take idx :: acc)
  | none => (string :: acc).reverse
  termination_by string.length
  decreasing_by
    have inside := (findIdx?_eq_some_iff_getElem.mp found).1
    rw [length_drop]
    omega

def joinStrings (separator : Bytes) : List Bytes → Bytes
  | [] => []
  | [s] => s
  | s :: rest => s ++ separator ++ joinStrings separator rest

inductive LoadError where
  | loadPathError (path : Bytes) (message : String)
  deriving DecidableEq

def loadParts (path : Bytes) (reversed : List Name) : List Name → Except LoadError (List Name)
  | [] => .ok reversed.reverse
  | part :: parts =>
    if part = [] then .error (.loadPathError path "empty path segment")
    else if part = dot then loadParts path reversed parts
    else if part = dotdot then
      if reversed.tail ≠ [] then loadParts path reversed.tail parts
      else .error (.loadPathError path "cannot cross a grant root")
    else loadParts path (part :: reversed) parts

/-- Whether a request is `./` or `../`. -/
def relative (parts : List Name) : Bool := parts.head? = some dot || parts.head? = some dotdot

def loadPath (loading : List Bytes) (path : Bytes) : Except LoadError Bytes := do
  let parts := splitString path slash []
  if relative parts then
    match loading with
    | [] => .error (.loadPathError path "relative load needs an active source file")
    | active :: _ =>
      let parts ← loadParts path [] ((splitString active slash []).dropLast ++ parts)
      .ok (joinStrings [slash] parts)
  else
    let parts ← loadParts path [] parts
    .ok (joinStrings [slash] parts)

theorem splitString_eq (string : Bytes) (separator : UInt8) (acc : List Bytes) :
    splitString string separator acc = acc.reverse ++ string.splitOn separator := by
  fun_induction splitString string separator acc with
  | case1 string acc idx found ih =>
    obtain ⟨inside, at_, before⟩ := findIdx?_eq_some_iff_getElem.mp found
    have at_ : string[idx] = separator := by simpa using at_
    have shape : string = string.take idx ++ separator :: string.drop (idx + 1) := by
      rw [← at_, ← drop_eq_getElem_cons inside, take_append_drop]
    have clean : separator ∉ string.take idx := by
      intro mem
      obtain ⟨i, low, here⟩ := getElem_of_mem mem
      rw [length_take] at low
      have other := before i (by omega)
      rw [getElem_take] at here
      simp [here] at other
    have first := splitOn_append_cons_self_of_not_mem clean (string.drop (idx + 1))
    rw [← shape] at first
    rw [ih, first, reverse_cons, append_assoc]
    rfl
  | case2 string acc found =>
    have clean : separator ∉ string := by
      intro mem
      have other := findIdx?_eq_none_iff.mp found separator mem
      simp at other
    rw [reverse_cons, splitOn_eq_singleton clean]

theorem joinStrings_eq (separator : UInt8) (parts : List Bytes) :
    joinStrings [separator] parts = [separator].intercalate parts := by
  induction parts with
  | nil => rfl
  | cons s rest ih =>
    cases rest with
    | nil => simp [joinStrings]
    | cons t rest =>
      rw [joinStrings, ih]
      · simp [intercalate_cons_cons]
      · simp

def segments (path : Bytes) : List Name := path.splitOn slash

theorem splitString_segments (path : Bytes) : splitString path slash [] = segments path := by
  rw [splitString_eq]
  rfl

theorem segments_clean {path : Bytes} {s : Name} (mem : s ∈ segments path) : slash ∉ s := by
  unfold segments at mem
  induction path generalizing s with
  | nil =>
    rw [splitOn_nil, mem_singleton] at mem
    rw [mem]
    exact not_mem_nil
  | cons c rest ih =>
    rw [splitOn_cons_eq_if_modifyHead] at mem
    split at mem
    · obtain rfl | later := mem_cons.mp mem
      · exact not_mem_nil
      · exact ih later
    · next other =>
      cases split : rest.splitOn slash with
      | nil => exact absurd split (splitOn_ne_nil _ _)
      | cons first more =>
        rw [split] at mem ih
        obtain rfl | later := mem_cons.mp mem
        · intro inside
          obtain same | inside := mem_cons.mp inside
          · exact other (by simp [same])
          · exact ih (by simp) inside
        · exact ih (mem_cons_of_mem _ later)

theorem join_segments (path : Bytes) : joinStrings [slash] (segments path) = path := by
  rw [joinStrings_eq]
  exact intercalate_splitOn slash

theorem segments_join {parts : List Name} (some_ : parts ≠ []) (clean : ∀ s ∈ parts, slash ∉ s) :
    segments (joinStrings [slash] parts) = parts := by
  rw [joinStrings_eq]
  exact splitOn_intercalate slash clean some_

def PlainName (name : Name) : Prop := name ≠ [] ∧ name ≠ dot ∧ name ≠ dotdot

instance (name : Name) : Decidable (PlainName name) := inferInstanceAs (Decidable (_ ∧ _))

theorem loadParts_plain {path : Bytes} {reversed parts out : List Name} (done : loadParts path reversed parts = .ok out)
    (plain : ∀ s ∈ reversed, PlainName s) : (∀ s ∈ out, PlainName s ∧ (s ∈ reversed ∨ s ∈ parts)) ∧
    (∀ first, reversed.getLast? = some first → out.head? = some first) ∧
    (∀ first, reversed = [] → parts.head? = some first → PlainName first → out.head? = some first) := by
  induction parts generalizing reversed with
  | nil =>
    cases done
    refine ⟨?_, ?_, ?_⟩
    · intro s mem
      have mem := mem_reverse.mp mem
      exact ⟨plain s mem, .inl mem⟩
    · intro first last
      rw [head?_reverse]
      exact last
    · intro first _ never
      cases never
  | cons part parts ih =>
    unfold loadParts at done
    split at done
    · cases done
    · next some_ =>
      split at done
      · next dotted =>
        obtain ⟨names, last, _⟩ := ih done plain
        refine ⟨fun s mem => ⟨(names s mem).1, (names s mem).2.imp_right (mem_cons_of_mem _)⟩, last, ?_⟩
        intro first _ head named
        cases head
        exact absurd dotted named.2.1
      · next undotted =>
        split at done
        · next up =>
          split at done
          · next deeper =>
            obtain ⟨names, last, _⟩ := ih done (fun s mem => plain s (mem_of_mem_tail mem))
            refine ⟨?_, ?_, ?_⟩
            · intro s mem
              obtain ⟨named, old | new⟩ := names s mem
              · exact ⟨named, .inl (mem_of_mem_tail old)⟩
              · exact ⟨named, .inr (mem_cons_of_mem _ new)⟩
            · intro first here
              apply last
              cases reversed with
              | nil => cases here
              | cons top below =>
                cases below with
                | nil => exact absurd rfl deeper
                | cons next rest => simpa using here
            · intro first empty
              rw [empty] at deeper
              exact absurd rfl deeper
          · cases done
        · next down =>
          have named : PlainName part := ⟨some_, undotted, down⟩
          have plain' : ∀ s ∈ part :: reversed, PlainName s := by
            intro s mem
            obtain rfl | old := mem_cons.mp mem
            · exact named
            · exact plain s old
          obtain ⟨names, last, _⟩ := ih done plain'
          refine ⟨?_, ?_, ?_⟩
          · intro s mem
            obtain ⟨named, old | new⟩ := names s mem
            · obtain rfl | old := mem_cons.mp old
              · exact ⟨named, .inr (by simp)⟩
              · exact ⟨named, .inl old⟩
            · exact ⟨named, .inr (mem_cons_of_mem _ new)⟩
          · intro first here
            apply last
            cases reversed with
            | nil => cases here
            | cons top below => simpa using here
          · intro first empty head _
            cases head
            apply last
            rw [empty]
            rfl

theorem loadParts_id {path : Bytes} {reversed parts : List Name} (plain : ∀ s ∈ parts, PlainName s) :
    loadParts path reversed parts = .ok (reversed.reverse ++ parts) := by
  induction parts generalizing reversed with
  | nil => simp [loadParts]
  | cons part parts ih =>
    obtain ⟨some_, undotted, down⟩ := plain part (by simp)
    rw [loadParts, if_neg some_, if_neg undotted, if_neg down, ih (fun s mem => plain s (mem_cons_of_mem _ mem)),
      reverse_cons, append_assoc]
    rfl

structure Normal (path : Bytes) : Prop where
  plain : ∀ s ∈ segments path, PlainName s

theorem segments_ne_nil (path : Bytes) : segments path ≠ [] := splitOn_ne_nil _ _

theorem Normal.loadPath {path : Bytes} (normal : Normal path) (loading : List Bytes) :
    loadPath loading path = .ok path := by
  have names := normal.plain
  have absolute : relative (segments path) = false := by
    unfold relative
    cases first : segments path with
    | nil => rfl
    | cons s rest =>
      obtain ⟨_, undotted, down⟩ := names s (by rw [first]; simp)
      simp [undotted, down]
  unfold Host.loadPath
  simp only [splitString_segments, absolute, Bool.false_eq_true, if_false, loadParts_id names]
  show Except.ok (joinStrings [slash] ([].reverse ++ segments path)) = _
  rw [reverse_nil, nil_append, join_segments]

/-- The paths of the files that are being loaded: each was a load path above the ones below it. -/
inductive Active : List Bytes → Prop
  | nil : Active []
  | load {loading path p} : Active loading → loadPath loading path = .ok p → Active (p :: loading)

theorem normal_join {parts : List Name} (some_ : parts ≠ []) (clean : ∀ s ∈ parts, slash ∉ s)
    (plain : ∀ s ∈ parts, PlainName s) :
    Normal (joinStrings [slash] parts) ∧ segments (joinStrings [slash] parts) = parts := by
  have split := segments_join some_ clean
  refine ⟨⟨?_⟩, split⟩
  rw [split]
  exact plain

theorem loadPath_parts {loading : List Bytes} {path p : Bytes} (done : loadPath loading path = .ok p) :
    ∃ parts out, loadParts path [] parts = .ok out ∧ p = joinStrings [slash] out ∧ (∀ s ∈ out, slash ∉ s) ∧
      ((relative (segments path) = true ∧ ∃ active rest, loading = active :: rest ∧
          parts = (segments active).dropLast ++ segments path) ∨
        (relative (segments path) = false ∧ parts = segments path)) := by
  unfold loadPath at done
  simp only [splitString_segments] at done
  split at done
  · next here =>
    split at done
    · cases done
    · next active rest =>
      obtain ⟨out, made, same⟩ := bind_ok done
      cases same
      refine ⟨_, out, made, rfl, ?_, .inl ⟨here, active, rest, rfl, rfl⟩⟩
      intro s mem
      obtain never | from_ := ((loadParts_plain made (by simp)).1 s mem).2
      · cases never
      · obtain above | own := mem_append.mp from_
        · exact segments_clean (mem_of_mem_dropLast above)
        · exact segments_clean own
  · next here =>
    obtain ⟨out, made, same⟩ := bind_ok done
    cases same
    refine ⟨_, out, made, rfl, ?_, .inr ⟨by simpa using here, rfl⟩⟩
    intro s mem
    obtain never | own := ((loadParts_plain made (by simp)).1 s mem).2
    · cases never
    · exact segments_clean own

theorem loadPath_normal_or_empty {loading : List Bytes} {path p : Bytes} (done : loadPath loading path = .ok p) :
    Normal p ∨ p = [] := by
  obtain ⟨parts, out, made, rfl, clean, _⟩ := loadPath_parts done
  by_cases empty : out = []
  · rw [empty]
    exact .inr rfl
  · exact .inl (normal_join empty clean fun s mem => ((loadParts_plain made (by simp)).1 s mem).1).1

theorem Active.normal {loading : List Bytes} (active : Active loading) : ∀ p ∈ loading, Normal p ∨ p = [] := by
  induction active with
  | nil =>
    intro p mem
    cases mem
  | load below done ih =>
    intro q mem
    obtain rfl | old := mem_cons.mp mem
    · exact loadPath_normal_or_empty done
    · exact ih q old

def origin (loading : List Bytes) (path : Bytes) : Bytes :=
  if relative (segments path) then loading.headD [] else path

/-- A load path that starts from two segments at least has plain names only, and stays in the grant
    it starts from. -/
theorem loadPath_normal {loading : List Bytes} {path p : Bytes} (active : Active loading)
    (deep : relative (segments path) = true → 2 ≤ (segments (loading.headD [])).length)
    (done : loadPath loading path = .ok p) :
    Normal p ∧ (segments p).head? = (segments (origin loading path)).head? := by
  obtain ⟨parts, out, made, rfl, clean, from_⟩ := loadPath_parts done
  obtain ⟨plain, _, first⟩ := loadParts_plain made (by simp)
  suffices starts : ∃ f, (segments (origin loading path)).head? = some f ∧ out.head? = some f by
    obtain ⟨f, start, head⟩ := starts
    have some_ : out ≠ [] := by
      rintro rfl
      cases head
    obtain ⟨normal, split⟩ := normal_join some_ clean fun s mem => (plain s mem).1
    exact ⟨normal, by rw [split, head, start]⟩
  obtain ⟨here, file, rest, rfl, rfl⟩ | ⟨here, rfl⟩ := from_
  · have long : 2 ≤ (segments file).length := deep here
    have normal : Normal file := by
      refine (active.normal file (by simp)).resolve_right ?_
      rintro rfl
      simp [segments] at long
    cases split : segments file with
    | nil => exact absurd split (segments_ne_nil file)
    | cons f more =>
      cases more with
      | nil =>
        rw [split] at long
        simp at long
      | cons g more =>
        have start : (segments (origin (file :: rest) path)).head? = some f := by
          unfold origin
          rw [if_pos here]
          show (segments file).head? = some f
          rw [split]
          rfl
        refine ⟨f, start, first f rfl ?_ (normal.plain f (by rw [split]; simp))⟩
        rw [split]
        rfl
  · cases split : segments path with
    | nil => exact absurd split (segments_ne_nil path)
    | cons f more =>
      have start : (segments (origin loading path)).head? = some f := by
        unfold origin
        rw [here, if_neg (by simp), split]
        rfl
      have named : PlainName f := by
        unfold relative at here
        rw [split] at here made
        refine ⟨?_, ?_, ?_⟩
        · rintro rfl
          cases made
        · rintro rfl
          simp at here
        · rintro rfl
          simp at here
      exact ⟨f, start, first f rfl (by rw [split]; rfl) named⟩

end Nxt.Host
