import Nxt.Ui.Columns

/- Words, segments and paragraphs of a text (utf8.hpp). `next` at a byte reads only what follows it, so a walk over a
   text is one over the list of its clusters. -/
namespace Nxt.Ui
open Nxt.Lib List

/-- The general categories that separate words, of those utf8proc tells. -/
inductive Category where
  | zs | zl | zp | other
  deriving DecidableEq

structure Word where
  text : Bytes
  width : Nat
  deriving DecidableEq

inductive Segment where
  | word (word : Word)
  | lineBreak
  deriving DecidableEq

theorem drop_shorter {α : Type} (p : α → Bool) {cs : List α} (some_ : cs ≠ []) :
    ((cs.dropWhile p).drop 1).length < cs.length := by
  have least := length_pos_iff.mpr some_
  have fewer := (dropWhile_suffix p (l := cs)).length_le
  rw [length_drop]
  omega

section Views
variable (u : Utf8proc) (category : Nat → Category)

def separates (codepoint : Nat) : Bool :=
  codepoint == 0x09 || codepoint == 0x0a || codepoint == 0x0b || codepoint == 0x0c || codepoint == 0x0d ||
    category codepoint != .other

/-- The loop of `is_word_separator`: a code point that separates, before a byte that is no character. -/
def separatorFrom (cluster : Bytes) (byte : Nat) : Bool :=
  if _more : byte < cluster.length then
    let d := decode u cluster byte
    if d.valid = false then false
    else if separates category d.codepoint then true
    else separatorFrom cluster (byte + d.length)
  else false
  termination_by cluster.length - byte
  decreasing_by
    have bounds := decode_length u _more
    omega

def isWordSeparator (cluster : Bytes) : Bool := separatorFrom u category cluster 0

def isLineBreak (cluster : Bytes) : Bool := cluster == [0x0a] || cluster == [0x0d, 0x0a] || cluster == [0x0d]

def clusters (text : Bytes) : List Bytes :=
  if _none : text = [] then []
  else text.take (next u text 0) :: clusters (text.drop (next u text 0))
  termination_by text.length
  decreasing_by
    have some_ := length_pos_iff.mpr _none
    have bounds := next_bounds u some_
    rw [length_drop]
    omega

def wordAt (c : Bytes) (cs : List Bytes) : Word :=
  let run := c :: cs.takeWhile fun c => !isWordSeparator u category c
  { text := run.flatten, width := extent u run }

/-- `word_view` over clusters. -/
def wordsOf : List Bytes → List Word
  | [] => []
  | c :: cs =>
      if isWordSeparator u category c then wordsOf cs
      else wordAt u category c cs :: wordsOf (cs.dropWhile fun c => !isWordSeparator u category c)
  termination_by cs => cs.length
  decreasing_by
    · exact Nat.lt_succ_self _
    · exact Nat.lt_succ_of_le (dropWhile_suffix _).length_le

def words (text : Bytes) : List Word := wordsOf u category (clusters u text)

/-- `segment_view` over clusters: words, and the line breaks that do not end a word. -/
def segmentsOf : List Bytes → List Segment
  | [] => []
  | c :: cs =>
      if isLineBreak c then .lineBreak :: segmentsOf cs
      else if isWordSeparator u category c then segmentsOf cs
      else .word (wordAt u category c cs) :: segmentsOf (cs.dropWhile fun c => !isWordSeparator u category c)
  termination_by cs => cs.length
  decreasing_by
    · exact Nat.lt_succ_self _
    · exact Nat.lt_succ_self _
    · exact Nat.lt_succ_of_le (dropWhile_suffix _).length_le

def segments (text : Bytes) : List Segment := segmentsOf u category (clusters u text)

/-- `next_line`: what a line holds, the break that ends it, and what follows. -/
def lineContent (cs : List Bytes) : List Bytes := cs.takeWhile fun c => !isLineBreak c

def lineEnd (cs : List Bytes) : List Bytes := (cs.dropWhile fun c => !isLineBreak c).take 1

def lineNext (cs : List Bytes) : List Bytes := (cs.dropWhile fun c => !isLineBreak c).drop 1

def blank (content : List Bytes) : Bool := content.all (isWordSeparator u category)

/-- The first loop of `scan`: past the blank lines. -/
def skipBlank (cs : List Bytes) : List Bytes :=
  if _some : cs = [] then []
  else if blank u category (lineContent cs) then skipBlank (lineNext cs)
  else cs
  termination_by cs.length
  decreasing_by exact drop_shorter _ _some

/-- The second loop of `scan`, with the clusters up to `end_` and up to `pos`: to the end of the last line before a
    blank one. -/
def paragraphLoop (kept taken cs : List Bytes) : List Bytes × List Bytes :=
  if _some : cs = [] then (kept, [])
  else if blank u category (lineContent cs) then (kept, lineNext cs)
  else paragraphLoop (taken ++ lineContent cs) (taken ++ lineContent cs ++ lineEnd cs) (lineNext cs)
  termination_by cs.length
  decreasing_by exact drop_shorter _ _some

theorem skipBlank_le (cs : List Bytes) : (skipBlank u category cs).length ≤ cs.length := by
  induction cs using skipBlank.induct u category with
  | case1 => rw [skipBlank, dif_pos rfl]
  | case2 cs some_ blank_ ih =>
    rw [skipBlank, dif_neg some_, if_pos blank_]
    exact ih.trans (drop_shorter _ some_).le
  | case3 cs some_ text => rw [skipBlank, dif_neg some_, if_neg text]

theorem paragraphLoop_shorter (kept taken : List Bytes) {cs : List Bytes} (some_ : cs ≠ []) :
    (paragraphLoop u category kept taken cs).2.length < cs.length := by
  induction size : cs.length using Nat.strongRecOn generalizing kept taken cs with
  | ind n ih =>
    subst size
    rw [paragraphLoop, dif_neg some_]
    have less : (lineNext cs).length < cs.length := drop_shorter _ some_
    split
    · exact less
    · by_cases none_ : lineNext cs = []
      · rw [none_, paragraphLoop, dif_pos rfl]
        exact length_pos_iff.mpr some_
      · exact (ih _ less _ _ none_ rfl).trans less

/-- `paragraph_view` over clusters. -/
def paragraphsOf (cs : List Bytes) : List Bytes :=
  if _some : skipBlank u category cs = [] then []
  else
    (paragraphLoop u category [] [] (skipBlank u category cs)).1.flatten ::
      paragraphsOf (paragraphLoop u category [] [] (skipBlank u category cs)).2
  termination_by cs.length
  decreasing_by exact (paragraphLoop_shorter u category [] [] _some).trans_le (skipBlank_le u category cs)

def paragraphs (text : Bytes) : List Bytes := paragraphsOf u category (clusters u text)

end Views
/-- What the views rely on: ASCII characters are their bytes, only a space ends in the byte of a space, and a space
    separates. -/
structure Spaces (u : Utf8proc) (category : Nat → Category) : Prop where
  ascii : ∀ {b : UInt8} (rest : Bytes), b < 0x80 → u.iterate (b :: rest) = some (1, b.toNat)
  last : ∀ {text : Bytes} {len cp : Nat}, u.iterate text = some (len, cp) → text[len - 1]? = some 0x20 → cp = 0x20
  space : category 0x20 ≠ .other

section Separators
variable {u : Utf8proc} {category : Nat → Category} {text : Bytes}

section
variable (spaces : Spaces u category)
include spaces

theorem Spaces.decode_ascii {b : UInt8} (rest : Bytes) (low : b < 0x80) :
    decode u (b :: rest) 0 = { length := 1, codepoint := b.toNat, valid := true } := by
  unfold decode
  rw [if_neg (by simp), drop_zero, spaces.ascii rest low]

theorem Spaces.separates_space : separates category 0x20 = true := by
  unfold separates
  rw [bne_iff_ne.mpr spaces.space, Bool.or_true]

theorem Spaces.lineBreak_separates {cluster : Bytes} (lineBreak : isLineBreak cluster) :
    isWordSeparator u category cluster = true := by
  unfold isLineBreak at lineBreak
  simp only [Bool.or_eq_true, beq_iff_eq] at lineBreak
  unfold isWordSeparator
  rw [separatorFrom]
  rcases lineBreak with (rfl | rfl) | rfl
  all_goals
    rw [dif_pos (by decide), spaces.decode_ascii _ (by decide)]
    rfl

theorem Spaces.decode_last {byte : Nat} (valid : (decode u text byte).valid = true)
    (end_ : byte + (decode u text byte).length = text.length) (last : text[text.length - 1]? = some 0x20)
    (inside : byte < text.length) : (decode u text byte).codepoint = 0x20 := by
  have bounds := decode_length u inside
  unfold decode at valid end_ bounds ⊢
  rw [if_neg (by omega)] at valid end_ bounds ⊢
  cases found : u.iterate (text.drop byte) with
  | none =>
    rw [found] at valid
    cases valid
  | some pair =>
    obtain ⟨len, cp⟩ := pair
    rw [found] at end_ bounds
    refine spaces.last found ?_
    rw [getElem?_drop, ← last]
    congr 1
    dsimp only at end_ bounds
    omega

theorem Spaces.from_space (last : text[text.length - 1]? = some 0x20) (current : Nat)
    {end_ : Nat} (state : Int) (inside : end_ < text.length) (whole : nextFrom u text current end_ state = text.length) :
    separatorFrom u category text end_ = true := by
  induction current, end_, state using nextFrom.induct u text with
  | case1 current end_ state more following invalid =>
    rw [nextFrom, dif_pos more, if_pos invalid] at whole
    omega
  | case2 current end_ state more following valid broken stop =>
    rw [nextFrom, dif_pos more, if_neg valid, if_pos stop] at whole
    omega
  | case3 current end_ state more following valid broken on ih =>
    rw [nextFrom, dif_pos more, if_neg valid, if_neg on] at whole
    rw [separatorFrom, dif_pos more]
    dsimp only
    rw [if_neg valid]
    split
    · rfl
    · rename_i goes_on
      rcases Nat.eq_or_lt_of_le (decode_length u more).2 with end_here | later
      · rw [spaces.decode_last (Bool.eq_true_of_not_eq_false valid) end_here last more] at goes_on
        exact absurd spaces.separates_space goes_on
      · exact ih later whole
  | case4 current end_ state done => exact absurd inside done

theorem Spaces.cluster_space {cluster : Bytes} (whole : next u cluster 0 = cluster.length)
    (last : cluster[cluster.length - 1]? = some 0x20) : isWordSeparator u category cluster = true := by
  have some_ : 0 < cluster.length := by
    cases cluster with
    | nil => cases last
    | cons b rest => exact Nat.succ_pos _
  have bounds := decode_length u some_
  unfold next at whole
  rw [if_neg (by omega)] at whole
  dsimp only at whole
  unfold isWordSeparator
  rw [separatorFrom, dif_pos some_]
  dsimp only
  by_cases invalid : (decode u cluster 0).valid = false
  · -- a lone byte that is no character is no space
    have length : (decode u cluster 0).length = 1 := by
      unfold decode at invalid ⊢
      split
      · omega
      · split at invalid
        · omega
        · split
          · rfl
          · rename_i found
            rw [found] at invalid
            cases invalid
    rw [if_pos invalid, length, Nat.zero_add] at whole
    obtain ⟨b, rfl⟩ := length_eq_one_iff.mp whole.symm
    obtain rfl : b = 0x20 := Option.some.inj last
    rw [spaces.decode_ascii [] (by decide)] at invalid
    cases invalid
  · rw [if_neg invalid] at whole ⊢
    split
    · rfl
    · rename_i goes_on
      rcases Nat.eq_or_lt_of_le bounds.2 with end_here | later
      · rw [spaces.decode_last (Bool.eq_true_of_not_eq_false invalid) end_here last some_] at goes_on
        exact absurd spaces.separates_space goes_on
      · exact spaces.from_space last _ _ later whole

end

end Separators

section Clusters
variable {u : Utf8proc} {text : Bytes}

def Cut (u : Utf8proc) (cs : List Bytes) : Prop := clusters u cs.flatten = cs

theorem clusters_nil : clusters u [] = [] := by rw [clusters, dif_pos rfl]

theorem clusters_cons (some_ : text ≠ []) :
    clusters u text = text.take (next u text 0) :: clusters u (text.drop (next u text 0)) := by
  rw [clusters, dif_neg some_]

theorem clusters_flatten (text : Bytes) : (clusters u text).flatten = text := by
  induction text using clusters.induct u with
  | case1 => rw [clusters_nil]; rfl
  | case2 text some_ ih => rw [clusters_cons some_, flatten_cons, ih, take_append_drop]

theorem clusters_cut (text : Bytes) : Cut u (clusters u text) := by
  unfold Cut
  rw [clusters_flatten]

theorem Cut.nil : Cut u [] := clusters_nil

theorem Cut.cons {c : Bytes} {cs : List Bytes} (cut : Cut u (c :: cs)) :
    c ≠ [] ∧ next u (c ++ cs.flatten) 0 = c.length ∧ Cut u cs := by
  unfold Cut at cut
  rw [flatten_cons] at cut
  have some_ : c ++ cs.flatten ≠ [] := by
    intro none_
    rw [none_, clusters_nil] at cut
    cases cut
  have bounds := next_bounds u (length_pos_iff.mpr some_)
  rw [clusters_cons some_] at cut
  obtain ⟨front, rest⟩ := cons.inj cut
  have length : next u (c ++ cs.flatten) 0 = c.length := by
    have taken := congrArg List.length front
    rw [length_take] at taken
    omega
  refine ⟨?_, length, ?_⟩
  · rintro rfl
    rw [length_nil] at length
    omega
  · rw [length, drop_left] at rest
    exact rest

theorem Cut.right {a b : List Bytes} (cut : Cut u (a ++ b)) : Cut u b := by
  induction a with
  | nil => exact cut
  | cons c a ih => exact ih cut.cons.2.2

theorem next_front (local_ : u.Local) {front rest : Bytes} (some_ : front ≠ [])
    (whole : next u (front ++ rest) 0 ≤ front.length) : next u front 0 = next u (front ++ rest) 0 := by
  have piece : slice (front ++ rest) 0 front.length = front := by
    unfold slice
    rw [drop_zero, take_left]
  have same := @next_slice u (front ++ rest) 0 front.length 0 local_ (by rw [length_append]; omega)
    (length_pos_iff.mpr some_) (by rw [Nat.zero_add, Nat.zero_add]; exact whole)
  rwa [piece, Nat.zero_add, Nat.zero_add] at same

theorem Cut.left (local_ : u.Local) {a b : List Bytes} (cut : Cut u (a ++ b)) : Cut u a := by
  induction a with
  | nil => exact Cut.nil
  | cons c a ih =>
    rw [cons_append] at cut
    obtain ⟨some_, length, rest⟩ := cut.cons
    rw [flatten_append, ← append_assoc] at length
    have front : c ++ a.flatten ≠ [] := fun none_ => some_ (append_eq_nil_iff.mp none_).1
    have same := next_front local_ front (by rw [length, length_append]; omega)
    rw [length] at same
    unfold Cut
    rw [flatten_cons, clusters_cons front, same, take_left, drop_left, ih rest]

theorem Cut.alone (local_ : u.Local) {cs : List Bytes} (cut : Cut u cs) {c : Bytes} (inside : c ∈ cs) :
    c ≠ [] ∧ next u c 0 = c.length := by
  obtain ⟨before, after, rfl⟩ := append_of_mem inside
  have one : Cut u [c] := Cut.left local_ (b := after) (Cut.right cut)
  obtain ⟨some_, length, -⟩ := one.cons
  rw [flatten_nil, append_nil] at length
  exact ⟨some_, length⟩

end Clusters
section Splitting
variable {u : Utf8proc} {category : Nat → Category}

variable {α : Type} {x : α} {c : Bytes} {cs : List Bytes}

theorem takeWhile_stop (p : α → Bool) (l r : List α) (stop : p x = false) :
    (l ++ x :: r).takeWhile p = l.takeWhile p := by
  induction l with
  | nil => rw [nil_append, takeWhile_cons_of_neg (by simp [stop])]; rfl
  | cons y l ih =>
    rw [cons_append, takeWhile_cons, takeWhile_cons, ih]

theorem dropWhile_stop (p : α → Bool) (l r : List α) (stop : p x = false) :
    (l ++ x :: r).dropWhile p = l.dropWhile p ++ x :: r := by
  induction l with
  | nil => rw [nil_append, dropWhile_cons_of_neg (by simp [stop])]; rfl
  | cons y l ih =>
    rw [cons_append, dropWhile_cons, dropWhile_cons, ih]
    split <;> rfl

theorem wordsOf_nil : wordsOf u category [] = [] := by rw [wordsOf]

theorem wordsOf_skip (separator : isWordSeparator u category c = true) (cs : List Bytes) :
    wordsOf u category (c :: cs) = wordsOf u category cs := by
  rw [wordsOf, if_pos separator]

theorem segmentsOf_nil : segmentsOf u category [] = [] := by rw [segmentsOf]

theorem segmentsOf_break (lineBreak : isLineBreak c = true) (cs : List Bytes) :
    segmentsOf u category (c :: cs) = .lineBreak :: segmentsOf u category cs := by
  rw [segmentsOf, if_pos lineBreak]

theorem wordsOf_append (l r : List Bytes) {x : Bytes} (separator : isWordSeparator u category x = true) :
    wordsOf u category (l ++ x :: r) = wordsOf u category l ++ wordsOf u category r := by
  induction l using wordsOf.induct u category with
  | case1 => rw [nil_append, wordsOf_skip separator, wordsOf_nil, nil_append]
  | case2 c cs separates_ ih =>
    rw [cons_append, wordsOf_skip separates_, wordsOf_skip separates_, ih]
  | case3 c cs word ih =>
    rw [cons_append, wordsOf, if_neg word, wordsOf, if_neg word, wordAt, wordAt,
      takeWhile_stop _ cs r (by rw [separator]; rfl), dropWhile_stop _ cs r (by rw [separator]; rfl), ih]
    rfl

theorem wordsOf_blank (blank_ : blank u category cs = true) : wordsOf u category cs = [] := by
  induction cs with
  | nil => rw [wordsOf]
  | cons c cs ih =>
    unfold blank at blank_ ih
    rw [all_cons, Bool.and_eq_true] at blank_
    rw [wordsOf, if_pos blank_.1, ih blank_.2]

theorem wordsOf_some (text : blank u category cs = false) : wordsOf u category cs ≠ [] := by
  induction cs with
  | nil => cases text
  | cons c cs ih =>
    unfold blank at text ih
    rw [all_cons] at text
    rw [wordsOf]
    split
    · rename_i separator
      rw [separator, Bool.true_and] at text
      exact ih text
    · exact cons_ne_nil _ _

theorem segmentsOf_append (spaces : Spaces u category) (l r : List Bytes) {x : Bytes} (lineBreak : isLineBreak x = true) :
    segmentsOf u category (l ++ x :: r) = segmentsOf u category l ++ .lineBreak :: segmentsOf u category r := by
  have separator := spaces.lineBreak_separates lineBreak
  induction l using segmentsOf.induct u category with
  | case1 => rw [nil_append, segmentsOf_break lineBreak, segmentsOf_nil, nil_append]
  | case2 c cs break_ ih =>
    rw [cons_append, segmentsOf_break break_, segmentsOf_break break_, ih, cons_append]
  | case3 c cs no_break separates_ ih =>
    rw [cons_append, segmentsOf, if_neg no_break, if_pos separates_, ih, segmentsOf, if_neg no_break,
      if_pos separates_]
  | case4 c cs no_break word ih =>
    rw [cons_append, segmentsOf, if_neg no_break, if_neg word, segmentsOf, if_neg no_break, if_neg word, wordAt,
      wordAt, takeWhile_stop _ cs r (by rw [separator]; rfl), dropWhile_stop _ cs r (by rw [separator]; rfl), ih]
    rfl

theorem segmentsOf_line (line : ∀ c ∈ cs, isLineBreak c = false) :
    segmentsOf u category cs = (wordsOf u category cs).map .word := by
  induction cs using wordsOf.induct u category with
  | case1 => rw [segmentsOf_nil, wordsOf_nil, map_nil]
  | case2 c cs separates_ ih =>
    have no_break : ¬isLineBreak c = true := by simp [line c mem_cons_self]
    rw [segmentsOf, if_neg no_break, if_pos separates_, wordsOf_skip separates_,
      ih fun other inside => line other (mem_cons_of_mem _ inside)]
  | case3 c cs word ih =>
    have no_break : ¬isLineBreak c = true := by simp [line c mem_cons_self]
    rw [segmentsOf, if_neg no_break, if_neg word, wordsOf, if_neg word, map_cons,
      ih fun other inside => line other (mem_cons_of_mem _ ((dropWhile_suffix _).subset inside))]

structure Lines (segs : List Segment) (lines : List (List Word)) : Prop where
  some_ : lines ≠ []
  words : ∀ line ∈ lines, line ≠ []
  segments : segs = [Segment.lineBreak].intercalate (lines.map (·.map .word))

theorem Lines.one {line : List Word} (words : line ≠ []) : Lines (line.map .word) [line] where
  some_ := cons_ne_nil _ _
  words other inside := by rwa [mem_singleton.mp inside]
  segments := by rw [map_cons, map_nil, intercalate_singleton]

theorem intercalate_concat (sep : List α) {lists : List (List α)} (some_ : lists ≠ []) (last : List α) :
    sep.intercalate (lists ++ [last]) = sep.intercalate lists ++ (sep ++ last) := by
  induction lists with
  | nil => exact absurd rfl some_
  | cons first rest ih =>
    cases rest with
    | nil => simp [intercalate_cons_cons, intercalate_singleton]
    | cons second rest =>
      rw [cons_append, cons_append, intercalate_cons_cons, ← cons_append,
        ih (cons_ne_nil _ _), intercalate_cons_cons]
      simp only [append_assoc]

theorem Lines.append {segs : List Segment} {lines : List (List Word)} (first : Lines segs lines) {line : List Word}
    (words : line ≠ []) : Lines (segs ++ .lineBreak :: line.map .word) (lines ++ [line]) where
  some_ := by simp
  words other inside := by
    rcases mem_append.mp inside with before | last
    · exact first.words other before
    · rwa [mem_singleton.mp last]
  segments := by
    have maps : lines.map (List.map Segment.word) ≠ [] := by
      rw [ne_eq, map_eq_nil_iff]
      exact first.some_
    rw [map_append, map_singleton, intercalate_concat _ maps, ← first.segments]
    rfl

theorem line_split (cs : List Bytes) : lineContent cs ++ lineEnd cs ++ lineNext cs = cs := by
  unfold lineContent lineEnd lineNext
  rw [append_assoc, take_append_drop, takeWhile_append_dropWhile]

theorem lineContent_line (cs : List Bytes) : ∀ c ∈ lineContent cs, isLineBreak c = false := by
  intro c inside
  have kept := mem_takeWhile_imp inside
  simpa using kept

theorem lineEnd_cases (cs : List Bytes) :
    (∃ x, isLineBreak x = true ∧ lineEnd cs = [x]) ∨ lineEnd cs = [] ∧ lineNext cs = [] := by
  unfold lineEnd lineNext
  cases rest : cs.dropWhile fun c => !isLineBreak c with
  | nil => exact .inr ⟨rfl, rfl⟩
  | cons x more =>
    refine .inl ⟨x, ?_, rfl⟩
    have stops := head_dropWhile_not (fun c => !isLineBreak c) (l := cs) (by rw [rest]; exact cons_ne_nil _ _)
    simp only [rest, head_cons] at stops
    simpa using stops

variable (spaces : Spaces u category)
include spaces

theorem wordsOf_line (cs : List Bytes) : wordsOf u category cs =
    wordsOf u category (lineContent cs) ++ wordsOf u category (lineNext cs) := by
  conv_lhs => rw [← line_split cs]
  rcases lineEnd_cases cs with ⟨x, lineBreak, end_⟩ | ⟨end_, next_⟩
  · rw [end_, append_assoc, singleton_append]
    exact wordsOf_append _ _ (spaces.lineBreak_separates lineBreak)
  · rw [end_, next_, append_nil, append_nil, wordsOf_nil, append_nil]

theorem skipBlank_words (cs : List Bytes) :
    wordsOf u category (skipBlank u category cs) = wordsOf u category cs ∧ skipBlank u category cs <:+ cs := by
  induction cs using skipBlank.induct u category with
  | case1 => rw [skipBlank, dif_pos rfl]; exact ⟨rfl, suffix_rfl⟩
  | case2 cs some_ blank_ ih =>
    rw [skipBlank, dif_neg some_, if_pos blank_, wordsOf_line spaces cs, wordsOf_blank blank_, nil_append]
    exact ⟨ih.1, ih.2.trans ⟨lineContent cs ++ lineEnd cs, line_split cs⟩⟩
  | case3 cs some_ text =>
    rw [skipBlank, dif_neg some_, if_neg text]
    exact ⟨rfl, suffix_rfl⟩

omit spaces in
theorem skipBlank_text (cs : List Bytes) (some_ : skipBlank u category cs ≠ []) :
    blank u category (lineContent (skipBlank u category cs)) = false := by
  induction cs using skipBlank.induct u category with
  | case1 => exact absurd (by rw [skipBlank, dif_pos rfl]) some_
  | case2 cs here blank_ ih =>
    rw [skipBlank, dif_neg here, if_pos blank_] at some_ ⊢
    exact ih some_
  | case3 cs here text =>
    rw [skipBlank, dif_neg here, if_neg text]
    exact Bool.eq_false_of_not_eq_true text

/-- What the second loop has taken: lines of the paragraph, and the break behind the last of them. -/
structure Taken (u : Utf8proc) (category : Nat → Category) (kept taken : List Bytes) (lines : List (List Word)) :
    Prop where
  lines : Lines (segmentsOf u category kept) lines
  gap : (∃ x, isLineBreak x = true ∧ taken = kept ++ [x]) ∨ taken = kept

theorem paragraphLoop_lines {kept taken : List Bytes} {lines : List (List Word)}
    (taken_ : Taken u category kept taken lines) (more : cs ≠ [] → ∃ x, isLineBreak x = true ∧ taken = kept ++ [x]) :
    ∃ lines', Lines (segmentsOf u category (paragraphLoop u category kept taken cs).1) (lines ++ lines') ∧
      wordsOf u category cs = lines'.flatten ++ wordsOf u category (paragraphLoop u category kept taken cs).2 ∧
      (paragraphLoop u category kept taken cs).1 <+: taken ++ cs ∧
      (paragraphLoop u category kept taken cs).2 <:+ cs := by
  induction size : cs.length using Nat.strongRecOn generalizing kept taken cs lines with
  | ind n ih =>
    subst size
    have keeps : kept <+: taken := by
      rcases taken_.gap with ⟨x, -, rfl⟩ | rfl
      · exact prefix_append _ _
      · exact prefix_rfl
    rw [paragraphLoop]
    split
    · rename_i none_
      subst none_
      refine ⟨[], by rw [append_nil]; exact taken_.lines, ?_, keeps.trans (prefix_append _ _), suffix_rfl⟩
      rfl
    · rename_i some_
      split
      · rename_i blank_
        refine ⟨[], by rw [append_nil]; exact taken_.lines, ?_, keeps.trans (prefix_append _ _),
          ⟨lineContent cs ++ lineEnd cs, line_split cs⟩⟩
        rw [wordsOf_line spaces cs, wordsOf_blank blank_]
        rfl
      · rename_i text
        obtain ⟨x, lineBreak, gap⟩ := more some_
        have line := wordsOf_some (Bool.eq_false_of_not_eq_true text)
        have whole : segmentsOf u category (taken ++ lineContent cs) =
            segmentsOf u category kept ++ .lineBreak :: (wordsOf u category (lineContent cs)).map .word := by
          rw [gap, append_assoc, singleton_append, segmentsOf_append spaces _ _ lineBreak,
            segmentsOf_line (lineContent_line cs)]
        have next_ : Taken u category (taken ++ lineContent cs) (taken ++ lineContent cs ++ lineEnd cs)
            (lines ++ [wordsOf u category (lineContent cs)]) := by
          refine ⟨whole ▸ taken_.lines.append line, ?_⟩
          rcases lineEnd_cases cs with ⟨y, lineBreak', end_⟩ | ⟨end_, -⟩
          · exact .inl ⟨y, lineBreak', by rw [end_]⟩
          · exact .inr (by rw [end_, append_nil])
        have goes_on : lineNext cs ≠ [] → ∃ x, isLineBreak x = true ∧
            taken ++ lineContent cs ++ lineEnd cs = taken ++ lineContent cs ++ [x] := by
          intro next_some
          rcases lineEnd_cases cs with ⟨y, lineBreak', end_⟩ | ⟨-, next_none⟩
          · exact ⟨y, lineBreak', by rw [end_]⟩
          · exact absurd next_none next_some
        obtain ⟨lines', formed, words_, front, back⟩ := ih _ (drop_shorter _ some_) next_ goes_on rfl
        refine ⟨wordsOf u category (lineContent cs) :: lines', ?_, ?_, ?_, ?_⟩
        · rw [append_cons]
          exact formed
        · rw [wordsOf_line spaces cs, words_, flatten_cons, append_assoc _ lines'.flatten]
        · have split : taken ++ lineContent cs ++ lineEnd cs ++ lineNext cs = taken ++ cs := by
            rw [append_assoc taken, append_assoc taken, line_split]
          rwa [split] at front
        · exact back.trans ⟨lineContent cs ++ lineEnd cs, line_split cs⟩

theorem paragraph_lines (text : blank u category (lineContent cs) = false) :
    ∃ lines, Lines (segmentsOf u category (paragraphLoop u category [] [] cs).1) lines ∧
      wordsOf u category cs = lines.flatten ++ wordsOf u category (paragraphLoop u category [] [] cs).2 ∧
      (paragraphLoop u category [] [] cs).1 <+: cs ∧ (paragraphLoop u category [] [] cs).2 <:+ cs := by
  have some_ : cs ≠ [] := by
    rintro rfl
    cases text
  have line := wordsOf_some text
  have first : Taken u category (lineContent cs) (lineContent cs ++ lineEnd cs) [wordsOf u category (lineContent cs)] := by
    refine ⟨by rw [segmentsOf_line (lineContent_line cs)]; exact Lines.one line, ?_⟩
    rcases lineEnd_cases cs with ⟨y, lineBreak, end_⟩ | ⟨end_, -⟩
    · exact .inl ⟨y, lineBreak, by rw [end_]⟩
    · exact .inr (by rw [end_, append_nil])
  have goes_on : lineNext cs ≠ [] → ∃ x, isLineBreak x = true ∧ lineContent cs ++ lineEnd cs = lineContent cs ++ [x] := by
    intro next_some
    rcases lineEnd_cases cs with ⟨y, lineBreak, end_⟩ | ⟨-, next_none⟩
    · exact ⟨y, lineBreak, by rw [end_]⟩
    · exact absurd next_none next_some
  obtain ⟨lines, formed, words_, front, back⟩ := paragraphLoop_lines spaces first goes_on
  rw [line_split] at front
  rw [paragraphLoop, dif_neg some_, if_neg (by simp [text]), nil_append]
  refine ⟨_, formed, ?_, front, back.trans ⟨lineContent cs ++ lineEnd cs, line_split cs⟩⟩
  rw [wordsOf_line spaces cs, words_, flatten_append, flatten_singleton, append_assoc]

theorem paragraphsOf_lines (local_ : u.Local) (cut : Cut u cs) :
    ∃ split : List (List (List Word)), List.Forall₂ (fun p lines => Lines (segments u category p) lines)
      (paragraphsOf u category cs) split ∧ wordsOf u category cs = split.flatten.flatten := by
  induction cs using paragraphsOf.induct u category with
  | case1 cs none_ =>
    refine ⟨[], by rw [paragraphsOf, dif_pos none_]; exact .nil, ?_⟩
    rw [← (skipBlank_words spaces cs).1, none_, wordsOf_nil]
    rfl
  | case2 cs some_ ih =>
    obtain ⟨same, back⟩ := skipBlank_words spaces cs
    obtain ⟨lines, formed, words_, ⟨rest, front⟩, ⟨before, after⟩⟩ := paragraph_lines spaces (skipBlank_text cs some_)
    obtain ⟨skipped, whole⟩ := back
    have here : Cut u (skipBlank u category cs) := Cut.right (whole ▸ cut)
    have part : Cut u (paragraphLoop u category [] [] (skipBlank u category cs)).1 := Cut.left local_ (front ▸ here)
    obtain ⟨split, each, rest_words⟩ := ih (Cut.right (after ▸ here))
    refine ⟨lines :: split, ?_, ?_⟩
    · rw [paragraphsOf, dif_neg some_]
      refine .cons ?_ each
      unfold segments
      rw [part]
      exact formed
    · rw [← same, words_, rest_words, flatten_cons, flatten_append]

omit spaces in
theorem words_wide {word : Word} (inside : word ∈ wordsOf u category cs) : 0 < word.width := by
  induction cs using wordsOf.induct u category with
  | case1 =>
    rw [wordsOf_nil] at inside
    cases inside
  | case2 c cs separates_ ih =>
    rw [wordsOf_skip separates_] at inside
    exact ih inside
  | case3 c cs word_ ih =>
    rw [wordsOf, if_neg word_] at inside
    rcases mem_cons.mp inside with rfl | later
    · have first := clusterWidth_pos u c
      have whole : (wordAt u category c cs).width = clusterWidth u c + _ := extent_cons u c _
      omega
    · exact ih later

omit spaces in
theorem run_text {run : List Bytes} (some_ : run ≠ []) (clean : ∀ c ∈ run, c ≠ [] ∧ c.getLast? ≠ some 0x20) :
    run.flatten ≠ [] ∧ run.flatten.getLast? ≠ some 0x20 := by
  induction run with
  | nil => exact absurd rfl some_
  | cons c rest ih =>
    have here := clean c mem_cons_self
    by_cases none_ : rest = []
    · rw [none_, flatten_cons, flatten_nil, append_nil]
      exact here
    · have later := ih none_ fun d inside => clean d (mem_cons_of_mem _ inside)
      rw [flatten_cons]
      refine ⟨fun empty => here.1 (append_eq_nil_iff.mp empty).1, ?_⟩
      rw [getLast?_append_of_ne_nil _ later.1]
      exact later.2

theorem words_text (local_ : u.Local) (cut : Cut u cs) {word : Word}
    (inside : word ∈ wordsOf u category cs) : word.text ≠ [] ∧ word.text.getLast? ≠ some 0x20 := by
  have clean : ∀ c ∈ cs, c ≠ [] ∧ (¬isWordSeparator u category c = true → c.getLast? ≠ some 0x20) := by
    intro c member
    obtain ⟨some_, whole⟩ := Cut.alone local_ cut member
    refine ⟨some_, fun not_separator last => not_separator (spaces.cluster_space whole ?_)⟩
    rwa [← getLast?_eq_getElem?]
  clear cut
  induction cs using wordsOf.induct u category with
  | case1 =>
    rw [wordsOf_nil] at inside
    cases inside
  | case2 c cs separates_ ih =>
    rw [wordsOf_skip separates_] at inside
    exact ih inside fun d member => clean d (mem_cons_of_mem _ member)
  | case3 c cs word_ ih =>
    rw [wordsOf, if_neg word_] at inside
    rcases mem_cons.mp inside with rfl | later
    · refine run_text (cons_ne_nil _ _) fun d member => ?_
      rcases mem_cons.mp member with rfl | further
      · exact ⟨(clean d mem_cons_self).1, (clean d mem_cons_self).2 word_⟩
      · have kept := mem_takeWhile_imp further
        have among := clean d (mem_cons_of_mem _ ((takeWhile_sublist _).subset further))
        exact ⟨among.1, among.2 (by simpa using kept)⟩
    · exact ih later fun d member => clean d (mem_cons_of_mem _ ((dropWhile_suffix _).subset member))

end Splitting
end Nxt.Ui
