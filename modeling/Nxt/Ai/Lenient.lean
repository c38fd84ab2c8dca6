import Nxt.Ai.Exact
import Nxt.Ai.ToolJson

/- The two JSON readers agree: on what the strict reader accepts, the string members that tool_json.hpp
   finds are those of the strict reader. -/
namespace Nxt.Ai
open Nxt.Lib List

inductive StringValue : Bytes → Bytes → Prop where
  | spelled {before literal value : Bytes} (blank : Ws before) (whole : StringLiteral literal value) :
      StringValue (before ++ literal) value

theorem readJsonString_literal {literal value : Bytes} (spelled : StringLiteral literal value) (rest : Bytes) :
    readJsonString (literal ++ rest) = some (value, rest) := by
  obtain ⟨inside⟩ := spelled
  rw [cons_append, append_assoc, readJsonString_quoted]
  exact congrArg Except.toOption (body_complete inside [] rest)

/-- Inside brackets the text is skipped, and leaves the brackets open that were. -/
def Skipped (text : Bytes) : Prop :=
  ∀ top below rest, skipBrackets (top :: below) (text ++ rest) = skipBrackets (top :: below) rest

theorem Skipped.nil : Skipped [] := fun _ _ _ => rfl

theorem Skipped.append {a b : Bytes} (first : Skipped a) (second : Skipped b) : Skipped (a ++ b) := by
  intro top below rest
  rw [append_assoc, first, second]

def Passed (c : UInt8) : Prop := c ≠ 0x22 ∧ c ≠ 0x7b ∧ c ≠ 0x5b ∧ c ≠ 0x7d ∧ c ≠ 0x5d

instance (c : UInt8) : Decidable (Passed c) := inferInstanceAs (Decidable (_ ∧ _))

theorem Skipped.passed {text : Bytes} (each : ∀ c ∈ text, Passed c) : Skipped text := by
  induction text with
  | nil => exact .nil
  | cons c text ih =>
    obtain ⟨quote, curly, square, curly', square'⟩ := each c mem_cons_self
    intro top below rest
    rw [cons_append, skipBrackets.eq_def]
    dsimp only
    rw [if_neg quote, if_neg curly, if_neg square, if_neg (not_or.mpr ⟨curly', square'⟩), if_neg (cons_ne_nil _ _)]
    exact ih (fun d held => each d (mem_cons_of_mem c held)) top below rest

theorem Skipped.literal {literal value : Bytes} (spelled : StringLiteral literal value) : Skipped literal := by
  intro top below rest
  have read := readJsonString_literal spelled rest
  obtain @⟨text, _, _⟩ := spelled
  rw [cons_append] at read ⊢
  rw [skipBrackets.eq_def]
  dsimp only
  rw [if_pos rfl]
  split
  · rename_i none
    rw [none] at read
    cases read
  · rename_i after some
    rw [some] at read
    cases read
    exact if_neg (cons_ne_nil _ _)

theorem skip_opening (object : Bool) (stack : List UInt8) (rest : Bytes) :
    skipBrackets stack (opening object :: rest) = skipBrackets (closing object :: stack) rest := by
  rw [skipBrackets.eq_def]
  cases object <;> rfl

theorem skip_closing (object : Bool) (stack : List UInt8) (rest : Bytes) :
    skipBrackets (closing object :: stack) (closing object :: rest) =
      if stack = [] then some (toSeparator rest) else skipBrackets stack rest := by
  rw [skipBrackets.eq_def]
  cases object <;> rfl

theorem Skipped.container {text : Bytes} (inside : Skipped text) (object : Bool) :
    Skipped (opening object :: (text ++ [closing object])) := by
  intro top below rest
  rw [cons_append, append_assoc, singleton_append, skip_opening, inside, skip_closing, if_neg (cons_ne_nil _ _)]

def Inner (c : UInt8) : Prop := Passed c ∧ c ≠ 0x2c

instance (c : UInt8) : Decidable (Inner c) := inferInstanceAs (Decidable (_ ∧ _))

variable {c : UInt8} {label : Bytes} {d : UInt8}

theorem inner_of {kind : UInt8 → Bool} (apart : ([0x22, 0x7b, 0x5b, 0x7d, 0x5d, 0x2c] : Bytes).all (fun d => !kind d) = true)
    (known : kind c = true) : Inner c := by
  have other {d : UInt8} (held : d ∈ ([0x22, 0x7b, 0x5b, 0x7d, 0x5d, 0x2c] : Bytes)) : c ≠ d := by
    rintro rfl
    have none := all_eq_true.mp apart _ held
    rw [known] at none
    cases none
  exact ⟨⟨other (by simp), other (by simp), other (by simp), other (by simp), other (by simp)⟩, other (by simp)⟩

theorem numberChar_inner (number : numberChar c = true) : Inner c := inner_of rfl number

theorem isWs_inner (space : isWs c = true) : Inner c := inner_of (by decide) space

theorem Skipped.space {text : Bytes} (blank : Ws text) : Skipped text :=
  .passed fun c held => (isWs_inner (blank c held)).1

theorem number_inner {text : Bytes} (run : NumberRun text) : ∀ c ∈ text, Inner c := by
  obtain ⟨first, more⟩ := run
  refine forall_mem_cons.mpr ⟨?_, fun c held => numberChar_inner (more c held)⟩
  apply numberChar_inner
  rcases first with digit | rfl
  · unfold Digit at digit
    simp only [numberChar, digit.1, digit.2, decide_true, Bool.and_self, Bool.true_or]
  · rfl

theorem literal_inner {text : Bytes} (known : text = lit "true" ∨ text = lit "false" ∨ text = lit "null") :
    ∀ c ∈ text, Inner c := by
  have each : ([lit "true", lit "false", lit "null"].all fun text => text.all fun c => decide (Inner c)) = true := by
    decide
  have held : text ∈ [lit "true", lit "false", lit "null"] := by
    rcases known with rfl | rfl | rfl <;> simp
  exact fun c inside => of_decide_eq_true (all_eq_true.mp (all_eq_true.mp each text held) c inside)

theorem Label.skipped {object : Bool} {name : Bytes} (labelled : Label object name label) : Skipped label := by
  cases labelled with
  | element => exact .nil
  | member space literal space' =>
    exact (((Skipped.space space).append (.literal literal)).append (.space space')).append
      (.passed (forall_mem_singleton.mpr (by decide)))

theorem json_skipped {part : Part} {room : Nat} {text : Bytes} (json : Json NumberRun part room text) : Skipped text := by
  induction json with
  | literal known => exact .passed fun c held => (literal_inner known c held).1
  | number run => exact .passed fun c held => (number_inner run c held).1
  | string literal => exact .literal literal
  | empty blank => exact (Skipped.space blank).container _
  | container _ ih => exact ih.container _
  | last labelled space _ space' ih => exact (labelled.skipped.append ((Skipped.space space).append ih)).append (.space space')
  | more labelled space _ space' _ ih ih' =>
    have comma : Skipped [0x2c] := .passed (forall_mem_singleton.mpr (by decide))
    exact ((labelled.skipped.append ((Skipped.space space).append ih)).append (.space space')).append (comma.append ih')

theorem toSeparator_append {text rest : Bytes} (inside : ∀ d ∈ text, Inner d) (mark : c = 0x2c ∨ c = 0x7d) :
    toSeparator (text ++ c :: rest) = c :: rest := by
  have passes : ∀ d ∈ text, (d ≠ 0x2c && d ≠ 0x7d) = true := by
    intro d held
    obtain ⟨⟨_, _, _, curly, _⟩, comma⟩ := inside d held
    rw [Bool.and_eq_true, decide_eq_true_iff, decide_eq_true_iff]
    exact ⟨comma, curly⟩
  unfold toSeparator
  rw [dropWhile_append_of_pos passes]
  rcases mark with rfl | rfl <;> rfl

theorem value_skipped {room : Nat} {value after : Bytes} (json : Json NumberRun .value room value)
    (other : ∀ text, ¬ StringLiteral value text) (blank : Ws after) (mark : c = 0x2c ∨ c = 0x7d) (rest : Bytes) :
    ∃ d more, value = d :: more ∧ isWs d = false ∧ d ≠ 0x22 ∧
      skipBrackets [] (value ++ (after ++ c :: rest)) = some (c :: rest) := by
  have scalar (d : UInt8) (more : Bytes) (inner : ∀ e ∈ d :: more, Inner e) :
      skipBrackets [] (d :: more ++ (after ++ c :: rest)) = some (c :: rest) := by
    obtain ⟨⟨quote, curly, square, curly', square'⟩, comma⟩ := inner d mem_cons_self
    have later : ∀ e ∈ more ++ after, Inner e := forall_mem_append.mpr
      ⟨fun e held => inner e (mem_cons_of_mem d held), fun e held => isWs_inner (blank e held)⟩
    rw [cons_append, skipBrackets.eq_def]
    dsimp only
    rw [if_neg quote, if_neg curly, if_neg square, if_neg (not_or.mpr ⟨curly', square'⟩), if_pos rfl, if_neg comma,
      ← append_assoc, toSeparator_append later mark]
  have bracketed (object : Bool) (inside : Bytes) (skipped : Skipped inside) :
      skipBrackets [] (opening object :: (inside ++ [closing object]) ++ (after ++ c :: rest)) = some (c :: rest) := by
    rw [cons_append, append_assoc, singleton_append, skip_opening, skipped, skip_closing, if_pos rfl,
      toSeparator_append (fun e held => isWs_inner (blank e held)) mark]
  cases json with
  | literal known =>
    have inner := literal_inner known
    rcases known with rfl | rfl | rfl
    · exact ⟨_, _, rfl, by decide, by decide, scalar _ _ inner⟩
    · exact ⟨_, _, rfl, by decide, by decide, scalar _ _ inner⟩
    · exact ⟨_, _, rfl, by decide, by decide, scalar _ _ inner⟩
  | number run =>
    have inner := number_inner run
    obtain @⟨d, more, first, _⟩ := run
    exact ⟨d, more, rfl, number_mark first, (inner d mem_cons_self).1.1, scalar d more inner⟩
  | string literal => exact absurd literal (other _)
  | @empty object _ _ space =>
    exact ⟨_, _, rfl, by cases object <;> decide, by cases object <;> decide, bracketed object _ (.space space)⟩
  | @container object _ _ items =>
    exact ⟨_, _, rfl, by cases object <;> decide, by cases object <;> decide, bracketed object _ (json_skipped items)⟩

def stringField (field : Bytes × Bytes) : Option (Bytes × Bytes) :=
  (readJsonString (skipWs field.2)).map fun read => (field.1, read.1)

theorem skipWs_mark (mark : isWs c = false) (rest : Bytes) : skipWs (c :: rest) = c :: rest := by
  rw [skipWs, dropWhile_cons_of_neg (by rw [mark]; decide)]

theorem skipWs_separator {after : Bytes} (blank : Ws after) (mark : c = 0x2c ∨ c = 0x7d) (rest : Bytes) :
    skipWs (after ++ c :: rest) = c :: rest := by
  rw [skipWs_append blank]
  rcases mark with rfl | rfl
  · exact skipWs_mark (by decide) rest
  · exact skipWs_mark (by decide) rest

theorem stringField_string {name before value text : Bytes} (blank : Ws before) (spelled : StringLiteral value text) :
    stringField (name, before ++ value) = some (name, text) := by
  have read := readJsonString_literal spelled []
  obtain ⟨_⟩ := spelled
  rw [append_nil] at read
  rw [stringField, skipWs_append blank, skipWs_mark (by decide), read]
  rfl

theorem stringField_other {name before more : Bytes} (blank : Ws before) (mark : isWs d = false)
    (quote : d ≠ 0x22) : stringField (name, before ++ d :: more) = none := by
  rw [stringField, skipWs_append blank, skipWs_mark mark, readJsonString_other quote]
  rfl

theorem entry_read {name before value after : Bytes} (labelled : Label true name label)
    (blank : Ws before) (json : Json NumberRun .value 128 value) (blank' : Ws after) (mark : c = 0x2c ∨ c = 0x7d)
    (rest : Bytes) : ∃ d begin left, skipWs (label ++ (before ++ value) ++ after ++ c :: rest) = d :: begin ∧ d ≠ 0x7d ∧
      jsonStringEntry (d :: begin) = some ((stringField (name, before ++ value)).toList, left) ∧
        skipWs left = c :: rest := by
  cases labelled with
  | @member space key _ gap front literal back =>
  have keyed := readJsonString_literal literal (gap ++ 0x3a :: (before ++ (value ++ (after ++ c :: rest))))
  have colon : skipWs (gap ++ 0x3a :: (before ++ (value ++ (after ++ c :: rest)))) =
      0x3a :: (before ++ (value ++ (after ++ c :: rest))) := by
    rw [skipWs_append back, skipWs_mark (by decide)]
  have ends := skipWs_separator blank' mark rest
  obtain @⟨text, _, inside⟩ := literal
  have begins : skipWs (space ++ 0x22 :: (text ++ [0x22]) ++ gap ++ [0x3a] ++ (before ++ value) ++ after ++ c :: rest) =
      0x22 :: (text ++ [0x22]) ++ (gap ++ 0x3a :: (before ++ (value ++ (after ++ c :: rest)))) := by
    simp only [append_assoc, cons_append, nil_append]
    rw [skipWs_append front, skipWs_mark (by decide)]
  rw [cons_append] at begins keyed
  by_cases spelled : ∃ denoted, StringLiteral value denoted
  · obtain ⟨denoted, spelled⟩ := spelled
    refine ⟨_, _, after ++ c :: rest, begins, by decide, ?_, ends⟩
    rw [stringField_string blank spelled, jsonStringEntry, keyed]
    have read := readJsonString_literal spelled (after ++ c :: rest)
    obtain ⟨_⟩ := spelled
    have quote : isWs 0x22 = false := by decide
    simp only [Option.bind_eq_bind, Option.bind_some, colon, ne_eq, not_true, if_false, skipWs_append blank]
    rw [cons_append] at read ⊢
    rw [skipWs_mark quote]
    change (readJsonString (0x22 :: _)).bind _ = _
    rw [read]
    rfl
  · have none (denoted : Bytes) : ¬ StringLiteral value denoted := fun held => spelled ⟨denoted, held⟩
    obtain ⟨d, more, rfl, first, quote, skipped⟩ := value_skipped json none blank' mark rest
    refine ⟨_, _, c :: rest, begins, by decide, ?_, ?_⟩
    · rw [stringField_other blank first quote, jsonStringEntry, keyed]
      simp only [Option.bind_eq_bind, Option.bind_some, colon, ne_eq, not_true, if_false, skipWs_append blank]
      rw [cons_append] at skipped ⊢
      rw [skipWs_mark first]
      split
      · rename_i same
        exact absurd (cons.inj same).1 quote
      · rw [skipJsonSyncValue, skipWs_mark first]
        dsimp only
        rw [if_neg quote, skipped]
        rfl
    · exact skipWs_separator Ws.nil mark rest

theorem entries_round {out added : List (Bytes × Bytes)} {input begin left rest : Bytes}
    (begins : skipWs input = d :: begin) (other : d ≠ 0x7d) (read : jsonStringEntry (d :: begin) = some (added, left))
    (ends : skipWs left = c :: rest) : jsonStringEntries out input =
      if c = 0x7d then some (out ++ added) else if c ≠ 0x2c then none else jsonStringEntries (out ++ added) rest := by
  rw [jsonStringEntries.eq_def]
  split
  · rename_i none
    rw [begins] at none
    cases none
  · rename_i first after some
    rw [begins] at some
    cases some
    rw [if_neg other]
    split
    · rename_i none
      rw [read] at none
      cases none
    · rename_i pairs after' some
      rw [read] at some
      cases some
      split
      · rename_i none
        rw [ends] at none
        cases none
      · rename_i mark after'' some
        rw [ends] at some
        cases some
        rfl

theorem filterMap_field (field : Bytes × Bytes) (others : List (Bytes × Bytes)) :
    (field :: others).filterMap stringField = (stringField field).toList ++ others.filterMap stringField := by
  rw [filterMap_cons]
  cases stringField field with
  | none => rfl
  | some kept => rfl

theorem entries_read {entries : List (Bytes × Bytes)} {text : Bytes} (listed : Entries NumberRun true 128 entries text) :
    ∀ out rest, jsonStringEntries out (text ++ 0x7d :: rest) = some (out ++ entries.filterMap stringField) := by
  induction listed with
  | @last name label before value after labelled blank json blank' =>
    intro out rest
    obtain ⟨d, begin, left, begins, other, read, ends⟩ := entry_read labelled blank json blank' (Or.inr rfl) rest
    rw [entries_round begins other read ends, if_pos rfl, filterMap_field, filterMap_nil, append_nil]
  | @more name label before value after items others labelled blank json blank' _ ih =>
    intro out rest
    obtain ⟨d, begin, left, begins, other, read, ends⟩ :=
      entry_read labelled blank json blank' (Or.inl rfl) (items ++ 0x7d :: rest)
    rw [append_assoc, cons_append, entries_round begins other read ends, if_neg (by decide),
      if_neg (not_not.mpr rfl), ih, filterMap_field, append_assoc]

theorem object_read {raw : Bytes} {fields : List (Bytes × Bytes)} (document : Document NumberRun true 128 fields raw) :
    jsonStringObject raw = some (fields.filterMap stringField) := by
  unfold jsonStringObject
  cases document with
  | @empty before space after front blank back =>
    have ends : skipWs (space ++ 0x7d :: after) = 0x7d :: after := skipWs_separator blank (Or.inr rfl) after
    rw [skipWs_append front, skipWs_mark (by decide)]
    dsimp only
    rw [if_neg (by decide), jsonStringEntries.eq_def]
    split
    · rename_i none
      rw [show closing true = 0x7d from rfl, ends] at none
      cases none
    · rename_i first rest some
      rw [show closing true = 0x7d from rfl, ends] at some
      cases some
      rfl
  | @full before text after _ front entries back =>
    rw [skipWs_append front, skipWs_mark (by decide)]
    dsimp only
    rw [if_neg (by decide)]
    exact entries_read entries [] after

theorem stringField_value {name text value : Bytes} (spelled : StringValue text value) :
    stringField (name, text) = some (name, value) := by
  obtain ⟨blank, literal⟩ := spelled
  exact stringField_string blank literal

theorem stringField_iff {name before value : Bytes} {room : Nat} (blank : Ws before)
    (json : Json NumberRun .value room value) (read : Bytes × Bytes) :
    stringField (name, before ++ value) = some read ↔ read.1 = name ∧ StringValue (before ++ value) read.2 := by
  constructor
  · intro kept
    by_cases spelled : ∃ denoted, StringLiteral value denoted
    · obtain ⟨denoted, spelled⟩ := spelled
      rw [stringField_string blank spelled] at kept
      cases kept
      exact ⟨rfl, .spelled blank spelled⟩
    · obtain ⟨d, more, rfl, first, quote, -⟩ :=
        value_skipped json (fun denoted held => spelled ⟨denoted, held⟩) Ws.nil (Or.inl rfl) []
      rw [stringField_other blank first quote] at kept
      cases kept
  · rintro ⟨rfl, spelled⟩
    exact stringField_value spelled

/-- The two readers agree: of a text that the strict one accepts, the lenient one gives under a key what
    the string denotes that the strict one has there, and nothing where it has none. -/
theorem readers_agree (raw : Bytes) (fields : List (Bytes × Bytes)) (accepted : object raw = .ok fields)
    (key value : Bytes) :
    jsonStringMember raw key = some value ↔ ∃ text, (key, text) ∈ fields ∧ StringValue text value := by
  obtain ⟨document, nodup⟩ := object_sound accepted
  have kept : ∀ read, read ∈ fields.filterMap stringField ↔
      ∃ text, (read.1, text) ∈ fields ∧ StringValue text read.2 := by
    intro read
    rw [mem_filterMap]
    constructor
    · rintro ⟨⟨name, text⟩, held, same⟩
      obtain ⟨before, inner, blank, json, cut⟩ := document.values _ held
      dsimp only at cut
      rw [cut] at held same
      obtain ⟨rfl, spelled⟩ := (stringField_iff blank json read).mp same
      exact ⟨_, held, spelled⟩
    · rintro ⟨text, held, spelled⟩
      exact ⟨_, held, stringField_value spelled⟩
  have member : jsonStringMember raw key = ((fields.filterMap stringField).find? (·.1 = key)).map Prod.snd := by
    rw [jsonStringMember, object_read document]
    cases found : (fields.filterMap stringField).find? (·.1 = key) with
    | none => simp [found]
    | some read => simp [found]
  rw [member, Option.map_eq_some_iff]
  constructor
  · rintro ⟨read, found, rfl⟩
    have same := find?_some found
    obtain ⟨text, held, spelled⟩ := (kept read).mp (mem_of_find?_eq_some found)
    rw [of_decide_eq_true same] at held
    exact ⟨text, held, spelled⟩
  · rintro ⟨text, held, spelled⟩
    have there : (key, value) ∈ fields.filterMap stringField := (kept (key, value)).mpr ⟨text, held, spelled⟩
    obtain ⟨read, found⟩ : ∃ read, (fields.filterMap stringField).find? (·.1 = key) = some read :=
      Option.isSome_iff_exists.mp (find?_isSome.mpr ⟨(key, value), there, decide_eq_true rfl⟩)
    refine ⟨read, found, ?_⟩
    have named := find?_some found
    have same : read.1 = key := of_decide_eq_true named
    obtain ⟨text', held', spelled'⟩ := (kept read).mp (mem_of_find?_eq_some found)
    rw [same] at held'
    obtain ⟨-, rfl⟩ := Prod.mk.inj (inj_on_of_nodup_map nodup held' held rfl)
    have once := (@stringField_value key _ _ spelled').symm.trans (stringField_value spelled)
    exact (Prod.mk.inj (Option.some.inj once)).2

/-- A name that the text spells with an escape. -/
theorem readers_agree_escaped : object (lit "\x7b\"\\u0061\":\"b\"\x7d") = .ok [(lit "a", lit "\"b\"")] ∧
    jsonStringMember (lit "\x7b\"\\u0061\":\"b\"\x7d") (lit "a") = some (lit "b") := by
  have unit : Spells 'a' (lit "\\u0061") := @Spells.unit 'a' (lit "0061") (by decide)
  have key : StringLiteral (lit "\"\\u0061\"") (lit "a") := .quoted (.escape unit .nil)
  have value : StringLiteral (lit "\"b\"") (lit "b") :=
    .quoted (.plain (by decide) (by decide) (by decide) .nil)
  have entries : Entries NumberRun true 128 [(lit "a", lit "\"b\"")] (lit "\"\\u0061\":\"b\"") :=
    .last (.member Ws.nil key Ws.nil) Ws.nil (.string value) Ws.nil
  have accepted : object (lit "\x7b\"\\u0061\":\"b\"\x7d") = .ok [(lit "a", lit "\"b\"")] :=
    object_complete (.full Ws.nil entries Ws.nil) (nodup_singleton _)
  exact ⟨accepted, (readers_agree _ _ accepted _ _).mpr ⟨_, mem_singleton_self _, .spelled Ws.nil value⟩⟩

end Nxt.Ai
