import Nxt.Ai.Accept

/- The strict reader accepts exactly the objects and the arrays of the grammar, when a number is any
   run of the characters that numbers have; so it accepts what RFC 8259 does exactly when the number
   tokens of the text have the form of that grammar. -/
namespace Nxt.Ai
open Nxt.Lib List

theorem Entries.values {Num : Bytes → Prop} {object : Bool} {room : Nat} {entries : List (Bytes × Bytes)} {text : Bytes}
    (listed : Entries Num object room entries text) : ∀ entry ∈ entries, ∃ before value, Ws before ∧
      Json Num .value room value ∧ entry.2 = before ++ value := by
  induction listed with
  | last _ blank json _ => exact forall_mem_singleton.mpr ⟨_, _, blank, json, rfl⟩
  | more _ blank json _ _ ih => exact forall_mem_cons.mpr ⟨⟨_, _, blank, json, rfl⟩, ih⟩

theorem Document.values {Num : Bytes → Prop} {object : Bool} {room : Nat} {entries : List (Bytes × Bytes)} {text : Bytes}
    (document : Document Num object room entries text) : ∀ entry ∈ entries, ∃ before value, Ws before ∧
      Json Num .value room value ∧ entry.2 = before ++ value := by
  cases document with
  | empty _ _ _ => nofun
  | full _ listed _ => exact listed.values

theorem minus_run : NumberRun [0x2d] ∧ ¬ RfcNumber [0x2d] := by
  refine ⟨.run (Or.inr rfl) nofun, fun number => ?_⟩
  generalize same : [(0x2d : UInt8)] = text at number
  obtain @⟨minus, int, frac, exp, signed, whole, _, _⟩ := number
  have starts : ∃ c rest, int = c :: rest ∧ Digit c := by
    cases whole with
    | zero => exact ⟨_, _, rfl, by decide⟩
    | positive first _ _ => exact ⟨_, _, rfl, first⟩
  obtain ⟨c, rest, rfl, digit⟩ := starts
  rcases signed with rfl | rfl
  · rw [← (cons.inj same).1] at digit
    exact absurd digit (by decide)
  · cases (cons.inj same).2

theorem not_minus {before value : Bytes} {room : Nat} (blank : Ws before) (json : Json RfcNumber .value room value) :
    ¬ [(0x2d : UInt8)] = before ++ value := by
  intro same
  cases before with
  | cons c before =>
    have space := blank c mem_cons_self
    rw [← (cons.inj same).1] at space
    cases space
  | nil =>
    rw [nil_append] at same
    subst same
    generalize written : [(0x2d : UInt8)] = text at json
    cases json with
    | literal known =>
      subst written
      exact absurd known (by decide)
    | number number =>
      subst written
      exact minus_run.2 number
    | string literal =>
      obtain ⟨_⟩ := literal
      cases (cons.inj written).1
    | @empty object =>
      cases object with
      | true => cases (cons.inj written).1
      | false => cases (cons.inj written).1
    | @container object =>
      cases object with
      | true => cases (cons.inj written).1
      | false => cases (cons.inj written).1

/-- The strict reader accepts exactly the objects of the grammar whose names are distinct, and exactly
    its arrays, where a number is any run of the characters that numbers have; and it gives the text
    of each value from the colon, the bracket or the comma before it. The numbers of the grammar are
    such runs. -/
theorem strict_accepts (raw : Bytes) :
    (∀ fields, object raw = .ok fields ↔ Document NumberRun true 128 fields raw ∧ (fields.map Prod.fst).Nodup) ∧
    (∀ items, array raw = .ok items ↔ ∃ entries, Document NumberRun false 128 entries raw ∧
      items = entries.map Prod.snd) ∧
    ∀ object entries, Document RfcNumber object 128 entries raw → Document NumberRun object 128 entries raw := by
  refine ⟨fun fields => ⟨object_sound, fun given => object_complete given.1 given.2⟩,
    fun items => ⟨array_sound, ?_⟩, fun object entries document => document.wider fun _ number => number.isRun⟩
  rintro ⟨entries, document, rfl⟩
  exact array_complete document

/-- A token that is read from the text, by reading one token after the other. -/
inductive Occurs (found : Token) : Bytes → Prop where
  | here {input rest : Bytes} (read : readToken input = .ok (some (found, rest))) : Occurs found input
  | later {other : Token} {input rest : Bytes} (read : readToken input = .ok (some (other, rest)))
      (more : Occurs found rest) : Occurs found input

/-- Every number token of the text has the form that RFC 8259 gives numbers. -/
def NumbersFormed (raw : Bytes) : Prop := ∀ run, Occurs (.number run) raw → RfcNumber run

/-- The number tokens of the text, where what comes after it is as the condition wants. -/
def Numbered (after : Bytes → Prop) (text : Bytes) (numbers : List Bytes) : Prop :=
  ∀ rest, after rest → ∀ run, Occurs (.number run) (text ++ rest) ↔ run ∈ numbers ∨ Occurs (.number run) rest

theorem occurs_read {next found : Token} {input rest : Bytes} (read : readToken input = .ok (some (next, rest))) :
    Occurs found input ↔ found = next ∨ Occurs found rest := by
  constructor
  · intro occurs
    cases occurs with
    | here read' =>
      rw [read] at read'
      cases read'
      exact .inl rfl
    | later read' more =>
      rw [read] at read'
      cases read'
      exact .inr more
  · rintro (rfl | more)
    · exact .here read
    · exact .later read more

theorem occurs_blank {space rest : Bytes} {found : Token} (blank : Ws space) :
    Occurs found (space ++ rest) ↔ Occurs found rest := by
  have same : readToken (space ++ rest) = readToken rest := by rw [readToken, readToken, skipWs_append blank]
  constructor
  · rintro (read | ⟨read, more⟩)
    · exact .here (same ▸ read)
    · exact .later (same ▸ read) more
  · rintro (read | ⟨read, more⟩)
    · exact .here (same.trans read)
    · exact .later (same.trans read) more

section Numbered
variable {after after' : Bytes → Prop} {text text' : Bytes} {numbers numbers' : List Bytes} {object : Bool}

theorem Numbered.loose (one : Numbered (fun _ => True) text numbers) : Numbered after text numbers :=
  fun rest _ => one rest trivial

theorem numbered_blank (blank : Ws text) : Numbered (fun _ => True) text [] := by
  intro rest _ run
  rw [occurs_blank blank, or_iff_right not_mem_nil]

theorem numbered_mark {next : Token} (spelled : Spelling next text) (mark : ∀ run, next ≠ .number run) :
    Numbered (fun _ => True) text [] := by
  intro rest _ run
  have read : readToken (text ++ rest) = .ok (some (next, rest)) :=
    readToken_complete Ws.nil spelled fun run same => absurd same (mark run)
  rw [occurs_read read, or_iff_right not_mem_nil, or_iff_right (mark run).symm]

theorem numbered_run (run : NumberRun text) : Numbered Stop text [text] := by
  intro rest stop run'
  have read : readToken (text ++ rest) = .ok (some (.number text, rest)) :=
    readToken_complete Ws.nil (.number run) fun _ _ => stop
  rw [occurs_read read, mem_singleton, Token.number.injEq]

theorem Numbered.append (one : Numbered after text numbers) (two : Numbered after' text' numbers')
    (follows : ∀ rest, after' rest → after (text' ++ rest)) : Numbered after' (text ++ text') (numbers ++ numbers') := by
  intro rest known run
  rw [append_assoc, one _ (follows rest known), two rest known, mem_append, or_assoc]

theorem numbered_label {name label : Bytes} (labelled : Label object name label) :
    Numbered (fun _ => True) label [] := by
  cases labelled with
  | element => exact numbered_blank Ws.nil
  | member space literal space' =>
    have named := (numbered_blank space).append (numbered_mark (.string literal) nofun) fun _ _ => trivial
    have spaced := named.append (numbered_blank space') fun _ _ => trivial
    exact spaced.append (numbered_mark .colon nofun) fun _ _ => trivial

theorem stop_blank {space rest : Bytes} (blank : Ws space) (stop : Stop rest) : Stop (space ++ rest) := by
  cases rest with
  | nil =>
    intro c first
    have space := blank c (mem_of_mem_head? (by rw [append_nil] at first; exact first))
    simp only [isWs, Bool.or_eq_true, decide_eq_true_eq] at space
    rcases space with ((rfl | rfl) | rfl) | rfl <;> rfl
  | cons c rest => exact stop_after blank (stop c rfl)

theorem Numbered.item {name label before after : Bytes} (one : Numbered Stop text numbers)
    (labelled : Label object name label) (space : Ws before) (space' : Ws after) :
    Numbered Stop (label ++ (before ++ text) ++ after) numbers := by
  have valued := (numbered_blank space).append one fun _ _ => trivial
  have all := ((numbered_label labelled).append valued fun _ _ => trivial).append (numbered_blank space').loose
    fun _ => stop_blank space'
  rw [append_nil] at all
  exact all

theorem Numbered.brackets (one : Numbered Stop text numbers) (object : Bool) :
    Numbered (fun _ => True) (opening object :: (text ++ [closing object])) numbers := by
  have closed (rest : Bytes) : Stop ([closing object] ++ rest) := by
    intro c first
    cases first
    cases object <;> rfl
  obtain ⟨first, begins, either, -⟩ := opens_with object
  have opens : Numbered (fun _ => True) [opening object] [] :=
    numbered_mark begins (by rcases either with rfl | rfl <;> nofun)
  have ends : Numbered (fun _ => True) [closing object] [] :=
    numbered_mark (spells_endOf object) (by cases object <;> nofun)
  have all := opens.append (one.append ends fun rest _ => closed rest) fun _ _ => trivial
  rw [append_nil] at all
  exact all

theorem Numbered.then_ (one : Numbered Stop text numbers) (two : Numbered Stop text' numbers') :
    Numbered Stop (text ++ 0x2c :: text') (numbers ++ numbers') := by
  have comma (rest : Bytes) : Stop (0x2c :: rest) := by
    intro c first
    cases first
    rfl
  have marked : Numbered (fun _ => True) [0x2c] [] := numbered_mark .comma nofun
  exact one.append (marked.append two fun _ _ => trivial) fun rest _ => comma _

end Numbered

/-- The number tokens of a text of the grammar are the numbers in it. -/
theorem Json.numbered {Num : Bytes → Prop} (runs : ∀ text, Num text → NumberRun text) {part : Part} {room : Nat}
    {text : Bytes} (json : Json Num part room text) : ∃ numbers, Numbered Stop text numbers ∧
      (∀ run ∈ numbers, Num run) ∧ ∀ Num' : Bytes → Prop, (∀ run ∈ numbers, Num' run) → Json Num' part room text := by
  induction json with
  | literal known =>
    refine ⟨[], .loose ?_, nofun, fun _ _ => .literal known⟩
    rcases known with rfl | rfl | rfl
    · exact numbered_mark .true nofun
    · exact numbered_mark .false nofun
    · exact numbered_mark .null nofun
  | number number =>
    refine ⟨[_], numbered_run (runs _ number), forall_mem_singleton.mpr number, ?_⟩
    exact fun Num' known => .number (known _ (mem_singleton_self _))
  | string literal => exact ⟨[], (numbered_mark (.string literal) nofun).loose, nofun, fun _ _ => .string literal⟩
  | @empty object _ _ blank =>
    exact ⟨[], ((numbered_blank blank).loose.brackets object).loose, nofun, fun _ _ => .empty blank⟩
  | @container object _ _ _ ih =>
    obtain ⟨numbers, one, known, build⟩ := ih
    exact ⟨numbers, (one.brackets object).loose, known, fun Num' known => .container (build Num' known)⟩
  | last labelled space _ space' ih =>
    obtain ⟨numbers, one, known, build⟩ := ih
    exact ⟨numbers, one.item labelled space space', known, fun Num' known =>
      .last labelled space (build Num' known) space'⟩
  | more labelled space _ space' _ ih ih' =>
    obtain ⟨numbers, one, known, build⟩ := ih
    obtain ⟨numbers', two, known', build'⟩ := ih'
    refine ⟨numbers ++ numbers', (one.item labelled space space').then_ two,
      forall_mem_append.mpr ⟨known, known'⟩, ?_⟩
    intro Num' all
    obtain ⟨left, right⟩ := forall_mem_append.mp all
    exact .more labelled space (build Num' left) space' (build' Num' right)

theorem Entries.numbered {Num : Bytes → Prop} (runs : ∀ text, Num text → NumberRun text) {object : Bool} {room : Nat}
    {entries : List (Bytes × Bytes)} {text : Bytes} (listed : Entries Num object room entries text) :
    ∃ numbers, Numbered Stop text numbers ∧ (∀ run ∈ numbers, Num run) ∧
      ∀ Num' : Bytes → Prop, (∀ run ∈ numbers, Num' run) → Entries Num' object room entries text := by
  induction listed with
  | last labelled space value space' =>
    obtain ⟨numbers, one, known, build⟩ := value.numbered runs
    exact ⟨numbers, one.item labelled space space', known, fun Num' known =>
      .last labelled space (build Num' known) space'⟩
  | more labelled space value space' _ ih =>
    obtain ⟨numbers, one, known, build⟩ := value.numbered runs
    obtain ⟨numbers', two, known', build'⟩ := ih
    refine ⟨numbers ++ numbers', (one.item labelled space space').then_ two,
      forall_mem_append.mpr ⟨known, known'⟩, ?_⟩
    intro Num' all
    obtain ⟨left, right⟩ := forall_mem_append.mp all
    exact .more labelled space (build Num' left) space' (build' Num' right)

theorem Document.formed {Num : Bytes → Prop} (runs : ∀ text, Num text → NumberRun text) {object : Bool} {room : Nat}
    {entries : List (Bytes × Bytes)} {raw : Bytes} (document : Document Num object room entries raw) :
    ∃ numbers : List Bytes, (∀ run, Occurs (.number run) raw ↔ run ∈ numbers) ∧ (∀ run ∈ numbers, Num run) ∧
      ∀ Num' : Bytes → Prop, (∀ run ∈ numbers, Num' run) → Document Num' object room entries raw := by
  have outer {before text after : Bytes} {numbers : List Bytes} (front : Ws before) (back : Ws after)
      (one : Numbered Stop text numbers) (run : Bytes) :
      Occurs (.number run) (before ++ opening object :: (text ++ closing object :: after)) ↔ run ∈ numbers := by
    have all := (numbered_blank front).append ((one.brackets object).append (numbered_blank back)
      fun _ _ => trivial) fun _ _ => trivial
    have none_ : ¬ Occurs (.number run) [] := by
      intro occurs
      cases occurs with
      | here read => cases read
      | later read _ => cases read
    have told := all [] trivial run
    rw [or_iff_left none_, append_nil] at told
    simpa using told
  cases document with
  | empty front blank back =>
    exact ⟨[], outer front back (numbered_blank blank).loose, nofun, fun _ _ => .empty front blank back⟩
  | full front items back =>
    obtain ⟨numbers, one, known, build⟩ := items.numbered runs
    exact ⟨numbers, outer front back one, known, fun Num' known => .full front (build Num' known) back⟩

/-- The strict reader does what RFC 8259 asks of a text exactly when the number tokens of the text have
    the form of the RFC, or the text is refused whatever a number is. -/
theorem strict_accepts_rfc (raw : Bytes) :
    ((∀ fields, object raw = .ok fields ↔ Document RfcNumber true 128 fields raw ∧ (fields.map Prod.fst).Nodup) ↔
      NumbersFormed raw ∨ ¬ ∃ fields, Document NumberRun true 128 fields raw ∧ (fields.map Prod.fst).Nodup) ∧
    ((∀ items, array raw = .ok items ↔ ∃ entries, Document RfcNumber false 128 entries raw ∧
        items = entries.map Prod.snd) ↔ NumbersFormed raw ∨ ¬ ∃ entries, Document NumberRun false 128 entries raw) := by
  have formed {object : Bool} {entries : List (Bytes × Bytes)} (document : Document NumberRun object 128 entries raw) :
      NumbersFormed raw ↔ Document RfcNumber object 128 entries raw := by
    obtain ⟨numbers, same, -, build⟩ := document.formed fun _ run => run
    constructor
    · exact fun known => build RfcNumber fun run mem => known run ((same run).mpr mem)
    · intro rfc run occurs
      obtain ⟨numbers', same', known, -⟩ := rfc.formed fun _ number => number.isRun
      exact known run ((same' run).mp occurs)
  have wider {object : Bool} {entries : List (Bytes × Bytes)} (document : Document RfcNumber object 128 entries raw) :
      Document NumberRun object 128 entries raw := document.wider fun _ number => number.isRun
  obtain ⟨objects, arrays, -⟩ := strict_accepts raw
  constructor
  · constructor
    · intro claimed
      by_cases accepted : ∃ fields, Document NumberRun true 128 fields raw ∧ (fields.map Prod.fst).Nodup
      · obtain ⟨fields, document, nodup⟩ := accepted
        exact .inl ((formed document).mpr ((claimed fields).mp ((objects fields).mpr ⟨document, nodup⟩)).1)
      · exact .inr accepted
    · rintro (known | refused) fields
      · rw [objects fields]
        exact and_congr_left fun _ => ⟨fun document => (formed document).mp known, wider⟩
      · rw [objects fields]
        refine iff_of_false (fun given => refused ⟨fields, given⟩) ?_
        exact fun given => refused ⟨fields, wider given.1, given.2⟩
  · constructor
    · intro claimed
      by_cases accepted : ∃ entries, Document NumberRun false 128 entries raw
      · obtain ⟨entries, document⟩ := accepted
        obtain ⟨entries', rfc, -⟩ := (claimed _).mp ((arrays _).mpr ⟨entries, document, rfl⟩)
        exact .inl ((formed (wider rfc)).mpr rfc)
      · exact .inr accepted
    · rintro (known | refused) items
      · rw [arrays items]
        exact exists_congr fun entries => and_congr_left fun _ => ⟨fun document => (formed document).mp known, wider⟩
      · rw [arrays items]
        refine iff_of_false (fun given => ?_) (fun given => ?_)
        · obtain ⟨entries, document, -⟩ := given
          exact refused ⟨entries, document⟩
        · obtain ⟨entries, document, -⟩ := given
          exact refused ⟨entries, wider document⟩

/-- An object is accepted whose only value is a minus sign. -/
theorem minus_accepted : object (lit "\x7b\"a\":-\x7d") = .ok [(lit "a", lit "-")] ∧
    ¬ ∃ fields, Document RfcNumber true 128 fields (lit "\x7b\"a\":-\x7d") ∧ (fields.map Prod.fst).Nodup := by
  have key : StringLiteral (lit "\"a\"") (lit "a") :=
    .quoted (.plain (by decide) (by decide) (by decide) .nil)
  have entries : Entries NumberRun true 128 [(lit "a", lit "-")] (lit "\"a\":-") :=
    .last (.member Ws.nil key Ws.nil) Ws.nil (.number minus_run.1) Ws.nil
  have accepted : object (lit "\x7b\"a\":-\x7d") = .ok [(lit "a", lit "-")] :=
    object_complete (.full Ws.nil entries Ws.nil) (nodup_singleton _)
  refine ⟨accepted, ?_⟩
  rintro ⟨fields, document, nodup⟩
  have read := object_complete (document.wider fun _ number => number.isRun) nodup
  rw [accepted] at read
  obtain rfl := Except.ok.inj read
  obtain ⟨before, value, blank, json, same⟩ := document.values _ mem_cons_self
  exact not_minus blank json same

end Nxt.Ai
