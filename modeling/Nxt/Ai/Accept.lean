import Nxt.Ai.Strict

/- What the strict reader accepts: the objects and the arrays of the grammar, with a run of number
   characters for a number. -/
namespace Nxt.Ai
open Nxt.Lib List

theorem endOf_spelled {object : Bool} {text : Bytes} (spelled : Spelling (endOf object) text) :
    text = [closing object] := by
  cases object with
  | true =>
    cases spelled
    rfl
  | false =>
    cases spelled
    rfl

theorem spells_endOf (object : Bool) : Spelling (endOf object) [closing object] := by
  cases object with
  | true => exact .objectEnd
  | false => exact .arrayEnd

variable {c : UInt8} {expected : Token} {fuel : Nat} {others : List (Bytes × Bytes)}

theorem mark_complete {space : Bytes} {next : Token} (blank : Ws space) (spelled : Spelling next [c])
    (mark : ∀ run, next ≠ .number run) (rest : Bytes) : token (space ++ c :: rest) = .ok (next, rest) :=
  token_complete blank spelled fun run same => absurd same (mark run)

theorem expect_sound {input rest : Bytes} (read : expect expected input = .ok rest) :
    token input = .ok (expected, rest) := by
  unfold expect at read
  obtain ⟨⟨next, left⟩, taken, read⟩ := bind_ok read
  dsimp only at read
  split at read
  · cases read
  · rename_i same
    cases read
    rw [taken, not_not.mp same]

theorem expect_complete {input rest : Bytes} (read : token input = .ok (expected, rest)) :
    expect expected input = .ok rest := by
  rw [expect, read]
  exact if_neg (not_not.mpr rfl)

theorem toValue_sound {object : Bool} {next first : Token} {input rest : Bytes}
    (read : toValue object next input = .ok (first, rest)) :
    ∃ taken, input = taken ++ rest ∧ ∀ space spelled, Ws space → Spelling next spelled →
      ∃ name label before text, Label object name label ∧ Ws before ∧ Spelling first text ∧
        space ++ spelled ++ taken = label ++ (before ++ text) := by
  cases object with
  | false =>
    cases read
    refine ⟨[], rfl, fun space spelled blank known => ⟨[], [], space, spelled, .element, blank, known, ?_⟩⟩
    rw [append_nil]
    rfl
  | true =>
    cases next with
    | string key =>
      obtain ⟨colon, found, more⟩ := bind_ok (show (expect .colon input >>= token) = _ from read)
      obtain ⟨before, text, blank', spelled', rfl⟩ := token_sound more
      obtain ⟨gap, mark, blank, spelled, rfl⟩ := token_sound (expect_sound found)
      cases spelled
      refine ⟨gap ++ [0x3a] ++ (before ++ text), by simp only [append_assoc], ?_⟩
      intro space literal blank'' known
      cases known with
      | string known =>
        refine ⟨key, _, before, text, .member blank'' known blank, blank', spelled', ?_⟩
        simp only [append_assoc]
    | objectBegin | objectEnd | arrayBegin | arrayEnd | colon | comma | number | boolean | null => cases read

/-- What `value` follows is a value of the grammar, and what its loop reads are the items of one. -/
theorem value_sound (fuel : Nat) :
    (∀ first depth input rest, value fuel first depth input = .ok rest → ∃ room taken, depth + room = 128 ∧
      input = taken ++ rest ∧ ∀ spelled, Spelling first spelled → Json NumberRun .value room (spelled ++ taken)) ∧
    ∀ object depth next input rest, items fuel object depth next input = .ok rest → ∃ room taken,
      depth + 1 + room = 128 ∧ input = taken ++ closing object :: rest ∧ ∀ space spelled, Ws space →
        Spelling next spelled → Json NumberRun (.items object) room (space ++ spelled ++ taken) := by
  induction fuel with
  | zero => exact ⟨nofun, nofun⟩
  | succ fuel ih =>
    refine ⟨fun first depth input rest read => ?_, fun object depth next input rest read => ?_⟩
    · rw [value] at read
      split at read
      · cases read
      rename_i inside
      split at read
      · rename_i opens
        obtain ⟨⟨next, left⟩, found, inner⟩ := bind_ok read
        obtain ⟨space, text, blank, known, rfl⟩ := token_sound found
        dsimp only at inner
        have opened : ∀ spelled, Spelling first spelled → spelled = [opening (decide (first = .objectBegin))] := by
          rcases opens with rfl | rfl
          · rintro _ ⟨⟩
            rfl
          · rintro _ ⟨⟩
            rfl
        split at inner
        · rename_i ends
          cases inner
          rw [ends] at known
          refine ⟨128 - depth, space ++ text, by omega, by rw [append_assoc], fun spelled begins => ?_⟩
          rw [opened spelled begins, endOf_spelled known]
          exact .empty blank
        · obtain ⟨room, taken, fits, rfl, json⟩ := ih.2 _ _ _ _ _ inner
          refine ⟨room + 1, space ++ text ++ taken ++ [closing (decide (first = .objectBegin))], by omega, ?_, ?_⟩
          · simp only [append_assoc, singleton_append]
          · intro spelled begins
            rw [opened spelled begins]
            exact .container (json space text blank known)
      · split at read
        · rename_i scalar
          cases read
          refine ⟨128 - depth, [], by omega, rfl, fun spelled known => ?_⟩
          rw [append_nil]
          cases known with
          | string literal => exact .string literal
          | number run => exact .number run
          | true => exact .literal (Or.inl rfl)
          | false => exact .literal (Or.inr (Or.inl rfl))
          | null => exact .literal (Or.inr (Or.inr rfl))
          | objectBegin | objectEnd | arrayBegin | arrayEnd | colon | comma => cases scalar
        · cases read
    · rw [items] at read
      obtain ⟨⟨first, _⟩, labelled, fromFirst⟩ := bind_ok read
      obtain ⟨_, valued, fromValue⟩ := bind_ok fromFirst
      obtain ⟨⟨mark, _⟩, separated, fromMark⟩ := bind_ok fromValue
      obtain ⟨head, rfl, toFirst⟩ := toValue_sound labelled
      obtain ⟨room, inner, fits, rfl, json⟩ := ih.1 _ _ _ _ valued
      obtain ⟨after, _, blank, separates, rfl⟩ := token_sound separated
      dsimp only at fromMark
      split at fromMark
      · rename_i ends
        cases fromMark
        rw [ends] at separates
        refine ⟨room, head ++ inner ++ after, fits, ?_, fun space spelled blank' known => ?_⟩
        · rw [endOf_spelled separates]
          simp only [append_assoc, singleton_append]
        · obtain ⟨name, label, before, text, isLabel, blank'', begins, same⟩ := toFirst space spelled blank' known
          have whole : space ++ spelled ++ (head ++ inner ++ after) = label ++ (before ++ (text ++ inner)) ++ after := by
            rw [← append_assoc, ← append_assoc, same]
            simp only [append_assoc]
          rw [whole]
          exact .last isLabel blank'' (json text begins) blank
      · split at fromMark
        · cases fromMark
        rename_i comma
        obtain ⟨⟨next', _⟩, more, fromNext⟩ := bind_ok fromMark
        obtain ⟨gap, text', blank', known', rfl⟩ := token_sound more
        obtain ⟨room', others, fits', rfl, json'⟩ := ih.2 _ _ _ _ _ fromNext
        obtain rfl : room' = room := by omega
        rw [not_not.mp comma] at separates
        cases separates
        refine ⟨room', head ++ inner ++ after ++ 0x2c :: (gap ++ text' ++ others), fits, ?_,
          fun space spelled blank'' known => ?_⟩
        · simp only [append_assoc, cons_append, nil_append]
        · obtain ⟨name, label, before, text, isLabel, blank, begins, same⟩ := toFirst space spelled blank'' known
          have whole : space ++ spelled ++ (head ++ inner ++ after ++ 0x2c :: (gap ++ text' ++ others)) =
              label ++ (before ++ (text ++ inner)) ++ after ++ 0x2c :: (gap ++ text' ++ others) := by
            rw [← append_assoc, ← append_assoc, ← append_assoc, same]
            simp only [append_assoc]
          rw [whole]
          exact .more isLabel blank (json text begins) ‹Ws after› (json' gap text' blank' known')

theorem stop_after {after rest : Bytes} (blank : Ws after) (mark : numberChar c = false) :
    Stop (after ++ c :: rest) := by
  cases after with
  | nil =>
    intro d first
    cases first
    exact mark
  | cons d after =>
    intro e first
    cases first
    have space := blank d mem_cons_self
    simp only [isWs, Bool.or_eq_true, decide_eq_true_eq] at space
    rcases space with ((rfl | rfl) | rfl) | rfl
    · rfl
    · rfl
    · rfl
    · rfl

theorem toValue_complete {object : Bool} {name label before text : Bytes} {first : Token} (rest : Bytes)
    (labelled : Label object name label) (blank : Ws before) (spelled : Spelling first text)
    (stops : ∀ run, first = .number run → Stop rest) : ∃ next left, token (label ++ (before ++ (text ++ rest))) = .ok
    (next, left) ∧ toValue object next left = .ok (first, rest) ∧ (next = endOf object → first = endOf object) := by
  have read := token_complete blank spelled stops
  cases labelled with
  | element => exact ⟨first, rest, read, rfl, id⟩
  | @member space key name after blank' literal blank'' =>
    refine ⟨.string name, after ++ ([0x3a] ++ (before ++ (text ++ rest))), ?_, ?_, nofun⟩
    · simp only [append_assoc]
      exact token_complete blank' (.string literal) nofun
    · rw [toValue, if_pos rfl, expect_complete (token_complete blank'' .colon nofun), ok_bind, read]

/-- A value is read from its first token, and the items of one from the first of theirs, by the fuel
    that their length gives. -/
def ReadBack : Part → Nat → Bytes → Prop
  | .value, room, text => ∀ fuel depth rest, 2 * text.length ≤ fuel → depth + room ≤ 128 → Stop rest →
      ∃ first spelled more, Spelling first spelled ∧ text = spelled ++ more ∧
        (∀ run, first = .number run → more = []) ∧ value fuel first depth (more ++ rest) = .ok rest
  | .items object, room, text => ∀ fuel depth rest, 2 * text.length + 1 ≤ fuel → depth + 1 + room ≤ 128 →
      ∃ next left, token (text ++ closing object :: rest) = .ok (next, left) ∧ next ≠ endOf object ∧
        items fuel object depth next left = .ok rest

theorem value_scalar {first : Token} {spelled : Bytes} {room : Nat} (known : Spelling first spelled)
    (scalar : first.scalar = true) (least : 0 < spelled.length) : ReadBack .value room spelled := by
  intro fuel depth rest enough fits stop
  obtain ⟨fuel, rfl⟩ := Nat.exists_eq_add_one_of_ne_zero (show fuel ≠ 0 by omega)
  refine ⟨first, spelled, [], known, (append_nil _).symm, fun _ _ => rfl, ?_⟩
  rw [nil_append, value, if_neg (by omega)]
  cases first with
  | string | number | boolean | null => exact (if_neg (by rintro (same | same) <;> cases same)).trans (if_pos scalar)
  | objectBegin | objectEnd | arrayBegin | arrayEnd | colon | comma => cases scalar

theorem opens_with (object : Bool) : ∃ first, Spelling first [opening object] ∧
    (first = .objectBegin ∨ first = .arrayBegin) ∧ decide (first = .objectBegin) = object := by
  cases object with
  | true => exact ⟨.objectBegin, .objectBegin, Or.inl rfl, rfl⟩
  | false => exact ⟨.arrayBegin, .arrayBegin, Or.inr rfl, rfl⟩

theorem not_endOf {depth : Nat} {first : Token} {input rest : Bytes} (object : Bool)
    (read : value fuel first depth input = .ok rest) : first ≠ endOf object := by
  rintro rfl
  cases fuel with
  | zero => cases read
  | succ fuel =>
    rw [value] at read
    split at read
    · cases read
    · cases object <;> cases read

theorem json_complete {part : Part} {room : Nat} {text : Bytes} (json : Json NumberRun part room text) :
    ReadBack part room text := by
  induction json with
  | literal known =>
    rcases known with rfl | rfl | rfl
    · exact value_scalar .true rfl (by decide)
    · exact value_scalar .false rfl (by decide)
    · exact value_scalar .null rfl (by decide)
  | number run =>
    refine value_scalar (.number run) rfl ?_
    obtain ⟨_, _⟩ := run
    exact Nat.succ_pos _
  | string literal =>
    refine value_scalar (.string literal) rfl ?_
    obtain ⟨_⟩ := literal
    exact Nat.succ_pos _
  | @empty object room space blank =>
    intro fuel depth rest enough fits stop
    obtain ⟨fuel, rfl⟩ := Nat.exists_eq_add_one_of_ne_zero (show fuel ≠ 0 by rw [length_cons] at enough; omega)
    obtain ⟨first, spelled, opens, same⟩ := opens_with object
    refine ⟨first, _, space ++ [closing object], spelled, rfl, by rcases opens with rfl | rfl <;> nofun, ?_⟩
    rw [value, if_neg (by omega), if_pos opens, append_assoc, singleton_append,
      mark_complete blank (spells_endOf object) (by cases object <;> nofun) rest, ok_bind, same]
    exact if_pos rfl
  | @container object room text _ ih =>
    intro fuel depth rest enough fits stop
    rw [length_cons, length_append] at enough
    obtain ⟨fuel, rfl⟩ := Nat.exists_eq_add_one_of_ne_zero (show fuel ≠ 0 by omega)
    obtain ⟨first, spelled, opens, same⟩ := opens_with object
    obtain ⟨next, left, found, inside, read⟩ := ih fuel depth rest (by omega) (by omega)
    refine ⟨first, _, text ++ [closing object], spelled, rfl, by rcases opens with rfl | rfl <;> nofun, ?_⟩
    rw [value, if_neg (by omega), if_pos opens, append_assoc, singleton_append, found, ok_bind, same]
    exact (if_neg inside).trans read
  | @last object room name label before text after labelled blank _ blank' ih =>
    intro fuel depth rest enough fits
    simp only [length_append] at enough
    obtain ⟨fuel, rfl⟩ := Nat.exists_eq_add_one_of_ne_zero (show fuel ≠ 0 by omega)
    have stop : Stop (after ++ closing object :: rest) := stop_after blank' (by cases object <;> rfl)
    obtain ⟨first, spelled, more, known, rfl, short, read⟩ := ih fuel (depth + 1) _ (by omega) (by omega) stop
    obtain ⟨next, left, found, begins, apart⟩ := toValue_complete (more ++ (after ++ closing object :: rest))
      labelled blank known (fun run same => by rw [short run same]; exact stop)
    have mark := mark_complete blank' (spells_endOf object) (by cases object <;> nofun) rest
    refine ⟨next, left, ?_, fun ends => not_endOf object read (apart ends), ?_⟩
    · simpa only [append_assoc] using found
    · rw [items, begins, ok_bind]
      dsimp only
      rw [read, ok_bind, mark, ok_bind]
      exact if_pos rfl
  | @more object room name label before text after others labelled blank _ blank' _ ih ih' =>
    intro fuel depth rest enough fits
    simp only [length_append, length_cons] at enough
    obtain ⟨fuel, rfl⟩ := Nat.exists_eq_add_one_of_ne_zero (show fuel ≠ 0 by omega)
    have stop : Stop (after ++ 0x2c :: (others ++ closing object :: rest)) := stop_after blank' rfl
    obtain ⟨first, spelled, more, known, rfl, short, read⟩ := ih fuel (depth + 1) _ (by omega) (by omega) stop
    obtain ⟨next, left, found, begins, apart⟩ := toValue_complete
      (more ++ (after ++ 0x2c :: (others ++ closing object :: rest))) labelled blank known
      (fun run same => by rw [short run same]; exact stop)
    have mark := mark_complete blank' .comma nofun (others ++ closing object :: rest)
    obtain ⟨next', left', found', -, read'⟩ := ih' fuel depth rest (by omega) fits
    refine ⟨next, left, ?_, fun ends => not_endOf object read (apart ends), ?_⟩
    · simpa only [append_assoc, cons_append] using found
    · rw [items, begins, ok_bind]
      dsimp only
      rw [read, ok_bind, mark, ok_bind]
      dsimp only
      rw [if_neg (by cases object <;> nofun), if_neg (not_not.mpr rfl), found', ok_bind]
      exact read'

theorem between_append (text rest : Bytes) : between (text ++ rest) rest = text := by
  rw [between, length_append, Nat.add_sub_cancel_right, take_left]

theorem value_cut {start input rest : Bytes} {first : Token} (opened : token start = .ok (first, input))
    (valued : value fuel first 0 input = .ok rest) : ∃ before text, Ws before ∧ Json NumberRun .value 128 text ∧
      start = before ++ text ++ rest ∧ between start rest = before ++ text := by
  obtain ⟨room, taken, fits, rfl, json⟩ := (value_sound fuel).1 _ _ _ _ valued
  obtain ⟨before, spelled, blank, known, rfl⟩ := token_sound opened
  obtain rfl : room = 128 := by omega
  have same : before ++ (spelled ++ (taken ++ rest)) = before ++ (spelled ++ taken) ++ rest := by
    simp only [append_assoc]
  exact ⟨before, spelled ++ taken, blank, json spelled known, same, by rw [same, between_append]⟩

theorem fresh_name {fields : List (Bytes × Bytes)} {key : Bytes} (text : Bytes)
    (fresh : ¬ (fields.any fun field => field.1 = key) = true) (nodup : (fields.map Prod.fst).Nodup) :
    ((fields ++ [(key, text)]).map Prod.fst).Nodup := by
  rw [map_append, nodup_append]
  refine ⟨nodup, nodup_singleton _, ?_⟩
  intro name held name' held' same
  obtain ⟨field, inside, rfl⟩ := mem_map.mp held
  rw [map_singleton, mem_singleton] at held'
  exact fresh (any_eq_true.mpr ⟨field, inside, decide_eq_true (same.trans held')⟩)

theorem objectFields_sound (fuel : Nat) : ∀ fields begin next input found rest, token begin = .ok (next, input) →
    objectFields fuel fields next input = .ok (found, rest) → (next = .objectEnd ∧ found = fields ∧ rest = input) ∨
    ∃ others taken, found = fields ++ others ∧ begin = taken ++ 0x7d :: rest ∧ Entries NumberRun true 128 others taken ∧
    ((fields.map Prod.fst).Nodup → (found.map Prod.fst).Nodup) := by
  induction fuel with
  | zero => nofun
  | succ fuel ih =>
    intro fields begin next input found rest keyed read
    unfold objectFields at read
    split at read
    · rename_i ends
      cases read
      exact Or.inl ⟨ends, rfl, rfl⟩
    refine Or.inr ?_
    split at read
    · rename_i key _
      obtain ⟨start, colon, fromStart⟩ := bind_ok read
      obtain ⟨⟨first, _⟩, opened, fromFirst⟩ := bind_ok fromStart
      obtain ⟨left, valued, fromValue⟩ := bind_ok fromFirst
      obtain ⟨before, text, blank', json, same, cut⟩ := value_cut opened valued
      rw [cut] at fromValue
      split at fromValue
      · cases fromValue
      rename_i fresh
      have distinct := fresh_name (before ++ text) fresh
      obtain ⟨⟨mark, _⟩, separated, fromMark⟩ := bind_ok fromValue
      obtain ⟨after, _, blank'', separates, rfl⟩ := token_sound separated
      obtain ⟨gap, _, blank, isColon, rfl⟩ := token_sound (expect_sound colon)
      obtain ⟨space, spelled, blank''', known, rfl⟩ := token_sound keyed
      cases isColon
      rw [same]
      have labelled : Label true key (space ++ spelled ++ gap ++ [0x3a]) := by
        cases known with
        | string literal => exact .member blank''' literal blank
      dsimp only at fromMark
      split at fromMark
      · rename_i ends
        cases fromMark
        rw [ends] at separates
        cases separates
        refine ⟨_, _, rfl, ?_, .last labelled blank' json blank'', distinct⟩
        simp only [append_assoc, cons_append, nil_append]
      · split at fromMark
        · cases fromMark
        rename_i comma
        rw [not_not.mp comma] at separates
        cases separates
        obtain ⟨⟨next', _⟩, more, fromNext⟩ := bind_ok fromMark
        dsimp only at fromNext
        split at fromNext
        · cases fromNext
        rename_i goes
        rcases ih _ _ _ _ _ _ more fromNext with ⟨ends, -, -⟩ | ⟨others, taken, rfl, rfl, entries, apart⟩
        · exact absurd ends goes
        refine ⟨(key, before ++ text) :: others, _, append_assoc .., ?_,
          .more labelled blank' json blank'' entries, fun nodup => apart (distinct nodup)⟩
        simp only [append_assoc, cons_append, nil_append]
    · cases read

theorem arrayItems_sound (fuel : Nat) : ∀ items start next input found rest, token start = .ok (next, input) →
    arrayItems fuel items start next input = .ok (found, rest) →
      (next = .arrayEnd ∧ found = items ∧ rest = input) ∨ ∃ others taken, found = items ++ others.map Prod.snd ∧
        start = taken ++ 0x5d :: rest ∧ Entries NumberRun false 128 others taken := by
  induction fuel with
  | zero => nofun
  | succ fuel ih =>
    intro items start next input found rest opened read
    unfold arrayItems at read
    split at read
    · rename_i ends
      cases read
      exact Or.inl ⟨ends, rfl, rfl⟩
    refine Or.inr ?_
    obtain ⟨left, valued, fromValue⟩ := bind_ok read
    obtain ⟨before, text, blank, json, same, cut⟩ := value_cut opened valued
    rw [cut] at fromValue
    obtain ⟨⟨mark, _⟩, separated, fromMark⟩ := bind_ok fromValue
    obtain ⟨after, _, blank', separates, rfl⟩ := token_sound separated
    rw [same]
    dsimp only at fromMark
    split at fromMark
    · rename_i ends
      cases fromMark
      rw [ends] at separates
      cases separates
      refine ⟨_, _, rfl, ?_, .last .element blank json blank'⟩
      simp only [append_assoc, nil_append, singleton_append]
    · split at fromMark
      · cases fromMark
      rename_i comma
      rw [not_not.mp comma] at separates
      cases separates
      obtain ⟨⟨next', _⟩, more, fromNext⟩ := bind_ok fromMark
      dsimp only at fromNext
      split at fromNext
      · cases fromNext
      rename_i goes
      rcases ih _ _ _ _ _ _ more fromNext with ⟨ends, -, -⟩ | ⟨others, taken, rfl, rfl, entries⟩
      · exact absurd ends goes
      refine ⟨([], before ++ text) :: others, _, append_assoc .., ?_, .more .element blank json blank' entries⟩
      simp only [append_assoc, cons_append, nil_append]

theorem object_sound {raw : Bytes} {fields : List (Bytes × Bytes)} (read : object raw = .ok fields) :
    Document NumberRun true 128 fields raw ∧ (fields.map Prod.fst).Nodup := by
  obtain ⟨input, opened, read⟩ := bind_ok read
  obtain ⟨⟨next, rest⟩, first, read⟩ := bind_ok read
  obtain ⟨⟨found, left⟩, looped, read⟩ := bind_ok read
  obtain ⟨_, finished, read⟩ := bind_ok read
  cases read
  have blank := ended_iff.mp finished
  obtain ⟨before, _, front, isOpening, rfl⟩ := token_sound (expect_sound opened)
  cases isOpening
  rcases objectFields_sound _ _ _ _ _ _ _ first looped with ⟨rfl, rfl, rfl⟩ | ⟨others, taken, rfl, rfl, entries, apart⟩
  · obtain ⟨space, _, blank', isClosing, rfl⟩ := token_sound first
    cases isClosing
    exact ⟨.empty front blank' blank, nodup_nil⟩
  · exact ⟨.full front entries blank, apart nodup_nil⟩

theorem array_sound {raw : Bytes} {items : List Bytes} (read : array raw = .ok items) :
    ∃ entries, Document NumberRun false 128 entries raw ∧ items = entries.map Prod.snd := by
  obtain ⟨input, opened, read⟩ := bind_ok read
  obtain ⟨⟨next, rest⟩, first, read⟩ := bind_ok read
  obtain ⟨⟨found, left⟩, looped, read⟩ := bind_ok read
  obtain ⟨_, finished, read⟩ := bind_ok read
  cases read
  have blank := ended_iff.mp finished
  obtain ⟨before, _, front, isOpening, rfl⟩ := token_sound (expect_sound opened)
  cases isOpening
  rcases arrayItems_sound _ _ _ _ _ _ _ first looped with ⟨rfl, rfl, rfl⟩ | ⟨others, taken, rfl, rfl, entries⟩
  · obtain ⟨space, _, blank', isClosing, rfl⟩ := token_sound first
    cases isClosing
    exact ⟨[], .empty front blank' blank, rfl⟩
  · exact ⟨others, .full front entries blank, rfl⟩

theorem ended_complete {input : Bytes} (blank : Ws input) : ended input = .ok () := ended_iff.mpr blank

theorem value_complete {before text : Bytes} (rest : Bytes) (blank : Ws before) (json : Json NumberRun .value 128 text)
    (stop : Stop rest) (fuel : Nat) (enough : 2 * text.length ≤ fuel) : ∃ first left,
      token (before ++ (text ++ rest)) = .ok (first, left) ∧ value fuel first 0 left = .ok rest ∧
        between (before ++ (text ++ rest)) rest = before ++ text := by
  obtain ⟨first, spelled, more, known, rfl, short, read⟩ := json_complete json fuel 0 rest enough (by omega) stop
  refine ⟨first, more ++ rest, ?_, read, ?_⟩
  · rw [append_assoc]
    exact token_complete blank known fun run same => by rw [short run same]; exact stop
  · rw [← append_assoc, between_append]

theorem no_name {fields : List (Bytes × Bytes)} {key text : Bytes}
    (nodup : ((fields ++ (key, text) :: others).map Prod.fst).Nodup) :
    ¬ (fields.any fun field => field.1 = key) = true := by
  intro held
  obtain ⟨field, inside, same⟩ := any_eq_true.mp held
  rw [map_append, map_cons, nodup_append] at nodup
  exact nodup.2.2 _ (mem_map_of_mem inside) _ mem_cons_self (of_decide_eq_true same)

theorem objectFields_complete {text : Bytes}
    (entries : Entries NumberRun true 128 others text) : ∀ fuel fields rest, 2 * text.length + 1 ≤ fuel →
      ((fields ++ others).map Prod.fst).Nodup → ∃ next left, token (text ++ 0x7d :: rest) = .ok (next, left) ∧
        next ≠ .objectEnd ∧ objectFields fuel fields next left = .ok (fields ++ others, rest) := by
  induction entries with
  | @last name label before text after labelled blank json blank' =>
    intro fuel fields rest enough nodup
    simp only [length_append] at enough
    obtain ⟨fuel, rfl⟩ := Nat.exists_eq_add_one_of_ne_zero (show fuel ≠ 0 by omega)
    obtain ⟨first, left, opened, valued, cut⟩ := value_complete (after ++ 0x7d :: rest) blank json
      (stop_after blank' rfl) fuel (by omega)
    have mark := mark_complete blank' .objectEnd nofun rest
    cases labelled with
    | @member space key name gap blank'' literal blank''' =>
      have keyed : token (space ++ (key ++ _)) = .ok (_, gap ++ 0x3a :: (before ++ (text ++ (after ++ 0x7d :: rest)))) :=
        token_complete blank'' (.string literal) nofun
      have colon := expect_complete (mark_complete blank''' .colon nofun (before ++ (text ++ (after ++ 0x7d :: rest))))
      refine ⟨.string name, _,
        by simpa only [append_assoc, cons_append, nil_append] using keyed, nofun, ?_⟩
      unfold objectFields
      rw [if_neg nofun]
      dsimp only
      rw [colon, ok_bind, opened, ok_bind]
      dsimp only
      rw [valued, ok_bind, if_neg (no_name nodup), mark, ok_bind, cut]
      exact if_pos rfl
  | @more name label before text after items others labelled blank json blank' _ ih =>
    intro fuel fields rest enough nodup
    simp only [length_append, length_cons] at enough
    obtain ⟨fuel, rfl⟩ := Nat.exists_eq_add_one_of_ne_zero (show fuel ≠ 0 by omega)
    obtain ⟨first, left, opened, valued, cut⟩ := value_complete (after ++ 0x2c :: (items ++ 0x7d :: rest)) blank
      json (stop_after blank' rfl) fuel (by omega)
    have mark := mark_complete blank' .comma nofun (items ++ 0x7d :: rest)
    have shifted : fields ++ (name, before ++ text) :: others = fields ++ [(name, before ++ text)] ++ others := by
      rw [append_assoc, singleton_append]
    obtain ⟨next, left', found, goes, read⟩ := ih fuel (fields ++ [(name, before ++ text)]) rest (by omega)
      (by rw [← shifted]; exact nodup)
    cases labelled with
    | @member space key name gap blank'' literal blank''' =>
      have keyed : token (space ++ (key ++ _)) =
          .ok (_, gap ++ 0x3a :: (before ++ (text ++ (after ++ 0x2c :: (items ++ 0x7d :: rest))))) :=
        token_complete blank'' (.string literal) nofun
      have colon := expect_complete
        (mark_complete blank''' .colon nofun (before ++ (text ++ (after ++ 0x2c :: (items ++ 0x7d :: rest)))))
      refine ⟨.string name, _,
        by simpa only [append_assoc, cons_append, nil_append] using keyed, nofun, ?_⟩
      unfold objectFields
      rw [if_neg nofun]
      dsimp only
      rw [colon, ok_bind, opened, ok_bind]
      dsimp only
      rw [valued, ok_bind, if_neg (no_name nodup), mark, ok_bind, cut]
      dsimp only
      rw [if_neg nofun, if_neg (not_not.mpr rfl), found, ok_bind]
      dsimp only
      rw [if_neg goes, read, shifted]

theorem arrayItems_complete {text : Bytes}
    (entries : Entries NumberRun false 128 others text) : ∀ fuel items rest, 2 * text.length + 1 ≤ fuel →
      ∃ next left, token (text ++ 0x5d :: rest) = .ok (next, left) ∧ next ≠ .arrayEnd ∧
        arrayItems fuel items (text ++ 0x5d :: rest) next left = .ok (items ++ others.map Prod.snd, rest) := by
  induction entries with
  | @last name label before text after labelled blank json blank' =>
    intro fuel items rest enough
    simp only [length_append] at enough
    obtain ⟨fuel, rfl⟩ := Nat.exists_eq_add_one_of_ne_zero (show fuel ≠ 0 by omega)
    obtain ⟨first, left, opened, valued, cut⟩ := value_complete (after ++ 0x5d :: rest) blank json
      (stop_after blank' rfl) fuel (by omega)
    have mark := mark_complete blank' .arrayEnd nofun rest
    have goes : first ≠ .arrayEnd := not_endOf false valued
    cases labelled
    simp only [append_assoc, nil_append]
    refine ⟨first, left, opened, goes, ?_⟩
    rw [arrayItems, if_neg goes, valued, ok_bind, mark, ok_bind, cut]
    exact if_pos rfl
  | @more name label before text after more others labelled blank json blank' _ ih =>
    intro fuel items rest enough
    simp only [length_append, length_cons] at enough
    obtain ⟨fuel, rfl⟩ := Nat.exists_eq_add_one_of_ne_zero (show fuel ≠ 0 by omega)
    obtain ⟨first, left, opened, valued, cut⟩ := value_complete (after ++ 0x2c :: (more ++ 0x5d :: rest)) blank
      json (stop_after blank' rfl) fuel (by omega)
    have mark := mark_complete blank' .comma nofun (more ++ 0x5d :: rest)
    have goes : first ≠ .arrayEnd := not_endOf false valued
    obtain ⟨next, left', found, goes', read⟩ := ih fuel (items ++ [before ++ text]) rest (by omega)
    cases labelled
    simp only [append_assoc, nil_append, cons_append]
    refine ⟨first, left, opened, goes, ?_⟩
    rw [arrayItems, if_neg goes, valued, ok_bind, mark, ok_bind, cut]
    dsimp only
    rw [if_neg nofun, if_neg (not_not.mpr rfl), found, ok_bind]
    dsimp only
    rw [if_neg goes', read, append_assoc]
    rfl

theorem object_complete {raw : Bytes} {fields : List (Bytes × Bytes)} (document : Document NumberRun true 128 fields raw)
    (nodup : (fields.map Prod.fst).Nodup) : object raw = .ok fields := by
  cases document with
  | @empty before space after front blank back =>
    have opened := expect_complete (mark_complete front .objectBegin nofun (space ++ 0x7d :: after))
    have ends := mark_complete blank .objectEnd nofun after
    have long : 2 * (before ++ 0x7b :: (space ++ 0x7d :: after)).length ≠ 0 := by
      rw [length_append, length_cons]
      omega
    obtain ⟨fuel, same⟩ := Nat.exists_eq_add_one_of_ne_zero long
    rw [object]
    simp only [opening, closing, if_true]
    rw [same, opened, ok_bind, ends, ok_bind]
    unfold objectFields
    rw [if_pos rfl, ok_bind, ended_complete back]
    rfl
  | @full before text after _ front entries back =>
    have opened := expect_complete (mark_complete front .objectBegin nofun (text ++ 0x7d :: after))
    have enough : 2 * text.length + 1 ≤ 2 * (before ++ 0x7b :: (text ++ 0x7d :: after)).length := by
      simp only [length_append, length_cons]
      omega
    obtain ⟨next, left, found, -, read⟩ := objectFields_complete entries _ [] after enough nodup
    rw [object]
    simp only [opening, closing, if_true]
    rw [opened, ok_bind, found, ok_bind]
    dsimp only
    rw [read, ok_bind, ended_complete back]
    rfl

theorem array_complete {raw : Bytes} {entries : List (Bytes × Bytes)}
    (document : Document NumberRun false 128 entries raw) : array raw = .ok (entries.map Prod.snd) := by
  cases document with
  | @empty before space after front blank back =>
    have opened := expect_complete (mark_complete front .arrayBegin nofun (space ++ 0x5d :: after))
    have ends := mark_complete blank .arrayEnd nofun after
    have long : 2 * (before ++ 0x5b :: (space ++ 0x5d :: after)).length ≠ 0 := by
      rw [length_append, length_cons]
      omega
    obtain ⟨fuel, same⟩ := Nat.exists_eq_add_one_of_ne_zero long
    rw [array]
    simp only [opening, closing, Bool.false_eq_true, if_false]
    rw [same, opened, ok_bind, ends, ok_bind, arrayItems, if_pos rfl, ok_bind, ended_complete back]
    rfl
  | @full before text after _ front inside back =>
    have opened := expect_complete (mark_complete front .arrayBegin nofun (text ++ 0x5d :: after))
    have enough : 2 * text.length + 1 ≤ 2 * (before ++ 0x5b :: (text ++ 0x5d :: after)).length := by
      simp only [length_append, length_cons]
      omega
    obtain ⟨next, left, found, -, read⟩ := arrayItems_complete inside _ [] after enough
    rw [array]
    simp only [opening, closing, Bool.false_eq_true, if_false]
    rw [opened, ok_bind, found, ok_bind]
    dsimp only
    rw [read, ok_bind, ended_complete back]
    rfl

end Nxt.Ai
