import Nxt.Host.Beneath

/- Guest file access is confined: load paths are normal, an open reaches a regular file below the
   grant by real directories only, and both ways of opening agree. -/
namespace Nxt.Host
open Nxt.Lib List
variable {k : Kernel} {here parent node : Node} {path : Bytes} {names : List Name}

theorem beneathSegments_eq (some_ : path ≠ []) (done : beneathSegments path = .ok names) :
    names = segments path ∧ ∀ name ∈ names, PlainName name := by
  unfold beneathSegments at done
  rw [if_neg some_] at done
  split at done
  · cases done
  · next plain =>
    cases done
    refine ⟨rfl, ?_⟩
    intro name mem
    simp only [any_eq_true, not_exists, not_and, Bool.not_eq_true] at plain
    have clean := plain name mem
    simp only [Bool.or_eq_false_iff, decide_eq_false_iff_not] at clean
    exact ⟨clean.1.1.1, clean.1.1.2, clean.1.2⟩

theorem segment_length {name : Name} (mem : name ∈ segments path) : name.length ≤ path.length := by
  have inside {parts : List Name} (mem : name ∈ parts) : name.length ≤ (joinStrings [slash] parts).length := by
    induction parts with
    | nil => cases mem
    | cons s rest ih =>
      cases rest with
      | nil =>
        rw [mem_singleton.mp mem]
        exact le_rfl
      | cons t rest =>
        rw [joinStrings]
        · rw [length_append, length_append]
          obtain rfl | later := mem_cons.mp mem
          · omega
          · have below := ih later
            omega
        · simp
  have found := inside mem
  rw [join_segments] at found
  exact found

theorem walkBeneath_cons {above : List Node} {name : Name} {rest : List Name} (plain : PlainName name) :
    walkBeneath above here (name :: rest) =
      match here.entry name with
      | .error e => .error e
      | .ok (.link _) => .error .loop
      | .ok next => walkBeneath (here :: above) next rest := by
  obtain ⟨some_, undotted, down⟩ := plain
  rw [walkBeneath.eq_def]
  cases found : here.entry name with
  | error e => simp only [some_, undotted, down, or_self, if_false, found]
  | ok next => cases next <;> simp only [some_, undotted, down, or_self, if_false, found]

theorem walk_descend (above : List Node) (last : Name) (plain : ∀ name ∈ names ++ [last], PlainName name)
    (short : ∀ name ∈ names ++ [last], name.length < pathMax) :
    walkBeneath above here (names ++ [last]) =
      match descend k here names with
      | .ok parent => k.openat parent last false
      | .error e => .error e := by
  induction names generalizing above here with
  | nil =>
    have low := short last (by simp)
    rw [nil_append, walkBeneath_cons (plain last (by simp)), descend]
    simp only [Kernel.openat, Nat.not_le.mpr low, Bool.false_eq_true, if_false]
    cases here.entry last with
    | error e => rfl
    | ok next => cases next <;> rfl
  | cons name rest ih =>
    have low := short name (by simp)
    have plain' : ∀ name ∈ rest ++ [last], PlainName name := fun n mem => plain n (by simp_all)
    have short' : ∀ name ∈ rest ++ [last], name.length < pathMax := fun n mem => short n (by simp_all)
    rw [cons_append, walkBeneath_cons (plain name (by simp)), descend, Kernel.openat,
      if_neg (Nat.not_le.mpr low)]
    cases entry : here.entry name with
    | error e => cases e <;> rfl
    | ok next =>
      cases next with
      | file ident =>
        -- the next name is looked up in a file
        have stuck : walkBeneath (here :: above) (.file ident) (rest ++ [last]) = .error .notdir := by
          cases rest with
          | nil => exact walkBeneath_cons (plain' last (by simp))
          | cons n more => exact walkBeneath_cons (plain' n (by simp))
        exact stuck
      | dir entries => exact ih _ plain' short'
      | link target =>
        obtain same | same := k.documented
        · simp only [same, if_true]
        · simp only [same, if_true]

theorem openBeneath_eq (some_ : path ≠ []) (short : path.length < pathMax) (done : beneathSegments path = .ok names) :
    openBeneath k here path = (openat2 here path).mapError .errno := by
  obtain ⟨rfl, plain⟩ := beneathSegments_eq some_ done
  have nonempty := segments_ne_nil path
  have split := dropLast_append_getLast nonempty
  have walk := @walk_descend k here (segments path).dropLast [] ((segments path).getLast nonempty)
    (by rw [split]; exact plain) (by rw [split]; exact fun name mem => (segment_length mem).trans_lt short)
  rw [split] at walk
  unfold openBeneath resolveBeneath openat2
  rw [if_neg some_, if_neg (Nat.not_le.mpr short), walk, done]
  simp only [bind, Except.bind, getLast?_eq_some_getLast nonempty]
  cases descend k here (segments path).dropLast with
  | error e => rfl
  | ok parent => rfl

theorem filesOpenBeneath_agree (short : path.length < pathMax) :
    filesOpenBeneath k true here path = filesOpenBeneath k false here path := by
  unfold filesOpenBeneath
  by_cases empty : path = []
  · simp [empty]
  · cases done : beneathSegments path with
    | error e => rfl
    | ok names =>
      have same : openBeneath k here path = _ := openBeneath_eq empty short done
      simp [empty, same]

theorem Descends.append {a b c : Node} {xs ys : List Name} (first : Descends a xs b) (second : Descends b ys c) :
    Descends a (xs ++ ys) c := by
  induction first with
  | here => exact second
  | entry plain clean found real _ ih => exact .entry plain clean found real (ih second)

theorem openat_descends {name : Name} {directory : Bool} (plain : PlainName name) (clean : slash ∉ name)
    (opened : k.openat here name directory = .ok node) : Descends here [name] node := by
  unfold Kernel.openat at opened
  split at opened
  · cases opened
  · split at opened
    · cases opened
    · cases opened
    · next ident entry =>
      split at opened
      · cases opened
      · cases opened
        cases here with
        | dir entries => exact .entry plain clean entry rfl .here
        | file _ => cases entry
        | link _ => cases entry
    · next inside entry =>
      cases opened
      cases here with
      | dir entries => exact .entry plain clean entry rfl .here
      | file _ => cases entry
      | link _ => cases entry

theorem descend_descends (plain : ∀ name ∈ names, PlainName name) (clean : ∀ name ∈ names, slash ∉ name)
    (done : descend k here names = .ok node) : Descends here names node := by
  induction names generalizing here with
  | nil =>
    cases done
    exact .here
  | cons name rest ih =>
    unfold descend at done
    split at done
    · next next opened =>
      have first := openat_descends (plain name (by simp)) (clean name (by simp)) opened
      have second := ih (fun n mem => plain n (by simp [mem])) (fun n mem => clean n (by simp [mem])) done
      exact first.append second
    · next e failed =>
      split at done
      · cases done
      · cases done

theorem openBeneath_descends (some_ : path ≠ []) (opened : openBeneath k here path = .ok node) :
    Descends here (segments path) node := by
  obtain ⟨⟨parent, last⟩, resolved, opened⟩ := bind_ok opened
  obtain ⟨names, split, resolved⟩ := bind_ok resolved
  obtain ⟨rfl, plain⟩ := beneathSegments_eq some_ split
  have nonempty := segments_ne_nil path
  have shape := dropLast_append_getLast nonempty
  simp only [getLast?_eq_some_getLast nonempty] at resolved
  split at resolved
  · next parent' walked =>
    cases resolved
    have before := descend_descends (fun n mem => plain n (mem_of_mem_dropLast mem))
      (fun n mem => segments_clean (mem_of_mem_dropLast mem)) walked
    have final := getLast_mem nonempty
    cases last_ : k.openat parent ((segments path).getLast nonempty) false with
    | error e =>
      simp only [last_] at opened
      cases opened
    | ok found =>
      simp only [last_] at opened
      cases opened
      have after := openat_descends (plain _ final) (segments_clean final) last_
      have whole := before.append after
      rw [shape] at whole
      exact whole
  · cases resolved

theorem filesOpenBeneath_descends {asynchronous : Bool} (some_ : path ≠ [])
    (opened : filesOpenBeneath k asynchronous here path = .ok node) : Descends here (segments path) node := by
  cases asynchronous with
  | false =>
    obtain ⟨names, _, opened⟩ := bind_ok opened
    simp only [Bool.false_eq_true, false_and, if_false] at opened
    exact openBeneath_descends some_ opened
  | true =>
    have short : path.length < pathMax := by
      by_contra long
      obtain ⟨names, _, opened⟩ := bind_ok opened
      simp only [some_, ne_eq, not_false_eq_true, and_self, if_true, openat2, if_false,
        if_pos (Nat.not_lt.mp long)] at opened
      cases opened
    rw [filesOpenBeneath_agree short] at opened
    obtain ⟨names, _, opened⟩ := bind_ok opened
    simp only [Bool.false_eq_true, false_and, if_false] at opened
    exact openBeneath_descends some_ opened

theorem beneath_path {granted : Granted} {relative : Bytes} (found : beneath granted path = .ok (here, relative))
    (some_ : relative ≠ []) : ∃ name entries, granted.find? (·.1 = name) = some (name, entries) ∧ here = .dir entries ∧
      path = joinStrings [slash] (name :: segments relative) := by
  unfold beneath at found
  split at found
  · cases found
  · next grant grant_at =>
    cases found
    obtain ⟨name, entries⟩ := grant
    have same := find?_some grant_at
    simp only [decide_eq_true_eq] at same
    refine ⟨name, entries, same ▸ grant_at, rfl, ?_⟩
    have whole := takeWhile_append_dropWhile (p := (· ≠ slash)) (l := path)
    cases rest : path.dropWhile (· ≠ slash) with
    | nil =>
      rw [rest] at some_
      exact absurd rfl some_
    | cons c more =>
      have stop : c = slash := by
        have head := head?_dropWhile_not (· ≠ slash) path
        rw [rest] at head
        simpa using head
      rw [rest, ← same, stop] at whole
      rw [joinStrings, join_segments, append_assoc]
      · exact whole.symm
      · exact segments_ne_nil _

theorem openRegular_descends {asynchronous : Bool} {granted : Granted}
    (opened : openRegular k asynchronous granted path = .ok node) : ∃ name entries names ident, granted.find?
    (·.1 = name) = some (name, entries) ∧ path = joinStrings [slash] (name :: names) ∧ names ≠ [] ∧ node = .file ident ∧
    Descends (.dir entries) names node := by
  obtain ⟨⟨dir, relative⟩, found, opened⟩ := bind_ok opened
  simp only at opened
  split at opened
  · cases opened
  · next ident reached =>
    cases opened
    have some_ : relative ≠ [] := by
      rintro rfl
      have whole : filesOpenBeneath k asynchronous dir [] = .ok dir := by
        cases asynchronous <;> rfl
      rw [whole] at reached
      cases reached
      unfold beneath at found
      split at found
      · cases found
      · cases (Prod.mk.inj (Except.ok.inj found)).1
    obtain ⟨name, entries, granted_, rfl, shape⟩ := beneath_path found some_
    exact ⟨name, entries, segments relative, ident, granted_, shape, segments_ne_nil _, rfl,
      filesOpenBeneath_descends some_ reached⟩
  · cases opened

/-- `src/a/f` is a file and `src/a/l` a link. -/
example (asynchronous : Bool) :
    let granted : Granted := [([0x73], [([0x61], .dir [([0x66], .file 7), ([0x6c], .link [])])])]
    openRegular ⟨.loop, .inl rfl⟩ asynchronous granted [0x73, 0x2f, 0x61, 0x2f, 0x66] = .ok (.file 7) ∧
      openRegular ⟨.loop, .inl rfl⟩ asynchronous granted [0x73, 0x2f, 0x61, 0x2f, 0x6c] =
        .error ⟨"NOT-CAPABLE", .errno .loop⟩ := by
  cases asynchronous <;> exact ⟨rfl, rfl⟩

structure Confined : Prop where
  loads : ∀ loading path p, loadPath loading path = .ok p →
    ((∀ s ∈ segments p, PlainName s) ∧ (∀ loading', loadPath loading' p = .ok p) ∨ p = []) ∧
    (Active loading → (relative (segments path) = true → 2 ≤ (segments (loading.headD [])).length) →
      p ≠ [] ∧ (segments p).head? = (segments (origin loading path)).head?)
  opens : ∀ k asynchronous granted path node, openRegular k asynchronous granted path = .ok node →
    ∃ name entries names ident, granted.find? (·.1 = name) = some (name, entries) ∧
      path = joinStrings [slash] (name :: names) ∧ names ≠ [] ∧ node = .file ident ∧
      Descends (.dir entries) names node
  agrees : ∀ k dirfd path, path.length < pathMax →
    filesOpenBeneath k true dirfd path = filesOpenBeneath k false dirfd path

theorem guestFiles_confined : Confined where
  loads loading path p done := by
    refine ⟨(loadPath_normal_or_empty done).imp_left fun normal => ⟨normal.plain, normal.loadPath⟩, fun active deep => ?_⟩
    obtain ⟨normal, head⟩ := loadPath_normal active deep done
    refine ⟨?_, head⟩
    rintro rfl
    exact (normal.plain [] mem_cons_self).1 rfl
  opens _ _ _ _ _ opened := openRegular_descends opened
  agrees _ _ _ short := filesOpenBeneath_agree short

/-- While a file named by a bare grant is being loaded, a relative load of itself has no segment. -/
theorem bare_grant_empty : Active [[0x6d]] ∧ loadPath [[0x6d]] dot = .ok [] ∧ ([] : Name) ∈ segments [] ∧
    ¬PlainName [] ∧ loadPath [[0x6d]] [] ≠ .ok [] := by
  refine ⟨@Active.load [] [0x6d] _ .nil ?_, ?_, ?_, ?_, ?_⟩ <;> decide +kernel

end Nxt.Host
