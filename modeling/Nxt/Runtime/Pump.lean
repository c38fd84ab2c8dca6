import Nxt.Runtime.Books

/- A pass of the pump. A steady pool, one that is not stopped and whose books are current, stays
   steady through every turn of the loop that neither throws nor stops it; a turn that does leaves
   the slots and the books in order for `discard_settled`. -/
namespace Nxt.Runtime.Pool
open List

variable {V E : Type} {s s' : Pool V E} {i : Nat} {place : Nat → Place}

def Tidy (place : Nat → Place) : Prop := ∀ j, place j ≠ .stray

structure Loose (s : Pool V E) : Prop where
  places : ∃ place, s.Shape place
  books : s.Books

/-- What holds between two turns; a slot may be reserved without a pending read only inside one. -/
structure Steady (s : Pool V E) : Prop where
  places : ∃ place, s.Shape place ∧ Tidy place
  books : s.Books
  current : s.Current
  reserved : s.inputSlot = none ↔ s.input = .none
  opened : s.stopping = false

theorem Steady.loose (steady : s.Steady) : s.Loose := by
  obtain ⟨place, shape, -⟩ := steady.places
  exact ⟨⟨place, shape⟩, steady.books⟩

theorem Shape.same (shape : s.Shape place) (slots : s'.slots = s.slots) (inputSlot : s'.inputSlot = s.inputSlot)
    (prepared : s'.prepared = s.prepared) (completed : s'.completed = s.completed)
    (buffered : s'.buffered = s.buffered) (occupied : s'.occupied = s.occupied)
    (running : s'.running = s.running) (ring : s'.ring = s.ring) : s'.Shape place := by
  have held : ∀ j, s'.held j = s.held j := by
    intro j
    unfold Pool.held
    rw [slots]
  refine ⟨?_, ?_, ?_, ?_, ?_, ?_, ?_, ?_, ?_, ?_, ?_⟩
  · exact fun j => by rw [held]; exact shape.owned j
  · rw [inputSlot]
    exact shape.input
  · rw [prepared]
    exact shape.prepared
  · exact fun j => by rw [held]; exact shape.running j
  · rw [completed]
    exact shape.completed
  · rw [buffered]
    exact shape.buffered
  · rw [completed]
    exact shape.onceCompleted
  · rw [buffered]
    exact shape.onceBuffered
  · rw [occupied, slots]
    exact shape.occupied
  · rw [running, slots]
    exact shape.counted
  · rw [ring, buffered]
    exact shape.ring

theorem tidy_set {p : Place} (tidy : Tidy place) (known : p ≠ .stray) : Tidy fun j => if i = j then p else place j := by
  intro j
  show (if i = j then p else place j) ≠ .stray
  split
  · exact known
  · exact tidy j

theorem tidy_of_stray {p : Place} (tidy : ∀ j, j ≠ i → place j ≠ .stray) (known : p ≠ .stray) :
    Tidy fun j => if i = j then p else place j := by
  intro j
  show (if i = j then p else place j) ≠ .stray
  split
  · exact known
  · rename_i apart
    exact tidy j (Ne.symm apart)

theorem Current.offstage (cur : s.Current) {c : Option (Held V E)} (slots : s'.slots = s.slots.set i c)
    (inside : i < s.slots.length) (notCompleted : i ∉ s.completed) (notPrepared : s.prepared ≠ some i)
    (idle : runs (s.held i) = false) (reads : s'.reads = s.reads) (begun : s'.begun = s.begun)
    (completions : s'.completions = s.completions) (published : s'.published = s.published)
    (completed : s'.completed = s.completed) (prepared : s'.prepared = s.prepared)
    (tally : s'.consumed + s'.ring.length = s.consumed + s.ring.length) : s'.Current := by
  refine ⟨?_, ?_, ?_, ?_⟩
  · rw [reads, begun, prepared]
    intro id bound
    rcases cur.every id bound with already | ⟨j, slot, named⟩
    · exact Or.inl already
    · refine Or.inr ⟨j, slot, ?_⟩
      rw [idea_setSlot slots inside, if_neg]
      · exact named
      · rintro rfl
        exact notPrepared slot
  · rw [begun, completions]
    intro id held
    rcases cur.followed id held with done | ⟨j, h, here, busy, named⟩
    · exact Or.inl done
    · refine Or.inr ⟨j, h, ?_, busy, named⟩
      rw [held_setSlot slots inside, if_neg]
      · exact here
      · rintro rfl
        rw [here] at idle
        have still : h.isRunning = false := idle
        rw [busy] at still
        cases still
  · rw [completions, published, completed, cur.whole]
    congr 1
    apply map_congr_left
    intro j held
    refine (report_setSlot slots inside ?_).symm
    rintro rfl
    exact notCompleted held
  · rw [published, tally]
    exact cur.exact_

theorem publish_steady (queue : List Nat) (steady : s.Steady) (whole : s.completed = queue) :
    (publish queue s).2.Steady ∧ ((publish queue s).1 = none → (publish queue s).2.completed = []) ∧
      (publish queue s).2.prepared = s.prepared ∧ (publish queue s).2.input = s.input ∧
      (publish queue s).2.inputEnded = s.inputEnded := by
  induction queue generalizing s with
  | nil => exact ⟨steady, fun _ => whole, rfl, rfl, rfl⟩
  | cons i rest ih =>
    obtain ⟨place, shape, tidy⟩ := steady.places
    have was : place i = .completed := (shape.completed i).mp (by rw [whole]; exact mem_cons_self ..)
    obtain ⟨h, here⟩ := shape.held_at was (by decide)
    have idle : runs (s.held i) = false := shape.runs_at was
    have inside := held_inside here
    have once := shape.onceCompleted
    rw [whole, nodup_cons] at once
    unfold publish
    simp only [here, Option.getD_some]
    split
    · exact ⟨steady, (fun never => by cases never), rfl, rfl, rfl⟩
    · rename_i value result
      split
      · exact ⟨steady, (fun never => by cases never), rfl, rfl, rfl⟩
      · have notInput : s.inputSlot ≠ some i := by
          intro slot
          have input := (shape.input i).mp slot
          rw [was] at input
          cases input
        have notPrepared : s.prepared ≠ some i := by
          intro slot
          have prepared := (shape.prepared i).mp slot
          rw [was] at prepared
          cases prepared
        have reports : s.report i = (h.idea.getD 0, .ok value) := by
          unfold report
          rw [here]
          exact Prod.ext rfl result
        have completions := steady.current.whole
        rw [whole, map_cons, reports] at completions
        refine ih (s := { s.setSlot i { h with task := .none, ready := none } with
          ring := s.ring ++ [value], buffered := s.buffered ++ [i], completed := rest
          published := s.published ++ [(h.idea.getD 0, value)] }) ?_ rfl
        have slots : ({ s.setSlot i { h with task := .none, ready := none } with
          ring := s.ring ++ [value], buffered := s.buffered ++ [i], completed := rest
          published := s.published ++ [(h.idea.getD 0, value)] } : Pool V E).slots =
          s.slots.set i (some { h with task := .none, ready := none }) := rfl
        refine ⟨⟨_, shape.publishes whole _ (by simp [Held.isRunning]) value _, tidy_set tidy (by decide)⟩,
          steady.books.publishes here notInput notPrepared completions, ?_, steady.reserved, steady.opened⟩
        refine ⟨?_, ?_, ?_, ?_⟩
        · intro id bound
          rcases steady.current.every id bound with already | ⟨j, slot, named⟩
          · exact Or.inl already
          · refine Or.inr ⟨j, slot, ?_⟩
            rw [idea_setSlot slots inside, if_neg]
            · exact named
            · rintro rfl
              exact notPrepared slot
        · intro id held
          rcases steady.current.followed id held with done | ⟨j, g, there, busy, named⟩
          · exact Or.inl done
          · refine Or.inr ⟨j, g, ?_, busy, named⟩
            rw [held_setSlot slots inside, if_neg]
            · exact there
            · rintro rfl
              rw [there] at idle
              have still : g.isRunning = false := idle
              rw [busy] at still
              cases still
        · show s.completions = successes (s.published ++ [_]) ++ rest.map _
          rw [completions]
          unfold successes
          rw [map_append, append_assoc]
          congr 1
          show (h.idea.getD 0, .ok value) :: rest.map s.report = (h.idea.getD 0, .ok value) :: rest.map _
          congr 1
          apply map_congr_left
          intro j later
          refine (report_setSlot slots inside ?_).symm
          rintro rfl
          exact once.1 later
        · show s.consumed + (s.ring ++ [value]).length = (s.published ++ [_]).length
          have exact_ := steady.current.exact_
          rw [length_append, length_append, length_singleton, length_singleton]
          omega

theorem Steady.starts (steady : s.Steady) (slot : s.prepared = some i) :
    Steady { s.setSlot i { (s.held i).getD {} with started := true } with
      running := s.running + 1, prepared := none
      begun := s.begun ++ ((s.held i).getD {}).idea.toList } := by
  obtain ⟨place, shape, tidy⟩ := steady.places
  have was : place i = .prepared := (shape.prepared i).mp slot
  obtain ⟨h, id, here, named, pending, unstarted, early⟩ := steady.books.staged i slot
  have inside := held_inside here
  have busy : ({ h with started := true } : Held V E).isRunning = true := by
    simp [Held.isRunning, pending]
  have unfinished : id ∉ s.completions.map Prod.fst := fun done =>
    early (steady.books.completedBegun id done)
  have notInput : s.inputSlot ≠ some i := by
    intro input
    rw [(shape.input i).mp input] at was
    cases was
  rw [here, Option.getD_some, named, Option.toList_some]
  have slots : ({ s.setSlot i { h with started := true } with
    running := s.running + 1, prepared := none, begun := s.begun ++ [id] } : Pool V E).slots =
    s.slots.set i (some { h with started := true }) := rfl
  refine ⟨⟨_, shape.starts slot { h with started := true } busy (s.begun ++ [id]), tidy_set tidy (by decide)⟩, ?_, ?_,
    steady.reserved, steady.opened⟩
  · refine steady.books.advance here named slots named [id] [] rfl (append_nil _).symm
      (Or.inr ⟨rfl, early⟩) (Or.inl rfl) (steady.books.plain i h here) ?_ (fun _ => ⟨rfl, unfinished⟩) ?_ ?_ steady.books.reading rfl rfl
      steady.books.tally
    · exact mem_append_right _ (mem_singleton.mpr rfl)
    · intro j input
      exact ⟨fun same => notInput (same ▸ input), input⟩
    · intro j never
      cases never
  · refine ⟨?_, ?_, ?_, steady.current.exact_⟩
    · intro x bound
      left
      rcases steady.current.every x bound with already | ⟨j, at_, idea⟩
      · exact mem_append_left _ already
      · rw [slot] at at_
        cases at_
        rw [idea_of_held here, named] at idea
        cases idea
        exact mem_append_right _ (mem_singleton.mpr rfl)
    · intro x held
      rcases mem_append.mp held with already | new
      · rcases steady.current.followed x already with done | ⟨j, g, there, running, idea⟩
        · exact Or.inl done
        · refine Or.inr ⟨j, g, ?_, running, idea⟩
          rw [held_setSlot slots inside, if_neg]
          · exact there
          · rintro rfl
            rw [here] at there
            cases there
            unfold Held.isRunning at running
            rw [unstarted] at running
            cases running
      · rw [mem_singleton.mp new]
        refine Or.inr ⟨i, { h with started := true }, ?_, busy, named⟩
        rw [held_setSlot slots inside, if_pos rfl]
    · show s.completions = successes s.published ++ s.completed.map _
      rw [steady.current.whole]
      congr 1
      apply map_congr_left
      intro j held
      refine (report_setSlot slots inside ?_).symm
      rintro rfl
      rw [(shape.completed i).mp held] at was
      cases was

def Kept (pass : Pass E) (s : Pool V E) : Prop :=
  match pass with
  | .threw _ => True
  | _ => s.stopping = true ∨ s.Steady

theorem kept_of_steady {pass : Pass E} (steady : s.Steady) : Kept pass s := by
  unfold Kept
  split
  · trivial
  · exact Or.inr steady

theorem startPrepared_again (schedule : Bool) (r : Reply V E) (s : Pool V E)
    (again : (startPrepared schedule r s).1 = .again) : (startPrepared schedule r s).2.prepared = none := by
  unfold startPrepared at again ⊢
  split
  · rename_i vacant
    exact vacant
  · rename_i i slot
    simp only [slot] at again
    split
    · rename_i unscheduled
      rw [if_pos unscheduled] at again
      cases again
    · rename_i scheduled
      rw [if_neg scheduled] at again
      split
      · rename_i e threw
        simp only [threw] at again
        cases again
      · rfl

theorem startPrepared_steady (schedule : Bool) (r : Reply V E) (steady : s.Steady) :
    (startPrepared schedule r s).2.Steady := by
  unfold startPrepared
  split
  · exact steady
  · rename_i i slot
    split
    · exact steady
    · split
      · exact steady
      · exact steady.starts slot

theorem Steady.accepts_done {place : Nat → Place} (shape : s.Shape place) (tidy : Tidy place) (books : s.Books)
    (cur : s.Current) (slot : s.inputSlot = some i) (idle : s.input = .none) (opened : s.stopping = false)
    (h : Held V E) (named : h.idea = some s.reads) (still : h.isRunning = false) (plain : h.task ≠ .pending)
    (result : Outcome V E) (gives : outcome h = result) :
    Steady { (({ ({ s with inputSlot := none } : Pool V E).setSlot i { idea := some s.reads } with
        reads := s.reads + 1 } : Pool V E).setSlot i h).pushCompleted i s.reads result with
      begun := s.begun ++ [s.reads] } := by
  let middle : Pool V E := { ({ s with inputSlot := none } : Pool V E).setSlot i { idea := some s.reads } with
    reads := s.reads + 1 }
  have blank := books.blank i slot
  have inside := held_inside blank
  have was : place i = .input := (shape.input i).mp slot
  have taken : middle.Shape fun j => if i = j then .stray else place j :=
    shape.taken slot { idea := some s.reads } rfl (s.reads + 1)
  have numbered : middle.Books := books.taken slot idle
  have new : s.reads ∉ s.begun := fun held => Nat.lt_irrefl _ (books.begunBound _ held)
  have unfinished : s.reads ∉ s.completions.map Prod.fst := fun done => new (books.completedBegun _ done)
  have here : middle.held i = some { idea := some s.reads } := by
    rw [held_setSlot rfl inside, if_pos rfl]
  have notPrepared : s.prepared ≠ some i := by
    intro prepared
    rw [(shape.prepared i).mp prepared] at was
    cases was
  have slots : ({ (middle.setSlot i h).pushCompleted i s.reads result with
      begun := s.begun ++ [s.reads] } : Pool V E).slots = s.slots.set i (some h) := by
    show (s.slots.set i _).set i (some h) = s.slots.set i (some h)
    rw [set_set]
  have shifted := taken.completes (i := i) (if_pos rfl) (Or.inl rfl) h still s.reads result (s.begun ++ [s.reads])
  refine ⟨⟨_, shifted, ?_⟩, ?_, ?_, by simpa [pushCompleted, setSlot] using idle, opened⟩
  · refine tidy_of_stray (fun j apart => ?_) (by decide)
    rw [if_neg (Ne.symm apart)]
    exact tidy j
  · refine numbered.advance here rfl rfl named [s.reads] [(s.reads, result)] rfl rfl
      (Or.inr ⟨rfl, new⟩) (Or.inr ⟨⟨result, rfl⟩, unfinished⟩) (fun pending => absurd pending plain) ?_ ?_ ?_ ?_ numbered.reading rfl rfl
      numbered.tally
    · exact mem_append_right _ (mem_singleton.mpr rfl)
    · intro busy
      rw [still] at busy
      cases busy
    · intro j never
      cases never
    · intro j prepared
      exact ⟨fun same => notPrepared (same ▸ prepared), prepared⟩
  · refine ⟨?_, ?_, ?_, cur.exact_⟩
    · intro x bound
      have bound : x < s.reads + 1 := bound
      by_cases last : x = s.reads
      · rw [last]
        exact Or.inl (mem_append_right _ (mem_singleton.mpr rfl))
      · rcases cur.every x (by omega) with already | ⟨j, at_, idea⟩
        · exact Or.inl (mem_append_left _ already)
        · refine Or.inr ⟨j, at_, ?_⟩
          rw [idea_setSlot slots inside, if_neg]
          · exact idea
          · rintro rfl
            exact notPrepared at_
    · intro x held
      show x ∈ (s.completions ++ [(s.reads, result)]).map Prod.fst ∨ _
      rw [map_append]
      rcases mem_append.mp held with already | last
      · rcases cur.followed x already with done | ⟨j, g, there, busy, idea⟩
        · exact Or.inl (mem_append_left _ done)
        · refine Or.inr ⟨j, g, ?_, busy, idea⟩
          rw [held_setSlot slots inside, if_neg]
          · exact there
          · rintro rfl
            rw [blank] at there
            cases there
            cases busy
      · rw [mem_singleton.mp last]
        exact Or.inl (mem_append_right _ (mem_singleton.mpr rfl))
    · let after : Pool V E := { (middle.setSlot i h).pushCompleted i s.reads result with
        begun := s.begun ++ [s.reads] }
      have each : s.completed.map s.report = s.completed.map after.report := by
        apply map_congr_left
        intro j held
        refine (report_setSlot slots inside ?_).symm
        rintro rfl
        rw [(shape.completed i).mp held] at was
        cases was
      have last : after.report i = (s.reads, result) := by
        unfold Pool.report
        rw [held_setSlot slots inside, if_pos rfl, Option.getD_some, named, gives]
        rfl
      show s.completions ++ [(s.reads, result)] = successes s.published ++ (s.completed ++ [i]).map after.report
      rw [map_append, ← each, map_singleton, last, ← append_assoc, ← cur.whole]

theorem Steady.accepts_pending {place : Nat → Place} (shape : s.Shape place) (tidy : Tidy place)
    (books : s.Books) (cur : s.Current) (slot : s.inputSlot = some i) (idle : s.input = .none)
    (opened : s.stopping = false) (vacant : s.prepared = none) :
    Steady { ({ ({ s with inputSlot := none } : Pool V E).setSlot i { idea := some s.reads } with
        reads := s.reads + 1 } : Pool V E).setSlot i { idea := some s.reads, task := .pending } with
      prepared := some i } := by
  let middle : Pool V E := { ({ s with inputSlot := none } : Pool V E).setSlot i { idea := some s.reads } with
    reads := s.reads + 1 }
  have blank := books.blank i slot
  have inside := held_inside blank
  have was : place i = .input := (shape.input i).mp slot
  have taken : middle.Shape fun j => if i = j then .stray else place j :=
    shape.taken slot { idea := some s.reads } rfl (s.reads + 1)
  have numbered : middle.Books := books.taken slot idle
  have new : s.reads ∉ s.begun := fun held => Nat.lt_irrefl _ (books.begunBound _ held)
  have here : middle.held i = some { idea := some s.reads } := by
    rw [held_setSlot rfl inside, if_pos rfl]
  let after : Pool V E := { middle.setSlot i { idea := some s.reads, task := .pending } with prepared := some i }
  have slots : after.slots = s.slots.set i (some { idea := some s.reads, task := .pending }) := by
    show (s.slots.set i _).set i _ = _
    rw [set_set]
  have shifted := taken.prepares (i := i) (if_pos rfl) vacant { idea := some s.reads, task := .pending } rfl
  refine ⟨⟨_, shifted, ?_⟩, numbered.prepares here rfl new (fun never => by cases never), ?_,
    by simpa [setSlot] using idle, opened⟩
  · refine tidy_of_stray (fun j apart => ?_) (by decide)
    rw [if_neg (Ne.symm apart)]
    exact tidy j
  · refine ⟨?_, ?_, ?_, cur.exact_⟩
    · intro x bound
      have bound : x < s.reads + 1 := bound
      by_cases last : x = s.reads
      · right
        refine ⟨i, rfl, ?_⟩
        rw [idea_setSlot slots inside, if_pos rfl, last]
        rfl
      · rcases cur.every x (by omega) with already | ⟨j, at_, -⟩
        · exact Or.inl already
        · rw [vacant] at at_
          cases at_
    · intro x held
      rcases cur.followed x held with done | ⟨j, g, there, busy, idea⟩
      · exact Or.inl done
      · refine Or.inr ⟨j, g, ?_, busy, idea⟩
        rw [held_setSlot slots inside, if_neg]
        · exact there
        · rintro rfl
          rw [blank] at there
          cases there
          cases busy
    · show s.completions = successes s.published ++ s.completed.map after.report
      rw [cur.whole]
      congr 1
      apply map_congr_left
      intro j held
      refine (report_setSlot slots inside ?_).symm
      rintro rfl
      rw [(shape.completed i).mp held] at was
      cases was

theorem stop_stopping (s : Pool V E) : s.stop.stopping = true := rfl

theorem Loose.stop (loose : s.Loose) : s.stop.Loose := by
  obtain ⟨place, shape⟩ := loose.places
  refine ⟨⟨place, shape.same rfl rfl rfl rfl rfl rfl rfl rfl⟩, ?_⟩
  · exact loose.books.shrinks (fun j h here => here) (fun j slot => ⟨slot, rfl⟩) (fun j slot => ⟨slot, rfl⟩)
      loose.books.reading rfl rfl rfl rfl loose.books.tally

theorem acceptInput_kept {place : Nat → Place} (shape : s.Shape place) (tidy : Tidy place) (books : s.Books)
    (cur : s.Current) (slot : s.inputSlot = some i) (idle : s.input = .none) (opened : s.stopping = false)
    (vacant : s.prepared = none) (item : Bool) (r : Reply V E) : (s.acceptInput item r).2.Loose ∧
    ((s.acceptInput item r).1 = none → (s.acceptInput item r).2.stopping = true ∨ (s.acceptInput item r).2.Steady) := by
  have blank := books.blank i slot
  have inside := held_inside blank
  have was : place i = .input := (shape.input i).mp slot
  have numbered : ({ ({ s with inputSlot := none } : Pool V E).setSlot i { idea := some s.reads } with
      reads := s.reads + 1 } : Pool V E).Loose :=
    ⟨⟨_, shape.taken slot { idea := some s.reads } rfl (s.reads + 1)⟩, books.taken slot idle⟩
  unfold acceptInput
  rw [if_neg (by rw [opened]; exact Bool.false_ne_true)]
  split
  · rename_i none_
    rw [slot] at none_
    cases none_
  rename_i j slot_
  rw [slot] at slot_
  obtain rfl : i = j := Option.some.inj slot_
  dsimp only
  split
  · have steady : Steady { ({ s with inputSlot := none } : Pool V E).release i with inputEnded := true } := by
      refine ⟨⟨_, shape.inputReleased slot, tidy_set tidy (by decide)⟩, books.inputReleased slot idle, ?_,
        by simpa [release] using idle, opened⟩
      refine cur.offstage rfl inside ?_ (by rw [vacant]; simp) (shape.runs_at was) rfl rfl rfl rfl rfl rfl rfl
      intro held
      rw [(shape.completed i).mp held] at was
      cases was
    exact ⟨steady.loose, fun _ => Or.inr steady⟩
  · split
    · exact ⟨numbered.stop, fun _ => Or.inl rfl⟩
    · split
      · exact ⟨numbered, fun never => by cases never⟩
      · rename_i value invoked
        have steady := Steady.accepts_done shape tidy books cur slot idle opened
          { idea := some s.reads, ready := some value } rfl rfl (by simp) (.ok value) rfl
        exact ⟨steady.loose, fun _ => Or.inr steady⟩
      · exact ⟨numbered, fun never => by cases never⟩
      · rename_i result invoked
        have steady := Steady.accepts_done shape tidy books cur slot idle opened
          { idea := some s.reads, task := .done result } rfl rfl (by simp) result rfl
        exact ⟨steady.loose, fun _ => Or.inr steady⟩
      · have steady := Steady.accepts_pending shape tidy books cur slot idle opened vacant
        exact ⟨steady.loose, fun _ => Or.inr steady⟩

theorem reserve_cases (s : Pool V E) (pick : Nat) :
    s.reserve pick = (none, s) ∨ ∃ i, i < s.slots.length ∧ s.held i = none ∧
      s.reserve pick = (some i, { s with slots := s.slots.set i (some {}), occupied := s.occupied + 1 }) := by
  unfold reserve
  split
  · exact Or.inl rfl
  · rename_i i found
    refine Or.inr ⟨i, ?_⟩
    have vacant : s.slots[i]? = some none := by
      unfold allocate at found
      split at found
      · rename_i free
        cases found
        exact free
      · obtain ⟨inside, free, -⟩ := findIdx?_eq_some_iff_getElem.mp found
        rw [getElem?_eq_getElem inside]
        exact congrArg some (Option.isNone_iff_eq_none.mp free)
    refine ⟨(List.getElem?_eq_some_iff.mp vacant).1, ?_, rfl⟩
    unfold held
    rw [vacant]
    rfl

theorem admitInput_kept (r : Reply V E) (steady : s.Steady) (idle : s.input = .none) (vacant : s.prepared = none) :
    (admitInput r s).2.Loose ∧ Kept (admitInput r s).1 (admitInput r s).2 := by
  obtain ⟨place, shape, tidy⟩ := steady.places
  have empty : s.inputSlot = none := steady.reserved.mpr idle
  unfold admitInput
  split
  · exact ⟨steady.loose, Or.inr steady⟩
  · rcases reserve_cases s r.pick with full | ⟨i, inside, free, found⟩
    · rw [full]
      have same : ({ s with inputSlot := none } : Pool V E) = s := by rw [← empty]
      dsimp only
      rw [same]
      exact ⟨steady.loose, Or.inr steady⟩
    · rw [found]
      dsimp only
      have was : place i = .free := (shape.owned i).mp free
      have placed := shape.reserved inside free empty
      have ordered := tidy_set (i := i) (p := .input) tidy (by decide)
      have booked := steady.books.reserved inside free
      have notCompleted : i ∉ s.completed := by
        intro held
        rw [(shape.completed i).mp held] at was
        cases was
      have current : Current { s with
          slots := s.slots.set i (some {}), occupied := s.occupied + 1, inputSlot := some i } :=
        steady.current.offstage rfl inside notCompleted (by rw [vacant]; simp) (by rw [free]; rfl)
          rfl rfl rfl rfl rfl rfl rfl
      have loose : Loose { s with
          slots := s.slots.set i (some {}), occupied := s.occupied + 1, inputSlot := some i } :=
        ⟨⟨_, placed⟩, booked⟩
      cases stops : r.takeStops with
      | true =>
        rw [if_pos rfl]
        split
        · exact ⟨loose.stop, trivial⟩
        · rw [if_pos (stop_stopping _)]
          exact ⟨loose.stop, Or.inl rfl⟩
        · rw [if_pos (stop_stopping _)]
          exact ⟨loose.stop, Or.inl rfl⟩
      | false =>
        rw [if_neg Bool.false_ne_true]
        split
        · exact ⟨loose, trivial⟩
        · rename_i item taken
          rw [if_neg (by rw [steady.opened]; exact Bool.false_ne_true)]
          obtain ⟨after, kept⟩ := acceptInput_kept placed ordered booked current rfl idle steady.opened vacant item r
          split
          · rename_i e t threw
            rw [threw] at after
            exact ⟨after, trivial⟩
          · rename_i t went
            rw [went] at after kept
            exact ⟨after, kept rfl⟩
        · rw [if_neg (by rw [steady.opened]; exact Bool.false_ne_true)]
          have waits : Steady { s with
              slots := s.slots.set i (some {}), occupied := s.occupied + 1, inputSlot := some i
              input := .unstarted } := by
            refine ⟨⟨_, placed.same rfl rfl rfl rfl rfl rfl rfl rfl, ordered⟩, ?_, ?_, by simp, steady.opened⟩
            · exact booked.shrinks (fun j h here => here) (fun j slot => ⟨slot, rfl⟩)
                (fun j slot => ⟨slot, rfl⟩) (by simp) rfl rfl rfl rfl booked.tally
            · exact ⟨current.every, current.followed, current.whole, current.exact_⟩
          exact ⟨waits.loose, Or.inr waits⟩

theorem pollInput_kept (schedule : Bool) (r : Reply V E) (steady : s.Steady) (vacant : s.prepared = none) :
    (pollInput schedule r s).2.Loose ∧ Kept (pollInput schedule r s).1 (pollInput schedule r s).2 := by
  obtain ⟨place, shape, tidy⟩ := steady.places
  unfold pollInput
  split
  · exact ⟨steady.loose, Or.inr steady⟩
  · rename_i unstarted
    split
    · exact ⟨steady.loose, Or.inr steady⟩
    · split
      · exact ⟨steady.loose, trivial⟩
      · have pending : s.inputSlot ≠ none := steady.books.reading (by rw [unstarted]; simp)
        have starts : Steady { s with input := .running } := by
          refine ⟨⟨place, shape.same rfl rfl rfl rfl rfl rfl rfl rfl, tidy⟩, ?_, ?_, by simp [pending],
            steady.opened⟩
          · exact steady.books.shrinks (fun j h here => here) (fun j slot => ⟨slot, rfl⟩)
              (fun j slot => ⟨slot, rfl⟩) (fun _ => pending) rfl rfl rfl rfl steady.books.tally
          · exact ⟨steady.current.every, steady.current.followed, steady.current.whole, steady.current.exact_⟩
        exact ⟨starts.loose, Or.inr starts⟩
  · exact ⟨steady.loose, Or.inr steady⟩
  · rename_i result done
    obtain ⟨i, slot⟩ := Option.ne_none_iff_exists'.mp (steady.books.reading (by rw [done]; simp))
    cases result with
    | error e => exact ⟨steady.loose, trivial⟩
    | ok item =>
      have placed : Shape { s with input := .none } place := shape.same rfl rfl rfl rfl rfl rfl rfl rfl
      have booked : Books { s with input := .none } :=
        steady.books.shrinks (fun j h here => here) (fun j at_ => ⟨at_, rfl⟩)
          (fun j at_ => ⟨at_, rfl⟩) (by simp) rfl rfl rfl rfl steady.books.tally
      have current : Current { s with input := .none } :=
        ⟨steady.current.every, steady.current.followed, steady.current.whole, steady.current.exact_⟩
      obtain ⟨after, kept⟩ := acceptInput_kept placed tidy booked current slot rfl steady.opened vacant item r
      dsimp only
      split
      · rename_i e t threw
        rw [threw] at after
        exact ⟨after, trivial⟩
      · rename_i t went
        rw [went] at after kept
        exact ⟨after, kept rfl⟩

theorem pumpTurn_kept (schedule : Bool) (r : Reply V E) (steady : s.Steady) :
    (pumpTurn schedule r s).2.Loose ∧ Kept (pumpTurn schedule r s).1 (pumpTurn schedule r s).2 := by
  unfold pumpTurn
  rw [if_neg (by rw [steady.opened]; exact Bool.false_ne_true)]
  have published := (publish_steady s.completed steady rfl).1
  split
  · rename_i e t threw
    rw [threw] at published
    exact ⟨published.loose, trivial⟩
  · rename_i t went
    rw [went] at published
    have started := startPrepared_steady schedule r published
    split
    · rename_i u again
      have vacant := startPrepared_again schedule r t (by rw [again])
      rw [again] at started vacant
      split
      · rename_i idle
        exact admitInput_kept r started idle vacant
      · exact pollInput_kept schedule r started vacant
    · rename_i stopped _
      exact ⟨started.loose, kept_of_steady started⟩

theorem pump_kept (schedule : Bool) (replies : List (Reply V E)) (steady : s.Steady)
    {thrown : Option (Exn E)} (ran : pump schedule replies s = some (thrown, s')) :
    s'.Loose ∧ (thrown = none → s'.stopping = true ∨ s'.Steady) := by
  induction replies generalizing s with
  | nil => cases ran
  | cons r rest ih =>
    have turn := pumpTurn_kept schedule r steady
    unfold pump at ran
    split at ran
    · rename_i t again
      rw [again] at turn
      rcases turn.2 with stopped | steady
      · cases rest with
        | nil => cases ran
        | cons r' rest' =>
          have halts : pumpTurn schedule r' t = (.returned, t) := by
            unfold pumpTurn
            rw [if_pos stopped]
          unfold pump at ran
          rw [halts] at ran
          cases ran
          exact ⟨turn.1, fun _ => Or.inl stopped⟩
      · exact ih steady ran
    · rename_i t returned
      rw [returned] at turn
      cases ran
      exact ⟨turn.1, fun _ => turn.2⟩
    · rename_i e t threw
      rw [threw] at turn
      cases ran
      exact ⟨turn.1, fun never => by cases never⟩

def Calm (r : Reply V E) : Prop := r.takeStops = false ∧ r.moveStops = false

structure Frame (schedule : Bool) (calm : Prop) (s s' : Pool V E) : Prop where
  reader : s'.reader = s.reader
  ends : s'.ends = s.ends
  observed : s'.observed = s.observed
  failure : s'.failure = s.failure
  consumed : s'.consumed = s.consumed
  size : s'.slots.length = s.slots.length
  running : schedule = false → s'.running = s.running
  input : schedule = false → s'.input = .running → s.input = .running
  stopping : calm → s'.stopping = s.stopping

section Frame
variable {schedule : Bool} {calm : Prop}

theorem Frame.refl (s : Pool V E) : Frame schedule calm s s :=
  ⟨rfl, rfl, rfl, rfl, rfl, rfl, fun _ => rfl, fun _ same => same, fun _ => rfl⟩

theorem Frame.trans {s s' s'' : Pool V E} (one : Frame schedule calm s s') (two : Frame schedule calm s' s'') :
    Frame schedule calm s s'' :=
  ⟨two.reader.trans one.reader, two.ends.trans one.ends, two.observed.trans one.observed,
    two.failure.trans one.failure, two.consumed.trans one.consumed, two.size.trans one.size,
    fun off => (two.running off).trans (one.running off), fun off running => one.input off (two.input off running),
    fun still => (two.stopping still).trans (one.stopping still)⟩

theorem publish_frame (schedule : Bool) (calm : Prop) (queue : List Nat) (s : Pool V E) : Frame schedule calm s (publish queue s).2 := by
  induction queue generalizing s with
  | nil => exact Frame.refl s
  | cons i rest ih =>
    unfold publish
    dsimp only
    split
    · exact Frame.refl s
    · split
      · exact Frame.refl s
      · refine Frame.trans ?_ (ih _)
        exact ⟨rfl, rfl, rfl, rfl, rfl, length_set, fun _ => rfl, fun _ same => same, fun _ => rfl⟩

theorem startPrepared_frame (schedule : Bool) (calm : Prop) (r : Reply V E) (s : Pool V E) :
    Frame schedule calm s (startPrepared schedule r s).2 := by
  unfold startPrepared
  split
  · exact Frame.refl s
  · split
    · exact Frame.refl s
    · rename_i scheduled
      split
      · exact Frame.refl s
      · exact ⟨rfl, rfl, rfl, rfl, rfl, length_set, fun off => absurd (by rw [off]; rfl) scheduled,
          fun _ same => same, fun _ => rfl⟩

theorem acceptInput_frame (schedule : Bool) (item : Bool) (r : Reply V E) (s : Pool V E) (still : calm → Calm r) :
    Frame schedule calm s (s.acceptInput item r).2 := by
  unfold acceptInput
  split
  · exact Frame.refl s
  · split
    · exact Frame.refl s
    · dsimp only
      split
      · exact ⟨rfl, rfl, rfl, rfl, rfl, length_set, fun _ => rfl, fun _ same => same, fun _ => rfl⟩
      · split
        · rename_i stops
          refine ⟨rfl, rfl, rfl, rfl, rfl, length_set, fun _ => rfl, fun _ same => same, fun quiet => ?_⟩
          rw [(still quiet).2] at stops
          cases stops
        · have twice (a b : Option (Held V E)) (i : Nat) : ((s.slots.set i a).set i b).length = s.slots.length := by
            rw [length_set, length_set]
          split
          · exact ⟨rfl, rfl, rfl, rfl, rfl, length_set, fun _ => rfl, fun _ same => same, fun _ => rfl⟩
          · exact ⟨rfl, rfl, rfl, rfl, rfl, twice _ _ _, fun _ => rfl, fun _ same => same, fun _ => rfl⟩
          · exact ⟨rfl, rfl, rfl, rfl, rfl, length_set, fun _ => rfl, fun _ same => same, fun _ => rfl⟩
          · exact ⟨rfl, rfl, rfl, rfl, rfl, twice _ _ _, fun _ => rfl, fun _ same => same, fun _ => rfl⟩
          · exact ⟨rfl, rfl, rfl, rfl, rfl, twice _ _ _, fun _ => rfl, fun _ same => same, fun _ => rfl⟩

theorem pollInput_frame (r : Reply V E) (s : Pool V E) (still : calm → Calm r) :
    Frame schedule calm s (pollInput schedule r s).2 := by
  unfold pollInput
  split
  · exact Frame.refl s
  · split
    · exact Frame.refl s
    · rename_i scheduled
      split
      · exact Frame.refl s
      · exact ⟨rfl, rfl, rfl, rfl, rfl, rfl, fun _ => rfl, fun off => absurd (by rw [off]; rfl) scheduled,
          fun _ => rfl⟩
  · exact Frame.refl s
  · rename_i result done
    cases result with
    | error e => exact Frame.refl s
    | ok item =>
      have after := acceptInput_frame schedule item r { s with input := .none } still
      have cleared : Frame schedule calm s { s with input := .none } :=
        ⟨rfl, rfl, rfl, rfl, rfl, rfl, fun _ => rfl, (fun _ never => by cases never), fun _ => rfl⟩
      dsimp only
      split
      · rename_i e t threw
        rw [threw] at after
        exact cleared.trans after
      · rename_i t went
        rw [went] at after
        exact cleared.trans after

theorem admitInput_frame (r : Reply V E) (s : Pool V E) (still : calm → Calm r) :
    Frame schedule calm s (admitInput r s).2 := by
  unfold admitInput
  split
  · exact Frame.refl s
  · rcases reserve_cases s r.pick with full | ⟨i, -, -, found⟩
    · rw [full]
      exact ⟨rfl, rfl, rfl, rfl, rfl, rfl, fun _ => rfl, fun _ same => same, fun _ => rfl⟩
    · rw [found]
      dsimp only
      have reserved : Frame schedule calm s { s with
          slots := s.slots.set i (some {}), occupied := s.occupied + 1, inputSlot := some i } :=
        ⟨rfl, rfl, rfl, rfl, rfl, length_set, fun _ => rfl, fun _ same => same, fun _ => rfl⟩
      cases stops : r.takeStops with
      | true =>
        rw [if_pos rfl]
        have halted : Frame schedule calm s ({ s with
            slots := s.slots.set i (some {}), occupied := s.occupied + 1, inputSlot := some i } : Pool V E).stop := by
          refine ⟨rfl, rfl, rfl, rfl, rfl, length_set, fun _ => rfl, fun _ same => same, fun quiet => ?_⟩
          have never := (still quiet).1
          rw [stops] at never
          cases never
        split
        · exact halted
        · rw [if_pos (stop_stopping _)]
          exact halted
        · rw [if_pos (stop_stopping _)]
          exact halted
      | false =>
        rw [if_neg Bool.false_ne_true]
        split
        · exact reserved
        · rename_i item taken
          split
          · exact reserved
          · have after := acceptInput_frame schedule item r { s with
              slots := s.slots.set i (some {}), occupied := s.occupied + 1, inputSlot := some i } still
            split
            · rename_i e t threw
              rw [threw] at after
              exact reserved.trans after
            · rename_i t went
              rw [went] at after
              exact reserved.trans after
        · split
          · exact reserved
          · exact ⟨rfl, rfl, rfl, rfl, rfl, length_set, fun _ => rfl, (fun _ never => by cases never),
              fun _ => rfl⟩

theorem pumpTurn_frame (schedule : Bool) (r : Reply V E) (s : Pool V E) (still : calm → Calm r) :
    Frame schedule calm s (pumpTurn schedule r s).2 := by
  unfold pumpTurn
  split
  · exact Frame.refl s
  · have published := publish_frame schedule calm s.completed s
    split
    · rename_i e t threw
      rw [threw] at published
      exact published
    · rename_i t went
      rw [went] at published
      have started := startPrepared_frame schedule calm r t
      split
      · rename_i u again
        rw [again] at started
        split
        · exact (published.trans started).trans (admitInput_frame r u still)
        · exact (published.trans started).trans (pollInput_frame r u still)
      · exact published.trans started

theorem pump_frame (calm : Prop) (replies : List (Reply V E)) (still : calm → ∀ r ∈ replies, Calm r)
    {thrown : Option (Exn E)} (ran : pump schedule replies s = some (thrown, s')) : Frame schedule calm s s' := by
  induction replies generalizing s with
  | nil => cases ran
  | cons r rest ih =>
    have turn := pumpTurn_frame schedule r s (fun quiet => still quiet r (mem_cons_self ..))
    unfold pump at ran
    split at ran
    · rename_i t again
      rw [again] at turn
      exact turn.trans (ih (fun quiet r' later => still quiet r' (mem_cons_of_mem _ later)) ran)
    · rename_i t returned
      rw [returned] at turn
      cases ran
      exact turn
    · rename_i e t threw
      rw [threw] at turn
      cases ran
      exact turn

end Frame

end Nxt.Runtime.Pool
