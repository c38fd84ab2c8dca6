import Nxt.Runtime.Deck

/- What the deck keeps over every run: live rows and registered promises name each other, an id
   queued for one task never resolves to another, and the queue is served in order, each round
   only what was queued before it. -/
namespace Nxt.Runtime
open List

section Ids
variable {i e : Nat}

theorem make_index (small : i ≤ TaskId.maxIndex) : (TaskId.make i e).index = i := by
  unfold TaskId.maxIndex TaskId.indexBits at small
  unfold TaskId.make TaskId.index TaskId.indexBits
  simp only
  omega

theorem make_era (byte : e < 2 ^ 8) : (TaskId.make i e).era = e := by
  unfold TaskId.make TaskId.era TaskId.indexBits
  simp only
  omega

/-- The era of a row vacated `n` times. -/
def eraOf (n : Nat) : Nat := 1 + n % 255

theorem eraOf_byte (n : Nat) : eraOf n < 2 ^ 8 := by
  unfold eraOf
  omega

theorem nextEra_eraOf (n : Nat) : Deck.nextEra (eraOf n) = eraOf (n + 1) := by
  unfold Deck.nextEra eraOf
  split <;> omega

theorem eraOf_injective {n m : Nat} (same : eraOf n = eraOf m) (early : n ≤ m) (late : m < n + 255) : n = m := by
  unfold eraOf at same
  omega

end Ids

section Resolve
variable {d : Deck} {id : TaskId} {i : Nat}

theorem resolve_iff : d.resolve id = some i ↔
    id.index = i + 1 ∧ ∃ row, d.tasks[i]? = some row ∧ row.live = true ∧ row.id = id := by
  unfold Deck.resolve
  constructor
  · intro found
    split at found
    · cases found
    · split at found
      · cases found
      · rename_i nonzero
        split at found
        · cases found
        · rename_i row here
          split at found
          · rename_i current
            have place := Option.some.inj found
            refine ⟨by omega, row, ?_, current.1, current.2⟩
            rw [← place]
            exact here
          · cases found
  · rintro ⟨index, row, here, live, same⟩
    have nonzero : id.value ≠ 0 := by
      intro zero
      unfold TaskId.index at index
      rw [zero, Nat.zero_mod] at index
      omega
    have place : id.index - 1 = i := by omega
    rw [if_neg nonzero, if_neg (by omega), place, here]
    simp [live, same]

end Resolve

/-- Live rows and the promises registered here name each other, and the era of a row is the
number of times it was vacated, in eight bits. -/
structure Deck.Kept (d : Deck) (gens : Nat → Nat) : Prop where
  eras : ∀ i row, d.tasks[i]? = some row → row.era = eraOf (gens i)
  rows : ∀ i row, d.tasks[i]? = some row → row.live = true →
    i + 1 ≤ TaskId.maxIndex ∧ row.id = TaskId.make (i + 1) row.era ∧ row.handle.isSome ∧
      ∃ p, row.promise = some p ∧ d.promises p = { id := row.id, deck := .here }
  here : ∀ p, (d.promises p).deck = .here →
    ∃ (i : Nat) (row : Row), d.tasks[i]? = some row ∧ row.live = true ∧ row.promise = some p
  nowhere : ∀ p, (d.promises p).deck = .nowhere → (d.promises p).id = {}

theorem Deck.Kept.resolve_promise {d : Deck} {gens : Nat → Nat} (kept : d.Kept gens) {p : Nat}
    (registered : (d.promises p).deck = .here) : ∃ (i : Nat) (row : Row), d.tasks[i]? = some row ∧ row.live = true ∧
    row.promise = some p ∧ row.id = (d.promises p).id ∧ d.resolve (d.promises p).id = some i := by
  obtain ⟨i, row, here, live, owner⟩ := kept.here p registered
  obtain ⟨small, id, -, q, holds, promise⟩ := kept.rows i row here live
  have same : q = p := Option.some.inj (holds.symm.trans owner)
  subst same
  have named : row.id = (d.promises q).id := by rw [promise]
  refine ⟨i, row, here, live, owner, named, ?_⟩
  rw [resolve_iff, ← named]
  refine ⟨?_, row, here, live, rfl⟩
  rw [id, make_index small]

inductive Deck.Moves (d d' : Deck) : Prop where
  | stay (tasks : d'.tasks = d.tasks) (promises : d'.promises = d.promises)
  | rebind (i : Nat) (row : Row) (handle : Nat) (here : d.tasks[i]? = some row)
      (live : row.live = true) (tasks : d'.tasks = d.tasks.set i { row with handle := some handle })
      (promises : d'.promises = d.promises)
  | emplace (i : Nat) (row : Row) (handle p : Nat) (here : d.tasks[i]? = some row)
      (vacant : row.live = false) (small : i + 1 ≤ TaskId.maxIndex)
      (free : (d.promises p).deck = .nowhere)
      (tasks : d'.tasks = d.tasks.set i
        { id := TaskId.make (i + 1) row.era, handle := some handle, promise := some p, live := true
          era := row.era })
      (promises : d'.promises =
        Function.update d.promises p { id := TaskId.make (i + 1) row.era, deck := .here })
  | vacate (i : Nat) (row : Row) (p : Nat) (here : d.tasks[i]? = some row) (live : row.live = true)
      (owner : row.promise = some p)
      (tasks : d'.tasks = d.tasks.set i { era := Deck.nextEra row.era })
      (promises : d'.promises = Function.update d.promises p {})
  | apart (p : Nat) (promise : Promise) (old : (d.promises p).deck ≠ .here)
      (new : promise.deck ≠ .here) (blank : promise.deck = .nowhere → promise.id = {})
      (tasks : d'.tasks = d.tasks) (promises : d'.promises = Function.update d.promises p promise)

section Acts
variable {d : Deck} {gens : Nat → Nat}

theorem getD_of_getElem? {i : Nat} {row : Row} (here : d.tasks[i]? = some row) : d.tasks.getD i {} = row := by
  rw [getD_eq_getElem?_getD, here]
  rfl

theorem vacant_some {i : Nat} (found : d.vacant = some i) : ∃ row, d.tasks[i]? = some row ∧ row.live = false := by
  obtain ⟨inside, dead, -⟩ := findIdx?_eq_some_iff_getElem.mp found
  refine ⟨d.tasks[i], getElem?_eq_getElem inside, ?_⟩
  simpa using dead

/-- What `registerTask` does: it fails and changes nothing, or it returns the id of the live row
that now belongs to the promise. -/
theorem registerTask_spec (kept : d.Kept gens) (handle p : Nat) : (∃ e, d.registerTask handle p = (.error e, d)) ∨
      ∃ (i : Nat) (row : Row) (d' : Deck), d.registerTask handle p = (.ok row.id, d') ∧ d'.ready = d.ready ∧ d.Moves d' ∧
        d'.tasks[i]? = some row ∧ row.live = true ∧ row.promise = some p ∧ row.id.index = i + 1 := by
  unfold Deck.registerTask
  simp only
  split
  · exact Or.inl ⟨_, rfl⟩
  · rename_i notElsewhere
    cases place : (d.promises p).deck with
    | elsewhere => exact absurd place notElsewhere
    | here =>
      obtain ⟨i, row, here, live, owner, named, found⟩ := kept.resolve_promise place
      have index := (resolve_iff.mp found).1
      have nonzero : (d.promises p).id.value ≠ 0 := by
        intro zero
        unfold TaskId.index at index
        rw [zero, Nat.zero_mod] at index
        omega
      rw [if_pos nonzero, found]
      simp only [getD_of_getElem? here, owner, ne_eq, not_true, if_false]
      have inside : i < d.tasks.length := (List.getElem?_eq_some_iff.mp here).1
      refine Or.inr ⟨i, { row with handle := some handle },
        d.setRow i { row with handle := some handle }, ?_, rfl, .rebind i row handle here live rfl rfl, ?_, live, owner, ?_⟩
      · rw [← named, owner]
      · simp [Deck.setRow, inside]
      · rw [← named] at index
        exact index
    | nowhere =>
      have blank : (d.promises p).id.value = 0 := by rw [kept.nowhere p place]
      rw [if_neg (not_not.mpr blank)]
      unfold Deck.emplace
      split
      · exact Or.inl ⟨_, rfl⟩
      · rename_i i found
        obtain ⟨row, here, dead⟩ := vacant_some found
        split
        · exact Or.inl ⟨_, rfl⟩
        · rename_i fits
          have small : i + 1 ≤ TaskId.maxIndex := by omega
          have inside : i < d.tasks.length := (List.getElem?_eq_some_iff.mp here).1
          simp only [getD_of_getElem? here]
          let new : Row := { id := TaskId.make (i + 1) row.era, handle := some handle
                             promise := some p, live := true, era := row.era }
          refine Or.inr ⟨i, new, (d.setRow i new).setPromise p { id := new.id, deck := .here }, rfl, rfl,
            .emplace i row handle p here dead small place rfl rfl, ?_, rfl, rfl, make_index small⟩
          simp [Deck.setRow, Deck.setPromise, inside]

theorem enqueue_spec (kept : d.Kept gens) (handle p : Nat) : (∃ e, d.enqueue handle p = (.error e, d)) ∨
      ∃ (i : Nat) (row : Row) (d' : Deck), d.enqueue handle p = (.ok row.id, d') ∧ d'.ready = d.ready ++ [row.id] ∧ d.Moves d' ∧
        d'.tasks[i]? = some row ∧ row.live = true ∧ row.promise = some p ∧ row.id.index = i + 1 := by
  unfold Deck.enqueue
  rcases registerTask_spec kept handle p with ⟨e, failed⟩ |
    ⟨i, row, d', done, ready, moves, here, live, owner, index⟩
  · rw [failed]
    exact Or.inl ⟨e, rfl⟩
  · rw [done]
    refine Or.inr ⟨i, row, { d' with ready := d'.ready ++ [row.id] }, rfl, by rw [ready], ?_, here, live,
      owner, index⟩
    cases moves with
    | stay tasks promises => exact .stay tasks promises
    | rebind i row handle here live tasks promises => exact .rebind i row handle here live tasks promises
    | emplace i row handle p here vacant small free tasks promises =>
      exact .emplace i row handle p here vacant small free tasks promises
    | vacate i row p here live owner tasks promises => exact .vacate i row p here live owner tasks promises
    | apart p promise old new blank tasks promises => exact .apart p promise old new blank tasks promises

theorem destroy_moves (kept : d.Kept gens) (p : Nat) : d.Moves (d.destroy p) ∧ (d.destroy p).ready = d.ready := by
  unfold Deck.destroy
  simp only
  split
  · rename_i registered
    obtain ⟨i, row, here, live, owner, -, found⟩ := kept.resolve_promise registered
    unfold Deck.unregisterTask
    simp only [found, getD_of_getElem? here, owner, ne_eq, not_true, if_false]
    refine ⟨.vacate i row p here live owner rfl ?_, rfl⟩
    simp [Deck.setPromise, Deck.setRow]
  · rename_i unregistered
    exact ⟨.apart p {} unregistered (by decide) (fun _ => rfl) rfl rfl, rfl⟩

theorem act_moves (kept : d.Kept gens) (a : Act) : d.Moves (d.act a) := by
  cases a with
  | enqueue handle p =>
    rcases enqueue_spec kept handle p with ⟨e, failed⟩ |
      ⟨i, row, d', done, -, moves, -⟩
    · show d.Moves (d.enqueue handle p).2
      rw [failed]
      exact .stay rfl rfl
    · show d.Moves (d.enqueue handle p).2
      rw [done]
      exact moves
  | destroy p => exact (destroy_moves kept p).1
  | finish handle => exact .stay rfl rfl
  | begin handle => exact .stay rfl rfl
  | depart p id =>
    unfold Deck.act
    simp only
    split
    · rename_i free
      refine .apart p { id, deck := .elsewhere } ?_ ?_ ?_ rfl rfl
      · rw [free]
        decide
      · intro never
        cases never
      · intro never
        cases never
    · exact .stay rfl rfl

end Acts

def vacated (d d' : Deck) (gens : Nat → Nat) (i : Nat) : Nat :=
  if (d.tasks.getD i {}).live ∧ ¬ (d'.tasks.getD i {}).live then gens i + 1 else gens i

section Moved
variable {d d' : Deck} {gens : Nat → Nat}

theorem getElem?_set_row {rows : List Row} {i j : Nat} {old new : Row} (here : rows[i]? = some old) :
    (rows.set i new)[j]? = if i = j then some new else rows[j]? := by
  rw [getElem?_set]
  split
  · rename_i same
    rw [if_pos (same ▸ (List.getElem?_eq_some_iff.mp here).1)]
  · rfl

theorem vacated_set (gens : Nat → Nat) {i : Nat} {old new : Row} (here : d.tasks[i]? = some old)
    (tasks : d'.tasks = d.tasks.set i new) (j : Nat) :
    vacated d d' gens j = if i = j ∧ old.live = true ∧ new.live = false then gens j + 1 else gens j := by
  unfold vacated
  simp only [getD_eq_getElem?_getD, tasks, getElem?_set_row here]
  by_cases same : i = j
  · subst same
    simp only [here, if_true, Option.getD_some, true_and, Bool.not_eq_true]
  · simp only [same, if_false, false_and]
    split
    · rename_i both
      exact absurd both.1 both.2
    · rfl

theorem vacated_same (tasks : d'.tasks = d.tasks) (j : Nat) : vacated d d' gens j = gens j := by
  unfold vacated
  rw [tasks]
  split
  · rename_i both
    exact absurd both.1 both.2
  · rfl

theorem Deck.Kept.moves (kept : d.Kept gens) (moves : d.Moves d') : d'.Kept (vacated d d' gens) := by
  cases moves with
  | stay tasks promises =>
    exact
      { eras := fun i row here => by
          rw [tasks] at here
          rw [vacated_same tasks]
          exact kept.eras i row here
        rows := fun i row here live => by
          rw [tasks] at here
          rw [promises]
          exact kept.rows i row here live
        here := fun p => by
          rw [promises, tasks]
          exact kept.here p
        nowhere := fun p => by
          rw [promises]
          exact kept.nowhere p }
  | rebind i row handle here live tasks promises =>
    have count := vacated_set gens here tasks
    exact
      { eras := fun j other there => by
          rw [tasks, getElem?_set_row here] at there
          rw [count, if_neg (by rintro ⟨-, -, dead⟩; rw [live] at dead; cases dead)]
          split at there
          · rename_i same
            cases there
            rw [← same]
            exact kept.eras i row here
          · exact kept.eras j other there
        rows := fun j other there alive => by
          rw [tasks, getElem?_set_row here] at there
          rw [promises]
          split at there
          · rename_i same
            cases there
            subst same
            obtain ⟨small, id, -, owner⟩ := kept.rows i row here live
            exact ⟨small, id, rfl, owner⟩
          · exact kept.rows j other there alive
        here := fun p => by
          rw [promises, tasks]
          intro registered
          obtain ⟨j, other, there, alive, owner⟩ := kept.here p registered
          by_cases same : i = j
          · subst same
            rw [here] at there
            cases there
            exact ⟨i, { row with handle := some handle }, by rw [getElem?_set_row here, if_pos rfl],
              alive, owner⟩
          · exact ⟨j, other, by rw [getElem?_set_row here, if_neg same]; exact there, alive, owner⟩
        nowhere := fun p => by
          rw [promises]
          exact kept.nowhere p }
  | emplace i row handle p here dead small free tasks promises =>
    have count := vacated_set gens here tasks
    exact
      { eras := fun j other there => by
          rw [tasks, getElem?_set_row here] at there
          rw [count, if_neg (by rintro ⟨-, -, dead⟩; cases dead)]
          split at there
          · rename_i same
            cases there
            rw [← same]
            exact kept.eras i row here
          · exact kept.eras j other there
        rows := fun j other there alive => by
          rw [tasks, getElem?_set_row here] at there
          split at there
          · rename_i same
            cases there
            subst same
            refine ⟨small, rfl, rfl, p, rfl, ?_⟩
            rw [promises, Function.update_self]
          · obtain ⟨bound, id, some, q, owner, promise⟩ := kept.rows j other there alive
            refine ⟨bound, id, some, q, owner, ?_⟩
            rw [promises, Function.update_of_ne, promise]
            rintro rfl
            rw [promise] at free
            cases free
        here := fun q => by
          rw [promises, tasks]
          by_cases same : q = p
          · subst same
            intro _
            exact ⟨i, _, by rw [getElem?_set_row here, if_pos rfl], rfl, rfl⟩
          · rw [Function.update_of_ne same]
            intro registered
            obtain ⟨j, other, there, alive, owner⟩ := kept.here q registered
            have apart : i ≠ j := by
              rintro rfl
              rw [here] at there
              cases there
              rw [dead] at alive
              cases alive
            exact ⟨j, other, by rw [getElem?_set_row here, if_neg apart]; exact there, alive, owner⟩
        nowhere := fun q => by
          rw [promises]
          by_cases same : q = p
          · subst same
            rw [Function.update_self]
            intro never
            cases never
          · rw [Function.update_of_ne same]
            exact kept.nowhere q }
  | vacate i row p here live owner tasks promises =>
    have count := vacated_set gens here tasks
    exact
      { eras := fun j other there => by
          rw [tasks, getElem?_set_row here] at there
          rw [count]
          split at there
          · rename_i same
            cases there
            rw [if_pos ⟨same, live, rfl⟩, ← same, ← nextEra_eraOf, ← kept.eras i row here]
          · rename_i other
            rw [if_neg fun both => other both.1]
            exact kept.eras j _ there
        rows := fun j other there alive => by
          rw [tasks, getElem?_set_row here] at there
          split at there
          · cases there
            cases alive
          · rename_i apart
            obtain ⟨bound, id, some, q, holds, promise⟩ := kept.rows j other there alive
            refine ⟨bound, id, some, q, holds, ?_⟩
            rw [promises, Function.update_of_ne, promise]
            -- two live rows have different ids, so different promises
            rintro rfl
            obtain ⟨small, named, -, r, holdsToo, promiseToo⟩ := kept.rows i row here live
            have same : r = q := Option.some.inj (holdsToo.symm.trans owner)
            subst same
            rw [promise] at promiseToo
            have ids : other.id = row.id := congrArg Promise.id promiseToo
            rw [id, named] at ids
            have indices := congrArg TaskId.index ids
            rw [make_index bound, make_index small] at indices
            omega
        here := fun q => by
          rw [promises, tasks]
          by_cases same : q = p
          · subst same
            rw [Function.update_self]
            intro never
            cases never
          · rw [Function.update_of_ne same]
            intro registered
            obtain ⟨j, other, there, alive, holds⟩ := kept.here q registered
            have apart : i ≠ j := by
              rintro rfl
              rw [here] at there
              cases there
              exact same (Option.some.inj (holds.symm.trans owner))
            exact ⟨j, other, by rw [getElem?_set_row here, if_neg apart]; exact there, alive, holds⟩
        nowhere := fun q => by
          rw [promises]
          by_cases same : q = p
          · subst same
            rw [Function.update_self]
            intro _
            rfl
          · rw [Function.update_of_ne same]
            exact kept.nowhere q }
  | apart p promise old new blank tasks promises =>
    exact
      { eras := fun i row here => by
          rw [tasks] at here
          rw [vacated_same tasks]
          exact kept.eras i row here
        rows := fun i row here live => by
          rw [tasks] at here
          obtain ⟨small, id, some, q, owner, registered⟩ := kept.rows i row here live
          refine ⟨small, id, some, q, owner, ?_⟩
          rw [promises, Function.update_of_ne, registered]
          rintro rfl
          rw [registered] at old
          exact old rfl
        here := fun q => by
          rw [promises, tasks]
          by_cases same : q = p
          · subst same
            rw [Function.update_self]
            intro registered
            exact absurd registered new
          · rw [Function.update_of_ne same]
            exact kept.here q
        nowhere := fun q => by
          rw [promises]
          by_cases same : q = p
          · subst same
            rw [Function.update_self]
            exact blank
          · rw [Function.update_of_ne same]
            exact kept.nowhere q }

end Moved

structure Deck.Tracks (d : Deck) (gens : Nat → Nat) (e : Entry) : Prop where
  inside : 1 ≤ e.id.index ∧ e.id.index ≤ TaskId.maxIndex
  id : e.id = TaskId.make e.id.index (eraOf e.gen)
  past : e.gen ≤ gens (e.id.index - 1)
  row : gens (e.id.index - 1) = e.gen → ∃ row : Row, d.tasks[e.id.index - 1]? = some row ∧
    row.live = true ∧ row.promise = some e.promise

section Tracks
variable {d d' : Deck} {gens : Nat → Nat} {e : Entry}

theorem Deck.Tracks.moves (tracks : d.Tracks gens e) (moves : d.Moves d') : d'.Tracks (vacated d d' gens) e := by
  obtain ⟨inside, id, past, row⟩ := tracks
  refine ⟨inside, id, ?_, ?_⟩
  · unfold vacated
    split
    · exact past.trans (Nat.le_succ _)
    · exact past
  · cases moves with
    | stay tasks promises =>
      rw [vacated_same tasks, tasks]
      exact row
    | apart p promise old new blank tasks promises =>
      rw [vacated_same tasks, tasks]
      exact row
    | rebind i old handle here live tasks promises =>
      rw [vacated_set _ here tasks, if_neg (by rintro ⟨-, -, dead⟩; rw [live] at dead; cases dead), tasks,
        getElem?_set_row here]
      intro current
      obtain ⟨found, there, alive, owner⟩ := row current
      split
      · rename_i same
        rw [← same, here] at there
        cases there
        exact ⟨_, rfl, live, owner⟩
      · exact ⟨found, there, alive, owner⟩
    | emplace i old handle p here dead small free tasks promises =>
      rw [vacated_set _ here tasks, if_neg (by rintro ⟨-, -, dead⟩; cases dead), tasks,
        getElem?_set_row here]
      intro current
      obtain ⟨found, there, alive, owner⟩ := row current
      split
      · rename_i same
        rw [← same, here] at there
        cases there
        rw [dead] at alive
        cases alive
      · exact ⟨found, there, alive, owner⟩
    | vacate i old p here live owner tasks promises =>
      rw [vacated_set _ here tasks, tasks, getElem?_set_row here]
      split
      · intro current
        omega
      · rename_i other
        intro current
        obtain ⟨found, there, alive, holds⟩ := row current
        rw [if_neg fun same => other ⟨same, live, rfl⟩]
        exact ⟨found, there, alive, holds⟩

theorem Deck.Tracks.resolve (tracks : d.Tracks gens e) (kept : d.Kept gens)
    (recent : gens (e.id.index - 1) < e.gen + 255) {i : Nat} (found : d.resolve e.id = some i) : i = e.id.index - 1 ∧
    gens i = e.gen ∧ ∃ row : Row, d.tasks[i]? = some row ∧ row.live = true ∧ row.promise = some e.promise := by
  obtain ⟨index, row, here, live, named⟩ := resolve_iff.mp found
  have place : i = e.id.index - 1 := by omega
  obtain ⟨-, id, -⟩ := kept.rows i row here live
  have eras : (TaskId.make (i + 1) row.era).era = (TaskId.make e.id.index (eraOf e.gen)).era := by
    rw [← id, named, ← tracks.id]
  rw [kept.eras i row here, make_era (eraOf_byte _), make_era (eraOf_byte _)] at eras
  rw [← place] at recent
  have past := tracks.past
  rw [← place] at past
  have same : e.gen = gens i := eraOf_injective eras.symm past recent
  refine ⟨place, same.symm, ?_⟩
  have kept := tracks.row
  rw [← place] at kept
  exact kept same.symm

theorem Deck.Tracks.resolve_current (tracks : d.Tracks gens e) (kept : d.Kept gens)
    (current : gens (e.id.index - 1) = e.gen) : d.resolve e.id = some (e.id.index - 1) := by
  obtain ⟨row, here, live, -⟩ := tracks.row current
  obtain ⟨-, id, -⟩ := kept.rows _ row here live
  have first := tracks.inside.1
  refine resolve_iff.mpr ⟨by omega, row, here, live, ?_⟩
  rw [id, kept.eras _ row here, current, Nat.sub_add_cancel first]
  exact tracks.id.symm

end Tracks

structure Pump.Sound (s : Pump) : Prop where
  kept : s.deck.Kept s.gens
  tracked : ∀ e ∈ s.entries, s.deck.Tracks s.gens e
  order : s.entries.map Entry.id = s.turns.map Turn.id ++ s.round ++ s.deck.ready
  served : ∀ (k : Nat) (e : Entry) (t : Turn), s.entries[k]? = some e → s.turns[k]? = some t →
    e.round < t.round ∧ t.resumed.isSome = t.alive ∧
      ∀ handle p, t.resumed = some (handle, p) → p = e.promise
  early : ∀ (k : Nat) (e : Entry), s.entries[k]? = some e →
    e.round ≤ s.rounds ∧ (k < s.turns.length + s.round.length → e.round < s.rounds)

section Steps
variable {s : Pump}

theorem start_sound (capacity : Nat) : ({ deck := { tasks := replicate capacity {} } } : Pump).Sound := by
  have blank : ∀ (i : Nat) (row : Row), (replicate capacity ({} : Row))[i]? = some row → row = {} := by
    intro i row here
    exact eq_of_mem_replicate (mem_of_getElem? here)
  exact
    { kept :=
        { eras := fun i row here => by
            rw [blank i row here]
            rfl
          rows := fun i row here live => by
            rw [blank i row here] at live
            cases live
          here := fun p registered => by cases registered
          nowhere := fun p _ => rfl }
      tracked := fun e held => by cases held
      order := rfl
      served := fun k e t here _ => by cases here
      early := fun k e here => by cases here }

theorem act_entries (kept : s.deck.Kept s.gens) (a : Act) :
    ((s.act a).entries = s.entries ∧ (s.act a).deck.ready = s.deck.ready) ∨
      ∃ e : Entry, (s.act a).entries = s.entries ++ [e] ∧
        (s.act a).deck.ready = s.deck.ready ++ [e.id] ∧ e.round = s.rounds ∧
        (s.act a).deck.Tracks (s.act a).gens e := by
  have moves := act_moves kept a
  cases a with
  | enqueue handle p =>
    rcases enqueue_spec kept handle p with ⟨x, failed⟩ |
      ⟨i, row, d', done, ready, -, here, live, owner, index⟩
    · left
      refine ⟨?_, ?_⟩
      · show s.entries ++ s.entered (.enqueue handle p) = s.entries
        simp only [Pump.entered, failed, append_nil]
      · show (s.deck.enqueue handle p).2.ready = s.deck.ready
        rw [failed]
    · right
      have after : (s.act (.enqueue handle p)).deck = d' := by
        show (s.deck.enqueue handle p).2 = d'
        rw [done]
      have later := kept.moves moves
      change (s.act (.enqueue handle p)).deck.Kept (s.act (.enqueue handle p)).gens at later
      rw [after] at later
      obtain ⟨small, id, -, -⟩ := later.rows i row here live
      have place : row.id.index - 1 = i := by omega
      -- an enqueue vacates no row
      have count : (s.act (.enqueue handle p)).gens i = s.gens i := by
        show vacated s.deck (s.act (.enqueue handle p)).deck s.gens i = s.gens i
        unfold vacated
        rw [after, getD_of_getElem? here, if_neg fun both => both.2 live]
      refine ⟨⟨row.id, s.gens (row.id.index - 1), p, s.rounds⟩, ?_, ?_, rfl, ?_⟩
      · show s.entries ++ s.entered (.enqueue handle p) = _
        simp only [Pump.entered, done]
      · rw [after]
        exact ready
      · rw [after]
        refine ⟨?_, ?_, ?_, ?_⟩
        · show 1 ≤ row.id.index ∧ row.id.index ≤ TaskId.maxIndex
          omega
        · show row.id = TaskId.make row.id.index (eraOf (s.gens (row.id.index - 1)))
          rw [place, index, ← count, ← later.eras i row here]
          exact id
        · show s.gens (row.id.index - 1) ≤ (s.act (.enqueue handle p)).gens (row.id.index - 1)
          rw [place, count]
        · intro _
          refine ⟨row, ?_, live, owner⟩
          show d'.tasks[row.id.index - 1]? = some row
          rw [place]
          exact here
  | destroy p => exact Or.inl ⟨append_nil _, (destroy_moves kept p).2⟩
  | finish handle => exact Or.inl ⟨append_nil _, rfl⟩
  | begin handle => exact Or.inl ⟨append_nil _, rfl⟩
  | depart p id =>
    refine Or.inl ⟨append_nil _, ?_⟩
    show (s.deck.act (.depart p id)).ready = s.deck.ready
    unfold Deck.act
    simp only
    split <;> rfl

theorem act_sound (sound : s.Sound) (a : Act) : (s.act a).Sound := by
  have moves := act_moves sound.kept a
  have kept : (s.act a).deck.Kept (s.act a).gens := sound.kept.moves moves
  have tracked : ∀ e ∈ s.entries, (s.act a).deck.Tracks (s.act a).gens e := fun e held =>
    (sound.tracked e held).moves moves
  have length : s.turns.length + s.round.length ≤ s.entries.length := by
    have total := congrArg List.length sound.order
    simp only [length_map, length_append] at total
    omega
  rcases act_entries sound.kept a with ⟨same, ready⟩ | ⟨new, added, ready, now, current⟩
  · exact
      { kept
        tracked := by
          rw [same]
          exact tracked
        order := by
          rw [same, ready]
          exact sound.order
        served := by
          rw [same]
          exact sound.served
        early := by
          rw [same]
          exact sound.early }
  · have old : ∀ (k : Nat) (e : Entry), (s.entries ++ [new])[k]? = some e →
        (s.entries[k]? = some e ∧ k < s.entries.length) ∨ (k = s.entries.length ∧ e = new) := by
      intro k e here
      rcases Nat.lt_trichotomy k s.entries.length with inside | last | beyond
      · rw [getElem?_append_left inside] at here
        exact Or.inl ⟨here, inside⟩
      · subst last
        rw [getElem?_concat_length] at here
        exact Or.inr ⟨rfl, (Option.some.inj here).symm⟩
      · rw [getElem?_eq_none (by rw [length_append, length_singleton]; omega)] at here
        cases here
    exact
      { kept
        tracked := by
          rw [added]
          intro e held
          rcases mem_append.mp held with before | last
          · exact tracked e before
          · rw [mem_singleton.mp last]
            exact current
        order := by
          rw [added, ready, map_append, sound.order, ← append_assoc]
          rfl
        served := by
          rw [added]
          intro k e t here there
          rcases old k e here with ⟨before, -⟩ | ⟨last, -⟩
          · exact sound.served k e t before there
          · have inside : k < s.turns.length := (List.getElem?_eq_some_iff.mp there).1
            omega
        early := by
          rw [added]
          intro k e here
          rcases old k e here with ⟨before, -⟩ | ⟨last, rfl⟩
          · exact sound.early k e before
          · refine ⟨now.le, ?_⟩
            intro inside
            have bound : k < s.turns.length + s.round.length := inside
            omega }

theorem begin_sound (sound : s.Sound) (spent : s.round = []) : s.beginRound.Sound := by
  have order := sound.order
  rw [spent, append_nil] at order
  exact
    { kept := ⟨sound.kept.eras, sound.kept.rows, sound.kept.here, sound.kept.nowhere⟩
      tracked := fun e held =>
        ⟨(sound.tracked e held).inside, (sound.tracked e held).id, (sound.tracked e held).past,
          (sound.tracked e held).row⟩
      order := by
        show s.entries.map Entry.id = s.turns.map Turn.id ++ s.deck.ready ++ []
        rw [append_nil]
        exact order
      served := sound.served
      early := fun k e here => by
        have old := (sound.early k e here).1
        show e.round ≤ s.rounds + 1 ∧ (_ → e.round < s.rounds + 1)
        omega }

theorem resumable_alive {e : Entry} (kept : s.deck.Kept s.gens) (tracks : s.deck.Tracks s.gens e)
    (recent : s.gens (e.id.index - 1) < e.gen + 255) : (s.deck.resumable e.id).isSome = s.alive e ∧
      ∀ handle p, s.deck.resumable e.id = some (handle, p) → p = e.promise := by
  unfold Deck.resumable Pump.alive
  cases found : s.deck.resolve e.id with
  | none =>
    have gone : s.gens (e.id.index - 1) ≠ e.gen := by
      intro current
      rw [tracks.resolve_current kept current] at found
      cases found
    simp [gone]
  | some i =>
    obtain ⟨rfl, current, row, here, live, owner⟩ := tracks.resolve kept recent found
    obtain ⟨-, -, hasHandle, -⟩ := kept.rows _ row here live
    obtain ⟨handle, isHandle⟩ := Option.isSome_iff_exists.mp hasHandle
    simp only [getD_of_getElem? here, isHandle, owner, live, current]
    cases finished : s.deck.done handle with
    | true => simp
    | false =>
      simp only [Bool.false_eq_true, if_false, Option.isSome_some, decide_true, Bool.true_and,
        Bool.not_false, Option.some.injEq, Prod.mk.injEq, true_and]
      rintro _ p ⟨-, rfl⟩
      rfl

theorem turn_sound (sound : s.Sound) (lasting : s.Lasting) {id : TaskId} {rest : List TaskId}
    (next : s.round = id :: rest) : (s.turn id rest).Sound := by
  have order := sound.order
  rw [next] at order
  -- the entry whose turn it is
  obtain ⟨e, here, named⟩ : ∃ e, s.entries[s.turns.length]? = some e ∧ e.id = id := by
    have place : (s.entries.map Entry.id)[s.turns.length]? = some id := by
      rw [order, append_assoc, getElem?_append_right (by rw [length_map]), length_map,
        Nat.sub_self]
      rfl
    rw [getElem?_map] at place
    obtain ⟨e, here, named⟩ := Option.map_eq_some_iff.mp place
    exact ⟨e, here, named⟩
  have held : e ∈ s.entries := mem_of_getElem? here
  have queued : e ∈ s.entries.drop s.turns.length := by
    apply mem_of_getElem? (i := 0)
    rw [getElem?_drop, Nat.add_zero]
    exact here
  have alive := resumable_alive sound.kept (sound.tracked e held) (lasting e queued)
  rw [named] at alive
  have when : (s.entries[s.turns.length]?).any s.alive = s.alive e := by rw [here]; rfl
  have earlier := (sound.early _ e here).2 (by rw [next, length_cons]; omega)
  exact
    { kept := sound.kept
      tracked := sound.tracked
      order := by
        show s.entries.map Entry.id = (s.turns ++ [_]).map Turn.id ++ rest ++ s.deck.ready
        rw [order, map_append]
        simp
      served := by
        intro k other t there turned
        have split : (s.turns ++ [(⟨id, s.deck.resumable id, (s.entries[s.turns.length]?).any s.alive,
          s.rounds⟩ : Turn)])[k]? = some t := turned
        rcases Nat.lt_trichotomy k s.turns.length with inside | last | beyond
        · rw [getElem?_append_left inside] at split
          exact sound.served k other t there split
        · subst last
          rw [getElem?_concat_length] at split
          cases split
          have same : s.entries[s.turns.length]? = some other := there
          rw [here] at same
          cases same
          refine ⟨earlier, ?_, alive.2⟩
          rw [alive.1, when]
        · rw [getElem?_eq_none (by rw [length_append, length_singleton]; omega)] at split
          cases split
      early := by
        intro k other there
        obtain ⟨now, before⟩ := sound.early k other there
        refine ⟨now, ?_⟩
        intro inside
        apply before
        have bound : k < (s.turns ++ [(⟨id, s.deck.resumable id,
          (s.entries[s.turns.length]?).any s.alive, s.rounds⟩ : Turn)]).length + rest.length := inside
        rw [length_append, length_singleton] at bound
        rw [next, length_cons]
        omega }

theorem run_sound (run : s.Run) : s.Sound ∧ s.Lasting := by
  induction run with
  | start capacity =>
    refine ⟨start_sound capacity, ?_⟩
    intro e held
    cases held
  | step run step lasting ih =>
    refine ⟨?_, lasting⟩
    cases step with
    | act a => exact act_sound ih.1 a
    | begin idle spent => exact begin_sound ih.1 spent
    | turn id rest idle next => exact turn_sound ih.1 ih.2 next
    | suspend busy =>
      exact ⟨ih.1.kept, ih.1.tracked, ih.1.order, ih.1.served, ih.1.early⟩

end Steps

/-- In every run, live rows and promises registered here correspond one to one; an id never
resolves to another task than it was queued for while its row has been reused fewer than 255 times;
every enqueue gets exactly one turn, in the order of the enqueues and in a later round; and that turn
resumes the task it was made for just when the task is still registered and unfinished. -/
theorem deck_rounds {s : Pump} (run : s.Run) :
    (∀ (i : Nat) (row : Row), s.deck.tasks[i]? = some row → row.live = true → s.deck.resolve row.id = some i ∧
        ∃ p, row.promise = some p ∧ s.deck.promises p = { id := row.id, deck := .here }) ∧
    (∀ p, (s.deck.promises p).deck = .here → ∃ (i : Nat) (row : Row),
      s.deck.resolve (s.deck.promises p).id = some i ∧ s.deck.tasks[i]? = some row ∧
        row.live = true ∧ row.promise = some p) ∧
    (∀ e ∈ s.entries, s.gens (e.id.index - 1) < e.gen + 255 → ∀ i, s.deck.resolve e.id = some i →
      s.gens i = e.gen ∧ ∃ row : Row, s.deck.tasks[i]? = some row ∧ row.promise = some e.promise) ∧
    s.entries.map Entry.id = s.turns.map Turn.id ++ s.round ++ s.deck.ready ∧
    ∀ (k : Nat) (e : Entry) (t : Turn), s.entries[k]? = some e → s.turns[k]? = some t →
      e.round < t.round ∧ t.resumed.isSome = t.alive ∧
        ∀ handle p, t.resumed = some (handle, p) → p = e.promise := by
  have sound := (run_sound run).1
  refine ⟨?_, ?_, ?_, sound.order, sound.served⟩
  · intro i row here live
    obtain ⟨small, id, -, owner⟩ := sound.kept.rows i row here live
    refine ⟨resolve_iff.mpr ⟨?_, row, here, live, rfl⟩, owner⟩
    rw [id, make_index small]
  · intro p registered
    obtain ⟨i, row, here, live, owner, -, found⟩ := sound.kept.resolve_promise registered
    exact ⟨i, row, found, here, live, owner⟩
  · intro e held recent i found
    obtain ⟨-, current, row, here, -, owner⟩ := (sound.tracked e held).resolve sound.kept recent found
    exact ⟨current, row, here, owner⟩

section Example

/-- Two tasks are queued, the second is destroyed, and a round runs. -/
def pair : Pump :=
  let s : Pump := { deck := { tasks := replicate 2 {} } }
  let s := ((s.act (.enqueue 10 20)).act (.enqueue 11 21)).act (.destroy 21)
  let s := s.beginRound.turn (TaskId.make 1 1) [TaskId.make 2 1]
  ({ s with running := false } : Pump).turn (TaskId.make 2 1) []

theorem pair_run : pair.Run := by
  have lasting (s : Pump) (few : ∀ e ∈ s.entries, s.gens (e.id.index - 1) < e.gen + 255) :
      s.Lasting := fun e held => few e (mem_of_mem_drop held)
  refine .step (.step (.step (.step (.step (.step (.step (.start 2) (.act _ (.enqueue 10 20)) ?_)
    (.act _ (.enqueue 11 21)) ?_) (.act _ (.destroy 21)) ?_) (.begin _ rfl rfl) ?_)
    (.turn _ (TaskId.make 1 1) [TaskId.make 2 1] rfl (by decide +kernel)) ?_)
    (.suspend _ (by decide +kernel)) ?_) (.turn _ (TaskId.make 2 1) [] rfl rfl) ?_
  all_goals
    apply lasting
    decide +kernel

/-- The second task was live when it was queued, and its turn resumes nothing. -/
theorem destroyed_not_resumed : pair.Run ∧ pair.entries.map Entry.promise = [20, 21] ∧
    pair.turns.map Turn.resumed = [some (10, 20), none] :=
  ⟨pair_run, by decide +kernel, by decide +kernel⟩

theorem deck_rounds_pair : pair.entries.map Entry.id = pair.turns.map Turn.id ++ pair.round ++ pair.deck.ready :=
  (deck_rounds pair_run).2.2.2.1

end Example

end Nxt.Runtime
