import Nxt.Wisp.Ops

/- External handles. Every row of the external table is given a number at its birth; the ledger
   follows the rows through collections by their forwarding marks and writes down whose handle
   is released. A collection that starts on a heap without forwarding marks releases exactly
   the handles of the rows it cannot reach. -/
namespace Nxt.Wisp
open Nxt.Lib List

def Heap.handles (h : Heap) : List Word := (h.table .ext).map fun data => data.getD 0 0

/-- `~heap`. -/
def Heap.destroy (h : Heap) : Heap := h.releaseExternals

/-- Where the external row has gone, read off the old table after copying. -/
def Tidy.forwarded (s : Tidy) (i : Nat) : Option Nat :=
  if s.old.cell (.ext, i) 0 = zap then some (indexOf (s.old.cell (.ext, i) 1)) else none

structure Ledger where
  heap : Heap
  /-- The id each external row was born with. -/
  births : List Word := []
  /-- Whose row each row of the external table is. -/
  owner : List Nat := []
  /-- Whose handles have been released. -/
  log : List Nat := []

namespace Ledger

def id (w : Ledger) (b : Nat) : Word := w.births.getD b 0

def stranded (w : Ledger) (s : Tidy) : List Nat :=
  (range w.heap.handles.length).filter fun i => s.forwarded i = none

def origin (w : Ledger) (s : Tidy) (j : Nat) : Nat :=
  (range w.heap.handles.length).findIdx fun i => s.forwarded i = some j

def moved (w : Ledger) (s : Tidy) : Ledger :=
  { w with
    heap := s.finish
    owner := (range s.finish.handles.length).map fun j => w.owner.getD (w.origin s j) 0
    log := w.log ++ (w.stranded s).map fun i => w.owner.getD i 0 }

def collect (w : Ledger) (grant : Reservation → Bool) : Ledger :=
  match tidy grant w.heap with
  | .error _ => w
  | .ok s => w.moved (s.copied (collectFuel w.heap))

def apply (w : Ledger) : Op → Ledger
  | .collect grant => w.collect grant
  | op =>
    let heap := w.heap.apply op
    let born := heap.handles.drop w.heap.handles.length
    { w with
      heap
      births := w.births ++ born
      owner := w.owner ++ List.range' w.births.length born.length }

def destroy (w : Ledger) : Ledger :=
  { w with
    heap := w.heap.destroy
    owner := []
    log := w.log ++ ((range w.heap.handles.length).filter fun i =>
      w.heap.cell (.ext, i) 0 ≠ zap).map fun i => w.owner.getD i 0 }

/-- The ledgers of all runs from an empty heap whose operations meet a condition. -/
inductive Run (condition : Heap → Op → Prop) : Ledger → Prop where
  | start : Run condition { heap := { hosted := true } }
  | step {w : Ledger} {op : Op} : Run condition w → op.Allowed w.heap → condition w.heap op →
      Run condition (w.apply op)

structure Sound (w : Ledger) : Prop where
  wf : w.heap.WellFormed
  hosted : w.heap.hosted = true
  owned : w.owner.map w.id = w.heap.handles
  once : (w.log ++ w.owner).Perm (range w.births.length)
  handle : zap ∉ w.heap.handles
  released : w.heap.released = w.log.map w.id

end Ledger

section Extend
variable {h g : Heap}

structure Births (h g : Heap) : Prop where
  hosted : g.hosted = h.hosted
  released : g.released = h.released
  kept : h.handles <+: g.handles
  handle : zap ∉ h.handles → zap ∉ g.handles

theorem Births.refl (h : Heap) : Births h h := ⟨rfl, rfl, prefix_rfl, fun clean => clean⟩

theorem Births.trans {e : Heap} (first : Births h e) (second : Births e g) : Births h g :=
  ⟨second.hosted.trans first.hosted, second.released.trans first.released,
    first.kept.trans second.kept, fun clean => second.handle (first.handle clean)⟩

theorem births_of_handles (hosted : g.hosted = h.hosted) (released : g.released = h.released)
    (same : g.handles = h.handles) : Births h g := by
  constructor
  · exact hosted
  · exact released
  · exact same ▸ prefix_rfl
  · exact fun clean => same ▸ clean

theorem make_births {x : Word} {k : Kind} {data : Row} (done : h.make k data = .ok (x, g)) : Births h g := by
  obtain ⟨unmarked, -, -, rfl⟩ := make_ok done
  by_cases external : k = .ext
  · subst external
    have grown : (h.setTable .ext (h.table .ext ++ [data])).handles =
        h.handles ++ [data.getD 0 0] := by
      rw [Heap.handles, table_setTable, if_pos rfl, map_append]
      rfl
    refine ⟨rfl, rfl, ?_, ?_⟩
    · rw [grown]
      exact prefix_append _ _
    · intro clean held
      rw [grown] at held
      rcases mem_append.mp held with before | last
      · exact clean before
      · exact unmarked (mem_singleton.mp last).symm
  · refine births_of_handles ?_ ?_ ?_
    · rfl
    · rfl
    · rw [Heap.handles, table_setTable, if_neg (Ne.symm external), Heap.handles]

theorem attempt_births {result : Except HostError (Word × Heap)}
    (made : ∀ x g, result = .ok (x, g) → Births h g) : Births h (attempt h result) := by
  cases result with
  | error e => exact Births.refl h
  | ok pair => exact made pair.1 pair.2 rfl

theorem map_set_same {α β : Type} (f : α → β) (l : List α) (i : Nat) (a : α)
    (same : ∀ b, l[i]? = some b → f a = f b) : (l.set i a).map f = l.map f := by
  apply ext_getElem?
  intro j
  rw [getElem?_map, getElem?_map, getElem?_set]
  split
  · rename_i here
    subst here
    split
    · rename_i inside
      rw [getElem?_eq_getElem inside]
      simp [same _ (getElem?_eq_getElem inside)]
    · rename_i outside
      rw [getElem?_eq_none (by omega)]
  · rfl

theorem set_births {k : Kind} {f : Field} {x value : Word}
    (column : columnKind k (columnIndex k f) = some .value) : Births h (h.set k f x value) := by
  have same : (h.set k f x value).handles = h.handles := by
    simp only [Heap.handles, Heap.set, Heap.setColumn, table_setTable]
    split
    · rename_i external
      subst external
      have second : columnIndex .ext f ≠ 0 := by
        intro first
        rw [first] at column
        cases column
      apply map_set_same
      intro data found
      have row : h.row .ext (indexOf x) = data := by
        rw [Heap.row, getD_eq_getElem?_getD, found, Option.getD_some]
      rw [getD_set, if_neg (fun both => second both.1), row]
    · rfl
  exact births_of_handles rfl rfl same

theorem apply_births (op : Op) (allowed : op.Allowed h) (other : ∀ grant, op ≠ .collect grant) :
    Births h (h.apply op) := by
  cases op with
  | make k data => exact attempt_births fun _ _ done => make_births done
  | newv08 data =>
    apply attempt_births
    intro x g done
    have made := make_births (newv08_ok done)
    exact Births.trans (births_of_handles (by rfl) (by rfl) (by rfl)) made
  | newWords k data =>
    apply attempt_births
    intro x g done
    have made := make_births (newWords_ok done).2
    exact Births.trans (births_of_handles (by rfl) (by rfl) (by rfl)) made
  | filledv32 n value =>
    apply attempt_births
    intro x g done
    have made := make_births (filledv32_ok done).2
    exact Births.trans (births_of_handles (by rfl) (by rfl) (by rfl)) made
  | copy k x => exact attempt_births fun _ _ done => make_births done
  | set k f x value => exact set_births allowed.2.1
  | put k x data =>
    refine births_of_handles ?_ ?_ ?_
    · rfl
    · rfl
    · rw [Heap.apply, Heap.put, Heap.handles, table_setTable, if_neg (Ne.symm allowed.2.1), Heap.handles]
  | makePin value =>
    apply attempt_births
    intro x g done
    simp only [Heap.makePin] at done
    split at done
    · cases done
    · cases done
      exact births_of_handles rfl rfl rfl
  | setWord k x i value => exact births_of_handles rfl rfl rfl
  | enroll value => exact births_of_handles rfl rfl rfl
  | assign slot value => exact births_of_handles rfl rfl rfl
  | retire slot => exact births_of_handles rfl rfl rfl
  | freePin pin => exact births_of_handles rfl rfl rfl
  | collect grant => exact absurd rfl (other grant)

end Extend

namespace Ledger
section Sound
variable {w : Ledger}

theorem owner_born (sound : w.Sound) {b : Nat} (held : b ∈ w.owner) : b < w.births.length :=
  mem_range.mp (sound.once.mem_iff.mp (mem_append_right w.log held))

theorem log_born (sound : w.Sound) {b : Nat} (held : b ∈ w.log) : b < w.births.length :=
  mem_range.mp (sound.once.mem_iff.mp (mem_append_left w.owner held))

theorem owner_length (sound : w.Sound) : w.owner.length = w.heap.handles.length := by
  rw [← sound.owned, length_map]

theorem born_sound (sound : w.Sound) {g : Heap} (births : Births w.heap g) (wf : g.WellFormed) :
    Sound { w with
      heap := g
      births := w.births ++ g.handles.drop w.heap.handles.length
      owner := w.owner ++ List.range' w.births.length (g.handles.drop w.heap.handles.length).length } := by
  obtain ⟨born, grown⟩ := births.kept
  have added : g.handles.drop w.heap.handles.length = born := by
    rw [← grown, drop_left]
  rw [added]
  have same (b : Nat) (old : b < w.births.length) : (w.births ++ born).getD b 0 = w.id b :=
    getD_append _ _ _ _ old
  have fresh : (List.range' w.births.length born.length).map
      (fun b => (w.births ++ born).getD b 0) = born := by
    apply ext_getElem
    · simp
    · intro i _ inside
      simp [inside]
  refine ⟨wf, births.hosted.trans sound.hosted, ?_, ?_, births.handle sound.handle, ?_⟩
  · have ids : (w.owner ++ List.range' w.births.length born.length).map
        (fun b => (w.births ++ born).getD b 0) = g.handles := by
      rw [map_append, fresh, ← grown, ← sound.owned]
      congr 1
      exact map_congr_left fun b held => same b (owner_born sound held)
    exact ids
  · have numbers : range (w.births ++ born).length =
        range w.births.length ++ List.range' w.births.length born.length := by
      rw [length_append, range_add, List.range'_eq_map_range]
    simp only [numbers, ← append_assoc]
    exact sound.once.append_right _
  · rw [births.released, sound.released]
    exact map_congr_left fun b held => (same b (log_born sound held)).symm

end Sound
end Ledger

section Collected
variable {h : Heap} {f : Forward} {s : Tidy}

theorem handles_length (h : Heap) : h.handles.length = (h.table .ext).length := by
  simp [Heap.handles]

theorem handles_eq (h : Heap) : h.handles = (range h.handles.length).map fun i => h.cell (.ext, i) 0 := by
  apply ext_getElem
  · simp
  · intro i inside _
    rw [handles_length] at inside
    simp [Heap.handles, Heap.cell, cell, inside]

section
variable (ready : Ready h) (inv : Inv h f s)
include ready inv

theorem forwarded_eq {i : Nat}
    (live : h.Live (.ext, i)) : s.forwarded i = f (.ext, i) := by
  unfold Tidy.forwarded
  cases found : f (.ext, i) with
  | none =>
    have row := inv.unmoved _ found
    have unmarked : (h.row .ext i).getD 0 0 ≠ zap := ready.unmarked .ext _ (mem_of_getD live)
    rw [← row] at unmarked
    exact if_neg unmarked
  | some j =>
    obtain ⟨closed, forward⟩ := inv.marked _ j found
    rw [if_pos closed, forward, indexOf_pointer _ _ (target_lt ready inv found)]

theorem finish_released (hosted : s.old.hosted = true) :
    s.finish.released = s.old.released ++ ((range h.handles.length).filter fun i => s.forwarded i = none).map
        fun i => h.cell (.ext, i) 0 := by
  have size : s.old.handles.length = h.handles.length := by
    rw [handles_length, handles_length, inv.size]
  have live {i : Nat} (held : i ∈ range h.handles.length) : h.Live (.ext, i) := by
    rw [mem_range, handles_length] at held
    exact held
  rw [finish_eq]
  simp only [Heap.releaseExternals, hosted, if_true]
  congr 1
  have ids : (s.old.table .ext).map (fun data => data.getD 0 0) =
      (range h.handles.length).map fun i => s.old.cell (.ext, i) 0 := by
    rw [← size]
    exact handles_eq s.old
  rw [ids, filter_map]
  have kept : (range h.handles.length).filter
      ((fun id => decide (id ≠ zap)) ∘ fun i => s.old.cell (.ext, i) 0) =
      (range h.handles.length).filter fun i => s.forwarded i = none := by
    apply filter_congr
    intro i held
    unfold Tidy.forwarded
    by_cases mark : s.old.cell (.ext, i) 0 = zap <;> simp [mark]
  rw [kept]
  apply map_congr_left
  intro i held
  obtain ⟨inside, free⟩ := mem_filter.mp held
  have none : f (.ext, i) = none := by
    rw [← forwarded_eq ready inv (live inside)]
    simpa using free
  have row := inv.unmoved _ none
  simp only [Heap.row] at row
  simp only [Heap.cell, cell, row]

theorem origin_spec {w : Ledger} (same : w.heap = h) {j : Nat}
    (inside : j < s.finish.handles.length) : w.origin s j < h.handles.length ∧ f (.ext, w.origin s j) = some j := by
  have table : s.finish.table .ext = s.next.get .ext := by
    rw [finish_eq]
    rfl
  rw [handles_length, table] at inside
  obtain ⟨i, found⟩ := inv.surjective .ext j inside
  have live : i < h.handles.length := by
    rw [handles_length]
    exact reachable_live ready.wf (inv.source _ _ found)
  have some_row : ∃ i ∈ range w.heap.handles.length,
      decide (s.forwarded i = some j) = true := by
    refine ⟨i, mem_range.mpr (by rw [same]; exact live), ?_⟩
    rw [forwarded_eq ready inv (by rw [handles_length] at live; exact live), found]
    exact decide_eq_true rfl
  have bound := findIdx_lt_length_of_exists some_row
  have here := findIdx_getElem (w := bound)
  rw [length_range, same] at bound
  rw [getElem_range] at here
  have place : w.origin s j < h.handles.length := by
    rw [Ledger.origin, same]
    exact bound
  refine ⟨place, ?_⟩
  rw [handles_length] at place
  have mark := forwarded_eq ready inv (i := w.origin s j) place
  rw [← mark]
  exact of_decide_eq_true here

theorem origins_perm {w : Ledger} (same : w.heap = h) :
    (w.stranded s ++ (range s.finish.handles.length).map (w.origin s)).Perm (range h.handles.length) := by
  have spec {j : Nat} (held : j ∈ range s.finish.handles.length) :=
    origin_spec ready inv same (mem_range.mp held)
  have live {i : Nat} (inside : i < h.handles.length) : h.Live (.ext, i) := by
    rw [handles_length] at inside
    exact inside
  have left {i : Nat} : i ∈ w.stranded s ↔ i < h.handles.length ∧ s.forwarded i = none := by
    simp [Ledger.stranded, same]
  apply (perm_ext_iff_of_nodup ?_ nodup_range).mpr
  · intro i
    rw [mem_append, left, mem_range, mem_map]
    constructor
    · intro either
      rcases either with ⟨inside, -⟩ | ⟨j, held, rfl⟩
      · exact inside
      · exact (spec held).1
    · intro inside
      cases found : f (.ext, i) with
      | none => exact Or.inl ⟨inside, by rw [forwarded_eq ready inv (live inside), found]⟩
      | some j =>
        have target := inv.target _ j found
        have held : j ∈ range s.finish.handles.length := by
          rw [mem_range, handles_length, finish_eq]
          exact target
        have back := inv.injective (.ext, w.origin s j) (.ext, i) j rfl (spec held).2 found
        exact Or.inr ⟨j, held, congrArg Prod.snd back⟩
  · apply nodup_append.mpr
    refine ⟨nodup_range.filter _, ?_, ?_⟩
    · apply List.Nodup.map_on _ nodup_range
      intro i first j second equal
      have found := (spec first).2
      rw [equal, (spec second).2] at found
      exact (Option.some.inj found).symm
    · intro i behind j moved equal
      obtain ⟨inside, free⟩ := left.mp behind
      obtain ⟨n, held, rfl⟩ := mem_map.mp moved
      subst equal
      rw [forwarded_eq ready inv (live inside), (spec held).2] at free
      cases free

end

end Collected

namespace Ledger
section Runs
variable {w : Ledger}

def Collects (h : Heap) (op : Op) : Prop :=
  ∃ grant, op = .collect grant ∧ (h.collect grant).1 = .ok ()

section Moved
variable {f : Forward} {s : Tidy}

theorem owned_id (sound : w.Sound) {i : Nat} (inside : i < w.heap.handles.length) :
    w.id (w.owner.getD i 0) = w.heap.cell (.ext, i) 0 := by
  have both : (w.owner.map w.id)[i]? = w.heap.handles[i]? := by rw [sound.owned]
  have size := owner_length sound
  rw [handles_eq w.heap, getElem?_map, getElem?_map, getElem?_range inside,
    getElem?_eq_getElem (by omega)] at both
  rw [getD_eq_getElem _ _ (by omega)]
  exact Option.some.inj both

theorem moved_owned (sound : w.Sound) (ready : Ready w.heap) (inv : Inv w.heap f s) :
    (w.moved s).owner.map w.id = s.finish.handles := by
  conv_rhs => rw [handles_eq s.finish]
  rw [Ledger.moved, map_map]
  apply map_congr_left
  intro j held
  obtain ⟨inside, found⟩ := origin_spec ready inv (w := w) rfl (mem_range.mp held)
  have raw := inv.raw _ j found 0 .external rfl (by decide) (by decide)
  dsimp only at raw
  rw [Function.comp_apply, owned_id sound inside, finish_cell, raw]

theorem moved_once (sound : w.Sound) (ready : Ready w.heap) (inv : Inv w.heap f s) :
    ((w.moved s).log ++ (w.moved s).owner).Perm (range w.births.length) := by
  have perm := (origins_perm ready inv (w := w) rfl).map fun i => w.owner.getD i 0
  have all : (range w.heap.handles.length).map (fun i => w.owner.getD i 0) = w.owner := by
    rw [← owner_length sound]
    apply ext_getElem
    · simp
    · intro i inside _
      simp at inside
      simp [inside]
  rw [map_append, map_map, all] at perm
  simp only [Ledger.moved, append_assoc]
  exact (perm.append_left w.log).trans sound.once

theorem moved_sound (sound : w.Sound) (ready : Ready w.heap) (rooted : Rooted w.heap f s)
    (done : Done s) : (w.moved s).Sound := by
  have inv := rooted.inv
  have hosted : s.old.hosted = true := by
    rw [rooted.kept]
    exact sound.hosted
  have before : s.old.released = w.heap.released := by rw [rooted.kept]
  have owned := moved_owned sound ready inv
  refine ⟨finish_wellFormed ready rooted done, ?_, owned, moved_once sound ready inv, ?_, ?_⟩
  · rw [Ledger.moved, finish_eq]
    exact hosted
  · intro mark
    change zap ∈ s.finish.handles at mark
    rw [← owned] at mark
    obtain ⟨b, held, zapped⟩ := mem_map.mp mark
    obtain ⟨j, inside, rfl⟩ := mem_map.mp held
    obtain ⟨live, -⟩ := origin_spec ready inv (w := w) rfl (mem_range.mp inside)
    rw [owned_id sound live] at zapped
    apply sound.handle
    rw [handles_eq, mem_map]
    exact ⟨_, mem_range.mpr live, zapped⟩
  · have ids : ((w.stranded s).map fun i => w.owner.getD i 0).map w.id =
        (w.stranded s).map fun i => w.heap.cell (.ext, i) 0 := by
      rw [map_map]
      apply map_congr_left
      intro i held
      exact owned_id sound (mem_range.mp (mem_filter.mp held).1)
    have logged : (w.moved s).log.map w.id = w.log.map w.id ++
        (w.stranded s).map fun i => w.heap.cell (.ext, i) 0 := by
      rw [Ledger.moved, map_append, ids]
    change s.finish.released = (w.moved s).log.map w.id
    rw [logged, finish_released ready inv hosted, before, sound.released]
    rfl

end Moved

theorem collect_sound (sound : w.Sound) (unmarked : w.heap.Unmarked)
    (grant : Reservation → Bool) : (w.collect grant).Sound := by
  unfold Ledger.collect
  rcases collect_cases grant sound.wf unmarked with
    ⟨e, failed, -⟩ | ⟨start, ready, -, f, rooted, done⟩
  · rw [failed]
    exact sound
  · rw [start]
    exact moved_sound sound ready rooted done

theorem apply_sound (sound : w.Sound) (op : Op) (allowed : op.Allowed w.heap)
    (clean : op.Clean w.heap) : (w.apply op).Sound := by
  by_cases collection : ∃ grant, op = .collect grant
  · obtain ⟨grant, rfl⟩ := collection
    exact collect_sound sound clean grant
  · have other : ∀ grant, op ≠ .collect grant := fun grant same => collection ⟨grant, same⟩
    have born := born_sound sound (apply_births op allowed other)
      (apply_wellFormed sound.wf op allowed clean)
    cases op <;> first | exact born | exact absurd rfl (other _)

theorem run_sound (run : Run Op.Clean w) : w.Sound := by
  induction run with
  | start =>
    exact ⟨by decide +kernel, rfl, rfl, List.Perm.refl _, by decide, rfl⟩
  | step _ allowed clean ih => exact apply_sound ih _ allowed clean

theorem apply_log (op : Op) (other : ∀ grant, op ≠ .collect grant) : (w.apply op).log = w.log := by
  cases op <;> first | rfl | exact absurd rfl (other _)

theorem mem_moved_log (sound : w.Sound) (ready : Ready w.heap) {f : Forward} {s : Tidy}
    (rooted : Rooted w.heap f s) (done : Done s) (b : Nat) : b ∈ (w.moved s).log ↔
      b ∈ w.log ∨ ∃ i, w.owner[i]? = some b ∧ ¬ w.heap.Reachable (.ext, i) := by
  have size := owner_length sound
  have left {i : Nat} (inside : i < w.heap.handles.length) :
      s.forwarded i = none ↔ ¬ w.heap.Reachable (.ext, i) := by
    rw [handles_length] at inside
    rw [forwarded_eq ready rooted.inv inside]
    constructor
    · intro free reach
      obtain ⟨j, found⟩ := all_forwarded rooted done reach
      rw [free] at found
      cases found
    · intro away
      cases found : f (.ext, i) with
      | none => rfl
      | some j => exact absurd (rooted.inv.source _ j found) away
  rw [Ledger.moved, mem_append, mem_map]
  apply or_congr_right
  constructor
  · intro ⟨i, held, owns⟩
    obtain ⟨inside, free⟩ := mem_filter.mp held
    rw [mem_range] at inside
    refine ⟨i, ?_, (left inside).mp (of_decide_eq_true free)⟩
    rw [getD_eq_getElem _ _ (by omega)] at owns
    rw [getElem?_eq_getElem (by omega), owns]
  · intro ⟨i, owns, away⟩
    obtain ⟨inside, eq⟩ := List.getElem?_eq_some_iff.mp owns
    have live : i < w.heap.handles.length := by omega
    refine ⟨i, mem_filter.mpr ⟨mem_range.mpr live, ?_⟩, ?_⟩
    · exact decide_eq_true ((left live).mpr away)
    · rw [getD_eq_getElem _ _ inside, eq]

theorem apply_mem_log (sound : w.Sound) (op : Op) (clean : op.Clean w.heap) (b : Nat) :
    b ∈ (w.apply op).log ↔ b ∈ w.log ∨
      Collects w.heap op ∧ ∃ i, w.owner[i]? = some b ∧ ¬ w.heap.Reachable (.ext, i) := by
  by_cases collection : ∃ grant, op = .collect grant
  · obtain ⟨grant, rfl⟩ := collection
    rcases collect_cases grant sound.wf clean with
      ⟨e, failed, result⟩ | ⟨start, ready, result, f, rooted, done⟩
    · have quiet : ¬ Collects w.heap (.collect grant) := by
        intro ⟨same, equal, success⟩
        cases equal
        rw [result] at success
        cases success
      simp only [Ledger.apply, Ledger.collect, failed, quiet, false_and, or_false]
    · have collects : Collects w.heap (.collect grant) := ⟨grant, rfl, by rw [result]⟩
      simp only [Ledger.apply, Ledger.collect, start, collects, true_and]
      exact mem_moved_log sound ready rooted done b
  · have other : ∀ grant, op ≠ .collect grant := fun grant same => collection ⟨grant, same⟩
    have quiet : ¬ Collects w.heap op := fun ⟨grant, same, _⟩ => other grant same
    rw [apply_log op other]
    simp only [quiet, false_and, or_false]

theorem moved_owner (sound : w.Sound) (ready : Ready w.heap) {f : Forward} {s : Tidy}
    (rooted : Rooted w.heap f s) (done : Done s) {i : Nat} (reach : w.heap.Reachable (.ext, i)) :
    (w.moved s).owner[(forwardMap f (.ext, i)).2]? = w.owner[i]? := by
  obtain ⟨j, found⟩ := all_forwarded rooted done reach
  have bound : i < w.owner.length := by
    rw [owner_length sound, handles_length]
    exact reachable_live ready.wf reach
  have inside : j < s.finish.handles.length := by
    rw [handles_length, finish_eq]
    exact rooted.inv.target _ j found
  obtain ⟨-, back⟩ := origin_spec ready rooted.inv (w := w) rfl inside
  have origin := congrArg Prod.snd
    (rooted.inv.injective (.ext, w.origin s j) (.ext, i) j rfl back found)
  dsimp only at origin
  rw [forwardMap_some found, Ledger.moved]
  dsimp only
  rw [getElem?_map, getElem?_range inside, Option.map_some, origin,
    getD_eq_getElem _ _ bound, getElem?_eq_getElem bound]

theorem collect_owner (sound : w.Sound) (unmarked : w.heap.Unmarked) (grant : Reservation → Bool)
    (success : (w.heap.collect grant).1 = .ok ()) : ∃ f, Isomorphism f w.heap (w.collect grant).heap ∧
      ∀ i, w.heap.Reachable (.ext, i) → (w.collect grant).owner[(f (.ext, i)).2]? = w.owner[i]? := by
  rcases collect_cases grant sound.wf unmarked with
    ⟨e, -, result⟩ | ⟨start, ready, -, f, rooted, done⟩
  · rw [result] at success
    cases success
  · rw [Ledger.collect, start]
    exact ⟨forwardMap f, finish_isomorphism ready rooted done,
      fun _ reach => moved_owner sound ready rooted done reach⟩

theorem destroy_log (sound : w.Sound) : w.destroy.log = w.log ++ w.owner := by
  have all : ((range w.heap.handles.length).filter fun i =>
      w.heap.cell (.ext, i) 0 ≠ zap) = range w.heap.handles.length := by
    apply filter_eq_self.mpr
    intro i inside
    apply decide_eq_true
    intro mark
    apply sound.handle
    rw [handles_eq, mem_map]
    exact ⟨i, inside, mark⟩
  simp only [Ledger.destroy]
  rw [all, ← owner_length sound]
  congr 1
  apply ext_getElem
  · simp
  · intro i inside _
    simp at inside
    simp [inside]

theorem destroy_released (sound : w.Sound) : w.destroy.heap.released = w.destroy.log.map w.id := by
  have all : w.heap.handles.filter (fun id => id ≠ zap) = w.heap.handles := by
    apply filter_eq_self.mpr
    intro id held
    apply decide_eq_true
    intro mark
    exact sound.handle (mark ▸ held)
  rw [destroy_log sound, map_append, sound.owned, ← sound.released]
  simp only [Ledger.destroy, Heap.destroy, Heap.releaseExternals, sound.hosted, if_true]
  congr 1

theorem count_once {l : List Nat} {n : Nat} (once : l.Perm (range n)) {b : Nat} (born : b < n) : l.count b = 1 := by
  rw [once.count_eq]
  exact count_eq_one_of_mem nodup_range (mem_range.mpr born)

end Runs
end Ledger

/-- Over every run whose collections start without forwarding marks, each handle is released
exactly once: at the first collection that finds its row unreachable, or at destruction. -/
theorem handle_released_once {w : Ledger} (run : Ledger.Run Op.Clean w) :
    (∀ b < w.births.length, w.log.count b + w.owner.count b = 1) ∧ w.heap.released = w.log.map w.id ∧
      (∀ op : Op, op.Allowed w.heap → op.Clean w.heap → ∀ b, b ∈ (w.apply op).log ↔ b ∈ w.log ∨
          Ledger.Collects w.heap op ∧ ∃ i, w.owner[i]? = some b ∧ ¬ w.heap.Reachable (.ext, i)) ∧
      (∀ grant, w.heap.Unmarked → (w.heap.collect grant).1 = .ok () →
        ∃ f, Isomorphism f w.heap (w.collect grant).heap ∧ ∀ i, w.heap.Reachable (.ext, i) →
            (w.collect grant).owner[(f (.ext, i)).2]? = w.owner[i]?) ∧
      w.destroy.heap.released = w.destroy.log.map w.id ∧ ∀ b < w.births.length, w.destroy.log.count b = 1 := by
  have sound := Ledger.run_sound run
  refine ⟨?_, sound.released, ?_, ?_, Ledger.destroy_released sound, ?_⟩
  · intro b born
    rw [← count_append]
    exact Ledger.count_once sound.once born
  · intro op _ clean b
    exact Ledger.apply_mem_log sound op clean b
  · intro grant unmarked success
    exact Ledger.collect_owner sound unmarked grant success
  · intro b born
    rw [Ledger.destroy_log sound]
    exact Ledger.count_once sound.once born

namespace Example

/-- One handle kept by a root, one dropped; then a collection. -/
def twoHandles : Ledger :=
  ((((Ledger.apply { heap := { hosted := true } } (.make .ext [7, nil])).apply
    (.enroll (pointer .ext 0 false))).apply (.make .ext [8, nil])).apply (.collect fun _ => true))

theorem twoHandles_run : Ledger.Run Op.Clean twoHandles :=
  .step (.step (.step (.step .start (by decide +kernel : Heap.RowOk _ _ _) trivial)
    (by decide +kernel : Heap.Valid _ _) trivial) (by decide +kernel : Heap.RowOk _ _ _) trivial) trivial
    (by decide +kernel : Heap.Unmarked _)

end Example

theorem handle_released_once_two : Example.twoHandles.log.count 1 + Example.twoHandles.owner.count 1 = 1 ∧
      Example.twoHandles.destroy.log.count 0 = 1 := by
  obtain ⟨once, -, -, -, -, ends⟩ := handle_released_once Example.twoHandles_run
  exact ⟨once 1 (by decide), ends 0 (by decide)⟩

namespace Tidy

structure Quiet (s : Tidy) : Prop where
  next : ∀ k, k ≠ .v32 → s.next.get k = []
  words : ∀ w ∈ s.words, (tagOf w).kind? = none

def SameButCursors (s u : Tidy) : Prop := u = { s with scan := u.scan, wordScan := u.wordScan }

variable {s u : Tidy}

theorem SameButCursors.trans {v : Tidy} (first : SameButCursors s u)
    (second : SameButCursors u v) : SameButCursors s v := by
  unfold SameButCursors at *
  rw [second, first]

theorem SameButCursors.quiet (same : SameButCursors s u) (quiet : Quiet s) : Quiet u := by
  unfold SameButCursors at same
  rw [same]
  exact ⟨quiet.next, quiet.words⟩

theorem pullLoop_quiet (k : Kind) (fuel : Nat) (quiet : Quiet s) : SameButCursors s (pullLoop k fuel s) := by
  induction fuel generalizing s with
  | zero => rfl
  | succ fuel ih =>
    rw [pullLoop]
    split
    · rename_i more
      have vector : k = .v32 := by
        by_contra other
        rw [quiet.next k other] at more
        cases more
      subst vector
      have first : SameButCursors s (pullRow .v32 s) := rfl
      exact first.trans (ih (first.quiet quiet))
    · rfl

theorem pullAll_quiet (fuel : Nat) (kinds : List Kind) (changed : Bool)
    (quiet : Quiet s) : SameButCursors s (pullAll fuel kinds changed s).2 := by
  induction kinds generalizing s changed with
  | nil => rfl
  | cons k rest ih =>
    have first := pullLoop_quiet k fuel quiet
    exact first.trans (ih _ (first.quiet quiet))

theorem pullWord_quiet (quiet : Quiet s) (more : s.wordScan < s.words.length) : SameButCursors s (pullWord s) := by
  have held : s.words.getD s.wordScan 0 ∈ s.words := mem_of_getD more
  have copied : copy (s.words.getD s.wordScan 0) s = (s.words.getD s.wordScan 0, s) := by
    rw [copy, quiet.words _ held]
  unfold SameButCursors
  simp only [pullWord, copied]
  rw [getD_eq_getElem _ _ more, set_getElem_self]

theorem pullWords_quiet (fuel : Nat) (changed : Bool) (quiet : Quiet s) :
    SameButCursors s (pullWords fuel changed s).2 := by
  induction fuel generalizing s changed with
  | zero => rfl
  | succ fuel ih =>
    rw [pullWords]
    split
    · rename_i more
      have first := pullWord_quiet quiet more
      exact first.trans (ih _ (first.quiet quiet))
    · rfl

theorem rounds_quiet (fuel n : Nat) (quiet : Quiet s) : SameButCursors s (rounds fuel n s) := by
  induction n generalizing s with
  | zero => rfl
  | succ n ih =>
    have rows := pullAll_quiet fuel Kind.all false quiet
    have words := pullWords_quiet fuel (pullAll fuel Kind.all false s).1 (rows.quiet quiet)
    have both : SameButCursors s (round fuel s).2 := rows.trans words
    simp only [rounds]
    split
    · exact both.trans (ih (both.quiet quiet))
    · exact both

end Tidy


theorem newWords_eq {h : Heap} {k : Kind} {d : List Word}
    (fits : h.words.length + d.length ≤ maxWord) (room : (h.table k).length ≤ maxIndex)
    (unmarked : UInt32.ofNat h.words.length ≠ zap) :
    h.newWords k d = .ok (pointer k (h.table k).length h.era, { h with
        vat := h.vat.set k (h.table k ++ [[UInt32.ofNat h.words.length, UInt32.ofNat d.length]])
        words := h.words ++ d }) := by
  have checked : poolSize h.words.length d.length = .ok (h.words.length + d.length) := by
    rw [poolSize, if_neg (by omega)]
  have made : ({ h with words := h.words ++ d } : Heap).make k
      [UInt32.ofNat h.words.length, UInt32.ofNat d.length] =
      .ok (pointer k (h.table k).length h.era, { h with
          vat := h.vat.set k (h.table k ++ [[UInt32.ofNat h.words.length, UInt32.ofNat d.length]])
          words := h.words ++ d }) := by
    simp only [Heap.make, getD_cons_zero]
    rw [if_neg unmarked, if_neg (by exact Nat.not_lt.mpr room)]
    rfl
  simp only [Heap.newWords, checked]
  split
  · exact made
  · exact made

namespace Example

/-- The pool offset that is also the forwarding mark. -/
def markOffset : Nat := 0x88000003

/-- A heap with vectors and handles only. -/
def pool (rows ext : Table) (words roots : List Word) (era : Bool) : Heap :=
  { vat := { v32 := rows, ext }, words, roots, era, hosted := true }

/-- A state of a collection that has found no pointer but to vectors. -/
def copying (rows ext : Table) (words roots : List Word) (era : Bool) (made : Table) (copied : List Word) : Tidy :=
  { old := pool rows ext words roots era, next := { v32 := made }, words := copied }

section Copying
variable {rows ext made : Table} {words copied roots : List Word} {era : Bool} {i : Nat}
  {off len : Word}

theorem pool_marked (live : i < rows.length) (row : rows.getD i [] = [off, len]) (y : Word) :
    ((pool rows ext words roots era).setColumn .v32 i 0 zap).setColumn .v32 i 1 y =
      pool (rows.set i [zap, y]) ext words roots era := by
  have first : (pool rows ext words roots era).setColumn .v32 i 0 zap =
      pool (rows.set i [zap, len]) ext words roots era := by
    change pool (rows.set i ((rows.getD i []).set 0 zap)) ext words roots era = _
    rw [row]
    rfl
  rw [first]
  change pool ((rows.set i [zap, len]).set i (((rows.set i [zap, len]).getD i []).set 1 y)) ext
    words roots era = _
  rw [getD_set, if_pos ⟨rfl, live⟩, set_set]
  rfl

theorem copying_open (small : i < 2 ^ 26) (live : i < rows.length)
    (row : rows.getD i [] = [off, len]) (open_row : off ≠ zap) :
    Tidy.copy (pointer .v32 i era) (copying rows ext words roots era made copied) = (pointer .v32 made.length (!era),
        copying (rows.set i [zap, pointer .v32 made.length (!era)]) ext words roots era
          (made ++ [[UInt32.ofNat copied.length, len]]) (copied ++ (words.drop off.toNat).take len.toNat)) := by
  have index : indexOf (pointer .v32 i era) = i := indexOf_pointer _ _ small
  have here : (pool rows ext words roots era).row .v32 i = [off, len] := row
  have current : eraOf (pointer .v32 i era) =
    (copying rows ext words roots era made copied).old.era := eraOf_pointer _ _ small
  have slice : (pool rows ext words roots era).slice .v32 (pointer .v32 i era) =
      (words.drop off.toNat).take len.toNat := by
    change (words.drop ((rows.getD (indexOf (pointer .v32 i era)) []).getD 0 0).toNat).take
      ((rows.getD (indexOf (pointer .v32 i era)) []).getD 1 0).toNat = _
    rw [index, row]
    rfl
  have unmarked : ((copying rows ext words roots era made copied).old.row .v32
      (indexOf (pointer .v32 i era))).getD 0 0 ≠ zap := by
    rw [index]
    change (rows.getD i []).getD 0 0 ≠ zap
    rw [row]
    exact open_row
  rw [Tidy.copy, tagOf_pointer _ _ small, kind?_tag]
  dsimp only
  rw [Tidy.push_fresh current unmarked]
  simp only [Tidy.pushed, Tidy.moved, index, wordPayload, if_true, copying]
  rw [pool_marked live row, slice, here]
  rfl

theorem copying_marked (small : i < 2 ^ 26) (row : rows.getD i [] = [zap, len]) : Tidy.copy (pointer .v32 i era)
    (copying rows ext words roots era made copied) = (len, copying rows ext words roots era made copied) := by
  have index : indexOf (pointer .v32 i era) = i := indexOf_pointer _ _ small
  have here : (copying rows ext words roots era made copied).old.row .v32 i = [zap, len] := row
  have current : eraOf (pointer .v32 i era) =
    (copying rows ext words roots era made copied).old.era := eraOf_pointer _ _ small
  rw [Tidy.copy, tagOf_pointer _ _ small, kind?_tag]
  dsimp only
  rw [Tidy.push_forwarded current (by rw [index, here]; rfl), index, here]
  rfl

theorem copying_roots {after : Table} {x y x' y' : Word} {s : Tidy}
    (first : Tidy.copy x (copying rows ext words [x, y] era [] []) = (x', s))
    (second : Tidy.copy y s = (y', copying after ext words [x, y] era made copied)) :
    Tidy.copyRoots (Tidy.copyPins { old := pool rows ext words [x, y] era }) =
      copying after ext words [x', y'] era made copied := by
  have pins : Tidy.copyPins { old := pool rows ext words [x, y] era } =
      copying rows ext words [x, y] era [] [] := rfl
  have values : Tidy.copyValues [x, y] (copying rows ext words [x, y] era [] []) =
      ([x', y'], copying after ext words [x, y] era made copied) := by
    simp only [Tidy.copyValues, first, second]
  have roots : (copying rows ext words [x, y] era [] []).old.roots = [x, y] := rfl
  rw [pins, Tidy.copyRoots, roots, values]
  rfl

theorem copying_finish (fuel : Nat) {u : Tidy} (words_plain : ∀ w ∈ copied, (tagOf w).kind? = none)
    (same : Tidy.copyRoots (Tidy.copyPins u) = copying rows ext words roots era made copied) : ∃ s, u.copied fuel = s ∧
    s.old = pool rows ext words roots era ∧ s.finish = (copying rows ext words roots era made copied).finish := by
  have quiet : Tidy.Quiet (copying rows ext words roots era made copied) := by
    refine ⟨?_, words_plain⟩
    intro k other
    cases k <;> first | rfl | exact absurd rfl other
  have cursors := Tidy.rounds_quiet fuel fuel quiet
  rw [← same] at cursors
  refine ⟨u.copied fuel, rfl, ?_, ?_⟩
  · rw [Tidy.copied, cursors, same]
    rfl
  · rw [Tidy.copied, cursors, same]
    rfl

end Copying

/-- One word of garbage, a vector that will fill the pool up to offset `n`, and one behind it. -/
def early (n : Nat) : Heap :=
  pool [[0, 1], [1, UInt32.ofNat n], [UInt32.ofNat (n + 1), 1]] []
    ([0] ++ replicate n 0 ++ [0]) [pointer .v32 1 false, pointer .v32 2 false] false

/-- The same after a collection: the last vector starts at offset `n`. -/
def late (n : Nat) (ext : Table) (last : Word) : Heap :=
  pool [[0, UInt32.ofNat n], [UInt32.ofNat n, 1]] ext (replicate n 0 ++ [last])
    [pointer .v32 0 true, pointer .v32 1 true] true

variable {n : Nat} {rows : Table}

theorem early_copied (fits : n + 2 ≤ maxWord) (near : UInt32.ofNat (n + 1) ≠ zap) :
    Tidy.copyRoots (Tidy.copyPins { old := early n }) =
      copying [[0, 1], [zap, pointer .v32 0 true], [zap, pointer .v32 1 true]] []
        ([0] ++ replicate n 0 ++ [0]) [pointer .v32 0 true, pointer .v32 1 true] false
        [[0, UInt32.ofNat n], [UInt32.ofNat n, 1]] (replicate n 0 ++ [0]) := by
  have size : (UInt32.ofNat n).toNat = n := toNat_ofNat_of_le (by omega)
  have place : (UInt32.ofNat (n + 1)).toNat = n + 1 := toNat_ofNat_of_le (by omega)
  have first : Tidy.copy (pointer .v32 1 false)
      (copying [[0, 1], [1, UInt32.ofNat n], [UInt32.ofNat (n + 1), 1]] []
        ([0] ++ replicate n 0 ++ [0]) [pointer .v32 1 false, pointer .v32 2 false] false [] []) =
      (pointer .v32 0 true, copying [[0, 1], [zap, pointer .v32 0 true], [UInt32.ofNat (n + 1), 1]] []
          ([0] ++ replicate n 0 ++ [0]) [pointer .v32 1 false, pointer .v32 2 false] false
          [[0, UInt32.ofNat n]] (replicate n 0)) := by
    rw [copying_open (by decide) (by decide : 1 < 3) rfl (by decide : (1 : Word) ≠ zap), size]
    simp
  have second : Tidy.copy (pointer .v32 2 false)
      (copying [[0, 1], [zap, pointer .v32 0 true], [UInt32.ofNat (n + 1), 1]] []
        ([0] ++ replicate n 0 ++ [0]) [pointer .v32 1 false, pointer .v32 2 false] false
        [[0, UInt32.ofNat n]] (replicate n 0)) =
      (pointer .v32 1 true, copying [[0, 1], [zap, pointer .v32 0 true], [zap, pointer .v32 1 true]] []
          ([0] ++ replicate n 0 ++ [0]) [pointer .v32 1 false, pointer .v32 2 false] false
          [[0, UInt32.ofNat n], [UInt32.ofNat n, 1]] (replicate n 0 ++ [0])) := by
    rw [copying_open (by decide) (by decide : 2 < 3) rfl near, place, length_replicate]
    simp
  exact copying_roots first second

/-- After that collection the mark makes the next one take the last vector for a forwarded one:
its length is returned in place of a pointer. -/
theorem late_copied (fits : n + 2 ≤ maxWord) (mark : UInt32.ofNat n = zap) (ext : Table) (last : Word) :
    Tidy.copyRoots (Tidy.copyPins { old := late n ext last }) =
      copying [[zap, pointer .v32 0 false], [zap, 1]] ext (replicate n 0 ++ [last])
        [pointer .v32 0 false, 1] true [[0, zap]] (replicate n 0) := by
  have size : zap.toNat = n := by
    rw [← mark]
    exact toNat_ofNat_of_le (by omega)
  have first : Tidy.copy (pointer .v32 0 true)
      (copying [[0, zap], [zap, 1]] ext (replicate n 0 ++ [last])
        [pointer .v32 0 true, pointer .v32 1 true] true [] []) =
      (pointer .v32 0 false, copying [[zap, pointer .v32 0 false], [zap, 1]] ext (replicate n 0 ++ [last])
          [pointer .v32 0 true, pointer .v32 1 true] true [[0, zap]] (replicate n 0)) := by
    rw [copying_open (by decide) (by decide : 0 < 2) rfl (by decide : (0 : Word) ≠ zap), size]
    simp
  rw [late, mark]
  exact copying_roots first (copying_marked (by decide) rfl)

abbrev Reached : Ledger → Prop := Ledger.Run fun _ _ => True

theorem reached_apply {w v : Ledger} (op : Op) (run : Reached w) (allowed : op.Allowed w.heap)
    (same : w.apply op = v) : Reached v := same ▸ run.step allowed trivial

def vectors (h : Heap) : Ledger := { heap := h }

theorem reached_newWords {words d : List Word} (run : Reached (vectors (pool rows [] words [] false)))
    (valid : ∀ w ∈ d, (pool rows [] words [] false).Valid w) (fits : words.length + d.length ≤ maxWord)
    (room : rows.length ≤ maxIndex) (unmarked : UInt32.ofNat words.length ≠ zap) : Reached
    (vectors (pool (rows ++ [[UInt32.ofNat words.length, UInt32.ofNat d.length]]) [] (words ++ d) [] false)) := by
  have made : (pool rows [] words [] false).newWords .v32 d = .ok (pointer .v32 rows.length false,
      pool (rows ++ [[UInt32.ofNat words.length, UInt32.ofNat d.length]]) [] (words ++ d) []
        false) := newWords_eq fits room unmarked
  apply reached_apply (.newWords .v32 d) run ⟨rfl, valid⟩
  simp only [vectors, Ledger.apply, Heap.apply, made, attempt]
  rfl

theorem valid_zeros (h : Heap) (n : Nat) : ∀ w ∈ replicate n (0 : Word), h.Valid w := by
  intro w held a points
  rw [eq_of_mem_replicate held] at points
  cases points

theorem pool_valid {words roots : List Word} {era : Bool} {i : Nat} (small : i < 2 ^ 26) (live : i < rows.length)
    (ext : Table) : (pool rows ext words roots era).Valid (pointer .v32 i era) := by
  intro a points
  rw [addr_pointer _ _ small] at points
  cases points
  exact ⟨eraOf_pointer _ _ small, live⟩

theorem early_reached (fits : n + 2 ≤ maxWord) (near : UInt32.ofNat (n + 1) ≠ zap) : Reached (vectors (early n)) := by
  have fresh : Reached (vectors (pool [] [] [] [] false)) := .start
  have first : Reached (vectors (pool [[0, 1]] [] [0] [] false)) :=
    reached_newWords fresh (valid_zeros _ 1) (by decide) (by decide) (by decide)
  have second := reached_newWords first (valid_zeros _ n)
    (by rw [length_replicate, length_singleton]; omega) (by decide) (by decide)
  rw [length_replicate] at second
  have size : ([0] ++ replicate n (0 : Word)).length = n + 1 := by simp
  have third := reached_newWords second (valid_zeros _ 1) (by rw [size]; exact fits)
    (Nat.le_of_ble_eq_true rfl) (by rw [size]; exact near)
  rw [size] at third
  have fourth := reached_apply (.enroll (pointer .v32 2 false)) third
    (pool_valid (by decide) (by decide : 2 < 3) []) rfl
  exact reached_apply (.enroll (pointer .v32 1 false)) fourth
    (pool_valid (by decide) (by decide : 1 < 3) []) rfl

theorem pool_reserved {ext : Table} {words roots : List Word} {era : Bool}
    (few : rows.length ≤ 2 ^ 26) (fewer : ext.length ≤ 2 ^ 26)
    (fits : (rows.map fun data => (data.getD 1 0).toNat).sum ≤ maxWord) : Reserved (pool rows ext words roots era) := by
  refine ⟨?_, ?_, Nat.zero_le _⟩
  · intro k
    cases k <;> first | exact few | exact fewer | exact Nat.zero_le _
  · exact fits

def granted : Reservation → Bool := fun _ => true

theorem late_reached (fits : n + 2 ≤ maxWord) (near : UInt32.ofNat (n + 1) ≠ zap) :
    Reached (vectors (late n [] 0)) := by
  have size : (UInt32.ofNat n).toNat = n := toNat_ofNat_of_le (by omega)
  have reserved : Reserved (early n) :=
    pool_reserved (Nat.le_of_ble_eq_true rfl) (Nat.zero_le _) (by
      change 1 + ((UInt32.ofNat n).toNat + (1 + 0)) ≤ maxWord
      omega)
  have ready : tidy granted (early n) = .ok { old := early n } :=
    tidy_granted (fun _ => rfl) reserved
  have plain : ∀ w ∈ replicate n (0 : Word) ++ [0], (tagOf w).kind? = none := by
    intro w held
    rw [← replicate_succ'] at held
    rw [eq_of_mem_replicate held]
    rfl
  obtain ⟨s, copied, -, finish⟩ := copying_finish (collectFuel (early n)) plain
    (early_copied fits near)
  apply reached_apply (.collect granted) (early_reached fits near) trivial
  simp only [vectors, Ledger.apply, Ledger.collect, ready, copied, Ledger.moved, finish]
  rfl

/-- A handle is made and stored in the last vector. -/
def stored (n : Nat) : Ledger :=
  { heap := late n [[7, nil]] (pointer .ext 0 true), births := [7], owner := [0] }

theorem stored_reached (fits : n + 2 ≤ maxWord) (near : UInt32.ofNat (n + 1) ≠ zap) : Reached (stored n) := by
  have size : (UInt32.ofNat n).toNat = n := toNat_ofNat_of_le (by omega)
  have row : (late n [] 0).RowOk .ext [7, nil] := by
    refine ⟨rfl, ?_, nofun, nofun, nofun⟩
    intro c column a points
    have second : c = 1 := mem_singleton.mp column
    rw [second] at points
    cases points
  have made : Reached { heap := late n [[7, nil]] 0, births := [7], owner := [0] } :=
    reached_apply (.make .ext [7, nil]) (late_reached fits near) row rfl
  have index : indexOf (pointer .v32 1 true) = 1 := indexOf_pointer _ _ (by decide)
  have points : (late n [[7, nil]] 0).Points .v32 (pointer .v32 1 true) :=
    ⟨tagOf_pointer _ _ (by decide), pool_valid (by decide) (by decide : 1 < 2) _⟩
  have handle : (late n [[7, nil]] 0).Valid (pointer .ext 0 true) := by
    intro a target
    rw [addr_pointer _ _ (by decide)] at target
    cases target
    exact ⟨eraOf_pointer _ _ (by decide), Nat.zero_lt_one⟩
  have inside : 0 < ((late n [[7, nil]] 0).get .v32 .len (pointer .v32 1 true)).toNat := by
    rw [Heap.get, Heap.read, index]
    exact Nat.zero_lt_one
  apply reached_apply (.setWord .v32 (pointer .v32 1 true) 0 (pointer .ext 0 true)) made
    ⟨points, rfl, inside, handle⟩
  have written : (late n [[7, nil]] 0).setWord .v32 (pointer .v32 1 true) 0 (pointer .ext 0 true) =
      late n [[7, nil]] (pointer .ext 0 true) := by
    rw [Heap.setWord, Heap.get, Heap.read, index]
    change pool _ _ ((replicate n (0 : Word) ++ [0]).set ((UInt32.ofNat n).toNat + 0)
      (pointer .ext 0 true)) _ _ = _
    rw [size, late]
    congr 1
    simp
  simp only [Ledger.apply, Heap.apply, written]
  rfl

theorem stored_reachable (fits : n + 2 ≤ maxWord) : (stored n).heap.Reachable (.ext, 0) := by
  have size : (UInt32.ofNat n).toNat = n := toNat_ofNat_of_le (by omega)
  have root : (stored n).heap.Root (.v32, 1) :=
    ⟨pointer .v32 1 true, Or.inl (by simp [stored, late, pool]), addr_pointer _ _ (by decide)⟩
  have payload : (stored n).heap.payload (.v32, 1) = [pointer .ext 0 true] := by
    change ((replicate n 0 ++ [pointer .ext 0 true]).drop (UInt32.ofNat n).toNat).take 1 = _
    rw [size]
    simp
  apply (Reaches.of_root root).step
  refine ⟨pointer .ext 0 true, ?_, addr_pointer _ _ (by decide)⟩
  rw [Heap.fields, payload]
  exact mem_singleton.mpr rfl

theorem stored_collected (fits : n + 2 ≤ maxWord) (mark : UInt32.ofNat n = zap) :
    ((stored n).apply (.collect granted)).log = [0] ∧ ((stored n).apply (.collect granted)).heap.released = [7] := by
  have size : (UInt32.ofNat n).toNat = n := toNat_ofNat_of_le (by omega)
  have reserved : Reserved (stored n).heap :=
    pool_reserved (Nat.le_of_ble_eq_true rfl) (Nat.le_of_ble_eq_true rfl) (by
      change (UInt32.ofNat n).toNat + (1 + 0) ≤ maxWord
      omega)
  have ready : tidy granted (stored n).heap = .ok { old := (stored n).heap } :=
    tidy_granted (fun _ => rfl) reserved
  have plain : ∀ w ∈ replicate n (0 : Word), (tagOf w).kind? = none := by
    intro w held
    rw [eq_of_mem_replicate held]
    rfl
  obtain ⟨s, copied, old, finish⟩ := copying_finish (u := { old := (stored n).heap })
    (collectFuel (stored n).heap) plain (late_copied fits mark [[7, nil]] (pointer .ext 0 true))
  have left : (stored n).stranded s = [0] := by
    have free : s.forwarded 0 = none := by
      rw [Tidy.forwarded, old]
      rfl
    change (range 1).filter (fun i => s.forwarded i = none) = [0]
    simp [free]
  have result : (stored n).apply (.collect granted) = (stored n).moved s := by
    simp only [Ledger.apply, Ledger.collect, ready, copied]
  rw [result]
  constructor
  · rw [Ledger.moved, left]
    rfl
  · rw [Ledger.moved, finish]
    rfl

end Example

/-- A vector that a collection has put at the offset equal to the mark is taken for forwarded by
the next one, and the handle it holds is released while it can still be reached. -/
theorem reachable_handle_released : ∃ w : Ledger, Ledger.Run (fun _ _ => True) w ∧ w.owner = [0] ∧ w.log = [] ∧
      w.heap.Reachable (.ext, 0) ∧ (w.apply (.collect fun _ => true)).log = [0] ∧
      (w.apply (.collect fun _ => true)).heap.released = [7] := by
  have fits : Example.markOffset + 2 ≤ maxWord := by decide
  have near : UInt32.ofNat (Example.markOffset + 1) ≠ zap := by decide
  have mark : UInt32.ofNat Example.markOffset = zap := by decide
  obtain ⟨log, released⟩ := Example.stored_collected fits mark
  exact ⟨Example.stored Example.markOffset, Example.stored_reached fits near, rfl, rfl,
    Example.stored_reachable fits, log, released⟩

end Nxt.Wisp
