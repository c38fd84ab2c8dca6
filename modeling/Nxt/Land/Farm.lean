import Nxt.Land.Members
import Nxt.Buffers.Ring

/- The slot farm of farm.hpp: a feed of free indices whose buffer is a hot ring and whose source
   is a cold mask. -/
namespace Nxt.Land
open List
open Nxt.Buffers

structure Farm where
  hot : Buffers.Ring Nat
  cold : Mask
  deriving DecidableEq

namespace Farm

def ofCapacity (slots hotCapacity : Nat) : Farm :=
  { hot := Buffers.Ring.fresh hotCapacity, cold := (Mask.ofCapacity slots).fill }

/-- The loop of `stream_more`: the indices put into the sink, and the mask that is left. -/
def streamMore : Nat → Mask → List Nat × Mask
  | 0, cold => ([], cold)
  | room + 1, cold =>
      if cold.empty then ([], cold)
      else
        let taken := cold.take
        let rest := streamMore room taken.2
        (taken.1 :: rest.1, rest.2)

def takeBuffered (f : Farm) : Option Nat × Farm :=
  (f.hot.data.getD f.hot.seek none, { f with hot := (f.hot.destroyPrefix 1).resetIfEmpty })

/-- `fill_more_into_capacity`: the source writes into the free run of the ring. -/
def fillMore (f : Farm) : Farm :=
  let dst := f.hot.unusedCapacity
  let got := streamMore dst.len f.cold
  { hot := (f.hot.constructRun dst.off got.1).advanceConstructed got.1.length, cold := got.2 }

/-- `take_direct_slow`, for a feed with no buffer. -/
def takeDirect (f : Farm) : Option Nat × Farm :=
  let got := streamMore 1 f.cold
  (got.1.head?, { f with cold := got.2 })

/-- The feed's `take`. -/
def take (f : Farm) : Option Nat × Farm :=
  if f.hot.size ≠ 0 then f.takeBuffered
  else if f.hot.capacity = 0 then f.takeDirect
  else
    let f := f.fillMore
    if f.hot.size ≠ 0 then f.takeBuffered else (none, f)

def alloc (f : Farm) : Option Nat × Farm := f.take

def tryAlloc (f : Farm) : Option Nat × Farm :=
  if f.hot.size ≠ 0 then f.takeBuffered
  else if f.cold.empty then (none, f)
  else
    let taken := f.cold.take
    (some taken.1, { f with cold := taken.2 })

def give (f : Farm) (index : Nat) : Farm :=
  if f.hot.unusedCapacitySize ≠ 0 then
    { f with hot := (f.hot.constructAt f.hot.writeIndex index).advanceConstructed 1 }
  else { f with cold := f.cold.give index }

end Farm

inductive Op where
  | alloc
  | tryAlloc
  | take
  | give (index : Nat)
  deriving DecidableEq

def Op.run : Op → Farm → Option Nat × Farm
  | .alloc, f => f.alloc
  | .tryAlloc, f => f.tryAlloc
  | .take, f => f.take
  | .give index, f => (none, f.give index)

structure Books where
  farm : Farm
  out : List Nat
  deriving DecidableEq

namespace Books

def start (slots hotCapacity : Nat) : Books := { farm := .ofCapacity slots hotCapacity, out := [] }

def step (b : Books) (op : Op) : Books where
  farm := (op.run b.farm).2
  out := match op with
    | .give index => b.out.erase index
    | _ => (op.run b.farm).1.toList ++ b.out

def Allowed (b : Books) : List Op → Prop
  | [] => True
  | op :: rest => (∀ index, op = .give index → index ∈ b.out) ∧ (b.step op).Allowed rest

instance Allowed.decidable (b : Books) : ∀ ops, Decidable (b.Allowed ops)
  | [] => isTrue trivial
  | .alloc :: rest => @decidable_of_iff _ _ (by simp [Allowed]) (decidable (b.step .alloc) rest)
  | .tryAlloc :: rest => @decidable_of_iff _ _ (by simp [Allowed]) (decidable (b.step .tryAlloc) rest)
  | .take :: rest => @decidable_of_iff _ _ (by simp [Allowed]) (decidable (b.step .take) rest)
  | .give index :: rest =>
      have := decidable (b.step (.give index)) rest
      @decidable_of_iff _ (index ∈ b.out ∧ (b.step (.give index)).Allowed rest)
        (by simp [Allowed]) instDecidableAnd

end Books

/-! ### What is where -/

structure Split (capacity : Nat) (out hot : List Nat) (cold : Nat → Prop) : Prop where
  all : ∀ i, i < capacity ↔ i ∈ out ∨ i ∈ hot ∨ cold i
  nodup : (out ++ hot).Nodup
  apart : ∀ i, i ∈ out ∨ i ∈ hot → ¬ cold i

section Moves
variable {capacity index : Nat} {out hot : List Nat} {cold : Nat → Prop}

theorem Split.handHot (s : Split capacity out (index :: hot) cold) :
    Split capacity (index :: out) hot cold where
  all := by
    intro i
    rw [s.all, mem_cons, mem_cons]
    tauto
  nodup := perm_middle.nodup_iff.mp s.nodup
  apart := by
    intro i held
    apply s.apart
    rw [mem_cons] at held ⊢
    tauto

section
variable (s : Split capacity out hot cold)
include s

theorem Split.handCold (held : cold index) :
    Split capacity (index :: out) hot (fun i => cold i ∧ i ≠ index) where
  all := by
    intro i
    rw [s.all, mem_cons]
    by_cases here : i = index
    · subst here
      tauto
    · tauto
  nodup := by
    rw [cons_append, nodup_cons, mem_append]
    exact ⟨fun elsewhere => s.apart index elsewhere held, s.nodup⟩
  apart := by
    intro i held' both
    rw [mem_cons, or_assoc] at held'
    exact s.apart i (held'.resolve_left both.2) both.1

theorem Split.warm (held : cold index) :
    Split capacity out (hot ++ [index]) (fun i => cold i ∧ i ≠ index) where
  all := by
    intro i
    rw [s.all, mem_append, mem_singleton]
    by_cases here : i = index
    · subst here
      tauto
    · tauto
  nodup := by
    rw [← append_assoc]
    refine nodup_append.mpr ⟨s.nodup, nodup_singleton _, ?_⟩
    rintro i before _ last rfl
    rw [mem_singleton.mp last] at before
    exact s.apart index (mem_append.mp before) held
  apart := by
    intro i held' both
    rw [mem_append, mem_singleton, ← or_assoc] at held'
    exact s.apart i (held'.resolve_right both.2) both.1

theorem Split.backHot (held : index ∈ out) :
    Split capacity (out.erase index) (hot ++ [index]) cold := by
  have once : out.Nodup := (nodup_append.mp s.nodup).1
  refine ⟨fun i => ?_, ?_, fun i held' => ?_⟩
  · rw [s.all, mem_append, mem_singleton, once.mem_erase_iff]
    by_cases here : i = index
    · subst here
      tauto
    · tauto
  · have same : (out ++ hot).Perm (out.erase index ++ (hot ++ [index])) :=
      ((perm_cons_erase held).append_right hot).trans <|
        ((perm_append_singleton index (out.erase index ++ hot)).symm).trans
          (append_assoc _ _ _ ▸ List.Perm.refl _)
    exact same.nodup_iff.mp s.nodup
  · apply s.apart
    rw [mem_append, mem_singleton] at held'
    rcases held' with rest | before | rfl
    · exact Or.inl (mem_of_mem_erase rest)
    · exact Or.inr before
    · exact Or.inl held

theorem Split.backCold (held : index ∈ out) :
    Split capacity (out.erase index) hot (fun i => cold i ∨ i = index) := by
  have once : out.Nodup := (nodup_append.mp s.nodup).1
  refine ⟨fun i => ?_, ?_, fun i held' => ?_⟩
  · rw [s.all, once.mem_erase_iff]
    by_cases here : i = index
    · subst here
      tauto
    · tauto
  · exact s.nodup.sublist (List.Sublist.append_right erase_sublist hot)
  · rintro (before | rfl)
    · exact s.apart i (held'.imp_left mem_of_mem_erase) before
    · rcases held' with rest | in_ring
      · exact (once.mem_erase_iff.mp rest).1 rfl
      · exact disjoint_of_nodup_append s.nodup held in_ring

end

end Moves

/-! ### The mask as a set -/

/-- The mask and the ring, as the set and the queue that they hold. -/
structure Farm.Holds (capacity : Nat) (f : Farm) (hot : List Nat) (cold : Nat → Prop) : Prop where
  layout : f.cold.layout = Layout.of capacity
  cold : Layout.Reflects capacity f.cold.words cold
  hot : f.hot.Holds hot

/-! ### Steps -/

namespace Farm
variable {capacity : Nat} {f : Farm} {out hot : List Nat} {cold : Nat → Prop}

theorem streamMore_spec (allowed : capacity ≤ Layout.maxCapacity) (room : Nat) :
    ∀ (m : Mask) (hot : List Nat) (cold : Nat → Prop), m.layout = Layout.of capacity →
    Layout.Reflects capacity m.words cold → Split capacity out hot cold →
    ∃ cold', (streamMore room m).2.layout = Layout.of capacity ∧
      Layout.Reflects capacity (streamMore room m).2.words cold' ∧
      Split capacity out (hot ++ (streamMore room m).1) cold' ∧ (streamMore room m).1.length ≤ room ∧
      ((streamMore room m).1 = [] → 0 < room → ∀ i, ¬ cold' i) := by
  induction room with
  | zero =>
    intro m hot cold layout said split
    refine ⟨cold, layout, said, ?_, Nat.le_refl _, nofun⟩
    rw [streamMore, append_nil]
    exact split
  | succ room ih =>
    intro m hot cold layout said split
    rw [streamMore]
    by_cases none : m.empty = true
    · rw [if_pos none]
      refine ⟨cold, layout, said, ?_, Nat.zero_le _, fun _ _ =>
        (Mask.empty_iff said allowed).mp none⟩
      rw [append_nil]
      exact split
    · rw [if_neg none]
      rw [Bool.not_eq_true] at none
      obtain ⟨held, layout', said'⟩ := Mask.take_spec layout said allowed none
      obtain ⟨cold', last, rest, moved, few, -⟩ := ih _ _ _ layout' said' (split.warm held)
      rw [← append_cons] at moved
      exact ⟨cold', last, rest, moved, Nat.succ_le_succ few, nofun⟩

theorem front_holds {index : Nat} {rest : List Nat} {r : Buffers.Ring Nat} (holds : r.Holds (index :: rest)) :
    r.data.getD r.seek none = some index ∧ (r.destroyPrefix 1).resetIfEmpty.Holds rest := by
  have fits := holds.fits
  rw [length_cons] at fits
  have first := holds.slot 0 (by omega)
  rw [Nat.add_zero, Nat.mod_eq_of_lt (holds.cursor (by omega))] at first
  refine ⟨by rw [getD_eq_getElem?_getD, first]; rfl, ?_⟩
  exact Buffers.Ring.reset_holds (Buffers.Ring.destroyPrefix_holds holds (by simp))

structure Handed (capacity : Nat) (out : List Nat) (answer : Option Nat × Farm) : Prop where
  fresh : ∀ i, answer.1 = some i → i < capacity ∧ i ∉ out
  none_left : answer.1 = none → ∀ i, i < capacity → i ∈ out
  kept : ∃ hot cold, answer.2.Holds capacity hot cold ∧
    Split capacity (answer.1.toList ++ out) hot cold

theorem Handed.of_some {index : Nat} {g : Farm} {hot : List Nat} {cold : Nat → Prop}
    (holds : g.Holds capacity hot cold) (split : Split capacity (index :: out) hot cold) :
    Handed capacity out (some index, g) where
  fresh := by
    rintro i ⟨⟩
    have once := split.nodup
    rw [cons_append, nodup_cons, mem_append] at once
    exact ⟨(split.all index).mpr (Or.inl mem_cons_self), fun held => once.1 (Or.inl held)⟩
  none_left := nofun
  kept := ⟨hot, cold, holds, split⟩

theorem Handed.of_none {g : Farm} {cold : Nat → Prop} (holds : g.Holds capacity [] cold)
    (split : Split capacity out [] cold) (blank : ∀ i, ¬ cold i) :
    Handed capacity out (none, g) where
  fresh := nofun
  none_left := by
    intro _ i below
    rcases (split.all i).mp below with held | held | held
    · exact held
    · exact absurd held not_mem_nil
    · exact absurd held (blank i)
  kept := ⟨[], cold, holds, split⟩

theorem takeBuffered_handed (holds : f.Holds capacity hot cold) (split : Split capacity out hot cold)
    (some_hot : f.hot.size ≠ 0) : Handed capacity out f.takeBuffered := by
  cases hot with
  | nil => exact absurd holds.hot.size some_hot
  | cons index rest =>
    obtain ⟨first, left⟩ := front_holds holds.hot
    rw [takeBuffered, first]
    exact .of_some ⟨holds.layout, holds.cold, left⟩ split.handHot

theorem take_handed (allowed : capacity ≤ Layout.maxCapacity) (holds : f.Holds capacity hot cold)
    (split : Split capacity out hot cold) : Handed capacity out f.take := by
  rw [take]
  by_cases some_hot : f.hot.size ≠ 0
  · rw [if_pos some_hot]
    exact takeBuffered_handed holds split some_hot
  · rw [if_neg some_hot]
    have blank : hot = [] := by
      have size := holds.hot.size
      exact length_eq_zero_iff.mp (by omega)
    subst blank
    by_cases no_ring : f.hot.capacity = 0
    · rw [if_pos no_ring, takeDirect]
      obtain ⟨cold', layout, said, moved, few, ended⟩ :=
        streamMore_spec allowed 1 f.cold [] cold holds.layout holds.cold split
      set got := streamMore 1 f.cold
      rw [nil_append] at moved
      cases list : got.1 with
      | nil =>
        rw [list] at moved ended
        exact .of_none ⟨layout, said, holds.hot⟩ moved (ended rfl Nat.one_pos)
      | cons index rest =>
        rw [list] at moved few
        have alone : rest = [] := length_eq_zero_iff.mp (by simpa using few)
        subst alone
        exact .of_some ⟨layout, said, holds.hot⟩ moved.handHot
    · rw [if_neg no_ring]
      -- An empty ring has its cursor at the start or not; some room is free either way.
      have room : 0 < f.hot.unusedCapacity.len :=
        (Buffers.Ring.unused_pos_iff holds.hot).mpr (by omega)
      obtain ⟨cold', layout, said, moved, few, ended⟩ :=
        streamMore_spec allowed f.hot.unusedCapacity.len f.cold [] cold holds.layout holds.cold split
      have filled := (Buffers.Ring.append_holds holds.hot _ few).1
      have holds' : f.fillMore.Holds capacity
          ([] ++ (streamMore f.hot.unusedCapacity.len f.cold).1) cold' := ⟨layout, said, filled⟩
      by_cases now : f.fillMore.hot.size ≠ 0
      · rw [if_pos now]
        exact takeBuffered_handed holds' moved now
      · rw [if_neg now]
        have nothing : (streamMore f.hot.unusedCapacity.len f.cold).1 = [] := by
          have size := holds'.hot.size
          rw [nil_append] at size
          exact length_eq_zero_iff.mp (by omega)
        rw [nothing] at moved holds'
        exact .of_none holds' moved (ended nothing room)

theorem tryAlloc_handed (allowed : capacity ≤ Layout.maxCapacity) (holds : f.Holds capacity hot cold)
    (split : Split capacity out hot cold) : Handed capacity out f.tryAlloc := by
  rw [tryAlloc]
  by_cases some_hot : f.hot.size ≠ 0
  · rw [if_pos some_hot]
    exact takeBuffered_handed holds split some_hot
  · rw [if_neg some_hot]
    have blank : hot = [] := by
      have size := holds.hot.size
      exact length_eq_zero_iff.mp (by omega)
    subst blank
    by_cases none : f.cold.empty = true
    · rw [if_pos none]
      exact .of_none holds split ((Mask.empty_iff holds.cold allowed).mp none)
    · rw [if_neg none]
      rw [Bool.not_eq_true] at none
      obtain ⟨held, layout, said⟩ := Mask.take_spec holds.layout holds.cold allowed none
      exact .of_some ⟨layout, said, holds.hot⟩ (split.handCold held)

theorem give_kept {index : Nat} (holds : f.Holds capacity hot cold)
    (split : Split capacity out hot cold) (held : index ∈ out) :
    ∃ hot cold, (f.give index).Holds capacity hot cold ∧ Split capacity (out.erase index) hot cold := by
  rw [give]
  by_cases room : f.hot.unusedCapacitySize ≠ 0
  · rw [if_pos room]
    have free : f.hot.size < f.hot.capacity := by
      rw [Buffers.Ring.unusedCapacitySize] at room
      omega
    exact ⟨_, _, ⟨holds.layout, holds.cold, Buffers.Ring.emplace_holds holds.hot free index⟩,
      split.backHot held⟩
  · rw [if_neg room]
    have below := (split.all index).mpr (Or.inl held)
    refine ⟨_, _, ⟨holds.layout, ?_, holds.hot⟩, split.backCold held⟩
    change Layout.Reflects capacity (f.cold.layout.insert f.cold.words index) _
    rw [holds.layout]
    exact Layout.insert_reflects holds.cold below

theorem ofCapacity_holds (capacity hotCapacity : Nat) :
    (ofCapacity capacity hotCapacity).Holds capacity [] (fun i => i < capacity) where
  layout := rfl
  cold := Layout.fill_reflects (Layout.blank_reflects length_replicate fun _ held => (mem_replicate.mp held).2)
  hot := Buffers.Ring.fresh_holds hotCapacity

end Farm

/-! ### Runs -/

namespace Books
variable {capacity : Nat}

def Kept (capacity : Nat) (b : Books) : Prop :=
  ∃ hot cold, b.farm.Holds capacity hot cold ∧ Split capacity b.out hot cold

theorem start_kept (capacity hotCapacity : Nat) : Kept capacity (start capacity hotCapacity) := by
  refine ⟨[], fun i => i < capacity, Farm.ofCapacity_holds capacity hotCapacity, ?_⟩
  exact ⟨fun i => by simp [start], nodup_nil, fun i held => by simp [start] at held⟩

theorem Kept.handed {b : Books} (kept : Kept capacity b) (allowed : capacity ≤ Layout.maxCapacity)
    (op : Op) (asks : ∀ index, op ≠ .give index) : Farm.Handed capacity b.out (op.run b.farm) := by
  obtain ⟨hot, cold, holds, split⟩ := kept
  cases op with
  | alloc => exact Farm.take_handed allowed holds split
  | tryAlloc => exact Farm.tryAlloc_handed allowed holds split
  | take => exact Farm.take_handed allowed holds split
  | give index => exact absurd rfl (asks index)

theorem Kept.step {b : Books} (kept : Kept capacity b) (allowed : capacity ≤ Layout.maxCapacity)
    {op : Op} (owned : ∀ index, op = .give index → index ∈ b.out) : Kept capacity (b.step op) := by
  cases op with
  | give index =>
    obtain ⟨hot, cold, holds, split⟩ := kept
    exact Farm.give_kept holds split (owned index rfl)
  | alloc => exact (kept.handed allowed .alloc nofun).kept
  | tryAlloc => exact (kept.handed allowed .tryAlloc nofun).kept
  | take => exact (kept.handed allowed .take nofun).kept

theorem Kept.run (allowed : capacity ≤ Layout.maxCapacity) (ops : List Op) :
    ∀ b : Books, Kept capacity b → b.Allowed ops → Kept capacity (ops.foldl Books.step b) := by
  induction ops with
  | nil => exact fun _ kept _ => kept
  | cons op rest ih => exact fun b kept lawful => ih _ (kept.step allowed lawful.1) lawful.2

/-- After every run each index is handed out, or in the ring, or in the mask, and in one of them
    once; the next operation that asks for an index gets one that is not handed out, unless all
    are. -/
theorem slots_conserved (capacity hotCapacity : Nat) (allowed : capacity ≤ Layout.maxCapacity)
    (ops : List Op) (lawful : (start capacity hotCapacity).Allowed ops) :
    let b := ops.foldl Books.step (start capacity hotCapacity)
    let hot := b.farm.hot.constructed.flatten
    ((∀ i, i < capacity ↔ i ∈ b.out ∨ i ∈ hot ∨ b.farm.cold.contains i = true) ∧
      (b.out ++ hot).Nodup ∧ ∀ i, i ∈ b.out ∨ i ∈ hot → b.farm.cold.contains i = false) ∧
    ∀ op : Op, (∀ index, op ≠ .give index) →
      ((op.run b.farm).1 = none ↔ ∀ i, i < capacity → i ∈ b.out) ∧
      ∀ i, (op.run b.farm).1 = some i → i < capacity ∧ i ∉ b.out := by
  have kept := Kept.run allowed ops _ (start_kept capacity hotCapacity) lawful
  set b := ops.foldl Books.step (start capacity hotCapacity)
  refine ⟨?_, fun op asks => ?_⟩
  · obtain ⟨hot, cold, holds, split⟩ := kept
    have member : ∀ i, b.farm.cold.contains i = true ↔ cold i := by
      intro i
      rw [Mask.contains, holds.layout]
      exact Layout.contains_spec holds.cold i
    rw [Buffers.Ring.constructed_flatten holds.hot]
    refine ⟨fun i => ?_, split.nodup, fun i held => ?_⟩
    · rw [member]
      exact split.all i
    · rw [← Bool.not_eq_true, member]
      exact split.apart i held
  · have handed := kept.handed allowed op asks
    refine ⟨⟨handed.none_left, fun all => ?_⟩, handed.fresh⟩
    cases answer : (op.run b.farm).1 with
    | none => rfl
    | some i =>
      obtain ⟨below, out⟩ := handed.fresh i answer
      exact absurd (all i below) out

theorem slots_conserved_three :
    let b := [Op.alloc, .tryAlloc, .give 0, .take, .give 1, .give 0].foldl Books.step (start 3 1)
    let hot := b.farm.hot.constructed.flatten
    ((∀ i, i < 3 ↔ i ∈ b.out ∨ i ∈ hot ∨ b.farm.cold.contains i = true) ∧
      (b.out ++ hot).Nodup ∧ ∀ i, i ∈ b.out ∨ i ∈ hot → b.farm.cold.contains i = false) ∧
    ∀ op : Op, (∀ index, op ≠ .give index) →
      ((op.run b.farm).1 = none ↔ ∀ i, i < 3 → i ∈ b.out) ∧
      ∀ i, (op.run b.farm).1 = some i → i < 3 ∧ i ∉ b.out :=
  slots_conserved 3 1 (by decide) _ (by decide +kernel)

end Books
end Nxt.Land
