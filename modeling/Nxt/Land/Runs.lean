import Nxt.Land.Members

/- Runs of a mask of land.hpp: it is the set that the operations say, and the words each operation reads or writes are
   those of the levels it is on. -/
namespace Nxt.Land
open List
namespace Layout

/-! ### Words that are read or written -/

section Touches
variable (l : Layout)

abbrev Touched := List (Nat × Nat)

def peekTraced (words : List Word) : Nat × Touched :=
  if words.getD 0 0 = 0 then (l.capacity, [(0, 0)])
  else
    let found := (range l.depth).foldl (fun (at_ : Nat × Touched) level =>
      (at_.1 <<< 6 ||| countlZero (words.getD (l.place level at_.1) 0), (level, at_.1) :: at_.2)) (0, [])
    (found.1, (0, 0) :: found.2)

def eraseFromTraced : Nat → Nat → List Word → List Word × Touched
  | 0, _, words => (words, [])
  | level + 1, index, words =>
      let here := l.place level (index / 64)
      let word := words.getD here 0 &&& ~~~ bit (index % 64)
      let words := words.set here word
      if word ≠ 0 then (words, [(level, index / 64)])
      else
        let above := eraseFromTraced level (index / 64) words
        (above.1, (level, index / 64) :: above.2)

def insertFromTraced : Nat → Nat → List Word → List Word × Touched
  | 0, _, words => (words, [])
  | level + 1, index, words =>
      let here := l.place level (index / 64)
      let word := words.getD here 0
      let words := words.set here (word ||| bit (index % 64))
      if word ≠ 0 then (words, [(level, index / 64)])
      else
        let above := insertFromTraced level (index / 64) words
        (above.1, (level, index / 64) :: above.2)

def fillFromTraced : Nat → Nat → List Word → List Word × Touched
  | 0, _, words => (words, [])
  | level + 1, members, words =>
      let count := (members + 63) / 64
      let words := (range count).foldl
        (fun words w => words.set (l.place level w) (live (min 64 (members - w * 64)))) words
      let above := fillFromTraced level count words
      (above.1, (range count).map (fun w => (level, w)) ++ above.2)

theorem peekTraced_fst (words : List Word) : (l.peekTraced words).1 = l.peek words := by
  have path (levels : List Nat) (at_ : Nat × Touched) : (levels.foldl (fun (at_ : Nat × Touched) level =>
      (at_.1 <<< 6 ||| countlZero (words.getD (l.place level at_.1) 0), (level, at_.1) :: at_.2)) at_).1 =
      levels.foldl (fun index level => index <<< 6 ||| countlZero (words.getD (l.place level index) 0)) at_.1 := by
    induction levels generalizing at_ with
    | nil => rfl
    | cons level levels ih => rw [foldl_cons, foldl_cons, ih]
  rw [peekTraced, peek]
  by_cases blank : words.getD 0 0 = 0
  · rw [if_pos blank, if_pos blank]
  · rw [if_neg blank, if_neg blank]
    exact path _ _

theorem eraseFromTraced_fst (level : Nat) : ∀ (index : Nat) (words : List Word),
    (l.eraseFromTraced level index words).1 = l.eraseFrom level index words := by
  induction level with
  | zero => exact fun _ _ => rfl
  | succ level ih =>
    intro index words
    rw [eraseFromTraced, eraseFrom]
    dsimp only
    by_cases left : words.getD (l.place level (index / 64)) 0 &&& ~~~ bit (index % 64) ≠ 0
    · rw [if_pos left, if_pos left]
    · rw [if_neg left, if_neg left]
      exact ih _ _

theorem insertFromTraced_fst (level : Nat) : ∀ (index : Nat) (words : List Word),
    (l.insertFromTraced level index words).1 = l.insertFrom level index words := by
  induction level with
  | zero => exact fun _ _ => rfl
  | succ level ih =>
    intro index words
    rw [insertFromTraced, insertFrom]
    dsimp only
    by_cases before : words.getD (l.place level (index / 64)) 0 ≠ 0
    · rw [if_pos before, if_pos before]
    · rw [if_neg before, if_neg before]
      exact ih _ _

theorem fillFromTraced_fst (level : Nat) : ∀ (members : Nat) (words : List Word),
    (l.fillFromTraced level members words).1 = l.fillFrom level members words := by
  induction level with
  | zero => exact fun _ _ => rfl
  | succ level ih => exact fun _ _ => ih _ _

end Touches

def Inside (capacity : Nat) (touched : Nat × Nat) : Prop :=
  touched.1 < (of capacity).depth ∧ touched.2 < count capacity touched.1

variable {capacity : Nat} {words : List Word} {members : Nat → Prop}

theorem climb_inside {index level : Nat} (below : index < capacity) (enough : level + 1 ≤ (of capacity).depth) :
    index / 64 ^ ((of capacity).depth - (level + 1)) / 64 = index / 64 ^ ((of capacity).depth - level) ∧
      Inside capacity (level, index / 64 ^ ((of capacity).depth - (level + 1)) / 64) := by
  have span : (of capacity).depth - (level + 1) = (of capacity).depth - 1 - level := by omega
  have parent := up index (show level < (of capacity).depth by omega)
  rw [span, parent]
  exact ⟨rfl, by omega, count_bound (by omega) below⟩

def ascent : Nat → Nat → Touched
  | 0, _ => []
  | level + 1, index => (level, index / 64) :: ascent level (index / 64)

theorem ascent_inside {index : Nat} (below : index < capacity) (level : Nat) (enough : level ≤ (of capacity).depth) :
    ∀ t ∈ ascent level (index / 64 ^ ((of capacity).depth - level)), Inside capacity t := by
  induction level with
  | zero => exact fun _ held => absurd held not_mem_nil
  | succ level ih =>
    obtain ⟨parent, inside⟩ := climb_inside below enough
    rw [ascent]
    rw [parent] at inside ⊢
    exact forall_mem_cons.mpr ⟨inside, ih (by omega)⟩

theorem eraseFromTraced_ascent {l : Layout} (level : Nat) : ∀ (index : Nat) (words : List Word),
    (l.eraseFromTraced level index words).2 ⊆ ascent level index := by
  induction level with
  | zero => exact fun _ _ => List.Subset.refl _
  | succ level ih =>
    intro index words
    rw [eraseFromTraced, ascent]
    dsimp only
    split
    · exact cons_subset_cons _ (nil_subset _)
    · exact cons_subset_cons _ (ih _ _)

theorem insertFromTraced_ascent {l : Layout} (level : Nat) : ∀ (index : Nat) (words : List Word),
    (l.insertFromTraced level index words).2 ⊆ ascent level index := by
  induction level with
  | zero => exact fun _ _ => List.Subset.refl _
  | succ level ih =>
    intro index words
    rw [insertFromTraced, ascent]
    dsimp only
    split
    · exact cons_subset_cons _ (nil_subset _)
    · exact cons_subset_cons _ (ih _ _)

theorem fillFromTraced_inside (level : Nat) : ∀ (words : List Word) (filled : Nat), level ≤ (of capacity).depth →
    (∀ n, n < filled ↔ n * 64 ^ ((of capacity).depth - level) < capacity) →
    ∀ t ∈ ((of capacity).fillFromTraced level filled words).2, Inside capacity t := by
  induction level with
  | zero => exact fun _ _ _ _ _ held => absurd held not_mem_nil
  | succ level ih =>
    intro words filled enough exact t held
    have inside : level < (of capacity).depth := by omega
    have parents := filled_parents inside exact
    rw [fillFromTraced] at held
    dsimp only at held
    rcases mem_append.mp held with here | above
    · obtain ⟨w, some_, rfl⟩ := mem_map.mp here
      exact ⟨inside, lt_of_lt_of_le (mem_range.mp some_) (filled_few inside parents)⟩
    · exact ih _ _ (by omega) parents t above

theorem peekTraced_inside (said : Reflects capacity words members) (allowed : capacity ≤ maxCapacity) :
    ∀ t ∈ ((of capacity).peekTraced words).2, Inside capacity t := by
  have root : Inside capacity (0, 0) := ⟨depth_pos capacity, count_pos (depth_pos capacity)⟩
  intro t held
  rw [peekTraced] at held
  by_cases blank : words.getD 0 0 = 0
  · rw [if_pos blank, mem_singleton] at held
    rw [held]
    exact root
  · rw [if_neg blank] at held
    obtain ⟨least, member, first⟩ : ∃ least, members least ∧ ∀ i, members i → least ≤ i := by
      classical
      have some_member := (root_members said allowed).mp blank
      exact ⟨Nat.find some_member, Nat.find_spec some_member, fun i => Nat.find_min' some_member⟩
    have path (level : Nat) (enough : level ≤ (of capacity).depth) :
        let found := (range level).foldl (fun (at_ : Nat × Touched) level =>
          (at_.1 <<< 6 ||| countlZero (words.getD ((of capacity).place level at_.1) 0), (level, at_.1) :: at_.2)) (0, [])
        found.1 = least / 64 ^ ((of capacity).depth - level) ∧ ∀ t ∈ found.2, Inside capacity t := by
      induction level with
      | zero =>
        have start := peek_path said member first allowed 0 (Nat.zero_le _)
        exact ⟨start, fun _ held => absurd held not_mem_nil⟩
      | succ level ih =>
        obtain ⟨here, before⟩ := ih (by omega)
        have there := peek_path said member first allowed (level + 1) enough
        have here' := peek_path said member first allowed level (by omega)
        rw [range_succ, foldl_append, foldl_cons, foldl_nil] at there ⊢
        rw [here'] at there
        rw [here]
        refine ⟨there, fun t held => ?_⟩
        rcases mem_cons.mp held with rfl | earlier
        · exact ⟨by omega, count_bound (by omega) (said.within least member)⟩
        · exact before t earlier
    rcases mem_cons.mp held with rfl | later
    · exact root
    · exact (path _ le_rfl).2 t later

/-! ### The summaries -/

theorem summary_child (said : Reflects capacity words members) {level n : Nat} (inside : level + 1 < (of capacity).depth)
    (bound : n / 64 < count capacity level) :
    (words.getD ((of capacity).place level (n / 64)) 0).getMsbD (n % 64) = true ↔
      n < count capacity (level + 1) ∧ words.getD ((of capacity).place (level + 1) n) 0 ≠ 0 := by
  have span : (of capacity).depth - 1 - level = (of capacity).depth - (level + 1) := by omega
  rw [said.bits level (by omega) n bound, span]
  constructor
  · rintro ⟨i, held, rfl⟩
    have small := count_bound inside (said.within i held)
    exact ⟨small, (word_members (said.bits _ inside) inside small).mpr ⟨i, held, rfl⟩⟩
  · intro child
    exact (word_members (said.bits _ inside) inside child.1).mp child.2

end Layout

/-! ### Runs -/

inductive MaskOp where
  | fill
  | give (index : Nat)
  | take
  deriving DecidableEq

namespace Mask

def step (m : Mask) : MaskOp → Mask
  | .fill => m.fill
  | .give index => m.give index
  | .take => m.take.2

/-- An operation with the words that it reads or writes. -/
def traced (m : Mask) : MaskOp → Mask × Layout.Touched
  | .fill =>
      let filled := m.layout.fillFromTraced m.layout.depth m.layout.capacity m.words
      ({ m with words := filled.1 }, filled.2)
  | .give index =>
      let given := m.layout.insertFromTraced m.layout.depth index m.words
      ({ m with words := given.1 }, given.2)
  | .take =>
      let seen := m.layout.peekTraced m.words
      if seen.1 ≠ m.layout.capacity then
        let taken := m.layout.eraseFromTraced m.layout.depth seen.1 m.words
        ({ m with words := taken.1 }, seen.2 ++ taken.2)
      else (m, seen.2)

theorem traced_step (m : Mask) (op : MaskOp) : (m.traced op).1 = m.step op := by
  cases op with
  | fill =>
    rw [traced, step, fill, Layout.fill, ← Layout.fillFromTraced_fst]
  | give index =>
    rw [traced, step, give, Layout.insert, ← Layout.insertFromTraced_fst]
  | take =>
    have seen : (m.layout.peekTraced m.words).1 = m.peek := m.layout.peekTraced_fst m.words
    rw [traced, step, take]
    dsimp only
    rw [seen]
    by_cases some_ : m.peek ≠ m.layout.capacity
    · rw [if_pos some_, if_pos some_, Layout.erase, ← Layout.eraseFromTraced_fst]
    · rw [if_neg some_, if_neg some_]

end Mask

def MaskOp.apply (capacity : Nat) (s : Finset Nat) : MaskOp → Finset Nat
  | .fill => Finset.range capacity
  | .give index => insert index s
  | .take => if some_ : s.Nonempty then s.erase (s.min' some_) else s

def MaskOp.Allowed (capacity : Nat) (op : MaskOp) : Prop := ∀ index, op = .give index → index < capacity

namespace Mask
variable {capacity : Nat} {m : Mask} {s : Finset Nat}

structure Represents (capacity : Nat) (m : Mask) (s : Finset Nat) : Prop where
  layout : m.layout = Layout.of capacity
  said : Layout.Reflects capacity m.words (fun i => i ∈ s)

theorem ofCapacity_represents (capacity : Nat) : Represents capacity (ofCapacity capacity) ∅ where
  layout := rfl
  said := Layout.blank_reflects length_replicate fun _ held => (mem_replicate.mp held).2

theorem Represents.congr {t : Nat → Prop} (layout : m.layout = Layout.of capacity)
    (said : Layout.Reflects capacity m.words t) (same : ∀ i, t i ↔ i ∈ s) : Represents capacity m s := by
  have sets : t = fun i => i ∈ s := funext fun i => propext (same i)
  exact ⟨layout, sets ▸ said⟩

section
variable (held : Represents capacity m s)
include held

theorem Represents.empty_iff (allowed : capacity ≤ Layout.maxCapacity) :
    m.empty = true ↔ s = ∅ := by
  rw [Mask.empty_iff held.said allowed, Finset.eq_empty_iff_forall_notMem]

theorem Represents.peek (allowed : capacity ≤ Layout.maxCapacity) :
    m.peek = if some_ : s.Nonempty then s.min' some_ else capacity := by
  have same : m.peek = (Layout.of capacity).peek m.words := by rw [Mask.peek, held.layout]
  rcases Layout.peek_spec held.said allowed with ⟨none_, there⟩ | ⟨member, least⟩
  · have blank : ¬s.Nonempty := by
      intro some_
      obtain ⟨i, member⟩ := some_
      exact none_ i member
    rw [dif_neg blank, same, there]
  · have some_ : s.Nonempty := ⟨_, member⟩
    rw [dif_pos some_, same]
    exact le_antisymm (least _ (s.min'_mem some_)) (s.min'_le _ member)

theorem Represents.within {i : Nat} (member : i ∈ s) : i < capacity :=
  held.said.within i member

theorem Represents.step (allowed : capacity ≤ Layout.maxCapacity) {op : MaskOp}
    (ok : op.Allowed capacity) : Represents capacity (m.step op) (op.apply capacity s) := by
  cases op with
  | fill =>
    refine Represents.congr held.layout (t := fun i => i < capacity) ?_ fun i => Finset.mem_range.symm
    change Layout.Reflects capacity (m.layout.fill m.words) _
    rw [held.layout]
    exact Layout.fill_reflects held.said
  | give index =>
    refine Represents.congr held.layout (t := fun i => i ∈ s ∨ i = index) ?_ fun i => ?_
    · change Layout.Reflects capacity (m.layout.insert m.words index) _
      rw [held.layout]
      exact Layout.insert_reflects held.said (ok index rfl)
    · rw [MaskOp.apply, Finset.mem_insert]
      exact or_comm
  | take =>
    have seen := held.peek allowed
    rw [Mask.step, take, MaskOp.apply]
    dsimp only
    rw [held.layout]
    change Represents capacity (if m.peek ≠ capacity then _ else m) _
    by_cases some_ : s.Nonempty
    · rw [dif_pos some_] at seen ⊢
      have member := s.min'_mem some_
      rw [← seen] at member ⊢
      have below := held.within member
      rw [if_pos below.ne]
      refine Represents.congr (t := fun i => i ∈ s ∧ i ≠ m.peek) rfl (Layout.erase_reflects held.said member) fun i => ?_
      rw [Finset.mem_erase]
      exact and_comm
    · rw [dif_neg some_] at seen ⊢
      rw [if_neg fun other => other seen]
      exact held

end

theorem Represents.run (allowed : capacity ≤ Layout.maxCapacity) (ops : List MaskOp)
    (held : Represents capacity m s) (ok : ∀ op ∈ ops, op.Allowed capacity) :
    Represents capacity (ops.foldl Mask.step m) (ops.foldl (MaskOp.apply capacity) s) := by
  induction ops generalizing m s with
  | nil => exact held
  | cons op ops ih =>
    have first := held.step allowed (ok op mem_cons_self)
    exact ih first fun other later => ok other (mem_cons_of_mem _ later)

theorem Represents.touches (held : Represents capacity m s) (allowed : capacity ≤ Layout.maxCapacity) {op : MaskOp}
    (ok : op.Allowed capacity) : ∀ t ∈ (m.traced op).2, Layout.Inside capacity t := by
  have climb {index : Nat} (below : index < capacity) (words : List Word) :
      (∀ t ∈ ((Layout.of capacity).eraseFromTraced (Layout.of capacity).depth index words).2,
        Layout.Inside capacity t) ∧
      ∀ t ∈ ((Layout.of capacity).insertFromTraced (Layout.of capacity).depth index words).2,
        Layout.Inside capacity t := by
    have within := Layout.ascent_inside below (Layout.of capacity).depth le_rfl
    rw [Nat.sub_self, Nat.pow_zero, Nat.div_one] at within
    exact ⟨fun t held => within t (Layout.eraseFromTraced_ascent _ _ _ held),
      fun t held => within t (Layout.insertFromTraced_ascent _ _ _ held)⟩
  cases op with
  | fill =>
    rw [traced, held.layout]
    refine Layout.fillFromTraced_inside _ m.words capacity le_rfl fun n => ?_
    rw [Nat.sub_self, Nat.pow_zero, Nat.mul_one]
  | give index =>
    rw [traced, held.layout]
    exact (climb (ok index rfl) m.words).2
  | take =>
    have seen : ((Layout.of capacity).peekTraced m.words).1 = m.peek := by
      rw [Layout.peekTraced_fst, Mask.peek, held.layout]
    have looked := Layout.peekTraced_inside held.said allowed
    have most : (Layout.of capacity).capacity = capacity := rfl
    rw [traced, held.layout]
    dsimp only
    rw [seen, most]
    by_cases full : m.peek ≠ capacity
    · rw [if_pos full]
      intro t mem
      rcases mem_append.mp mem with first | later
      · exact looked t first
      · have least := held.peek allowed
        by_cases some_ : s.Nonempty
        · rw [dif_pos some_] at least
          exact (climb (held.within (least ▸ s.min'_mem some_)) m.words).1 t later
        · rw [dif_neg some_] at least
          exact absurd least full
    · rw [if_neg full]
      exact looked

/-- After any run a mask holds the set that the operations make, its summaries say which words below are not zero,
    taking gives the least member, and the next operation stays on the words of its levels. -/
theorem run_refines {capacity : Nat} (allowed : capacity ≤ Layout.maxCapacity) (ops : List MaskOp)
    (ok : ∀ op ∈ ops, op.Allowed capacity) :
    let m := ops.foldl step (ofCapacity capacity)
    let s := ops.foldl (MaskOp.apply capacity) ∅
    m.words.length = (Layout.of capacity).words ∧
      (∀ i, m.contains i = true ↔ i ∈ s) ∧ (∀ i ∈ s, i < capacity) ∧ (m.empty = true ↔ s = ∅) ∧
      (m.take.1 = if some_ : s.Nonempty then s.min' some_ else capacity) ∧ (m.take.1 = capacity ↔ s = ∅) ∧
      (∀ level, level + 1 < (Layout.of capacity).depth → ∀ n, n / 64 < Layout.count capacity level →
        ((m.words.getD ((Layout.of capacity).place level (n / 64)) 0).getMsbD (n % 64) = true ↔
          n < Layout.count capacity (level + 1) ∧ m.words.getD ((Layout.of capacity).place (level + 1) n) 0 ≠ 0)) ∧
      ∀ op : MaskOp, op.Allowed capacity → (m.traced op).1 = m.step op ∧ ∀ t ∈ (m.traced op).2,
        t.1 < (Layout.of capacity).depth ∧ t.2 < Layout.count capacity t.1 := by
  intro m s
  have held : Represents capacity m s := (ofCapacity_represents capacity).run allowed ops ok
  have taken : m.take.1 = m.peek := rfl
  have seen := held.peek allowed
  have contains : ∀ i, m.contains i = true ↔ i ∈ s := by
    intro i
    rw [Mask.contains, held.layout]
    exact Layout.contains_spec held.said i
  refine ⟨held.said.length, contains, fun i => held.within, held.empty_iff allowed, taken.trans seen, ?_,
    fun level inside n bound => Layout.summary_child held.said inside bound, 
    fun op good => ⟨traced_step m op, held.touches allowed good⟩⟩
  rw [taken, seen]
  by_cases some_ : s.Nonempty
  · have below := held.within (s.min'_mem some_)
    rw [dif_pos some_]
    exact ⟨fun same => absurd same below.ne, fun none_ => absurd none_ some_.ne_empty⟩
  · rw [dif_neg some_]
    exact ⟨fun _ => Finset.not_nonempty_iff_eq_empty.mp some_, fun _ => rfl⟩

theorem run_refines_hundred : ([MaskOp.fill, .take, .give 0, .take, .take].foldl step (ofCapacity 100)).contains 1 = true ↔
    1 ∈ [MaskOp.fill, .take, .give 0, .take, .take].foldl (MaskOp.apply 100) ∅ :=
  (@run_refines 100 (by decide) [.fill, .take, .give 0, .take, .take] (by simp [MaskOp.Allowed])).2.1 1

end Mask
end Nxt.Land
