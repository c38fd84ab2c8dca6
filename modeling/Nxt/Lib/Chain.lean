import Mathlib

/- Linked lists in any store: cells that hold an item and lead to another cell, up to a stop.
   `Items x xs` says that the chain from `x` ends and holds `xs`. -/
namespace Nxt.Lib
open List

structure Links (α β : Type) where
  stop : α
  cell : α → Prop
  item : α → β
  next : α → α
  outside : ¬ cell stop

namespace Links
variable {α β : Type} {L M : Links α β} {x : α} {xs ys : List β}

def Items (L : Links α β) : α → List β → Prop
  | x, [] => x = L.stop
  | x, y :: ys => L.cell x ∧ L.item x = y ∧ L.Items (L.next x) ys

def cells (L : Links α β) : α → List β → List α
  | _, [] => []
  | x, _ :: ys => x :: L.cells (L.next x) ys

theorem items_unique (first : L.Items x xs) (second : L.Items x ys) : xs = ys := by
  induction xs generalizing x ys with
  | nil =>
    cases ys with
    | nil => rfl
    | cons y ys =>
      have none : x = L.stop := first
      rw [none] at second
      exact absurd second.1 L.outside
  | cons z zs ih =>
    cases ys with
    | nil =>
      have none : x = L.stop := second
      rw [none] at first
      exact absurd first.1 L.outside
    | cons y ys =>
      rw [← first.2.1, ← second.2.1, ih first.2.2 second.2.2]

theorem cells_length (x : α) (xs : List β) : (L.cells x xs).length = xs.length := by
  induction xs generalizing x with
  | nil => rfl
  | cons y ys ih => rw [cells, length_cons, length_cons, ih]

section
variable (items : L.Items x xs)
include items

theorem cells_are_cells : ∀ c ∈ L.cells x xs, L.cell c := by
  induction xs generalizing x with
  | nil => simp [cells]
  | cons y ys ih =>
    intro c held
    rcases mem_cons.mp held with rfl | later
    · exact items.1
    · exact ih items.2.2 c later

theorem items_of_cell {c : α} (held : c ∈ L.cells x xs) :
    ∃ zs, L.Items c zs ∧ zs.length ≤ xs.length ∧ zs <:+ xs := by
  induction xs generalizing x with
  | nil => cases held
  | cons y ys ih =>
    rcases mem_cons.mp held with rfl | later
    · exact ⟨y :: ys, items, le_rfl, suffix_rfl⟩
    · obtain ⟨zs, rest, short, suffix⟩ := ih items.2.2 later
      exact ⟨zs, rest, short.trans (Nat.le_succ _), suffix.trans (suffix_cons y ys)⟩

theorem cells_nodup : (L.cells x xs).Nodup := by
  induction xs generalizing x with
  | nil => exact nodup_nil
  | cons y ys ih =>
    apply nodup_cons.mpr
    constructor
    · -- A chain that came back to its first cell would be longer than itself.
      intro again
      obtain ⟨zs, rest, short, -⟩ := items_of_cell items.2.2 again
      have same := items_unique rest items
      rw [same, length_cons] at short
      omega
    · exact ih items.2.2

theorem items_length_le (place : α → Nat) {n : Nat} (bound : ∀ c ∈ L.cells x xs, place c < n)
    (apart : ∀ c ∈ L.cells x xs, ∀ d ∈ L.cells x xs, place c = place d → c = d) : xs.length ≤ n := by
  have nodup : ((L.cells x xs).map place).Nodup :=
    (nodup_map_iff_inj_on (cells_nodup items)).mpr apart
  have inside : (L.cells x xs).map place ⊆ range n := by
    intro i held
    obtain ⟨c, cell, rfl⟩ := mem_map.mp held
    exact mem_range.mpr (bound c cell)
  have short := (nodup.subperm inside).length_le
  rw [length_map, cells_length, length_range] at short
  exact short

theorem items_congr (stop : M.stop = L.stop)
    (same : ∀ c ∈ L.cells x xs, M.cell c ∧ M.item c = L.item c ∧ M.next c = L.next c) : M.Items x xs := by
  induction xs generalizing x with
  | nil =>
    have none : x = L.stop := items
    exact none.trans stop.symm
  | cons y ys ih =>
    obtain ⟨cell, item, next⟩ := same x mem_cons_self
    refine ⟨cell, item.trans items.2.1, ?_⟩
    rw [next]
    exact ih items.2.2 fun c held => same c (mem_cons_of_mem _ held)

end

end Links
end Nxt.Lib
