import Mathlib

/- `List.splitBy` by positions: the pieces follow each other from the start of the list, neighbours
   inside a piece are related, and neighbours across a cut are not. -/
namespace Nxt.Lib
open List
variable {α : Type} {r : α → α → Bool} {l : List α}

def Linked (r : α → α → Bool) (l : List α) (x : Nat) : Prop :=
  ∃ a b, l[x]? = some a ∧ l[x + 1]? = some b ∧ r a b = true

/-- The pieces of `l` from position `k` on. -/
def Cuts (r : α → α → Bool) (l : List α) : Nat → List (List α) → Prop
  | k, [] => k = l.length
  | k, g :: rest => g ≠ [] ∧ k + g.length ≤ l.length ∧ g = (l.drop k).take g.length ∧
      (∀ x, k ≤ x → x + 1 < k + g.length → Linked r l x) ∧
      (k + g.length < l.length → ¬Linked r l (k + g.length - 1)) ∧ Cuts r l (k + g.length) rest

variable {pieces : List (List α)} {k : Nat}

theorem cuts_of_flatten (whole : [] ∉ pieces) (chains : ∀ g ∈ pieces, g.IsChain fun a b => r a b)
    (cut : pieces.IsChain fun g h => ∃ ga ha, r (g.getLast ga) (h.head ha) = false)
    (low : k ≤ l.length) (all : pieces.flatten = l.drop k) : Cuts r l k pieces := by
  induction pieces generalizing k with
  | nil =>
    have none := congrArg List.length all
    rw [length_drop] at none
    show k = l.length
    have zero : 0 = l.length - k := none
    omega
  | cons g rest ih =>
    have length := congrArg List.length all
    rw [flatten_cons, length_append, length_drop] at length
    have g_at : ∀ i, i < g.length → l[k + i]? = g[i]? := by
      intro i small
      rw [← getElem?_drop, ← all, flatten_cons, getElem?_append_left small]
    have g_some : g ≠ [] := fun empty => whole (empty ▸ mem_cons_self)
    have g_pos := length_pos_iff.mpr g_some
    refine ⟨g_some, by omega, ?_, ?_, ?_, ?_⟩
    · rw [← all, flatten_cons, take_left]
    · intro x from_ to_
      have chain := isChain_iff_getElem.mp (chains g mem_cons_self) (x - k) (by omega)
      refine ⟨g[x - k], g[x - k + 1], ?_, ?_, chain⟩
      · have at_ := g_at (x - k) (by omega)
        rw [Nat.add_sub_cancel' from_] at at_
        rw [at_, getElem?_eq_getElem]
      · have at_ := g_at (x - k + 1) (by omega)
        rw [show k + (x - k + 1) = x + 1 by omega] at at_
        rw [at_, getElem?_eq_getElem]
    · rintro more ⟨a, b, a_at, b_at, linked⟩
      cases rest with
      | nil =>
        simp only [flatten_nil, length_nil] at length
        omega
      | cons h tail =>
        have cut_here := (isChain_cons_cons.mp cut).1
        obtain ⟨ga, ha, apart⟩ := cut_here
        have last := g_at (g.length - 1) (by omega)
        rw [show k + (g.length - 1) = k + g.length - 1 by omega, a_at] at last
        have a_last : g.getLast ga = a := by
          rw [getLast_eq_getElem]
          exact (List.getElem?_eq_some_iff.mp last.symm).2
        have first : l[k + g.length]? = some (h.head ha) := by
          rw [← getElem?_drop, ← all, flatten_cons, getElem?_append_right le_rfl,
            Nat.sub_self, flatten_cons, getElem?_append_left (length_pos_iff.mpr ha),
            getElem?_eq_getElem (length_pos_iff.mpr ha), head_eq_getElem]
        rw [show k + g.length - 1 + 1 = k + g.length by omega, first] at b_at
        cases b_at
        rw [a_last, linked] at apart
        cases apart
    · refine ih (fun inside => whole (mem_cons_of_mem _ inside))
        (fun h inside => chains h (mem_cons_of_mem _ inside)) cut.tail (by omega) ?_
      rw [← drop_drop, ← all, flatten_cons, drop_left]

theorem splitBy_cuts (r : α → α → Bool) (l : List α) : Cuts r l 0 (l.splitBy r) :=
  cuts_of_flatten (nil_notMem_splitBy r l) (fun _ inside => isChain_of_mem_splitBy inside)
    (isChain_getLast_head_splitBy r l) (Nat.zero_le _) (by simp)

def PieceAt (r : α → α → Bool) (l : List α) (p : Nat) (g : List α) : Prop :=
  g ≠ [] ∧ p + g.length ≤ l.length ∧ g = (l.drop p).take g.length ∧
    ∀ x, p ≤ x → x + 1 < p + g.length → Linked r l x

theorem Cuts.position (cuts : Cuts r l k pieces) {g : List α} (inside : g ∈ pieces) : ∃ p, PieceAt r l p g := by
  induction pieces generalizing k with
  | nil => cases inside
  | cons h rest ih =>
    obtain ⟨some_, within, shape, linked, _, later⟩ := cuts
    rcases mem_cons.mp inside with rfl | tail
    · exact ⟨k, some_, within, shape, linked⟩
    · exact ih later tail

theorem Cuts.containing (cuts : Cuts r l k pieces) {x : Nat} (low : k ≤ x) (high : x < l.length) :
    ∃ g ∈ pieces, ∃ p, PieceAt r l p g ∧ p ≤ x ∧ x < p + g.length := by
  induction pieces generalizing k with
  | nil =>
    have end_ : k = l.length := cuts
    omega
  | cons h rest ih =>
    obtain ⟨some_, within, shape, linked, _, later⟩ := cuts
    by_cases here : x < k + h.length
    · exact ⟨h, mem_cons_self, k, ⟨some_, within, shape, linked⟩, low, here⟩
    · obtain ⟨g, inside, found⟩ := ih later (by omega)
      exact ⟨g, mem_cons_of_mem _ inside, found⟩

end Nxt.Lib
