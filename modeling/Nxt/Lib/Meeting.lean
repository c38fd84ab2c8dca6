import Mathlib

/- Two cursors on one path, the second at half the speed. On a path that goes on inside a finite
   set the cursors meet, and they do so within twice the size of the set. -/
namespace Nxt.Lib
variable {α : Type}

theorem period_iterate {f : α → α} {x : α} {a d : Nat} (round : f^[a + d] x = f^[a] x) {n : Nat}
    (after : a ≤ n) (times : Nat) : f^[n + times * d] x = f^[n] x := by
  induction times with
  | zero => rw [Nat.zero_mul, Nat.add_zero]
  | succ times ih =>
    have split : n + (times + 1) * d = (n - a + times * d) + (a + d) := by
      rw [Nat.succ_mul]
      omega
    have join : (n - a + times * d) + a = n + times * d := by omega
    rw [split, Function.iterate_add_apply, round, ← Function.iterate_add_apply, join, ih]

theorem meeting_of_round {f : α → α} {x : α} {a b : Nat} (before : a < b)
    (round : f^[b] x = f^[a] x) : ∃ j, 0 < j ∧ j ≤ 2 * b ∧ f^[j] x = f^[j / 2] x := by
  -- The first multiple of the period past `a`.
  have period : a + (b - a) = b := by omega
  have quotient : (b - a) * (a / (b - a)) + a % (b - a) = a := Nat.div_add_mod a (b - a)
  have small : a % (b - a) < b - a := Nat.mod_lt _ (by omega)
  have multiple : (a / (b - a) + 1) * (b - a) = (b - a) * (a / (b - a)) + (b - a) := by ring
  generalize k_is : (a / (b - a) + 1) * (b - a) = k at multiple
  refine ⟨2 * k, by omega, by omega, ?_⟩
  have turned := period_iterate (x := x) (f := f) (a := a) (d := b - a) (n := k)
    (by rw [period]; exact round) (by omega) (a / (b - a) + 1)
  rw [k_is] at turned
  rw [show 2 * k = k + k by omega, turned, show (k + k) / 2 = k by omega]

theorem meeting {f : α → α} {x : α} {n : Nat} (place : α → Nat) (inside : ∀ i ≤ n, place (f^[i] x) < n)
    (apart : ∀ i ≤ n, ∀ j ≤ n, place (f^[i] x) = place (f^[j] x) → f^[i] x = f^[j] x) :
    ∃ j, 0 < j ∧ j ≤ 2 * n ∧ f^[j] x = f^[j / 2] x := by
  obtain ⟨i, hi, j, hj, differ, same⟩ := Finset.exists_ne_map_eq_of_card_lt_of_maps_to
    (s := Finset.range (n + 1)) (t := Finset.range n) (f := fun i => place (f^[i] x))
    (by simp) (by
      intro i held
      have bound := Finset.mem_range.mp (Finset.mem_coe.mp held)
      exact Finset.mem_coe.mpr (Finset.mem_range.mpr (inside i (by omega))))
  have hi := Finset.mem_range.mp hi
  have hj := Finset.mem_range.mp hj
  have points := apart i (by omega) j (by omega) same
  rcases Nat.lt_or_gt_of_ne differ with before | after
  · obtain ⟨m, some, bound, met⟩ := meeting_of_round before points.symm
    exact ⟨m, some, by omega, met⟩
  · obtain ⟨m, some, bound, met⟩ := meeting_of_round after points
    exact ⟨m, some, by omega, met⟩

end Nxt.Lib
