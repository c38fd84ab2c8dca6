import Mathlib

/- Reachability from a set of roots along an edge relation, over any type of nodes. -/
namespace Nxt.Lib
variable {N : Type} {root : N → Prop} {edge : N → N → Prop}

def Reaches (root : N → Prop) (edge : N → N → Prop) (a : N) : Prop :=
  ∃ r, root r ∧ Relation.ReflTransGen edge r a

theorem Reaches.of_root {a : N} (h : root a) : Reaches root edge a := ⟨a, h, .refl⟩

theorem Reaches.step {a b : N} (h : Reaches root edge a) (e : edge a b) : Reaches root edge b := by
  obtain ⟨r, hr, walk⟩ := h
  exact ⟨r, hr, walk.tail e⟩

/-- Whatever holds the roots and is closed under edges holds everything reachable. -/
theorem Reaches.least (keep : N → Prop) (roots : ∀ r, root r → keep r)
    (closed : ∀ a b, Reaches root edge a → keep a → edge a b → keep b) {a : N} (h : Reaches root edge a) : keep a := by
  obtain ⟨r, hr, walk⟩ := h
  induction walk with
  | refl => exact roots r hr
  | tail walk e ih => exact closed _ _ ⟨r, hr, walk⟩ ih e

end Nxt.Lib
