import Nxt.Lib.Exec

/- Reading from a stream that arrives in segments. -/
namespace Nxt.Lib
open List
variable {α : Type}

/-- The next `n` elements, from as many segments as it takes; none when the stream is shorter. -/
def gather : Nat → List (List α) → Option (List α × List (List α))
  | 0, segments => some ([], segments)
  | _ + 1, [] => none
  | n + 1, segment :: segments =>
      if segment.length ≤ n + 1 then
        (gather (n + 1 - segment.length) segments).map fun taken => (segment ++ taken.1, taken.2)
      else some (segment.take (n + 1), segment.drop (n + 1) :: segments)

theorem gather_some {n : Nat} {segments : List (List α)} {taken : List α} {rest : List (List α)}
    (done : gather n segments = some (taken, rest)) : taken.length = n ∧ segments.flatten = taken ++ rest.flatten := by
  induction segments generalizing n taken with
  | nil =>
    cases n with
    | zero =>
      cases done
      exact ⟨rfl, rfl⟩
    | succ n => cases done
  | cons segment segments ih =>
    cases n with
    | zero =>
      cases done
      exact ⟨rfl, rfl⟩
    | succ n =>
      rw [gather] at done
      split at done
      · obtain ⟨⟨more, left⟩, later, same⟩ := Option.map_eq_some_iff.mp done
        cases same
        obtain ⟨length, joined⟩ := ih later
        refine ⟨by rw [length_append, length]; omega, ?_⟩
        rw [flatten_cons, joined, append_assoc]
      · cases done
        refine ⟨by rw [length_take]; omega, ?_⟩
        rw [flatten_cons, flatten_cons, ← append_assoc, take_append_drop]

theorem gather_enough (n : Nat) (segments : List (List α)) (enough : n ≤ segments.flatten.length) :
    ∃ taken rest, gather n segments = some (taken, rest) := by
  induction segments generalizing n with
  | nil =>
    cases n with
    | zero => exact ⟨[], [], rfl⟩
    | succ n => exact absurd enough (by simp)
  | cons segment segments ih =>
    cases n with
    | zero => exact ⟨[], segment :: segments, rfl⟩
    | succ n =>
      rw [gather]
      split
      · rw [flatten_cons, length_append] at enough
        obtain ⟨taken, rest, later⟩ := ih (n + 1 - segment.length) (by omega)
        exact ⟨segment ++ taken, rest, by rw [later]; rfl⟩
      · exact ⟨_, _, rfl⟩

/-- The cuts between the segments do not matter. -/
theorem gather_append {segments : List (List α)} {front more : List α} (same : segments.flatten = front ++ more) :
    ∃ rest, gather front.length segments = some (front, rest) ∧ rest.flatten = more := by
  obtain ⟨taken, rest, done⟩ := gather_enough front.length segments (by rw [same, length_append]; omega)
  obtain ⟨length, cut⟩ := gather_some done
  rw [same] at cut
  obtain ⟨rfl, left⟩ := append_inj cut length.symm
  exact ⟨rest, done, left.symm⟩

end Nxt.Lib
