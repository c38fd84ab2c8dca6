import Nxt.Runtime.Slots

/- What a pool has read, begun, completed and published. Inputs are numbered, and a number is in one
   slot at most; as long as the pool is not stopped, every input that was read is begun or prepared,
   every one begun is running or completed, and the completions are the publications and then the
   completed slots, in order. -/
namespace Nxt.Runtime.Pool
open List

variable {V E : Type} {s s' : Pool V E} {i : Nat}

def idea (s : Pool V E) (i : Nat) : Option Nat := (s.held i).bind Held.idea

def report (s : Pool V E) (i : Nat) : Nat × Outcome V E :=
  (((s.held i).getD {}).idea.getD 0, outcome ((s.held i).getD {}))

def successes (published : List (Nat × V)) : List (Nat × Outcome V E) :=
  published.map fun p => (p.1, .ok p.2)

structure Books (s : Pool V E) : Prop where
  bound : ∀ i id, s.idea i = some id → id < s.reads
  apart : ∀ i j id, s.idea i = some id → s.idea j = some id → i = j
  blank : ∀ i, s.inputSlot = some i → s.held i = some {}
  reading : s.input ≠ .none → s.inputSlot ≠ none
  staged : ∀ i, s.prepared = some i → ∃ h id, s.held i = some h ∧ h.idea = some id ∧
    h.task = .pending ∧ h.started = false ∧ id ∉ s.begun
  active : ∀ i h, s.held i = some h → h.isRunning = true → ∃ id, h.idea = some id ∧ id ∈ s.begun ∧
    id ∉ s.completions.map Prod.fst
  plain : ∀ i h, s.held i = some h → h.task = .pending → h.ready = none
  begunOnce : s.begun.Nodup
  begunBound : ∀ id ∈ s.begun, id < s.reads
  completedOnce : (s.completions.map Prod.fst).Nodup
  completedBegun : ∀ id ∈ s.completions.map Prod.fst, id ∈ s.begun
  published : successes s.published <+: s.completions
  tally : s.consumed + s.ring.length ≤ s.published.length

structure Current (s : Pool V E) : Prop where
  every : ∀ id < s.reads, id ∈ s.begun ∨ ∃ i, s.prepared = some i ∧ s.idea i = some id
  followed : ∀ id ∈ s.begun, id ∈ s.completions.map Prod.fst ∨
    ∃ i h, s.held i = some h ∧ h.isRunning = true ∧ h.idea = some id
  whole : s.completions = successes s.published ++ s.completed.map s.report
  exact_ : s.consumed + s.ring.length = s.published.length

variable {c : Option (Held V E)} {h : Held V E}

section
variable (slots : s'.slots = s.slots.set i c) (inside : i < s.slots.length)
include slots inside

theorem held_setSlot (j : Nat) : s'.held j = if i = j then c else s.held j := by
  unfold held
  rw [slots]
  exact held_set inside j

theorem idea_setSlot (j : Nat) : s'.idea j = if i = j then c.bind Held.idea else s.idea j := by
  unfold idea
  rw [held_setSlot slots inside]
  split <;> rfl

theorem report_setSlot {j : Nat} (apart : i ≠ j) : s'.report j = s.report j := by
  unfold report
  rw [held_setSlot slots inside, if_neg apart]

end

theorem idea_of_held (here : s.held i = some h) : s.idea i = h.idea := by
  unfold idea
  rw [here]
  rfl

section
variable (ok : s.Books)
include ok

theorem Books.set (slots : s'.slots = s.slots.set i c) (inside : i < s.slots.length) (reads : s.reads ≤ s'.reads)
    (ideas : ∀ id, c.bind Held.idea = some id → s.idea i = some id ∨ (id = s.reads ∧ id < s'.reads))
    (blank : ∀ j, s'.inputSlot = some j → if i = j then c = some {} else s.inputSlot = some j)
    (reading : s'.input ≠ .none → s'.inputSlot ≠ none)
    (staged : ∀ j, s'.prepared = some j → if i = j then ∃ h id, c = some h ∧ h.idea = some id ∧
      h.task = .pending ∧ h.started = false ∧ id ∉ s.begun else s.prepared = some j)
    (idle : runs c = false) (plain : ∀ h, c = some h → h.task = .pending → h.ready = none)
    (begun : s'.begun = s.begun) (completions : s'.completions = s.completions)
    (published : successes s'.published <+: s.completions)
    (tally : s'.consumed + s'.ring.length ≤ s'.published.length) : s'.Books := by
  have held := held_setSlot slots inside
  have named : ∀ j id, s'.idea j = some id → s.idea j = some id ∨ (j = i ∧ id = s.reads ∧ id < s'.reads) := by
    intro j id same
    rw [idea_setSlot slots inside] at same
    split at same
    · rename_i equal
      subst equal
      rcases ideas id same with old | new
      · exact Or.inl old
      · exact Or.inr ⟨rfl, new⟩
    · exact Or.inl same
  refine ⟨?_, ?_, ?_, reading, ?_, ?_, ?_, ?_, ?_, ?_, ?_, ?_, tally⟩
  · intro j id same
    rcases named j id same with old | ⟨-, -, new⟩
    · exact (ok.bound j id old).trans_le reads
    · exact new
  · intro j k id one other
    rcases named j id one with old | ⟨rfl, fresh, -⟩
    · rcases named k id other with also | ⟨-, fresh, -⟩
      · exact ok.apart j k id old also
      · have bound := ok.bound j id old
        omega
    · rcases named k id other with also | ⟨rfl, -, -⟩
      · have bound := ok.bound k id also
        omega
      · rfl
  · intro j slot
    have kept := blank j slot
    rw [held]
    split
    · rename_i same
      rw [if_pos same] at kept
      exact kept
    · rename_i apart
      rw [if_neg apart] at kept
      exact ok.blank j kept
  · intro j slot
    have kept := staged j slot
    rw [held, begun]
    split
    · rename_i same
      rw [if_pos same] at kept
      exact kept
    · rename_i apart
      rw [if_neg apart] at kept
      exact ok.staged j kept
  · intro j h there busy
    rw [held] at there
    rw [begun, completions]
    split at there
    · subst there
      have still : h.isRunning = false := idle
      rw [busy] at still
      cases still
    · exact ok.active j h there busy
  · intro j h there
    rw [held] at there
    split at there
    · exact plain h there
    · exact ok.plain j h there
  · rw [begun]
    exact ok.begunOnce
  · rw [begun]
    exact fun id held => (ok.begunBound id held).trans_le reads
  · rw [completions]
    exact ok.completedOnce
  · rw [completions, begun]
    exact ok.completedBegun
  · rw [completions]
    exact published

theorem Books.inputReleased (slot : s.inputSlot = some i) (idle : s.input = .none) :
    Books { ({ s with inputSlot := none } : Pool V E).release i with inputEnded := true } := by
  have here := ok.blank i slot
  refine ok.set rfl (held_inside here) (Nat.le_refl _) (fun id never => by cases never)
    (fun j never => by cases never) (fun busy => absurd idle busy) ?_ rfl
    (fun h never => by cases never) rfl rfl ok.published ok.tally
  intro j at_
  obtain ⟨h, id, there, named, -⟩ := ok.staged j at_
  rw [if_neg]
  · exact at_
  · rintro rfl
    rw [here] at there
    cases there
    cases named

theorem Books.taken (slot : s.inputSlot = some i) (idle : s.input = .none) :
    Books { ({ s with inputSlot := none } : Pool V E).setSlot i { idea := some s.reads } with
      reads := s.reads + 1 } := by
  have here := ok.blank i slot
  refine ok.set rfl (held_inside here) (Nat.le_succ _) ?_ (fun j never => by cases never)
    (fun busy => absurd idle busy) ?_ rfl (fun h same pending => by cases same; rfl) rfl rfl ok.published ok.tally
  · intro id same
    right
    cases same
    exact ⟨rfl, Nat.lt_succ_self _⟩
  · intro j at_
    obtain ⟨h, id, there, named, -⟩ := ok.staged j at_
    rw [if_neg]
    · exact at_
    · rintro rfl
      rw [here] at there
      cases there
      cases named

theorem Books.reserved (inside : i < s.slots.length) (free : s.held i = none) :
    Books { s with slots := s.slots.set i (some {}), occupied := s.occupied + 1, inputSlot := some i } := by
  refine ok.set rfl inside (Nat.le_refl _) (fun id never => by cases never) ?_ (by simp) ?_ rfl
    (fun h same pending => by cases same; rfl) rfl rfl ok.published ok.tally
  · intro j slot
    rw [if_pos (Option.some.inj slot)]
  · intro j at_
    obtain ⟨h, id, there, -⟩ := ok.staged j at_
    rw [if_neg]
    · exact at_
    · rintro rfl
      rw [free] at there
      cases there

theorem Books.prepares {id : Nat} (here : s.held i = some h)
    (named : h.idea = some id) (early : id ∉ s.begun) (slot : s.inputSlot ≠ some i) :
    Books { s.setSlot i { idea := some id, task := .pending } with prepared := some i } := by
  refine ok.set rfl (held_inside here) (Nat.le_refl _) ?_ ?_ ok.reading ?_ rfl
    (fun h same pending => by cases same; rfl) rfl rfl ok.published ok.tally
  · intro other same
    left
    rw [idea_of_held here, named]
    exact same
  · intro j at_
    rw [if_neg]
    · exact at_
    · rintro rfl
      exact slot at_
  · intro j at_
    rw [if_pos (Option.some.inj at_)]
    exact ⟨_, id, rfl, rfl, rfl, rfl, early⟩

theorem Books.publishes {rest : List Nat} {value : V}
    (here : s.held i = some h) (slot : s.inputSlot ≠ some i) (prepared : s.prepared ≠ some i)
    (whole : s.completions = successes s.published ++ (h.idea.getD 0, .ok value) :: rest.map s.report) :
    Books { s.setSlot i { h with task := .none, ready := none } with
      ring := s.ring ++ [value], buffered := s.buffered ++ [i], completed := rest
      published := s.published ++ [(h.idea.getD 0, value)] } := by
  refine ok.set rfl (held_inside here) (Nat.le_refl _) ?_ ?_ ok.reading ?_ ?_
    (fun h same pending => by cases same; rfl) rfl rfl ?_ ?_
  · intro id same
    left
    rw [idea_of_held here]
    exact same
  · intro j at_
    rw [if_neg]
    · exact at_
    · rintro rfl
      exact slot at_
  · intro j at_
    rw [if_neg]
    · exact at_
    · rintro rfl
      exact prepared at_
  · simp [runs, Held.isRunning]
  · rw [whole]
    unfold successes
    rw [map_append, map_cons, map_nil]
    exact ⟨rest.map s.report, by rw [append_assoc]; rfl⟩
  · show s.consumed + (s.ring ++ [value]).length ≤ (s.published ++ [_]).length
    rw [length_append, length_append, length_singleton, length_singleton]
    have tally := ok.tally
    omega

theorem Books.advance {h' : Held V E} {id : Nat} (here : s.held i = some h)
    (named : h.idea = some id) (slots : s'.slots = s.slots.set i (some h')) (still : h'.idea = some id)
    (fresh : List Nat) (ended : List (Nat × Outcome V E)) (begun : s'.begun = s.begun ++ fresh)
    (completions : s'.completions = s.completions ++ ended) (once : fresh = [] ∨ (fresh = [id] ∧ id ∉ s.begun))
    (result : ended = [] ∨ ((∃ r, ended = [(id, r)]) ∧ id ∉ s.completions.map Prod.fst))
    (plain : h'.task = .pending → h'.ready = none) (now : id ∈ s'.begun) (busy : h'.isRunning = true → ended = [] ∧ id ∉ s.completions.map Prod.fst)
    (input : ∀ j, s'.inputSlot = some j → i ≠ j ∧ s.inputSlot = some j)
    (prepared : ∀ j, s'.prepared = some j → i ≠ j ∧ s.prepared = some j)
    (reading : s'.input ≠ .none → s'.inputSlot ≠ none) (reads : s'.reads = s.reads)
    (published : s'.published = s.published)
    (tally : s'.consumed + s'.ring.length ≤ s'.published.length) : s'.Books := by
  have inside := held_inside here
  have held := held_setSlot slots inside
  have bounded : id < s.reads := ok.bound i id (by rw [idea_of_held here, named])
  have ideas : ∀ j, s'.idea j = s.idea j := by
    intro j
    rw [idea_setSlot slots inside]
    split
    · rename_i same
      rw [← same, idea_of_held here, named]
      exact still
    · rfl
  have inBegun : ∀ x, x ∈ s'.begun ↔ x ∈ s.begun ∨ (x = id ∧ fresh ≠ []) := by
    intro x
    rw [begun, mem_append]
    rcases once with rfl | ⟨rfl, -⟩
    · simp
    · simp
  have inCompletions : ∀ x, x ∈ s'.completions.map Prod.fst ↔
      x ∈ s.completions.map Prod.fst ∨ (x = id ∧ ended ≠ []) := by
    intro x
    rw [completions, map_append, mem_append]
    rcases result with rfl | ⟨⟨r, rfl⟩, -⟩
    · simp
    · simp
  refine ⟨?_, ?_, ?_, reading, ?_, ?_, ?_, ?_, ?_, ?_, ?_, ?_, tally⟩
  · intro j x
    rw [ideas, reads]
    exact ok.bound j x
  · intro j k x
    rw [ideas, ideas]
    exact ok.apart j k x
  · intro j slot
    obtain ⟨apart, old⟩ := input j slot
    rw [held, if_neg apart]
    exact ok.blank j old
  · intro j slot
    obtain ⟨apart, old⟩ := prepared j slot
    obtain ⟨g, x, there, idea, pending, unstarted, early⟩ := ok.staged j old
    refine ⟨g, x, by rw [held, if_neg apart]; exact there, idea, pending, unstarted, ?_⟩
    rw [inBegun]
    rintro (already | ⟨rfl, -⟩)
    · exact early already
    · refine apart (ok.apart i j x ?_ ?_)
      · rw [idea_of_held here, named]
      · rw [idea_of_held there, idea]
  · intro j g there running
    rw [held] at there
    split at there
    · cases there
      obtain ⟨none_, early⟩ := busy running
      refine ⟨id, still, now, ?_⟩
      rw [inCompletions]
      rintro (already | ⟨-, some_⟩)
      · exact early already
      · exact some_ none_
    · rename_i apart
      obtain ⟨x, idea, already, early⟩ := ok.active j g there running
      refine ⟨x, idea, (inBegun x).mpr (Or.inl already), ?_⟩
      rw [inCompletions]
      rintro (done | ⟨rfl, -⟩)
      · exact early done
      · refine apart (ok.apart i j x ?_ ?_)
        · rw [idea_of_held here, named]
        · rw [idea_of_held there, idea]
  · intro j g there
    rw [held] at there
    split at there
    · cases there
      exact plain
    · exact ok.plain j g there
  · rw [begun]
    rcases once with rfl | ⟨rfl, new⟩
    · rw [append_nil]
      exact ok.begunOnce
    · exact nodup_concat ok.begunOnce new
  · intro x
    rw [inBegun, reads]
    rintro (already | ⟨rfl, -⟩)
    · exact ok.begunBound x already
    · exact bounded
  · rw [completions, map_append]
    rcases result with rfl | ⟨⟨r, rfl⟩, new⟩
    · rw [map_nil, append_nil]
      exact ok.completedOnce
    · exact nodup_concat ok.completedOnce new
  · intro x
    rw [inCompletions]
    rintro (done | ⟨rfl, -⟩)
    · exact (inBegun x).mpr (Or.inl (ok.completedBegun x done))
    · exact now
  · rw [published, completions]
    exact ok.published.trans (prefix_append _ _)

theorem Books.shrinks (held : ∀ j h, s'.held j = some h → s.held j = some h)
    (input : ∀ j, s'.inputSlot = some j → s.inputSlot = some j ∧ s'.held j = s.held j)
    (prepared : ∀ j, s'.prepared = some j → s.prepared = some j ∧ s'.held j = s.held j)
    (reading : s'.input ≠ .none → s'.inputSlot ≠ none) (reads : s'.reads = s.reads)
    (begun : s'.begun = s.begun) (completions : s'.completions = s.completions) (published : s'.published = s.published)
    (tally : s'.consumed + s'.ring.length ≤ s'.published.length) : s'.Books := by
  have ideas : ∀ j id, s'.idea j = some id → s.idea j = some id := by
    intro j id same
    obtain ⟨h, here, named⟩ := Option.bind_eq_some_iff.mp same
    rw [idea_of_held (held j h here)]
    exact named
  refine ⟨?_, ?_, ?_, reading, ?_, ?_, ?_, ?_, ?_, ?_, ?_, ?_, tally⟩
  · intro j id same
    rw [reads]
    exact ok.bound j id (ideas j id same)
  · exact fun j k id one other => ok.apart j k id (ideas j id one) (ideas k id other)
  · intro j slot
    obtain ⟨old, same⟩ := input j slot
    rw [same]
    exact ok.blank j old
  · intro j slot
    obtain ⟨old, same⟩ := prepared j slot
    rw [same, begun]
    exact ok.staged j old
  · intro j h here busy
    rw [begun, completions]
    exact ok.active j h (held j h here) busy
  · exact fun j h here => ok.plain j h (held j h here)
  · rw [begun]
    exact ok.begunOnce
  · rw [begun, reads]
    exact ok.begunBound
  · rw [completions]
    exact ok.completedOnce
  · rw [completions, begun]
    exact ok.completedBegun
  · rw [published, completions]
    exact ok.published

end

end Nxt.Runtime.Pool
