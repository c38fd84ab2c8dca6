import Nxt.Buffers.Sink

/- What a sink delivers. A queue view of the ring carries every operation: the values the
   destination took, followed by the queue, are the values written. -/
namespace Nxt.Buffers
open Nxt.Lib List
variable {α σ : Type}

structure Staged (c : Nat) (xs log : List α) (s : Sink α σ) : Prop where
  ring : s.ring.Holds xs
  capacity : s.ring.capacity = c
  complete : s.delivered ++ xs = log

/-- No operation described by a lemma below throws unless the lemma says so. -/
abbrev Never (_ : SinkError) (_ : Sink α σ) : Prop := False

theorem fresh_staged (c : Nat) (z : σ) : Staged c [] [] (Sink.fresh c z : Sink α σ) :=
  ⟨Ring.fresh_holds c, by simp [Sink.fresh, Ring.fresh, Ring.capacity], rfl⟩

theorem offered_once (chunks : List (List α)) : offered chunks 1 = chunks.flatten := by
  cases chunks with
  | nil => rfl
  | cons chunk rest =>
    have parts := dropLast_append_getLast (cons_ne_nil chunk rest)
    have last : (chunk :: rest).getLastD [] = (chunk :: rest).getLast (by simp) := by
      simp [getLastD_eq_getLast?, getLast?_eq_some_getLast]
    rw [offered, last]
    conv_rhs => rw [← parts]
    simp

theorem firstChunks_flatten (chunks : List (List α)) (n : Nat) :
    (firstChunks chunks n).flatten = chunks.flatten.take n := by
  induction chunks generalizing n with
  | nil => simp [firstChunks]
  | cons chunk rest ih =>
    simp only [firstChunks]
    split
    · rename_i none_left
      simp [none_left]
    · split
      · rename_i positive empty
        have : chunk = [] := length_eq_zero_iff.mp (by omega)
        simp [ih, this]
      · rw [flatten_cons, ih, flatten_cons, List.take_append]
        congr 1
        · rw [take_eq_take_iff]
          omega
        · congr 1
          omega

section Steps
variable {d : Drain α σ} {c : Nat} {xs log : List α} {s : Sink α σ}

theorem accept_bounds (accepting : d.Accepting) (z : σ) (chunks : List (List α)) (nonempty : chunks.flatten ≠ []) :
    0 < (d.accept z chunks 1).1 ∧ (d.accept z chunks 1).1 ≤ chunks.flatten.length := by
  have bounds := accepting z chunks 1
  rw [offered_once] at bounds
  exact bounds nonempty

theorem emplaceBack_spec (h : Staged c xs log s) (room : xs.length < c) (v : α) :
    wp (emplaceBack v) (fun _ => Staged c (xs ++ [v]) (log ++ [v])) Never s := by
  have size := h.ring.size
  have cap := h.capacity
  have free : s.unusedCapacitySize ≠ 0 := by
    simp only [Sink.unusedCapacitySize, Ring.unusedCapacitySize]
    omega
  simp only [emplaceBack, wp_bind, wp_get, wp_ite, free, withRing, wp_modify, false_imp_iff,
    true_and, not_false_eq_true, true_imp_iff]
  exact ⟨Ring.emplace_holds h.ring (by omega) v, by simpa using cap, by simp [← h.complete]⟩

theorem appendToBuffer_spec (h : Staged c xs log s) (vs : List α) (room : vs.length ≤ s.ring.unusedCapacity.len) :
    wp (appendToBuffer vs) (fun _ t => Staged c (xs ++ vs) (log ++ vs) t ∧ t.ring.seek = s.ring.seek ∧
      s.ring.unusedCapacity.len - vs.length ≤ t.ring.unusedCapacity.len) Never s := by
  have kept := Ring.constructRun_capacity s.ring s.ring.unusedCapacity.off vs
  simp only [appendToBuffer, wp_bind, wp_get, wp_ite, withRing, wp_modify,
    Nat.not_lt.mpr room, false_imp_iff, true_and, not_false_eq_true, true_imp_iff]
  have appended := Ring.append_holds h.ring vs room
  refine ⟨⟨appended.1, ?_, ?_⟩, ?_, appended.2⟩
  · simpa [kept.1] using h.capacity
  · simp [← h.complete]
  · simp [kept.2]

theorem drainMore_spec (chunks : List (List α)) (Q : Nat → Sink α σ → Prop) (E : SinkError → Sink α σ → Prop)
    (h : ∀ z, Q (d.accept s.drain chunks 1).1 ⟨s.ring, z, s.delivered ++
      chunks.flatten.take (d.accept s.drain chunks 1).1⟩) : wp (drainMore d chunks 1) Q E s := by
  simp only [drainMore, wp_bind, wp_get, wp_set, wp_pure, offered_once]
  exact h _

theorem requireProgress_spec {n m : Nat} (some_taken : 0 < n) (not_over : n ≤ m)
    (Q : Unit → Sink α σ → Prop) (E : SinkError → Sink α σ → Prop) (h : Q () s) : wp (requireProgress n m) Q E s := by
  simp only [requireProgress, wp_bind, wp_ite, wp_pure, Nat.pos_iff_ne_zero.mp some_taken,
    Nat.not_lt.mpr not_over, false_imp_iff, true_and, not_false_eq_true, true_imp_iff]
  exact h

theorem consumeBuffered_spec (held : s.ring.Holds xs) (capacity : s.ring.capacity = c) {n : Nat} (live : n ≤ xs.length)
    (recorded : s.delivered ++ xs.drop n = log) : wp (consumeBuffered n)
    (fun _ t => Staged c (xs.drop n) log t ∧ t.ring = (s.ring.destroyPrefix n).resetIfEmpty) Never s := by
  have inside : ¬ n > s.bufferedSize := by
    simp only [Sink.bufferedSize, held.size]
    omega
  simp only [consumeBuffered, wp_bind, wp_get, wp_ite, withRing, wp_modify, inside, false_imp_iff,
    true_and, not_false_eq_true, true_imp_iff]
  refine ⟨⟨Ring.reset_holds (Ring.destroyPrefix_holds held live), ?_, recorded⟩, trivial⟩
  simp [Ring.destroyPrefix, Ring.destroyPrefixLoop_capacity, capacity]

/-- Where the read cursor stands after `k` of the queued values have been drained. -/
def Moved (seek k c : Nat) (rest : List α) (r : Ring α) : Prop :=
  r.seek = (seek + k) % c ∨ r.seek = 0 ∧ rest = []

theorem moved_after_consume {r : Ring α} (held : r.Holds xs) (capacity : r.capacity = c)
    (pos : 0 < c) {n : Nat} (live : n ≤ xs.length) : Moved r.seek n c (xs.drop n) (r.destroyPrefix n).resetIfEmpty := by
  have rest := Ring.destroyPrefix_holds held live
  unfold Ring.resetIfEmpty
  split
  · rename_i empty
    simp only [Ring.empty, decide_eq_true_eq, rest.size] at empty
    exact Or.inr ⟨rfl, length_eq_zero_iff.mp empty⟩
  · left
    rw [Ring.destroyPrefix, Ring.destroyPrefixLoop_seek n (held.cursor (by omega)) (Nat.le_refl n), capacity]

section
variable (accepting : d.Accepting)
include accepting

theorem drainBufferedOnce_spec (h : Staged c xs log s) (nonempty : xs ≠ []) :
    wp (drainBufferedOnce d) (fun _ t => ∃ k, 0 < k ∧ k ≤ xs.length ∧
      Staged c (xs.drop k) log t ∧ Moved s.ring.seek k c (xs.drop k) t.ring) Never s := by
  have queue := Ring.constructed_flatten h.ring
  have bounds := accept_bounds accepting s.drain s.ring.constructed (by rwa [queue])
  rw [queue] at bounds
  have pos : 0 < c := by
    have := h.ring.fits
    have := h.capacity
    omega
  simp only [drainBufferedOnce, wp_bind, wp_get]
  apply drainMore_spec
  intro z
  apply requireProgress_spec bounds.1 (by rw [queue]; exact bounds.2)
  generalize (d.accept s.drain s.ring.constructed 1).1 = k at bounds ⊢
  have recorded : s.delivered ++ xs.take k ++ xs.drop k = log := by simpa using h.complete
  rw [queue]
  apply wp_mono (consumeBuffered_spec (s := ⟨s.ring, z, s.delivered ++ xs.take k⟩) h.ring
    h.capacity bounds.2 recorded)
  · rintro _ t ⟨staged, ring⟩
    refine ⟨_, bounds.1, bounds.2, staged, ?_⟩
    rw [ring]
    exact moved_after_consume h.ring h.capacity pos bounds.2
  · exact fun _ _ never => never

theorem drainWhile_spec {more : Sink α σ → Bool}
    (stops : ∀ t : Sink α σ, Staged c [] log t → more t = false) (fuel : Nat)
    (h : Staged c xs log s) (enough : xs.length ≤ fuel) :
    wp (drainWhile d more fuel) (fun _ t => ∃ k, k ≤ xs.length ∧ Staged c (xs.drop k) log t ∧
      Moved s.ring.seek k c (xs.drop k) t.ring ∧ more t = false) Never s := by
  have stay : Moved s.ring.seek 0 c xs s.ring := by
    left
    have cursor := h.ring.cursor
    rw [h.capacity] at cursor
    rcases Nat.eq_zero_or_pos c with none_held | pos
    · simp [none_held]
    · rw [Nat.add_zero, Nat.mod_eq_of_lt (cursor pos)]
  induction fuel generalizing xs s with
  | zero =>
    have empty : xs = [] := length_eq_zero_iff.mp (by omega)
    subst empty
    exact ⟨0, Nat.le_refl 0, h, stay, stops s h⟩
  | succ fuel ih =>
    simp only [drainWhile, wp_bind, wp_get, wp_ite, wp_pure]
    constructor
    · intro going
      have nonempty : xs ≠ [] := by
        rintro rfl
        rw [stops s h] at going
        exact absurd going (by decide)
      apply wp_mono (drainBufferedOnce_spec accepting h nonempty)
      · rintro _ t ⟨k, taken, live, staged, moved⟩
        have cursor := h.ring.cursor
        have fits := h.ring.fits
        have here : Moved t.ring.seek 0 c (xs.drop k) t.ring := by
          left
          have cursor := staged.ring.cursor
          rw [staged.capacity] at cursor
          rw [Nat.add_zero, Nat.mod_eq_of_lt (cursor (by have := h.capacity; omega))]
        apply wp_mono (ih staged (by simp; omega) here)
        · rintro _ u ⟨j, within, rest, further, done⟩
          rw [drop_drop] at rest further
          simp only [length_drop] at within
          refine ⟨k + j, by omega, rest, ?_, done⟩
          rcases further with on | ⟨zero, empty⟩
          · rcases moved with first | ⟨_, gone⟩
            · left
              rw [on, first, Nat.mod_add_mod, Nat.add_assoc]
            · -- The buffer was emptied by the first drain, so nothing moved after it.
              have : j = 0 := by
                have := congrArg List.length gone
                simp at this
                omega
              subst this
              rw [Nat.add_zero] at on ⊢
              right
              rename_i zero
              refine ⟨?_, gone⟩
              rw [on, zero]
              exact Nat.zero_mod c
          · exact Or.inr ⟨zero, empty⟩
        · exact fun _ _ never => never
      · exact fun _ _ never => never
    · intro done
      exact ⟨0, Nat.zero_le _, h, stay, by simpa using done⟩

theorem flush_spec (h : Staged c xs log s) :
    wp (flush d) (fun _ => Staged c [] log) Never s := by
  have size := h.ring.size
  simp only [flush, flushSlow, wp_bind, wp_get, wp_ite, withRing, wp_modify]
  constructor
  · intro empty
    have : xs = [] := length_eq_zero_iff.mp (by simpa [Sink.bufferedSize, size] using empty)
    subst this
    exact ⟨Ring.reset_holds h.ring, by simpa using h.capacity, h.complete⟩
  · intro nonempty
    have stops : ∀ t : Sink α σ, Staged c [] log t → decide (t.bufferedSize ≠ 0) = false := by
      intro t staged
      apply decide_eq_false
      simpa [Sink.bufferedSize] using staged.ring.size
    apply wp_mono (drainWhile_spec accepting stops _ h (by simp [Sink.bufferedSize, size]))
    · rintro _ t ⟨k, live, staged, moved, done⟩
      have empty := of_decide_eq_false done
      have gone : xs.drop k = [] := by
        rw [← length_eq_zero_iff, ← staged.ring.size]
        simpa [Sink.bufferedSize] using empty
      rwa [gone] at staged
    · exact fun _ _ never => never

theorem write_spec (pos : 0 < c) (h : Staged c xs log s) (v : α) :
    wp (write d v) (fun _ t => ∃ ys, Staged c ys (log ++ [v]) t) Never s := by
  have size := h.ring.size
  have cap := h.capacity
  simp only [write, writeSlow, wp_bind, wp_get, wp_ite]
  constructor
  · intro room
    simp only [Sink.unusedCapacitySize, Ring.unusedCapacitySize] at room
    exact wp_mono (emplaceBack_spec h (by omega) v) (fun _ _ staged => ⟨_, staged⟩)
      (fun _ _ never => never)
  · intro full
    refine ⟨fun zero => absurd zero (by omega), fun _ => ?_⟩
    have stops : ∀ t : Sink α σ, Staged c [] log t →
        decide (t.unusedCapacitySize = 0) = false := by
      intro t staged
      have empty : t.ring.size = 0 := staged.ring.size
      have cap' := staged.capacity
      apply decide_eq_false
      simp only [Sink.unusedCapacitySize, Ring.unusedCapacitySize]
      omega
    apply wp_mono (drainWhile_spec accepting stops _ h (by simp [Sink.bufferedSize, size]))
    · rintro _ t ⟨k, live, staged, moved, done⟩
      have left := staged.ring.size
      have cap' := staged.capacity
      have room := of_decide_eq_false done
      simp only [Sink.unusedCapacitySize, Ring.unusedCapacitySize] at room
      exact wp_mono (emplaceBack_spec staged (by omega) v) (fun _ _ staged => ⟨_, staged⟩)
        (fun _ _ never => never)
    · exact fun _ _ never => never

theorem writeDirectLoop_spec (fuel : Nat) (h : Staged c [] log s) (vs : List α)
    (enough : vs.length ≤ fuel) : wp (writeDirectLoop d fuel vs) (fun _ => Staged c [] (log ++ vs)) Never s := by
  induction fuel generalizing vs s log with
  | zero =>
    have : vs = [] := length_eq_zero_iff.mp (by omega)
    subst this
    simpa [writeDirectLoop] using h
  | succ fuel ih =>
    simp only [writeDirectLoop, wp_ite, wp_pure, wp_bind]
    constructor
    · rintro rfl
      simpa using h
    · intro nonempty
      have bounds := accept_bounds accepting s.drain [vs] (by simpa using nonempty)
      simp only [flatten_cons, flatten_nil, append_nil] at bounds
      apply drainMore_spec
      intro z
      apply requireProgress_spec bounds.1 bounds.2
      have handed : Staged c [] (log ++ vs.take (d.accept s.drain [vs] 1).1)
          ⟨s.ring, z, s.delivered ++ [vs].flatten.take (d.accept s.drain [vs] 1).1⟩ :=
        ⟨h.ring, h.capacity, by simp [← h.complete]⟩
      have rest := ih handed (vs.drop (d.accept s.drain [vs] 1).1) (by simp; omega)
      rwa [append_assoc, take_append_drop] at rest

end

/-- The states in which the slow path of `write(span)` finds one run of free slots whenever it
    appends: the run fits at once, or it goes past the buffer, or the free slots are not split
    by the wrap point and what is left after filling them ends before it. -/
def Fits (r : Ring α) (m : Nat) : Prop :=
  m ≤ r.unusedCapacity.len ∨ r.capacity ≤ m ∨
    r.unusedCapacity.len = r.unusedCapacitySize ∧
      r.seek + (m - r.unusedCapacitySize) ≤ r.capacity

instance (r : Ring α) (m : Nat) : Decidable (Fits r m) := by unfold Fits; infer_instance

theorem drain_then_append_spec (accepting : d.Accepting) (pos : 0 < c) (h : Staged c xs log s)
    (vs : List α) (full : xs.length = c) (before : s.ring.seek + vs.length ≤ c) :
    wp (do
        drainWhile d (fun s => vs.length > s.unusedCapacitySize) (← get).bufferedSize
        appendToBuffer vs) (fun _ t => ∃ ys, Staged c ys (log ++ vs) t) Never s := by
  have size := h.ring.size
  have stops : ∀ t : Sink α σ, Staged c [] log t →
      decide (vs.length > t.unusedCapacitySize) = false := by
    intro t staged
    have empty : t.ring.size = 0 := staged.ring.size
    have cap' := staged.capacity
    apply decide_eq_false
    simp only [Sink.unusedCapacitySize, Ring.unusedCapacitySize]
    omega
  have began : s.ring.seek < c := by
    have := h.ring.cursor
    have := h.capacity
    omega
  simp only [wp_bind, wp_get]
  apply wp_mono (drainWhile_spec accepting stops _ h (by simp [Sink.bufferedSize, size]))
  · rintro _ t ⟨k, live, staged, moved, done⟩
    have left := staged.ring.size
    have cap := staged.capacity
    have enough := of_decide_eq_false done
    simp only [Sink.unusedCapacitySize, Ring.unusedCapacitySize] at enough
    rw [length_drop] at left
    have room : vs.length ≤ t.ring.unusedCapacity.len := by
      rcases moved with on | ⟨origin, _⟩
      · exact Ring.unused_after_drain staged.ring (by omega : s.ring.seek < t.ring.capacity)
          (by rw [on, cap]) (by rw [length_drop]; omega) (by omega) (by omega)
      · rw [Ring.unused_at_origin staged.ring origin]
        simp only [Ring.unusedCapacitySize]
        omega
    exact wp_mono (appendToBuffer_spec staged vs room) (fun _ _ staged => ⟨_, staged.1⟩)
      (fun _ _ never => never)
  · exact fun _ _ never => never

theorem writeSpan_spec (accepting : d.Accepting) (pos : 0 < c) (h : Staged c xs log s) (vs : List α)
    (fits : Fits s.ring vs.length) : wp (writeSpan d vs) (fun _ t => ∃ ys, Staged c ys (log ++ vs) t) Never s := by
  have size := h.ring.size
  have cap := h.capacity
  have within := h.ring.fits
  have run := Ring.unused_len_le s.ring
  simp only [Ring.unusedCapacitySize] at run
  simp only [writeSpan, wp_bind, wp_get, wp_ite, wp_pure]
  refine ⟨?_, fun nonempty => ⟨fun room => ?_, fun tight => ?_⟩⟩
  · rintro rfl
    exact ⟨xs, by simpa using h⟩
  · exact wp_mono (appendToBuffer_spec h vs room) (fun _ _ staged => ⟨_, staged.1⟩)
      (fun _ _ never => never)
  · simp only [writeSpanSlow, wp_bind, wp_get, wp_ite, wp_pure]
    refine ⟨fun small => ?_, fun large => ?_⟩
    · obtain ⟨whole, before⟩ : s.ring.unusedCapacity.len = s.ring.unusedCapacitySize ∧
          s.ring.seek + (vs.length - s.ring.unusedCapacitySize) ≤ s.ring.capacity := by
        rcases fits with room | large | rest
        · exact absurd room tight
        · omega
        · exact rest
      simp only [Ring.unusedCapacitySize] at whole before
      simp only [Sink.unusedCapacitySize, Ring.unusedCapacitySize]
      refine ⟨fun partly => ?_, fun none_free => ?_⟩
      · -- The free run takes a prefix, which fills the ring.
        have filled := appendToBuffer_spec h (vs.take (s.ring.capacity - s.ring.size))
          (by simp; omega)
        apply wp_mono filled
        · rintro _ t ⟨staged, kept, _⟩
          have rest := drain_then_append_spec accepting pos staged
            (vs.drop (s.ring.capacity - s.ring.size)) (by simp; omega)
            (by rw [kept, length_drop]; omega)
          rw [append_assoc, take_append_drop] at rest
          simpa [Sink.unusedCapacitySize, Ring.unusedCapacitySize] using rest
        · exact fun _ _ never => never
      · have full : xs.length = c := by omega
        simpa [Sink.unusedCapacitySize, Ring.unusedCapacitySize] using
          drain_then_append_spec accepting pos h vs full (by omega)
    · apply wp_mono (flush_spec accepting h)
      · intro _ t staged
        exact wp_mono (writeDirectLoop_spec accepting _ staged vs (Nat.le_refl _))
          (fun _ _ staged => ⟨_, staged⟩) (fun _ _ never => never)
      · exact fun _ _ never => never

theorem appendChunksToBuffer_spec (chunks : List (List α)) (h : Staged c xs log s)
    (room : chunks.flatten.length ≤ s.ring.unusedCapacity.len) : wp (appendChunksToBuffer chunks)
      (fun _ => Staged c (xs ++ chunks.flatten) (log ++ chunks.flatten)) Never s := by
  induction chunks generalizing xs log s with
  | nil => simpa [appendChunksToBuffer] using h
  | cons chunk rest ih =>
    simp only [flatten_cons, length_append] at room ⊢
    simp only [appendChunksToBuffer, wp_bind]
    apply wp_mono (appendToBuffer_spec h chunk (by omega))
    · rintro _ t ⟨staged, _, left⟩
      simpa using ih staged (by omega)
    · exact fun _ _ never => never

theorem reconstruct_holds (vs : List α) {r : Ring α} (h : r.Holds xs)
    (room : xs.length + vs.length ≤ r.capacity) : (reconstruct vs r).Holds (xs ++ vs) ∧
      (reconstruct vs r).capacity = r.capacity ∧ (reconstruct vs r).seek = r.seek := by
  induction vs generalizing xs r with
  | nil => simpa [reconstruct] using h
  | cons v vs ih =>
    have size := h.size
    simp only [length_cons] at room
    have first := Ring.emplace_holds h (by omega) v
    have rest := ih first (by simp; omega)
    simpa [reconstruct] using rest

theorem contiguizeBuffered_spec (h : Staged c xs log s) :
    wp contiguizeBuffered (fun _ t => Staged c xs log t ∧ t.ring.seek = 0) Never s := by
  have cap := h.capacity
  simp only [contiguizeBuffered, withRing, wp_modify]
  split
  · rename_i empty
    refine ⟨⟨Ring.reset_holds h.ring, by simpa using cap, h.complete⟩, ?_⟩
    simp [Ring.resetIfEmpty, empty]
  · have emptied := Ring.destroyAll_holds h.ring
    have same : s.ring.destroyAll.capacity = s.ring.capacity :=
      Ring.destroyPrefixLoop_capacity _ _ _
    have again := reconstruct_holds s.ring.constructed.flatten emptied (by
      rw [Ring.constructed_flatten h.ring, same]
      simpa using h.ring.fits)
    rw [Ring.constructed_flatten h.ring] at again ⊢
    exact ⟨⟨by simpa using again.1, by rw [again.2.1, same, cap], h.complete⟩, again.2.2⟩

/-- The loop drains only values in front of the preserved suffix, and there are some while
    the free slots are too few. -/
theorem rebaseLoop_spec (accepting : d.Accepting) {preserve capacity : Nat} (fuel : Nat) (h : Staged c xs log s)
    (possible : preserve + capacity ≤ c) (enough : xs.length < fuel) : wp (rebaseLoop d preserve capacity fuel)
    (fun _ t => ∃ ys, Staged c ys log t ∧ capacity ≤ t.ring.unusedCapacity.len) Never s := by
  induction fuel generalizing xs s with
  | zero => omega
  | succ fuel ih =>
    have size := h.ring.size
    have cap := h.capacity
    have queue := Ring.constructed_flatten h.ring
    simp only [rebaseLoop, wp_bind, wp_get, wp_ite, wp_pure, wp_throw, queue]
    refine ⟨fun short => ⟨fun split => ?_, fun few => ⟨fun none_left => ?_, fun some_left => ?_⟩⟩,
      fun ready => ⟨xs, h, by omega⟩⟩
    · apply wp_mono (contiguizeBuffered_spec h)
      · rintro _ t ⟨staged, origin⟩
        refine ⟨xs, staged, ?_⟩
        have size' := staged.ring.size
        have cap' := staged.capacity
        rw [Ring.unused_at_origin staged.ring origin]
        simp only [Ring.unusedCapacitySize] at split ⊢
        omega
      · exact fun _ _ never => never
    · simp only [Ring.unusedCapacitySize] at few
      omega
    · generalize drainable : xs.length - min preserve xs.length = n at some_left ⊢
      have front := firstChunks_flatten s.ring.constructed n
      rw [queue] at front
      have bounds := accept_bounds accepting s.drain (firstChunks s.ring.constructed n) (by
        rw [front]
        intro none_offered
        have := congrArg List.length none_offered
        rw [length_take, length_nil] at this
        omega)
      rw [front, length_take] at bounds
      apply drainMore_spec
      intro z
      generalize (d.accept s.drain (firstChunks s.ring.constructed n) 1).1 = k at bounds ⊢
      apply requireProgress_spec bounds.1 (by omega)
      rw [front, take_take, Nat.min_eq_left (by omega : k ≤ n)]
      have recorded : s.delivered ++ xs.take k ++ xs.drop k = log := by simpa using h.complete
      apply wp_mono (consumeBuffered_spec (s := ⟨s.ring, z, s.delivered ++ xs.take k⟩) h.ring cap
        (by omega : k ≤ xs.length) recorded)
      · rintro _ t ⟨staged, _⟩
        exact ih staged (by simp; omega)
      · exact fun _ _ never => never

theorem rebase_spec (accepting : d.Accepting) (h : Staged c xs log s) (preserve capacity : Nat) : wp
    (rebase d preserve capacity) (fun _ t => ∃ ys, Staged c ys log t) (fun e t => e = .bufferTooSmall ∧ t = s) s := by
  have size := h.ring.size
  have cap := h.capacity
  simp only [rebase, requirePreservedCapacity, rebaseSlow, wp_bind, wp_get, wp_ite, wp_pure,
    wp_throw, implies_true, true_and]
  intro possible
  refine ⟨fun ready => ⟨xs, h⟩, fun short => ⟨fun split => ?_, fun few => ?_⟩⟩
  · exact wp_mono (contiguizeBuffered_spec h) (fun _ _ staged => ⟨xs, staged.1⟩)
      (fun _ _ never => never.elim)
  · apply wp_mono (rebaseLoop_spec accepting _ h (by omega)
        (by simp only [Sink.bufferedSize]; omega : xs.length < s.bufferedSize + 1))
    · intro _ t rebased
      obtain ⟨ys, staged, -⟩ := rebased
      exact ⟨ys, staged⟩
    · exact fun _ _ never => never.elim

end Steps

inductive SinkOp (α : Type) where
  | write (value : α)
  | writeSpan (values : List α)
  | writeChunks (chunks : List (List α))
  | rebase (preserve capacity : Nat)
  | flush
  deriving DecidableEq

def SinkOp.written : SinkOp α → List α
  | .write v => [v]
  | .writeSpan vs => vs
  | .writeChunks chunks => chunks.flatten
  | .rebase _ _ => []
  | .flush => []

section Runs
variable (d : Drain α σ)

def perform : SinkOp α → SinkM α σ Unit
  | .write v => write d v
  | .writeSpan vs => writeSpan d vs
  | .writeChunks chunks => writeChunks d chunks
  | .rebase preserve capacity => rebase d preserve capacity
  | .flush => flush d

def after (op : SinkOp α) (s : Sink α σ) : Sink α σ :=
  match perform d op s with
  | .ok _ t => t
  | .error _ t => t

def thrown (op : SinkOp α) (s : Sink α σ) : Option SinkError :=
  match perform d op s with
  | .ok _ _ => none
  | .error e _ => some e

/-- The state after a sequence of operations; a caller may go on after an exception. -/
def runOps (s : Sink α σ) : List (SinkOp α) → Sink α σ
  | [] => s
  | op :: ops => runOps (after d op s) ops

/-- The writes of spans that `write(chunks)` makes, each in the state it is made in. -/
def ChunksFit (s : Sink α σ) : List (List α) → Prop
  | [] => True
  | chunk :: rest => Fits s.ring chunk.length ∧ ChunksFit (after d (.writeSpan chunk) s) rest

def OpFits (s : Sink α σ) : SinkOp α → Prop
  | .writeSpan vs => Fits s.ring vs.length
  | .writeChunks chunks =>
      chunks.flatten.length ≤ s.ring.unusedCapacity.len ∨ ChunksFit d s chunks
  | _ => True

def RunFits (s : Sink α σ) : List (SinkOp α) → Prop
  | [] => True
  | op :: ops => OpFits d s op ∧ RunFits (after d op s) ops

end Runs

section Delivery
variable {d : Drain α σ} {c : Nat} {xs log : List α} {s : Sink α σ}

section
variable (accepting : d.Accepting) (pos : 0 < c)
include accepting pos

theorem writeChunksSlow_spec (chunks : List (List α)) (h : Staged c xs log s) (fit : ChunksFit d s chunks) :
    wp (writeChunksSlow d chunks) (fun _ t => ∃ ys, Staged c ys (log ++ chunks.flatten) t) Never s := by
  induction chunks generalizing xs log s with
  | nil => exact ⟨xs, by simpa [writeChunksSlow] using h⟩
  | cons chunk rest ih =>
    simp only [writeChunksSlow, wp_bind]
    obtain ⟨_, t, run, ys, staged⟩ :=
      wp_run (writeSpan_spec accepting pos h chunk fit.1) (fun _ _ never => never)
    have next := fit.2
    simp only [after, perform, run] at next
    rw [wp_of_ok run]
    simpa using ih staged next

/-- One operation whose spans fit: it throws nothing, except a rebase that asks for more than
    the storage, and the destination and the queue together gain exactly what it writes. -/
theorem perform_spec (h : Staged c xs log s) (op : SinkOp α) (fit : OpFits d s op) :
    wp (perform d op) (fun _ t => ∃ ys, Staged c ys (log ++ op.written) t ∧ (op = .flush → ys = []))
      (fun e t => e = .bufferTooSmall ∧ t = s ∧ op.written = []) s := by
  cases op with
  | write v =>
    apply wp_mono (write_spec accepting pos h v)
    · intro _ t written
      obtain ⟨ys, staged⟩ := written
      exact ⟨ys, staged, by simp⟩
    · exact fun _ _ never => never.elim
  | writeSpan vs =>
    apply wp_mono (writeSpan_spec accepting pos h vs fit)
    · intro _ t written
      obtain ⟨ys, staged⟩ := written
      exact ⟨ys, staged, by simp⟩
    · exact fun _ _ never => never.elim
  | writeChunks chunks =>
    simp only [perform, writeChunks, wp_bind, wp_get, wp_ite, wp_pure, SinkOp.written]
    refine ⟨fun none_given => ⟨xs, by simpa [none_given] using h, by simp⟩,
      fun _ => ⟨fun room => ?_, fun tight => ?_⟩⟩
    · exact wp_mono (appendChunksToBuffer_spec chunks h room)
        (fun _ _ staged => ⟨_, staged, by simp⟩) (fun _ _ never => never.elim)
    · have each := fit.resolve_left tight
      apply wp_mono (writeChunksSlow_spec accepting pos chunks h each)
      · intro _ t written
        obtain ⟨ys, staged⟩ := written
        exact ⟨ys, staged, by simp⟩
      · exact fun _ _ never => never.elim
  | rebase preserve capacity =>
    apply wp_mono (rebase_spec accepting h preserve capacity)
    · intro _ t rebased
      obtain ⟨ys, staged⟩ := rebased
      exact ⟨ys, by simpa [SinkOp.written] using staged, by simp⟩
    · intro _ t refused
      obtain ⟨small, same⟩ := refused
      exact ⟨small, same, rfl⟩
  | flush =>
    exact wp_mono (flush_spec accepting h)
      (fun _ _ staged => ⟨[], by simpa [SinkOp.written] using staged, by simp⟩)
      (fun _ _ never => never.elim)

theorem after_staged (h : Staged c xs log s) (op : SinkOp α) (fit : OpFits d s op) : thrown d op s ≠ some .bufferFull ∧
      ∃ ys, Staged c ys (log ++ op.written) (after d op s) ∧ (op = .flush → ys = []) := by
  have step := perform_spec accepting pos h op fit
  unfold wp at step
  simp only [thrown, after]
  cases run : perform d op s with
  | ok _ t =>
    rw [run] at step
    exact ⟨by simp, step⟩
  | error e t =>
    rw [run] at step
    obtain ⟨small, same, nothing⟩ := step
    subst small same
    refine ⟨by simp, xs, by simpa [nothing] using h, ?_⟩
    rintro rfl
    have flushed := flush_spec accepting h
    simp only [perform] at run
    simp only [wp, run] at flushed
    exact flushed.elim

theorem run_staged (ops : List (SinkOp α)) (h : Staged c xs log s) (fit : RunFits d s ops) :
    ∃ ys, Staged c ys (log ++ (ops.map SinkOp.written).flatten) (runOps d s ops) := by
  induction ops generalizing xs log s with
  | nil => exact ⟨xs, by simpa [runOps] using h⟩
  | cons op ops ih =>
    obtain ⟨_, ys, staged, _⟩ := after_staged accepting pos h op fit.1
    obtain ⟨zs, rest⟩ := ih staged fit.2
    exact ⟨zs, by simpa [runOps] using rest⟩

end

theorem runFits_append (pre : List (SinkOp α)) {rest : List (SinkOp α)}
    (fit : RunFits d s (pre ++ rest)) : RunFits d s pre ∧ RunFits d (runOps d s pre) rest := by
  induction pre generalizing s with
  | nil => exact ⟨trivial, fit⟩
  | cons op pre ih =>
    have more := ih fit.2
    exact ⟨⟨fit.1, more.1⟩, more.2⟩

end Delivery

/-- In every run whose span writes fit, at every point between two operations: the next
    operation does not fail for want of room, what was delivered and what is still buffered
    make up what was written, and a flush leaves the buffer empty. -/
theorem sink_delivery (d : Drain α σ) (accepting : d.Accepting) (c : Nat) (pos : 0 < c) (z : σ)
    (ops : List (SinkOp α)) (fit : RunFits d (Sink.fresh c z) ops)
    (pre rest : List (SinkOp α)) (op : SinkOp α) (place : ops = pre ++ op :: rest) :
    let s := runOps d (Sink.fresh c z) pre
    let t := after d op s
    thrown d op s ≠ some .bufferFull ∧
      s.delivered ++ s.ring.constructed.flatten = (pre.map SinkOp.written).flatten ∧
      t.delivered ++ t.ring.constructed.flatten =
        (pre.map SinkOp.written).flatten ++ op.written ∧
      (op = .flush → t.bufferedSize = 0) := by
  subst place
  obtain ⟨before, here⟩ := runFits_append pre fit
  obtain ⟨xs, held⟩ := run_staged accepting pos pre (fresh_staged c z) before
  obtain ⟨quiet, ys, next, flushed⟩ := after_staged accepting pos held op here.1
  refine ⟨quiet, ?_, ?_, ?_⟩
  · rw [Ring.constructed_flatten held.ring]
    simpa using held.complete
  · rw [Ring.constructed_flatten next.ring]
    simpa using next.complete
  · intro is_flush
    simpa [Sink.bufferedSize, flushed is_flush] using next.ring.size

/-- A destination that takes at most two values of an offer. -/
def pairDrain : Drain Nat Unit := ⟨fun _ chunks splat => (min 2 (offered chunks splat).length, ())⟩

theorem pairDrain_accepting : pairDrain.Accepting := by
  intro s chunks splat nonempty
  have := length_pos_iff.mpr nonempty
  simp only [pairDrain]
  omega

theorem sink_delivery_pairs :
    let ops : List (SinkOp Nat) := [.writeSpan [1, 2, 3], .write 4, .flush]
    thrown pairDrain .flush (runOps pairDrain (Sink.fresh 4 ()) [.writeSpan [1, 2, 3], .write 4])
        ≠ some .bufferFull ∧ RunFits pairDrain (Sink.fresh 4 ()) ops := by
  have fit : RunFits pairDrain (Sink.fresh 4 ())
      [.writeSpan [1, 2, 3], .write 4, .flush] :=
    ⟨by unfold OpFits; decide, trivial, trivial, trivial⟩
  exact ⟨(sink_delivery pairDrain pairDrain_accepting 4 (by decide) () _ fit
    [.writeSpan [1, 2, 3], .write 4] [] .flush rfl).1, fit⟩

/-- Three slots and two values at a time: after five single writes the queue starts at the last
    slot, and draining for a span of two leaves free slots on both sides of the wrap point. -/
theorem span_split_by_wrap_fails : pairDrain.Accepting ∧ thrown pairDrain (.writeSpan [6, 7])
    (runOps pairDrain (Sink.fresh 3 ()) [.write 1, .write 2, .write 3, .write 4, .write 5]) = some .bufferFull :=
  ⟨pairDrain_accepting, by decide⟩

end Nxt.Buffers
