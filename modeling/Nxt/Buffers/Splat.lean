import Nxt.Buffers.Delivery

/- Repeated writes of value-buffers.hpp. The direct path passes a repetition count to the
   destination and keeps a remaining suffix and a remaining count between two acceptances. -/
namespace Nxt.Buffers
open Nxt.Lib List
variable {α σ : Type}

/-- `std::numeric_limits<std::size_t>::max()`. -/
def sizeMax : Nat := 2 ^ 64 - 1

def repeatedSize (patternSize splat : Nat) : SinkM α σ Nat :=
  if patternSize ≠ 0 ∧ splat > sizeMax / patternSize then throw .countOverflow
  else pure (patternSize * splat)

def appendSplatToBuffer (pattern : List α) : Nat → SinkM α σ Unit
  | 0 => pure ()
  | splat + 1 => do
      appendToBuffer pattern
      appendSplatToBuffer pattern splat

section Operations
variable (d : Drain α σ)

/-- `effective_splat`: the copies offered after the suffix that starts at `offset`. -/
def effectiveSplat (offset splat : Nat) : Nat := if offset ≠ 0 then splat - 1 else splat

def splatChunks (values : List α) (offset splat : Nat) : List (List α) :=
  (if offset ≠ 0 then [values.drop offset] else []) ++
    (if effectiveSplat offset splat ≠ 0 then [values] else [])

def splatAvailable (values : List α) (offset splat : Nat) : Nat :=
  (if offset = 0 then 0 else values.length - offset) + values.length * effectiveSplat offset splat

/-- Every round takes at least one of the available values. -/
def writeSplatDirectLoop (values : List α) : Nat → Nat → Nat → SinkM α σ Unit
  | 0, _, _ => pure ()
  | fuel + 1, offset, splat =>
      if splat = 0 then pure ()
      else do
        let effective := effectiveSplat offset splat
        let accepted ← drainMore d (splatChunks values offset splat)
          (if effective = 0 then 1 else effective)
        requireProgress accepted (splatAvailable values offset splat)
        let part := values.length - offset
        if offset ≠ 0 ∧ accepted < part then
          writeSplatDirectLoop values fuel (offset + accepted) splat
        else
          -- A completed suffix counts down `splat`, and so did the acceptance that began it.
          let accepted := if offset ≠ 0 then accepted - part else accepted
          let splat := if offset ≠ 0 then splat - 1 else splat
          let whole := accepted / values.length
          let rest := accepted % values.length
          writeSplatDirectLoop values fuel rest (splat - whole - if rest ≠ 0 then 1 else 0)

def writeSplatDirectSlow (pattern : List α) (splat : Nat) : SinkM α σ Unit :=
  writeSplatDirectLoop d pattern (pattern.length * splat) 0 splat

def writeSplatSlow (pattern : List α) (splat : Nat) : SinkM α σ Unit := do
  let capacity := (← get).ring.capacity
  if capacity = 0 then
    writeSplatDirectSlow d pattern splat
  else
    let count ← repeatedSize pattern.length splat
    if count < capacity then
      drainWhile d (fun s => count > s.unusedCapacitySize) (← get).bufferedSize
      appendSplatToBuffer pattern splat
    else
      flush d
      writeSplatDirectSlow d pattern splat

def writeSplat (pattern : List α) (splat : Nat) : SinkM α σ Unit := do
  if pattern = [] ∨ splat = 0 then pure ()
  else
    let count ← repeatedSize pattern.length splat
    if count ≤ (← get).ring.unusedCapacity.len then
      appendSplatToBuffer pattern splat
    else
      writeSplatSlow d pattern splat

/-- What the caller of `write_splat()` and `flush()` asks for. -/
def SplatDelivers (pattern : List α) (splat : Nat) (xs : List α) (s : Sink α σ) : Prop :=
  ∃ t, (do writeSplat d pattern splat; flush d) s = .ok () t ∧
    t.delivered = s.delivered ++ xs ++ (replicate splat pattern).flatten

/-- Offered `splat` copies again and again, the destination always stops between two copies. -/
def WholeCopies (values : List α) : Nat → Nat → σ → Prop
  | 0, _, _ => True
  | rounds + 1, splat, z =>
      splat = 0 ∨ values.length ∣ (d.accept z [values] splat).1 ∧
        WholeCopies values rounds (splat - (d.accept z [values] splat).1 / values.length)
          (d.accept z [values] splat).2

/-- The chunks in which a ring of `capacity` slots offers the values that start at slot `seek`. -/
def offers (capacity seek : Nat) (values : List α) : List (List α) :=
  if values.length ≤ capacity - seek then [values]
  else [values.take (capacity - seek), values.drop (capacity - seek)]

/-- Where the values of a ring start once `taken` of `size` are gone; an emptied ring starts over. -/
def startAfter (capacity seek size taken : Nat) : Nat :=
  if taken ≠ 0 ∧ taken = size then 0 else (seek + taken) % capacity

/-- How many of the buffered values the destination takes, offered what is left of them as long as
    that is more than `keep`, and its state then. -/
def takes (capacity keep : Nat) : Nat → Nat → List α → σ → Nat × σ
  | 0, _, _, z => (0, z)
  | rounds + 1, seek, values, z =>
      if values.length ≤ keep then (0, z)
      else
        let one := d.accept z (offers capacity seek values) 1
        let rest := takes capacity keep rounds (startAfter capacity seek values.length one.1)
          (values.drop one.1) one.2
        (one.1 + rest.1, rest.2)

/-- The free slots in one run after `size` values that start at slot `seek`. -/
def freeRun (capacity seek size : Nat) : Nat :=
  if seek + size < capacity then capacity - (seek + size) else capacity - size

/-- No copy is cut: not by an acceptance on the direct path, not by the wrap point on the
    buffered one. -/
def CopiesUncut (pattern : List α) (splat : Nat) (r : Ring α) (xs : List α) (z : σ) : Prop :=
  let count := pattern.length * splat
  count ≤ freeRun r.capacity r.seek xs.length ∨
    if count < r.capacity then
      let taken := (takes d r.capacity (r.capacity - count) xs.length r.seek xs z).1
      let free := freeRun r.capacity (startAfter r.capacity r.seek xs.length taken) (xs.length - taken)
      count ≤ free ∨ pattern.length ∣ free
    else
      WholeCopies d pattern splat splat (takes d r.capacity 0 xs.length r.seek xs z).2

instance decidableWholeCopies (values : List α) :
    (rounds splat : Nat) → (z : σ) → Decidable (WholeCopies d values rounds splat z)
  | 0, _, _ => inferInstanceAs (Decidable True)
  | rounds + 1, splat, z =>
      have := decidableWholeCopies values rounds
        (splat - (d.accept z [values] splat).1 / values.length) (d.accept z [values] splat).2
      inferInstanceAs (Decidable (_ ∨ _ ∧ _))

instance (pattern : List α) (splat : Nat) (r : Ring α) (xs : List α) (z : σ) :
    Decidable (CopiesUncut d pattern splat r xs z) := by unfold CopiesUncut; infer_instance

end Operations

def outstanding (values : List α) (offset splat : Nat) : Nat :=
  if splat = 0 then 0 else splatAvailable values offset splat

theorem available_whole (values : List α) (splat : Nat) : splatAvailable values 0 splat = values.length * splat := by
  simp [splatAvailable, effectiveSplat]

theorem available_cut (values : List α) {offset : Nat} (cut : offset ≠ 0) (splat : Nat) :
    splatAvailable values offset splat = values.length - offset + values.length * (splat - 1) := by
  simp [splatAvailable, effectiveSplat, cut]

theorem outstanding_going (values : List α) (offset : Nat) {splat : Nat} (going : splat ≠ 0) :
    outstanding values offset splat = splatAvailable values offset splat := by
  simp [outstanding, going]

theorem outstanding_start (values : List α) (splat : Nat) : outstanding values 0 splat = values.length * splat := by
  unfold outstanding
  split
  · simp_all
  · exact available_whole values splat

theorem outstanding_after (values : List α) {m splat : Nat} (nonempty : values ≠ [])
    (within : m ≤ values.length * splat) : m + outstanding values (m % values.length)
        (splat - m / values.length - if m % values.length ≠ 0 then 1 else 0) ≤ values.length * splat ∧
    (m % values.length ≠ 0 → m + outstanding values (m % values.length)
        (splat - m / values.length - 1) < values.length * splat) := by
  have pos : 0 < values.length := length_pos_iff.mpr nonempty
  have parts := Nat.div_add_mod m values.length
  have small := Nat.mod_lt m pos
  have whole : m / values.length ≤ splat := by
    rw [Nat.div_le_iff_le_mul_add_pred pos]
    omega
  generalize m / values.length = w at *
  generalize m % values.length = r at *
  obtain ⟨rest, rfl⟩ := Nat.exists_eq_add_of_le whole
  have expand := Nat.mul_add values.length w rest
  by_cases cut : r = 0
  · subst cut
    simp only [ne_eq, not_true, if_false, Nat.sub_zero, false_imp_iff, and_true]
    rw [Nat.add_sub_cancel_left, outstanding_start]
    omega
  · simp only [ne_eq, cut, not_false_eq_true, if_true, true_imp_iff]
    have strict : m + outstanding values r (w + rest - w - 1) < values.length * (w + rest) := by
      have some_left : 0 < rest := by
        rcases Nat.eq_zero_or_pos rest with none_left | pos
        · subst none_left
          omega
        · exact pos
      obtain ⟨more, rfl⟩ : ∃ more, rest = more + 1 := ⟨rest - 1, by omega⟩
      rw [show w + (more + 1) - w - 1 = more by omega]
      have last := Nat.mul_add values.length more 1
      rw [Nat.mul_one] at last
      by_cases going : more = 0
      · subst going
        simp only [outstanding, if_true]
        omega
      · rw [outstanding_going values r going, available_cut values cut]
        obtain ⟨few, rfl⟩ := Nat.exists_eq_succ_of_ne_zero going
        have next := Nat.mul_add values.length few 1
        rw [Nat.mul_one] at next
        simp only [Nat.succ_eq_add_one, Nat.add_sub_cancel] at *
        omega
    exact ⟨Nat.le_of_lt strict, strict⟩

section Direct
variable {d : Drain α σ} {c : Nat} {xs log : List α} {s : Sink α σ} {values : List α}

theorem offered_splat {offset splat : Nat} (going : splat ≠ 0) : offered (splatChunks values offset splat)
        (if effectiveSplat offset splat = 0 then 1 else effectiveSplat offset splat) =
      (if offset ≠ 0 then values.drop offset else []) ++ (replicate (effectiveSplat offset splat) values).flatten := by
  unfold splatChunks
  by_cases whole : offset = 0
  · subst whole
    have copies : effectiveSplat 0 splat ≠ 0 := by simpa [effectiveSplat] using going
    simp [copies, offered]
  · by_cases copies : effectiveSplat offset splat = 0 <;> simp [copies, whole, offered]

variable (values) in
theorem offered_splat_length (offset : Nat) {splat : Nat} (going : splat ≠ 0) :
    (offered (splatChunks values offset splat)
      (if effectiveSplat offset splat = 0 then 1 else effectiveSplat offset splat)).length =
      splatAvailable values offset splat := by
  rw [offered_splat going, splatAvailable]
  by_cases whole : offset = 0 <;> simp [whole, Nat.mul_comm]

theorem direct_round (accepting : d.Accepting) {fuel offset splat : Nat} (going : splat ≠ 0)
    (inside : offset < values.length) (Q : Unit → Sink α σ → Prop)
    (next : ∀ m z, (m, z) = d.accept s.drain (splatChunks values offset splat)
        (if effectiveSplat offset splat = 0 then 1 else effectiveSplat offset splat) →
      0 < m → m ≤ splatAvailable values offset splat → wp (if offset ≠ 0 ∧ m < values.length - offset then
            writeSplatDirectLoop d values fuel (offset + m) splat
          else
            let accepted := if offset ≠ 0 then m - (values.length - offset) else m
            let splat := if offset ≠ 0 then splat - 1 else splat
            writeSplatDirectLoop d values fuel (accepted % values.length)
              (splat - accepted / values.length - if accepted % values.length ≠ 0 then 1 else 0))
        Q Never ⟨s.ring, z, s.delivered ++ (offered (splatChunks values offset splat)
          (if effectiveSplat offset splat = 0 then 1 else effectiveSplat offset splat)).take m⟩) :
    wp (writeSplatDirectLoop d values (fuel + 1) offset splat) Q Never s := by
  have length := offered_splat_length values offset going
  have some_offered : 0 < splatAvailable values offset splat := by
    unfold splatAvailable effectiveSplat
    by_cases whole : offset = 0
    · simp only [whole, ne_eq, not_true, if_true, if_false, Nat.zero_add]
      exact Nat.mul_pos (by omega) (by omega)
    · simp only [whole, if_false]
      omega
  have bounds := accepting s.drain (splatChunks values offset splat)
    (if effectiveSplat offset splat = 0 then 1 else effectiveSplat offset splat) (by
      intro none_offered
      rw [none_offered] at length
      simp at length
      omega)
  rw [length] at bounds
  simp only [writeSplatDirectLoop, going, if_false, drainMore, wp_bind, wp_get, wp_set, wp_pure]
  apply requireProgress_spec bounds.1 bounds.2
  exact next _ _ rfl bounds.1 bounds.2

theorem direct_bound (accepting : d.Accepting) (fuel : Nat) {offset splat : Nat}
    (inside : offset < values.length) : wp (writeSplatDirectLoop d values fuel offset splat)
      (fun _ t => t.ring = s.ring ∧
        t.delivered.length ≤ s.delivered.length + outstanding values offset splat) Never s := by
  have nonempty : values ≠ [] := length_pos_iff.mp (by omega)
  induction fuel generalizing offset splat s with
  | zero => exact ⟨rfl, by omega⟩
  | succ fuel ih =>
    by_cases finished : splat = 0
    · simp only [writeSplatDirectLoop, finished, if_true, wp_pure, true_and]
      omega
    · apply direct_round accepting finished inside
      intro m z _ some_taken within
      have step : ∀ {o k : Nat}, o < values.length → m + outstanding values o k ≤
          outstanding values offset splat → wp (writeSplatDirectLoop d values fuel o k)
          (fun _ t => t.ring = s.ring ∧
            t.delivered.length ≤ s.delivered.length + outstanding values offset splat) Never
          ⟨s.ring, z, s.delivered ++ (offered (splatChunks values offset splat)
            (if effectiveSplat offset splat = 0 then 1 else effectiveSplat offset splat)).take m⟩ := by
        intro o k place fewer
        apply wp_mono (ih place)
        · rintro _ t ⟨ring, bound⟩
          refine ⟨ring, ?_⟩
          rw [length_append, length_take] at bound
          omega
        · exact fun _ _ never => never
      rw [outstanding_going values offset finished] at step
      rw [wp_ite, outstanding_going values offset finished]
      refine ⟨fun short => step (by omega) ?_, fun long => step (Nat.mod_lt _ (by omega)) ?_⟩
      · rw [outstanding_going values _ finished, available_cut values (by omega), available_cut values short.1]
        omega
      · by_cases whole : offset = 0
        · subst whole
          rw [available_whole] at within ⊢
          simp only [ne_eq, not_true, if_false]
          exact (outstanding_after values nonempty within).1
        · rw [available_cut values whole] at within ⊢
          simp only [ne_eq, whole, not_false_eq_true, true_and, if_true] at long ⊢
          have rest := (outstanding_after values nonempty
            (by omega : m - (values.length - offset) ≤ values.length * (splat - 1))).1
          simp only [ne_eq] at rest
          omega

variable (values) in
theorem offer_whole {splat : Nat} (going : splat ≠ 0) : splatChunks values 0 splat = [values] ∧
      (if effectiveSplat 0 splat = 0 then 1 else effectiveSplat 0 splat) = splat ∧
      offered (splatChunks values 0 splat) (if effectiveSplat 0 splat = 0 then 1 else effectiveSplat 0 splat) =
        (replicate splat values).flatten := by
  refine ⟨by simp [splatChunks, effectiveSplat, going], by simp [effectiveSplat, going], ?_⟩
  rw [offered_splat going]
  simp [effectiveSplat]

theorem copies_length (values : List α) (n : Nat) : (replicate n values).flatten.length = values.length * n := by
  simp [Nat.mul_comm]

theorem copies_split (values : List α) {w n : Nat} (within : w ≤ n) : (replicate n values).flatten.take
    (values.length * w) ++ (replicate (n - w) values).flatten = (replicate n values).flatten := by
  obtain ⟨rest, rfl⟩ := Nat.exists_eq_add_of_le within
  rw [replicate_add, flatten_append, take_append_of_le_length (by simp [Nat.mul_comm]),
    take_of_length_le (by simp [Nat.mul_comm]), Nat.add_sub_cancel_left]

theorem direct_whole (accepting : d.Accepting) (fuel rounds : Nat) {splat : Nat}
    (nonempty : values ≠ []) (enough : values.length * splat ≤ fuel)
    (long : splat ≤ rounds) (uncut : WholeCopies d values rounds splat s.drain) :
    wp (writeSplatDirectLoop d values fuel 0 splat) (fun _ t => t.ring = s.ring ∧
      t.delivered = s.delivered ++ (replicate splat values).flatten) Never s := by
  have pos : 0 < values.length := length_pos_iff.mpr nonempty
  induction rounds generalizing fuel splat s with
  | zero =>
    have none_left : splat = 0 := by omega
    subst none_left
    cases fuel <;> exact ⟨rfl, by simp⟩
  | succ rounds ih =>
    by_cases finished : splat = 0
    · subst finished
      cases fuel <;> exact ⟨rfl, by simp⟩
    · obtain ⟨more, rfl⟩ : ∃ more, fuel = more + 1 := by
        have := Nat.mul_le_mul_left values.length (Nat.pos_of_ne_zero finished)
        exact ⟨fuel - 1, by omega⟩
      apply direct_round accepting finished pos
      obtain ⟨chunks, count, offer⟩ := offer_whole values finished
      intro m z taken some_taken within
      rw [chunks, count] at taken
      rw [available_whole] at within
      obtain ⟨divides, next⟩ := uncut.resolve_left finished
      rw [← taken] at divides next
      obtain ⟨w, rfl⟩ := divides
      have some_copies : 0 < w := Nat.pos_of_mul_pos_left some_taken
      have few : w ≤ splat := Nat.le_of_mul_le_mul_left within pos
      simp only [Nat.mul_div_cancel_left w pos] at next
      simp only [ne_eq, not_true, false_and, if_false, Nat.mul_mod_right,
        Nat.mul_div_cancel_left w pos, Nat.sub_zero, offer]
      have shrinks : values.length * (splat - w) ≤ more := by
        rw [Nat.mul_sub]
        have := Nat.mul_le_mul_left values.length some_copies
        omega
      apply wp_mono (@ih ⟨s.ring, z, _⟩ more _ shrinks (by omega) next)
      · rintro _ t ⟨ring, all⟩
        refine ⟨ring, ?_⟩
        rw [all, append_assoc, copies_split values few]
      · exact fun _ _ never => never

theorem direct_cut (accepting : d.Accepting) (fuel rounds : Nat) {splat : Nat} (nonempty : values ≠ [])
    (enough : values.length * splat ≤ fuel) (cut : ¬ WholeCopies d values rounds splat s.drain) : wp
    (writeSplatDirectLoop d values fuel 0 splat)
    (fun _ t => t.ring = s.ring ∧ t.delivered.length < s.delivered.length + values.length * splat) Never s := by
  have pos : 0 < values.length := length_pos_iff.mpr nonempty
  induction rounds generalizing fuel splat s with
  | zero => exact absurd trivial cut
  | succ rounds ih =>
    simp only [WholeCopies, not_or, not_and] at cut
    obtain ⟨finished, next⟩ := cut
    obtain ⟨more, rfl⟩ : ∃ more, fuel = more + 1 := by
      have := Nat.mul_le_mul_left values.length (Nat.pos_of_ne_zero finished)
      exact ⟨fuel - 1, by omega⟩
    apply direct_round accepting finished pos
    obtain ⟨chunks, count, offer⟩ := offer_whole values finished
    intro m z taken some_taken within
    rw [chunks, count] at taken
    rw [available_whole] at within
    rw [← taken] at next
    simp only [ne_eq, not_true, false_and, if_false, offer]
    by_cases divides : values.length ∣ m
    · have further := next divides
      obtain ⟨w, rfl⟩ := divides
      have some_copies : 0 < w := Nat.pos_of_mul_pos_left some_taken
      simp only [Nat.mul_div_cancel_left w pos] at further
      simp only [Nat.mul_mod_right, Nat.mul_div_cancel_left w pos, not_true, if_false, Nat.sub_zero]
      have expand := Nat.mul_sub values.length splat w
      have step := Nat.mul_le_mul_left values.length some_copies
      apply wp_mono (@ih ⟨s.ring, z, _⟩ more _ (by omega) further)
      · rintro _ t ⟨ring, less⟩
        refine ⟨ring, ?_⟩
        rw [length_append, length_take, copies_length] at less
        omega
      · exact fun _ _ never => never
    · have inside : m % values.length ≠ 0 := fun zero => divides (Nat.dvd_of_mod_eq_zero zero)
      have lost := (outstanding_after values nonempty within).2 inside
      rw [if_pos inside]
      apply wp_mono (direct_bound accepting more (Nat.mod_lt m pos))
      · rintro _ t ⟨ring, bound⟩
        refine ⟨ring, ?_⟩
        rw [length_append, length_take, copies_length] at bound
        omega
      · exact fun _ _ never => never

end Direct

theorem Ring.unused_run {r : Ring α} {xs : List α} (h : r.Holds xs) :
    r.unusedCapacity.len = if r.seek + r.size < r.capacity then r.capacity - (r.seek + r.size)
      else r.unusedCapacitySize := by
  have size := h.size
  have fits := h.fits
  by_cases full : r.size = r.capacity
  · simp only [Ring.unusedCapacity, Ring.unusedCapacitySize, full, if_true]
    split <;> omega
  · have cursor := h.cursor (by omega)
    have write : r.writeIndex = if r.seek + r.size < r.capacity then r.seek + r.size
        else r.seek + r.size - r.capacity := Ring.wrap_eq cursor (by omega)
    simp only [Ring.unusedCapacity, Ring.unusedCapacitySize, full, if_false, write]
    split <;> split <;> omega

theorem Ring.unused_after_append {r : Ring α} {xs : List α} (h : r.Holds xs) (vs : List α)
    (room : vs.length ≤ r.unusedCapacity.len) :
    ((r.constructRun r.unusedCapacity.off vs).advanceConstructed vs.length).unusedCapacity.len =
      if vs.length < r.unusedCapacity.len then r.unusedCapacity.len - vs.length
      else r.unusedCapacitySize - vs.length := by
  have kept := Ring.constructRun_capacity r r.unusedCapacity.off vs
  have appended := (Ring.append_holds h vs room).1
  have size := h.size
  have size' := appended.size
  have fits' := appended.fits
  rw [Ring.unused_run appended, Ring.unusedCapacitySize, size']
  rw [Ring.unused_run h, Ring.unusedCapacitySize] at room ⊢
  simp only [Ring.advance_capacity, Ring.advance_seek, kept.1, kept.2, length_append]
    at fits' ⊢
  split at room <;> split <;> split <;> omega

section Copies
variable {d : Drain α σ} {c : Nat} {xs log : List α} {s : Sink α σ} {pattern : List α}

theorem appendToBuffer_run (h : Staged c xs log s) (vs : List α) (room : vs.length ≤ s.ring.unusedCapacity.len) :
    wp (appendToBuffer vs) (fun _ t => Staged c (xs ++ vs) (log ++ vs) t ∧
      t.ring.unusedCapacitySize = s.ring.unusedCapacitySize - vs.length ∧ t.ring.unusedCapacity.len =
        if vs.length < s.ring.unusedCapacity.len then s.ring.unusedCapacity.len - vs.length
        else s.ring.unusedCapacitySize - vs.length) Never s := by
  have kept := Ring.constructRun_capacity s.ring s.ring.unusedCapacity.off vs
  have appended := Ring.append_holds h.ring vs room
  have size := appended.1.size
  have before := h.ring.size
  simp only [appendToBuffer, wp_bind, wp_get, wp_ite, withRing, wp_modify,
    Nat.not_lt.mpr room, false_imp_iff, true_and, not_false_eq_true, true_imp_iff]
  refine ⟨⟨appended.1, ?_, ?_⟩, ?_, Ring.unused_after_append h.ring vs room⟩
  · simpa [kept.1] using h.capacity
  · simp [← h.complete]
  · simp only [Ring.unusedCapacitySize, size, Ring.advance_capacity, kept.1, length_append]
    omega

theorem appendSplat_spec (nonempty : pattern ≠ []) (splat : Nat) (h : Staged c xs log s)
    (room : pattern.length * splat ≤ s.ring.unusedCapacitySize)
    (uncut : pattern.length * splat ≤ s.ring.unusedCapacity.len ∨ pattern.length ∣ s.ring.unusedCapacity.len) :
    wp (appendSplatToBuffer pattern splat) (fun _ t =>
      ∃ ys, Staged c ys (log ++ (replicate splat pattern).flatten) t) Never s := by
  have pos : 0 < pattern.length := length_pos_iff.mpr nonempty
  induction splat generalizing xs log s with
  | zero => exact ⟨xs, by simpa using h⟩
  | succ splat ih =>
    rw [Nat.mul_add, Nat.mul_one] at room uncut
    have some_free : 0 < s.ring.unusedCapacity.len := by
      rw [Ring.unused_pos_iff h.ring]
      simp only [Ring.unusedCapacitySize] at room
      omega
    have fits : pattern.length ≤ s.ring.unusedCapacity.len := by
      rcases uncut with all | ends
      · omega
      · exact Nat.le_of_dvd some_free ends
    simp only [appendSplatToBuffer, wp_bind]
    apply wp_mono (appendToBuffer_run h pattern fits)
    · rintro _ t ⟨staged, free, run⟩
      have rest := ih staged (by omega) (by
        rw [run]
        split
        · rcases uncut with all | ends
          · exact Or.inl (by omega)
          · exact Or.inr (Nat.dvd_sub ends (Nat.dvd_refl _))
        · exact Or.inl (by omega))
      rw [append_assoc, ← flatten_cons, ← replicate_succ] at rest
      exact rest
    · exact fun _ _ never => never

theorem appendSplat_cut (nonempty : pattern ≠ []) (splat : Nat) (h : Staged c xs log s)
    (long : ¬ pattern.length * splat ≤ s.ring.unusedCapacity.len)
    (inside : ¬ pattern.length ∣ s.ring.unusedCapacity.len) :
    wp (appendSplatToBuffer pattern splat) (fun _ _ => False) (fun e _ => e = .bufferFull) s := by
  have pos : 0 < pattern.length := length_pos_iff.mpr nonempty
  induction splat generalizing xs log s with
  | zero => exact absurd (by simp) long
  | succ splat ih =>
    rw [Nat.mul_add, Nat.mul_one] at long
    by_cases fits : pattern.length ≤ s.ring.unusedCapacity.len
    · have shorter : pattern.length < s.ring.unusedCapacity.len := by
        rcases Nat.lt_or_eq_of_le fits with shorter | same
        · exact shorter
        · exact absurd (by rw [← same]) inside
      simp only [appendSplatToBuffer, wp_bind]
      apply wp_mono (appendToBuffer_run h pattern fits)
      · rintro _ t ⟨staged, _, run⟩
        rw [if_pos shorter] at run
        apply ih staged
        · omega
        · rw [run, Nat.dvd_sub_iff_left fits (Nat.dvd_refl _)]
          exact inside
      · exact fun _ _ never => never.elim
    · have refused : pattern.length > s.ring.unusedCapacity.len := by omega
      simp [appendSplatToBuffer, appendToBuffer, refused]

end Copies

section Delivered
variable {d : Drain α σ} {xs : List α} {s : Sink α σ} {pattern : List α} {splat : Nat}

theorem delivers_iff : SplatDelivers d pattern splat xs s ↔
    wp (do writeSplat d pattern splat; flush d)
      (fun _ t => t.delivered = s.delivered ++ xs ++ (replicate splat pattern).flatten)
      (fun _ _ => False) s := by
  simp only [SplatDelivers, wp]
  cases run : (do writeSplat d pattern splat; flush d : SinkM α σ Unit) s with
  | ok _ t => simp
  | error e t => simp

theorem delivers_of_staged (accepting : d.Accepting)
    (written : wp (writeSplat d pattern splat) (fun _ t => ∃ c ys, Staged c ys
      (s.delivered ++ xs ++ (replicate splat pattern).flatten) t) Never s) : SplatDelivers d pattern splat xs s := by
  rw [delivers_iff, wp_bind]
  apply wp_mono written
  · rintro _ t ⟨c, ys, staged⟩
    exact wp_mono (flush_spec accepting staged) (fun _ _ done => by simpa using done.complete)
      (fun _ _ never => never)
  · exact fun _ _ never => never

theorem not_delivers_of_throw (thrown : wp (writeSplat d pattern splat) (fun _ _ => False) (fun _ _ => True) s) :
    ¬ SplatDelivers d pattern splat xs s := by
  rw [delivers_iff, wp_bind]
  intro done
  unfold wp at thrown done
  cases run : writeSplat d pattern splat s <;> simp_all

theorem not_delivers_of_short
    (short : wp (writeSplat d pattern splat) (fun _ t => t.ring.Holds [] ∧ t.delivered.length <
      (s.delivered ++ xs ++ (replicate splat pattern).flatten).length) Never s) :
    ¬ SplatDelivers d pattern splat xs s := by
  rw [delivers_iff, wp_bind]
  intro done
  obtain ⟨_, t, run, empty, less⟩ := wp_run short (fun _ _ never => never)
  rw [wp_of_ok run] at done
  have none_buffered : t.bufferedSize = 0 := empty.size
  simp only [flush, withRing, wp_bind, wp_get, none_buffered, if_true, wp_modify] at done
  rw [done] at less
  exact absurd less (Nat.lt_irrefl _)

theorem drainBufferedOnce_takes (accepting : d.Accepting) {c : Nat} {log : List α} (h : Staged c xs log s)
    (nonempty : xs ≠ []) {m : Nat} {z : σ} (accepted : d.accept s.drain (offers c s.ring.seek xs) 1 = (m, z)) :
    wp (drainBufferedOnce d) (fun _ t => 0 < m ∧ m ≤ xs.length ∧ Staged c (xs.drop m) log t ∧
      t.ring.seek = startAfter c s.ring.seek xs.length m ∧ t.drain = z) Never s := by
  have queue := Ring.constructed_flatten h.ring
  have some_ : xs.length ≠ 0 := fun none_ => nonempty (length_eq_zero_iff.mp none_)
  have fits := h.ring.fits
  have capacity := h.capacity
  have chunks : s.ring.constructed = offers c s.ring.seek xs := by
    rw [Ring.constructed_chunks h.ring.size fits h.ring.cursor fun i live => h.ring.slot i (by omega),
      if_neg some_, capacity]
    rfl
  have bounds := accept_bounds accepting s.drain s.ring.constructed (by rwa [queue])
  rw [queue, chunks, accepted] at bounds
  simp only [drainBufferedOnce, wp_bind, wp_get, drainMore, wp_set, wp_pure, offered_once, queue]
  have accepted : d.1 s.drain (offers c s.ring.seek xs) 1 = (m, z) := accepted
  rw [chunks]
  simp only [accepted]
  apply requireProgress_spec bounds.1 bounds.2
  have recorded : s.delivered ++ xs.take m ++ xs.drop m = log := by simpa using h.complete
  have rest := Ring.destroyPrefix_holds h.ring bounds.2
  have moved : (s.ring.destroyPrefix m).seek = (s.ring.seek + m) % c := by
    rw [Ring.destroyPrefix, Ring.destroyPrefixLoop_seek m (h.ring.cursor (by omega)) (Nat.le_refl m), capacity]
  simp only [consumeBuffered, wp_bind, wp_get, wp_ite, withRing, wp_modify]
  refine ⟨fun past => ?_, fun _ => ⟨bounds.1, bounds.2, ⟨Ring.reset_holds rest, ?_, recorded⟩, ?_, trivial⟩⟩
  · have size : s.ring.size = xs.length := h.ring.size
    exact absurd bounds.2 (Nat.not_le_of_lt (size ▸ past))
  · simp [Ring.destroyPrefix, Ring.destroyPrefixLoop_capacity, capacity]
  · have left : (s.ring.destroyPrefix m).size = xs.length - m := by rw [rest.size, length_drop]
    simp only [Ring.resetIfEmpty, Ring.empty, left, decide_eq_true_eq, startAfter]
    split
    · rw [if_pos (by omega)]
    · rw [if_neg (by omega), moved]

theorem startAfter_zero {c : Nat} {r : Ring α} (held : r.Holds xs) (capacity : r.capacity = c) (size : Nat) :
    r.seek = startAfter c r.seek size 0 := by
  have cursor := held.cursor
  rw [startAfter, if_neg (fun zero => zero.1 rfl), Nat.add_zero]
  obtain rfl | pos := Nat.eq_zero_or_pos c
  · exact (Nat.mod_zero _).symm
  · exact (Nat.mod_eq_of_lt (by omega)).symm

theorem drainWhile_takes (accepting : d.Accepting) {c keep : Nat} {log : List α} {more : Sink α σ → Bool}
    (agrees : ∀ (ys : List α) (t : Sink α σ), Staged c ys log t → (more t = true ↔ keep < ys.length))
    (fuel : Nat) (h : Staged c xs log s) (enough : xs.length ≤ fuel) {k : Nat} {z : σ}
    (took : takes d c keep fuel s.ring.seek xs s.drain = (k, z)) :
    wp (drainWhile d more fuel) (fun _ t => k ≤ xs.length ∧ xs.length - k ≤ keep ∧ Staged c (xs.drop k) log t ∧
      t.ring.seek = startAfter c s.ring.seek xs.length k ∧ t.drain = z) Never s := by
  induction fuel generalizing xs s k z with
  | zero =>
    cases took
    have empty : xs = [] := length_eq_zero_iff.mp (by omega)
    subst empty
    exact ⟨Nat.le_refl 0, Nat.zero_le _, h, startAfter_zero h.ring h.capacity 0, rfl⟩
  | succ fuel ih =>
    simp only [drainWhile, wp_bind, wp_get, wp_ite, wp_pure, agrees xs s h]
    rw [takes] at took
    constructor
    · intro going
      rw [if_neg (by omega)] at took
      have nonempty : xs ≠ [] := by
        rintro rfl
        exact absurd going (Nat.not_lt_zero _)
      cases accepted : d.accept s.drain (offers c s.ring.seek xs) 1 with
      | mk m y =>
      cases further : takes d c keep fuel (startAfter c s.ring.seek xs.length m) (xs.drop m) y with
      | mk j w =>
      simp only [accepted, further] at took
      cases took
      apply wp_mono (drainBufferedOnce_takes accepting h nonempty accepted)
      · rintro _ t ⟨some_, live, staged, seek, rfl⟩
        rw [← seek] at further
        have size := length_drop (i := m) (l := xs)
        apply wp_mono (ih staged (by omega) further)
        · rintro _ u ⟨within, few, rest, place, drain⟩
          rw [drop_drop] at rest
          refine ⟨by omega, by omega, rest, ?_, drain⟩
          rw [place, seek, size]
          simp only [startAfter]
          by_cases all : m = xs.length
          · have none_ : j = 0 := by omega
            rw [if_neg (fun both => both.1 none_), if_pos ⟨by omega, all⟩, if_pos ⟨by omega, by omega⟩, none_]
            exact Nat.zero_mod c
          · rw [if_neg (fun both => all both.2 : ¬(m ≠ 0 ∧ m = xs.length))]
            by_cases gone : m + j = xs.length
            · rw [if_pos ⟨by omega, by omega⟩, if_pos ⟨by omega, gone⟩]
            · have going : ¬(j ≠ 0 ∧ j = xs.length - m) := by omega
              rw [if_neg going, if_neg (fun both => gone both.2), Nat.mod_add_mod, Nat.add_assoc]
        · exact fun _ _ never => never
      · exact fun _ _ never => never
    · intro done
      rw [if_pos (by omega)] at took
      cases took
      exact ⟨Nat.zero_le _, by omega, h, startAfter_zero h.ring h.capacity _, rfl⟩

theorem Ring.Holds.freeRun {r : Ring α} (held : r.Holds xs) :
    r.unusedCapacity.len = freeRun r.capacity r.seek r.size := Ring.unused_run held

theorem room_made (accepting : d.Accepting) {c count : Nat} {log : List α} (h : Staged c xs log s) (short : count ≤ c) :
    ∃ ys t, drainWhile d (fun s => count > s.unusedCapacitySize) s.bufferedSize s = .ok () t ∧ Staged c ys log t ∧
      count ≤ t.ring.unusedCapacitySize ∧ t.ring.unusedCapacity.len =
        freeRun c (startAfter c s.ring.seek xs.length (takes d c (c - count) xs.length s.ring.seek xs s.drain).1)
          (xs.length - (takes d c (c - count) xs.length s.ring.seek xs s.drain).1) := by
  have agrees (ys : List α) (t : Sink α σ) (staged : Staged c ys log t) :
      decide (count > t.unusedCapacitySize) = true ↔ c - count < ys.length := by
    have size := staged.ring.size
    have fits := staged.ring.fits
    have capacity := staged.capacity
    rw [decide_eq_true_eq, Sink.unusedCapacitySize, Ring.unusedCapacitySize]
    omega
  rw [Sink.bufferedSize, h.ring.size]
  cases took : takes d c (c - count) xs.length s.ring.seek xs s.drain with
  | mk k z =>
  obtain ⟨_, t, run, within, few, staged, seek, -⟩ :=
    wp_run (drainWhile_takes accepting agrees xs.length h (Nat.le_refl _) took) (fun _ _ never => never)
  have size := staged.ring.size
  have capacity := staged.capacity
  rw [length_drop] at size
  refine ⟨_, t, run, staged, ?_, ?_⟩
  · rw [Ring.unusedCapacitySize]
    omega
  · rw [staged.ring.freeRun, seek, size, capacity]

theorem repeatedSize_eq (nonempty : pattern ≠ []) : (repeatedSize pattern.length splat : SinkM α σ Nat) =
      if pattern.length * splat ≤ sizeMax then pure (pattern.length * splat) else throw .countOverflow := by
  have pos : 0 < pattern.length := length_pos_iff.mpr nonempty
  have same : splat > sizeMax / pattern.length ↔ ¬ pattern.length * splat ≤ sizeMax := by
    rw [gt_iff_lt, Nat.div_lt_iff_lt_mul pos, Nat.mul_comm, not_le]
  simp only [repeatedSize, same, ne_eq, Nat.pos_iff_ne_zero.mp pos, not_false_eq_true, true_and, ite_not]

theorem direct_whole_staged (accepting : d.Accepting) {c : Nat} {log : List α}
    (nonempty : pattern ≠ []) (h : Staged c [] log s) (uncut : WholeCopies d pattern splat splat s.drain) :
    wp (writeSplatDirectSlow d pattern splat) (fun _ t => ∃ c ys, Staged c ys
      (log ++ (replicate splat pattern).flatten) t) Never s := by
  apply wp_mono (direct_whole accepting _ splat nonempty (Nat.le_refl _) (Nat.le_refl _) uncut)
  · rintro _ t ⟨ring, all⟩
    refine ⟨c, [], by rw [ring]; exact h.ring, by rw [ring]; exact h.capacity, ?_⟩
    have complete := h.complete
    simp only [append_nil] at complete ⊢
    rw [all, complete]
  · exact fun _ _ never => never

theorem direct_cut_short (accepting : d.Accepting) {c : Nat} {log : List α}
    (nonempty : pattern ≠ []) (h : Staged c [] log s) (cut : ¬ WholeCopies d pattern splat splat s.drain) :
    wp (writeSplatDirectSlow d pattern splat) (fun _ t => t.ring.Holds [] ∧ t.delivered.length <
      (log ++ (replicate splat pattern).flatten).length) Never s := by
  apply wp_mono (direct_cut accepting _ splat nonempty (Nat.le_refl _) cut)
  · rintro _ t ⟨ring, less⟩
    have complete := congrArg List.length h.complete
    rw [append_nil] at complete
    refine ⟨by rw [ring]; exact h.ring, ?_⟩
    rw [length_append, copies_length]
    omega
  · exact fun _ _ never => never

theorem flush_takes (accepting : d.Accepting) {c : Nat} {log : List α} (h : Staged c xs log s) : wp (flush d)
    (fun _ t => Staged c [] log t ∧ t.drain = (takes d c 0 xs.length s.ring.seek xs s.drain).2) Never s := by
  have size := h.ring.size
  simp only [flush, flushSlow, wp_bind, wp_get, wp_ite, withRing, wp_modify]
  constructor
  · intro empty
    have : xs = [] := length_eq_zero_iff.mp (by simpa [Sink.bufferedSize, size] using empty)
    subst this
    exact ⟨⟨Ring.reset_holds h.ring, by simpa using h.capacity, h.complete⟩, rfl⟩
  · intro nonempty
    have agrees (ys : List α) (t : Sink α σ) (staged : Staged c ys log t) :
        decide (t.bufferedSize ≠ 0) = true ↔ 0 < ys.length := by
      rw [decide_eq_true_eq, Sink.bufferedSize, staged.ring.size, Nat.pos_iff_ne_zero]
    rw [Sink.bufferedSize, size]
    cases took : takes d c 0 xs.length s.ring.seek xs s.drain with
    | mk k z =>
    apply wp_mono (drainWhile_takes accepting agrees xs.length h (Nat.le_refl _) took)
    · rintro _ t ⟨-, none_, staged, -, drain⟩
      rw [drop_of_length_le (by omega)] at staged
      exact ⟨staged, drain⟩
    · exact fun _ _ never => never

theorem slow_direct (accepting : d.Accepting) (held : s.ring.Holds xs) (nonempty : pattern ≠ [])
    (counted : pattern.length * splat ≤ sizeMax)
    (long : ¬ pattern.length * splat < s.ring.capacity) (Q : Unit → Sink α σ → Prop)
    (next : ∀ t c, Staged c [] (s.delivered ++ xs) t →
      t.drain = (takes d s.ring.capacity 0 xs.length s.ring.seek xs s.drain).2 →
      wp (writeSplatDirectSlow d pattern splat) Q Never t) : wp (writeSplatSlow d pattern splat) Q Never s := by
  have staged : Staged s.ring.capacity xs (s.delivered ++ xs) s := ⟨held, rfl, rfl⟩
  simp only [writeSplatSlow, repeatedSize_eq nonempty, counted, if_true, wp_bind, wp_get, wp_ite, wp_pure]
  refine ⟨fun unbuffered => ?_, fun _ => ⟨fun short => absurd short long, fun _ => ?_⟩⟩
  · have fits := held.fits
    have none_held : xs = [] := length_eq_zero_iff.mp (by omega)
    subst none_held
    exact next s s.ring.capacity staged rfl
  · apply wp_mono (flush_takes accepting staged)
    · exact fun _ t flushed => next t s.ring.capacity flushed.1 flushed.2
    · exact fun _ _ never => never

theorem writeSplat_wp (some_asked : ¬ (pattern = [] ∨ splat = 0)) (Q : Unit → Sink α σ → Prop)
    (E : SinkError → Sink α σ → Prop) : wp (writeSplat d pattern splat) Q E s ↔ if pattern.length * splat ≤ sizeMax then
      if pattern.length * splat ≤ s.ring.unusedCapacity.len then wp (appendSplatToBuffer pattern splat) Q E s
      else wp (writeSplatSlow d pattern splat) Q E s else E .countOverflow s := by
  have nonempty : pattern ≠ [] := fun empty => some_asked (Or.inl empty)
  simp only [writeSplat, some_asked, if_false, repeatedSize_eq nonempty, wp_bind]
  split
  · simp only [wp_pure, wp_get]
    split <;> rfl
  · exact wp_throw _ _ _ _

theorem slow_buffered (nonempty : pattern ≠ []) (counted : pattern.length * splat ≤ sizeMax)
    (short : pattern.length * splat < s.ring.capacity) {t : Sink α σ}
    (run : drainWhile d (fun s => pattern.length * splat > s.unusedCapacitySize) s.bufferedSize s = .ok () t)
    (Q : Unit → Sink α σ → Prop) (E : SinkError → Sink α σ → Prop) :
    wp (writeSplatSlow d pattern splat) Q E s ↔ wp (appendSplatToBuffer pattern splat) Q E t := by
  have buffered : ¬ s.ring.capacity = 0 := by omega
  simp only [writeSplatSlow, repeatedSize_eq nonempty, counted, if_true, wp_bind, wp_get, buffered,
    if_false, wp_pure, short, wp_of_ok run]

/-- Any sink and any destination: a repetition is delivered whole exactly when its values can
    be counted and none of its copies is cut. -/
theorem write_splat_delivers (d : Drain α σ) (accepting : d.Accepting) (pattern : List α) (splat : Nat) (s : Sink α σ)
    (xs : List α) (held : s.ring.Holds xs) : SplatDelivers d pattern splat xs s ↔ pattern = [] ∨ splat = 0 ∨
    (pattern.length * splat ≤ sizeMax ∧ CopiesUncut d pattern splat s.ring xs s.drain) := by
  have staged : Staged s.ring.capacity xs (s.delivered ++ xs) s := ⟨held, rfl, rfl⟩
  by_cases trivially : pattern = [] ∨ splat = 0
  · have delivers : SplatDelivers d pattern splat xs s := by
      apply delivers_of_staged accepting
      simp only [writeSplat, trivially, if_true, wp_pure]
      have nothing : (replicate splat pattern).flatten = [] := by
        rcases trivially with rfl | rfl <;> simp
      exact ⟨_, xs, by simpa [nothing] using staged⟩
    exact ⟨fun _ => by tauto, fun _ => delivers⟩
  have nonempty : pattern ≠ [] := fun empty => trivially (Or.inl empty)
  have start := fun Q E => writeSplat_wp (d := d) trivially Q E (s := s)
  rw [← or_assoc, or_iff_right trivially]
  by_cases counted : pattern.length * splat ≤ sizeMax
  swap
  · refine iff_of_false (not_delivers_of_throw ?_) (fun both => counted both.1)
    rw [start, if_neg counted]
    trivial
  simp only [counted, if_true] at start
  rw [and_iff_right counted, CopiesUncut, ← held.size, ← held.freeRun]
  by_cases room : pattern.length * splat ≤ s.ring.unusedCapacity.len
  · refine iff_of_true (delivers_of_staged accepting ?_) (Or.inl room)
    rw [start, if_pos room]
    have free := Ring.unused_len_le s.ring
    exact wp_mono (appendSplat_spec nonempty splat staged (by omega) (Or.inl room))
      (fun _ _ written => ⟨_, written⟩) (fun _ _ never => never)
  simp only [room, if_false, false_or] at start ⊢
  by_cases short : pattern.length * splat < s.ring.capacity
  · rw [if_pos short]
    obtain ⟨ys, t, run, made, free, left⟩ := room_made accepting staged (Nat.le_of_lt short)
    have slow := fun Q E => slow_buffered nonempty counted short run Q E
    rw [held.size, ← left]
    by_cases uncut : pattern.length * splat ≤ t.ring.unusedCapacity.len ∨
        pattern.length ∣ t.ring.unusedCapacity.len
    · refine iff_of_true (delivers_of_staged accepting ?_) uncut
      rw [start, slow]
      exact wp_mono (appendSplat_spec nonempty splat made free uncut)
        (fun _ _ written => ⟨_, written⟩) (fun _ _ never => never)
    · refine iff_of_false (not_delivers_of_throw ?_) uncut
      rw [start, slow]
      rw [not_or] at uncut
      exact wp_mono (appendSplat_cut nonempty splat made uncut.1 uncut.2)
        (fun _ _ never => never) (fun _ _ _ => trivial)
  · rw [if_neg short]
    rw [held.size]
    by_cases uncut : WholeCopies d pattern splat splat
        (takes d s.ring.capacity 0 xs.length s.ring.seek xs s.drain).2
    · refine iff_of_true (delivers_of_staged accepting ?_) uncut
      rw [start]
      apply slow_direct accepting held nonempty counted short
      intro t c flushed drain
      exact direct_whole_staged accepting nonempty flushed (by rwa [drain])
    · refine iff_of_false (not_delivers_of_short ?_) uncut
      rw [start]
      apply slow_direct accepting held nonempty counted short
      intro t c flushed drain
      exact direct_cut_short accepting nonempty flushed (by rwa [drain])

end Delivered

theorem write_splat_pairs : SplatDelivers pairDrain [1, 2] 3 [9] ⟨⟨[some 9, none, none, none], 0, 1⟩, (), []⟩ := by
  have held : (⟨[some 9, none, none, none], 0, 1⟩ : Ring Nat).Holds [9] :=
    ⟨rfl, by decide, by decide, by decide⟩
  exact (write_splat_delivers pairDrain pairDrain_accepting [1, 2] 3 _ [9] held).mpr
    (Or.inr (Or.inr ⟨by decide, by decide⟩))

/-- A destination that takes one value of an offer. -/
def singleDrain : Drain Nat Unit := ⟨fun _ chunks splat => (min 1 (offered chunks splat).length, ())⟩

theorem singleDrain_accepting : singleDrain.Accepting := by
  intro s chunks splat nonempty
  have := length_pos_iff.mpr nonempty
  simp only [singleDrain]
  omega

/-- Without a buffer the first copy is cut after one value, and the rest of it never leaves. -/
theorem splat_cut_loses : singleDrain.Accepting ∧ ¬ SplatDelivers singleDrain [1, 2] 1 [] (Sink.fresh 0 ()) := by
  refine ⟨singleDrain_accepting, ?_⟩
  rintro ⟨t, run, all⟩
  have short : (do writeSplat singleDrain [1, 2] 1; flush singleDrain) (Sink.fresh 0 ()) =
      .ok () ⟨⟨[], 0, 0⟩, (), [1]⟩ := by rfl
  rw [short] at run
  cases run
  exact absurd all (by decide)

end Nxt.Buffers
