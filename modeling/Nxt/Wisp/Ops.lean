import Nxt.Wisp.Collect

/- The host's operations on a heap (heap.hpp), each with what its assertions ask of the caller,
   and the invariant they keep. A failed operation leaves the heap as it was. -/
namespace Nxt.Wisp
open Nxt.Lib List

inductive Op where
  | make (k : Kind) (data : Row)
  | newv08 (data : List UInt8)
  | newWords (k : Kind) (data : List Word)
  | filledv32 (length : Nat) (value : Word)
  | copy (k : Kind) (x : Word)
  | set (k : Kind) (f : Field) (x value : Word)
  | put (k : Kind) (x : Word) (data : Row)
  | setWord (k : Kind) (x : Word) (i : Nat) (value : Word)
  /-- Construction of a `root`. -/
  | enroll (value : Word)
  | assign (slot : Nat) (value : Word)
  /-- Destruction of a `root`. -/
  | retire (slot : Nat)
  | makePin (value : Word)
  | freePin (pin : Word)
  | collect (grant : Reservation → Bool)

def attempt (h : Heap) : Except HostError (Word × Heap) → Heap
  | .ok result => result.2
  | .error _ => h

def Heap.apply (h : Heap) : Op → Heap
  | .make k data => attempt h (h.make k data)
  | .newv08 data => attempt h (h.newv08 data)
  | .newWords k data => attempt h (h.newWords k data)
  | .filledv32 length value => attempt h (h.filledv32 length value)
  | .copy k x => attempt h (h.copy k x)
  | .set k f x value => h.set k f x value
  | .put k x data => h.put k x data
  | .setWord k x i value => h.setWord k x i value
  | .enroll value => { h with roots := value :: h.roots }
  | .assign slot value => { h with roots := h.roots.set slot value }
  | .retire slot => { h with roots := h.roots.eraseIdx slot }
  | .makePin value => attempt h (h.makePin value)
  | .freePin pin => h.freePin pin
  | .collect grant => (h.collect grant).2

/-- `check<T>`. -/
def Heap.Points (h : Heap) (k : Kind) (x : Word) : Prop := tagOf x = k.tag ∧ h.Valid x

/-- What the caller owes: values of this heap, descriptors inside the pools, no handle
rewritten. -/
def Op.Allowed (h : Heap) : Op → Prop
  | .make k data => h.RowOk k data
  | .newv08 _ => True
  | .newWords k data => wordPayload k = true ∧ ∀ w ∈ data, h.Valid w
  | .filledv32 _ value => h.Valid value
  | .copy k x => h.Points k x
  | .set k f x value => h.Points k x ∧ columnKind k (columnIndex k f) = some .value ∧
      h.Valid value ∧ (columnIndex k f = 0 → value ≠ zap)
  | .put k x data => h.Points k x ∧ k ≠ .ext ∧ h.RowOk k data ∧ data.getD 0 0 ≠ zap
  | .setWord k x i value => h.Points k x ∧ wordPayload k = true ∧
      i < (h.get k .len x).toNat ∧ h.Valid value
  | .enroll value => h.Valid value
  | .assign _ value => h.Valid value
  | .retire _ => True
  | .makePin value => h.Valid value
  | .freePin _ => True
  | .collect _ => True

/-- What was a value of the first heap is one of the second. -/
structure Heap.Below (h g : Heap) : Prop where
  era : g.era = h.era
  size : ∀ k, (h.table k).length ≤ (g.table k).length

section Grow
variable {h g : Heap}

theorem valid_mono (below : h.Below g) {w : Word} (valid : h.Valid w) : g.Valid w := by
  intro a points
  obtain ⟨era, live⟩ := valid a points
  exact ⟨era.trans below.era.symm, Nat.lt_of_lt_of_le live (below.size a.1)⟩

theorem slice_longer {α : Type} {l m : List α} (longer : l <+: m) {o n : Nat}
    (inside : o + n ≤ l.length) : (m.drop o).take n = (l.drop o).take n := by
  obtain ⟨rest, rfl⟩ := longer
  rw [drop_append_of_le_length (by omega), take_append_of_le_length (by rw [length_drop]; omega)]

theorem rowOk_mono (below : h.Below g) (words : h.words <+: g.words) (bytes : h.bytes <+: g.bytes)
    {k : Kind} {data : Row} (ok : h.RowOk k data) : g.RowOk k data where
  shape := ok.shape
  values c column := valid_mono below (ok.values c column)
  inside kind := (ok.inside kind).trans words.length_le
  payload kind w held := by
    rw [slice_longer words (ok.inside kind)] at held
    exact valid_mono below (ok.payload kind w held)
  text kind := (ok.text kind).trans bytes.length_le

theorem wellFormed_grow (wf : h.WellFormed) (below : h.Below g) (words : h.words <+: g.words)
    (bytes : h.bytes <+: g.bytes)
    (rows : ∀ k, ∀ data ∈ g.table k, data ∈ h.table k ∨ g.RowOk k data)
    (roots : ∀ w ∈ g.roots, w ∈ h.roots ∨ g.Valid w)
    (pins : ∀ w ∈ g.pins.map Prod.snd, w ∈ h.pins.map Prod.snd ∨ g.Valid w) :
    g.WellFormed where
  rows k data held := by
    rcases rows k data held with before | fresh
    · exact rowOk_mono below words bytes (wf.rows k data before)
    · exact fresh
  roots w held := by
    rcases roots w held with before | fresh
    · exact valid_mono below (wf.roots w before)
    · exact fresh
  pins w held := by
    rcases pins w held with before | fresh
    · exact valid_mono below (wf.pins w before)
    · exact fresh

end Grow

section Allocate
variable {h g : Heap} {x : Word}

variable {k : Kind} {data : Row} {n : Nat}

theorem make_ok (done : h.make k data = .ok (x, g)) : data.getD 0 0 ≠ zap ∧ (h.table k).length < 2 ^ 26 ∧
      x = pointer k (h.table k).length h.era ∧ g = h.setTable k (h.table k ++ [data]) := by
  simp only [Heap.make] at done
  split at done
  · cases done
  · rename_i unmarked
    split at done
    · cases done
    · rename_i room
      have same := Except.ok.inj done
      have bound : maxIndex < 2 ^ 26 := by decide
      exact ⟨unmarked, by omega, (congrArg Prod.fst same).symm, (congrArg Prod.snd same).symm⟩

theorem below_append (h : Heap) (k : Kind) (data : Row) :
    h.Below (h.setTable k (h.table k ++ [data])) where
  era := rfl
  size l := by
    rw [table_setTable]
    split
    · rename_i same
      subst same
      rw [length_append]
      exact Nat.le_add_right _ _
    · exact le_rfl

theorem make_wellFormed (wf : h.WellFormed) (ok : h.RowOk k data)
    (done : h.make k data = .ok (x, g)) : g.WellFormed := by
  obtain ⟨-, -, -, rfl⟩ := make_ok done
  have below := below_append h k data
  apply wellFormed_grow wf below prefix_rfl prefix_rfl
  · intro l row held
    rw [table_setTable] at held
    split at held
    · rename_i same
      subst same
      rcases mem_append.mp held with before | last
      · exact Or.inl before
      · rw [mem_singleton.mp last]
        exact Or.inr (rowOk_mono below prefix_rfl prefix_rfl ok)
    · exact Or.inl held
  · exact fun w held => Or.inl held
  · exact fun w held => Or.inl held

theorem make_points (done : h.make k data = .ok (x, g)) : g.Points k x := by
  obtain ⟨-, room, rfl, rfl⟩ := make_ok done
  refine ⟨tagOf_pointer k _ room, ?_⟩
  intro a points
  rw [addr_pointer k _ room] at points
  cases points
  refine ⟨eraOf_pointer k _ room, ?_⟩
  rw [Heap.Live, table_setTable, if_pos rfl, length_append]
  exact Nat.lt_succ_self _

theorem make_read {h g : Heap} {x : Word} (done : h.make k data = .ok (x, g)) : g.read k x = data := by
  obtain ⟨-, room, rfl, rfl⟩ := make_ok done
  rw [Heap.read, indexOf_pointer k _ room, Heap.row, table_setTable, if_pos rfl,
    getD_append_right _ _ _ _ le_rfl, Nat.sub_self]
  rfl

theorem appended_words (wf : h.WellFormed) (data : List Word) :
    ({ h with words := h.words ++ data } : Heap).WellFormed :=
  wellFormed_grow wf ⟨rfl, fun _ => le_rfl⟩ (prefix_append _ _) prefix_rfl
    (fun _ _ held => Or.inl held) (fun _ held => Or.inl held) (fun _ held => Or.inl held)

theorem appended_bytes (wf : h.WellFormed) (data : List UInt8) :
    ({ h with bytes := h.bytes ++ data } : Heap).WellFormed :=
  wellFormed_grow wf ⟨rfl, fun _ => le_rfl⟩ prefix_rfl (prefix_append _ _)
    (fun _ _ held => Or.inl held) (fun _ held => Or.inl held) (fun _ held => Or.inl held)

/-- The pool check of `append`: an empty slice is never refused. -/
def Fits (size extra : Nat) : Prop := extra = 0 ∨ size + extra ≤ maxWord

theorem fits_poolSize {size extra : Nat} (done : poolSize size extra = .ok n) : Fits size extra := by
  unfold poolSize at done
  split at done
  · cases done
  · unfold Fits
    omega

theorem toNat_ofNat_le (n : Nat) : (UInt32.ofNat n).toNat ≤ n := by
  rw [UInt32.toNat_ofNat']
  exact Nat.mod_le _ _

theorem toNat_ofNat_of_le (small : n ≤ maxWord) : (UInt32.ofNat n).toNat = n := by
  rw [UInt32.toNat_ofNat']
  have bound : maxWord < 2 ^ 32 := by decide
  exact Nat.mod_eq_of_lt (by omega)

theorem valueColumns_slice (kind : wordPayload k = true ∨ k = .v08) : Tidy.valueColumns k = [] ∧ width k = 2 := by
  rcases kind with payload | text
  · exact ⟨(slice_columns payload).2.2.2.2, (slice_columns payload).2.2.1⟩
  · subst text
    exact ⟨rfl, rfl⟩

theorem words_rowOk (kind : wordPayload k = true) {data : List Word}
    (valid : ∀ w ∈ data, h.Valid w) (fits : Fits h.words.length data.length) :
    ({ h with words := h.words ++ data } : Heap).RowOk k
      [UInt32.ofNat h.words.length, UInt32.ofNat data.length] where
  shape := (valueColumns_slice (Or.inl kind)).2.symm
  values c column := by
    rw [(valueColumns_slice (Or.inl kind)).1] at column
    cases column
  inside _ := by
    have start := toNat_ofNat_le h.words.length
    have size := toNat_ofNat_le data.length
    simp only [getD_cons_zero, getD_cons_succ, length_append]
    omega
  payload _ w held := by
    rcases fits with empty | room
    · rw [empty] at held
      simp at held
    · simp only [getD_cons_zero, getD_cons_succ] at held
      have start : (UInt32.ofNat h.words.length).toNat = h.words.length :=
        toNat_ofNat_of_le (by omega)
      rw [start, drop_left] at held
      exact valid w (mem_of_mem_take held)
  text never := by
    subst never
    cases kind

theorem bytes_rowOk {data : List UInt8} :
    ({ h with bytes := h.bytes ++ data } : Heap).RowOk .v08
      [UInt32.ofNat h.bytes.length, UInt32.ofNat data.length] where
  shape := rfl
  values c column := by cases column
  inside never := by cases never
  payload never := by cases never
  text _ := by
    have start := toNat_ofNat_le h.bytes.length
    have size := toNat_ofNat_le data.length
    simp only [getD_cons_zero, getD_cons_succ, length_append]
    omega

theorem newWords_ok {data : List Word} (done : h.newWords k data = .ok (x, g)) : Fits h.words.length data.length ∧
      ({ h with words := h.words ++ data } : Heap).make k
        [UInt32.ofNat h.words.length, UInt32.ofNat data.length] = .ok (x, g) := by
  simp only [Heap.newWords] at done
  split at done
  · rename_i empty
    exact ⟨Or.inl (by rw [empty]; rfl), done⟩
  · obtain ⟨n, checked, made⟩ := bind_ok done
    exact ⟨fits_poolSize checked, made⟩

theorem filledv32_ok {value : Word} (done : h.filledv32 n value = .ok (x, g)) :
    Fits h.words.length (replicate n value).length ∧
      ({ h with words := h.words ++ replicate n value } : Heap).make .v32
        [UInt32.ofNat h.words.length, UInt32.ofNat (replicate n value).length] =
          .ok (x, g) := by
  obtain ⟨_, checked, made⟩ := bind_ok done
  rw [length_replicate]
  exact ⟨fits_poolSize checked, made⟩

theorem newv08_fits {h g : Heap} {x : Word} {data : List UInt8}
    (done : h.newv08 data = .ok (x, g)) : Fits h.bytes.length data.length := by
  simp only [Heap.newv08] at done
  split at done
  · rename_i empty
    exact Or.inl (by rw [empty]; rfl)
  · obtain ⟨_, checked, -⟩ := bind_ok done
    exact fits_poolSize checked

theorem newv08_ok {data : List UInt8} (done : h.newv08 data = .ok (x, g)) :
    ({ h with bytes := h.bytes ++ data } : Heap).make .v08
      [UInt32.ofNat h.bytes.length, UInt32.ofNat data.length] = .ok (x, g) := by
  simp only [Heap.newv08] at done
  split at done
  · exact done
  · obtain ⟨_, -, made⟩ := bind_ok done
    exact made

end Allocate

section Write
variable {h : Heap} {k : Kind} {x : Word}

theorem points_live (points : h.Points k x) : h.Live (k, indexOf x) := by
  apply live_of_valid points.2
  rw [addr?, points.1, kind?_tag]
  rfl

theorem value_column_plain {c : Nat} (column : columnKind k c = some .value) : wordPayload k = false ∧ k ≠ .v08 := by
  constructor
  · by_contra payload
    rw [Bool.not_eq_false] at payload
    have none := mem_valueColumns.mpr column
    rw [(valueColumns_slice (Or.inl payload)).1] at none
    cases none
  · intro text
    subst text
    have none := mem_valueColumns.mpr column
    cases none

theorem replaced_wellFormed (wf : h.WellFormed) {i : Nat} {data : Row} (ok : h.RowOk k data) :
    (h.setTable k ((h.table k).set i data)).WellFormed := by
  have below : h.Below (h.setTable k ((h.table k).set i data)) := by
    refine ⟨rfl, fun l => ?_⟩
    rw [table_setTable]
    split
    · rename_i same
      subst same
      rw [length_set]
    · exact le_rfl
  apply wellFormed_grow wf below prefix_rfl prefix_rfl
  · intro l row held
    rw [table_setTable] at held
    split at held
    · rename_i same
      subst same
      rcases mem_or_eq_of_mem_set held with before | fresh
      · exact Or.inl before
      · rw [fresh]
        exact Or.inr (rowOk_mono below prefix_rfl prefix_rfl ok)
    · exact Or.inl held
  · exact fun w held => Or.inl held
  · exact fun w held => Or.inl held

theorem set_rowOk {data : Row} {c : Nat} {value : Word} (ok : h.RowOk k data)
    (column : columnKind k c = some .value) (valid : h.Valid value) : h.RowOk k (data.set c value) := by
  obtain ⟨plain, notText⟩ := value_column_plain column
  refine ⟨by rw [length_set, ok.shape], ?_, ?_, ?_, fun text => absurd text notText⟩
  · intro d other
    rw [getD_set]
    split
    · exact valid
    · exact ok.values d other
  · intro payload
    rw [plain] at payload
    cases payload
  · intro payload
    rw [plain] at payload
    cases payload

theorem mem_slice_set {l : List Word} {p o n : Nat} {v w : Word}
    (held : w ∈ ((l.set p v).drop o).take n) : w = v ∨ w ∈ (l.drop o).take n := by
  obtain ⟨i, small, rfl⟩ := mem_iff_getElem.mp held
  simp only [length_take, length_drop, length_set] at small
  simp only [getElem_take, getElem_drop, getElem_set]
  split
  · exact Or.inl rfl
  · right
    apply mem_iff_getElem.mpr
    refine ⟨i, by simp only [length_take, length_drop]; omega, ?_⟩
    simp only [getElem_take, getElem_drop]

theorem setWords_wellFormed (wf : h.WellFormed) {p : Nat} {value : Word} (valid : h.Valid value) :
    ({ h with words := h.words.set p value } : Heap).WellFormed where
  rows l data held := by
    have ok := wf.rows l data held
    refine ⟨ok.shape, ok.values, ?_, ?_, ok.text⟩
    · intro kind
      rw [length_set]
      exact ok.inside kind
    · intro kind w word
      rcases mem_slice_set word with fresh | before
      · rw [fresh]
        exact valid
      · exact ok.payload kind w before
  roots := wf.roots
  pins := wf.pins

theorem emplacePin_mem {n : Nat} {value w : Word} {pins : List (Nat × Word)}
    (held : w ∈ (emplacePin n value pins).map Prod.snd) : w = value ∨ w ∈ pins.map Prod.snd := by
  induction pins with
  | nil =>
    simp only [emplacePin, map_cons, map_nil, mem_singleton] at held
    exact Or.inl held
  | cons pin rest ih =>
    simp only [emplacePin] at held
    split at held
    · simpa using held
    · split at held
      · exact Or.inr held
      · rcases mem_cons.mp held with first | later
        · exact Or.inr (by simp [first])
        · rcases ih later with fresh | before
          · exact Or.inl fresh
          · exact Or.inr (mem_cons_of_mem _ before)

end Write

section Apply
variable {h : Heap}

theorem attempt_wellFormed (wf : h.WellFormed) {result : Except HostError (Word × Heap)}
    (made : ∀ x g, result = .ok (x, g) → g.WellFormed) : (attempt h result).WellFormed := by
  cases result with
  | error e => exact wf
  | ok pair => exact made pair.1 pair.2 rfl

theorem rerooted_wellFormed (wf : h.WellFormed) (roots : List Word) (pins : List (Nat × Word))
    (n : Nat) (rootsValid : ∀ w ∈ roots, w ∈ h.roots ∨ h.Valid w)
    (pinsValid : ∀ w ∈ pins.map Prod.snd, w ∈ h.pins.map Prod.snd ∨ h.Valid w) :
    ({ h with roots := roots, pins := pins, nextPin := n } : Heap).WellFormed :=
  wellFormed_grow wf ⟨rfl, fun _ => le_rfl⟩ prefix_rfl prefix_rfl
    (fun _ _ held => Or.inl held) rootsValid pinsValid

theorem read_rowOk (wf : h.WellFormed) {k : Kind} {x : Word} (points : h.Points k x) :
    h.RowOk k (h.read k x) := wf.row (points_live points)

theorem collect_wellFormed (grant : Reservation → Bool) (wf : h.WellFormed)
    (unmarked : h.Unmarked) : (h.collect grant).2.WellFormed := by
  rcases collect_cases grant wf unmarked with ⟨e, -, failed⟩ | ⟨-, ready, run, f, rooted, done⟩
  · rw [failed]
    exact wf
  · rw [run]
    exact finish_wellFormed ready rooted done

/-- The mark is looked at only when a collection starts. -/
def Op.Clean (h : Heap) : Op → Prop
  | .collect _ => h.Unmarked
  | _ => True

theorem apply_wellFormed (wf : h.WellFormed) (op : Op) (allowed : op.Allowed h)
    (clean : op.Clean h) : (h.apply op).WellFormed := by
  cases op with
  | make k data => exact attempt_wellFormed wf fun _ _ made => make_wellFormed wf allowed made
  | newv08 data =>
    exact attempt_wellFormed wf fun _ _ made =>
      make_wellFormed (appended_bytes wf data) bytes_rowOk (newv08_ok made)
  | newWords k data =>
    apply attempt_wellFormed wf
    intro x g made
    obtain ⟨fits, row⟩ := newWords_ok made
    exact make_wellFormed (appended_words wf data) (words_rowOk allowed.1 allowed.2 fits) row
  | filledv32 n value =>
    apply attempt_wellFormed wf
    intro x g made
    obtain ⟨fits, row⟩ := filledv32_ok made
    have valid : ∀ w ∈ replicate n value, h.Valid w := by
      intro w held
      rw [eq_of_mem_replicate held]
      exact allowed
    exact make_wellFormed (appended_words wf _) (words_rowOk rfl valid fits) row
  | copy k x =>
    exact attempt_wellFormed wf fun _ _ made => make_wellFormed wf (read_rowOk wf allowed) made
  | set k f x value =>
    obtain ⟨points, column, valid, -⟩ := allowed
    exact replaced_wellFormed wf (set_rowOk (read_rowOk wf points) column valid)
  | put k x data => exact replaced_wellFormed wf allowed.2.2.1
  | setWord k x i value => exact setWords_wellFormed wf allowed.2.2.2
  | enroll value =>
    apply rerooted_wellFormed wf (value :: h.roots) h.pins h.nextPin ?_ (fun _ => Or.inl)
    intro w held
    rcases mem_cons.mp held with rfl | before
    · exact Or.inr allowed
    · exact Or.inl before
  | assign slot value =>
    apply rerooted_wellFormed wf (h.roots.set slot value) h.pins h.nextPin ?_ (fun _ => Or.inl)
    intro w held
    rcases mem_or_eq_of_mem_set held with before | rfl
    · exact Or.inl before
    · exact Or.inr allowed
  | retire slot =>
    exact rerooted_wellFormed wf (h.roots.eraseIdx slot) h.pins h.nextPin
      (fun _ held => Or.inl (mem_of_mem_eraseIdx held)) (fun _ => Or.inl)
  | makePin value =>
    apply attempt_wellFormed wf
    intro x g made
    simp only [Heap.makePin] at made
    split at made
    · cases made
    · cases made
      apply rerooted_wellFormed wf h.roots _ _ (fun _ => Or.inl)
      intro w held
      rcases emplacePin_mem held with rfl | before
      · exact Or.inr allowed
      · exact Or.inl before
  | freePin pin =>
    apply rerooted_wellFormed wf h.roots _ h.nextPin (fun _ => Or.inl)
    intro w held
    obtain ⟨entry, kept, rfl⟩ := mem_map.mp held
    exact Or.inl (mem_map_of_mem (mem_of_mem_filter kept))
  | collect grant => exact collect_wellFormed grant wf clean

end Apply

end Nxt.Wisp
