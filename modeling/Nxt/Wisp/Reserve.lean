import Nxt.Wisp.Ops

/- The copy phase is `noexcept`: no insertion may exceed what the constructor has reserved. The
   copy is run again with every insertion checked. The bound is a sum over the rows that are
   not forwarded yet, so the checked run is the real one; rows that carry the mark before the
   collection starts are never copied, and only add slack. -/
namespace Nxt.Wisp
open Nxt.Lib List

namespace Tidy

structure Capacity where
  rows : Kind → Nat
  words : Nat
  bytes : Nat

def capacity (h : Heap) : Capacity where
  rows k := (h.table k).length
  words := (lengths h .v32).sum + (lengths h .record).sum
  bytes := (lengths h .v08).sum

def Within (c : Capacity) (s : Tidy) : Prop :=
  (∀ k, (s.next.get k).length ≤ c.rows k) ∧ s.words.length ≤ c.words ∧ s.bytes.length ≤ c.bytes

instance (c : Capacity) (s : Tidy) : Decidable (Within c s) := by unfold Within; infer_instance

section Checked
variable (c : Capacity)

/-- One copy: at most one row and one payload are inserted. -/
def copy? (x : Word) (s : Tidy) : Option (Word × Tidy) :=
  if Within c (copy x s).2 then some (copy x s) else none

def pullColumns? (k : Kind) (i : Nat) : List Nat → Tidy → Option Tidy
  | [], s => some s
  | column :: rest, s => do
      let (value, s) ← copy? c (((s.next.get k).getD i []).getD column 0) s
      pullColumns? k i rest (s.setNext k i column value)

def pullRow? (k : Kind) (s : Tidy) : Option Tidy := do
  let s ← pullColumns? c k (s.scan k) (valueColumns k) s
  some { s with scan := fun l => if l = k then s.scan k + 1 else s.scan l }

def pullLoop? (k : Kind) : Nat → Tidy → Option Tidy
  | 0, s => some s
  | fuel + 1, s =>
      if s.scan k < (s.next.get k).length then do pullLoop? k fuel (← pullRow? c k s) else some s

def pullAll? (fuel : Nat) : List Kind → Bool → Tidy → Option (Bool × Tidy)
  | [], changed, s => some (changed, s)
  | k :: rest, changed, s => do
      let more := decide (s.scan k < (s.next.get k).length)
      pullAll? fuel rest (more || changed) (← pullLoop? c k fuel s)

def pullWord? (s : Tidy) : Option Tidy := do
  let (value, s) ← copy? c (s.words.getD s.wordScan 0) s
  some { s with words := s.words.set s.wordScan value, wordScan := s.wordScan + 1 }

def pullWords? : Nat → Bool → Tidy → Option (Bool × Tidy)
  | 0, changed, s => some (changed, s)
  | fuel + 1, changed, s =>
      if s.wordScan < s.words.length then do pullWords? fuel true (← pullWord? c s)
      else some (changed, s)

def round? (fuel : Nat) (s : Tidy) : Option (Bool × Tidy) := do
  let (changed, s) ← pullAll? c fuel Kind.all false s
  pullWords? c fuel changed s

def rounds? (fuel : Nat) : Nat → Tidy → Option Tidy
  | 0, s => some s
  | n + 1, s => do
      let (changed, s) ← round? c fuel s
      if changed then rounds? fuel n s else some s

def copyValues? : List Word → Tidy → Option (List Word × Tidy)
  | [], s => some ([], s)
  | x :: rest, s => do
      let (y, s) ← copy? c x s
      let (ys, s) ← copyValues? rest s
      some (y :: ys, s)

def copyPins? (s : Tidy) : Option Tidy := do
  let (values, s) ← copyValues? c (s.old.pins.map Prod.snd) s
  some { s with old := { s.old with pins := (s.old.pins.map Prod.fst).zip values } }

def copyRoots? (s : Tidy) : Option Tidy := do
  let (values, s) ← copyValues? c s.old.roots s
  some { s with old := { s.old with roots := values } }

/-- The copy phase, given up at the first insertion for which there is no room. -/
def copied? (fuel : Nat) (s : Tidy) : Option Tidy := do
  let s ← copyPins? c s
  let s ← copyRoots? c s
  rounds? c fuel fuel s

end Checked
end Tidy

/-- No pointer of the old era leads outside the old tables. -/
def Heap.Sane (h : Heap) (w : Word) : Prop := ∀ a, addr? w = some a → eraOf w = h.era → h.Live a

structure Kept (h : Heap) (s : Tidy) : Prop where
  era : s.old.era = h.era
  size : ∀ k, (s.old.table k).length = (h.table k).length
  words : s.old.words = h.words
  bytes : s.old.bytes = h.bytes
  old : ∀ k, ∀ data ∈ s.old.table k,
    data ∈ h.table k ∨ data.getD 0 0 = zap ∧ h.Sane (data.getD 1 0)
  rows : ∀ k, ∀ data ∈ s.next.get k, data.length = width k ∧
    ∀ c ∈ Tidy.valueColumns k, h.Sane (data.getD c 0)
  payload : ∀ w ∈ s.words, h.Sane w
  roots : ∀ w ∈ s.old.roots, h.Sane w
  pins : ∀ w ∈ s.old.pins.map Prod.snd, h.Sane w
  rowsLeft : ∀ k, weight (fun _ => 1) (s.old.table k) + (s.next.get k).length ≤
    (h.table k).length
  wordsLeft : weight rowLength (s.old.table .v32) + weight rowLength (s.old.table .record) +
    s.words.length ≤ (lengths h .v32).sum + (lengths h .record).sum
  bytesLeft : weight rowLength (s.old.table .v08) + s.bytes.length ≤ (lengths h .v08).sum

structure Startable (h : Heap) : Prop where
  wf : h.WellFormed
  reserved : Reserved h
  words : h.words.length ≤ maxWord
  bytes : h.bytes.length ≤ maxWord

section Copy
variable {h : Heap} {s : Tidy} {x : Word} {k : Kind}

theorem Kept.within (kept : Kept h s) : Tidy.Within (Tidy.capacity h) s := by
  have words := kept.wordsLeft
  have bytes := kept.bytesLeft
  refine ⟨fun k => ?_, ?_, ?_⟩
  · have rows := kept.rowsLeft k
    change (s.next.get k).length ≤ (h.table k).length
    omega
  · change s.words.length ≤ (lengths h .v32).sum + (lengths h .record).sum
    omega
  · change s.bytes.length ≤ (lengths h .v08).sum
    omega

theorem sane_valid {w : Word} (valid : h.Valid w) : h.Sane w := fun a points _ => (valid a points).2

theorem sane_integer {w : Word} (small : w.toNat < 2 ^ 31) : h.Sane w := by
  intro a points
  have tag : tagOf w = .integer := if_pos small
  simp [addr?, tag, Tag.kind?] at points

theorem marked_sane (start : Startable h) {data : Row} (held : data ∈ h.table k)
    (marked : data.getD 0 0 = zap) : h.Sane (data.getD 1 0) := by
  have ok := start.wf.rows k data held
  have mark : zap.toNat = 0x88000003 := by decide
  have bound : maxWord = 2 ^ 32 - 1 := rfl
  have words := start.words
  have bytes := start.bytes
  by_cases value : 1 ∈ Tidy.valueColumns k
  · exact sane_valid (ok.values 1 value)
  · apply sane_integer
    by_cases payload : wordPayload k = true
    · have inside := ok.inside payload
      rw [marked, mark] at inside
      omega
    · have text : k = .v08 := by
        cases k <;> first | rfl | exact absurd rfl payload | exact absurd (by decide) value
      have inside := ok.text text
      rw [marked, mark] at inside
      omega

structure Fresh (h : Heap) (s : Tidy) (k : Kind) (x : Word) : Prop where
  start : Startable h
  kept : Kept h s
  live : indexOf x < (s.old.table k).length
  unmarked : (s.old.row k (indexOf x)).getD 0 0 ≠ zap

namespace Fresh

section
variable (fresh : Fresh h s k x)
include fresh

theorem rowOk : h.RowOk k (s.old.row k (indexOf x)) := by
  rcases fresh.kept.old k _ (mem_of_getD fresh.live) with held | marked
  · exact fresh.start.wf.rows k _ held
  · exact absurd marked.1 fresh.unmarked

theorem weigh (w : Row → Nat) :
    weight w ((s.pushed k x).old.table k) + w (s.old.row k (indexOf x)) = weight w (s.old.table k) := by
  have two := two_le_width k
  have shape := fresh.rowOk.shape
  rw [s.pushed_old_table x fresh.live, if_pos rfl]
  apply weight_set w _ fresh.live fresh.unmarked
  rw [getD_set, if_neg (by omega), getD_set, if_pos ⟨rfl, by omega⟩]

theorem weigh_other (w : Row → Nat) {l : Kind} (other : l ≠ k) :
    weight w ((s.pushed k x).old.table l) = weight w (s.old.table l) := by
  rw [s.pushed_old_table x fresh.live, if_neg other]

theorem rowsLeft (l : Kind) : weight (fun _ => 1) ((s.pushed k x).old.table l) + ((s.pushed k x).next.get l).length ≤
      (h.table l).length := by
  have left := fresh.kept.rowsLeft l
  rw [Tidy.pushed_next]
  by_cases same : l = k
  · subst same
    have one := fresh.weigh fun _ => 1
    rw [if_pos rfl, length_append, length_singleton]
    omega
  · rw [fresh.weigh_other _ same, if_neg same]
    exact left

theorem target : h.Sane (pointer k (s.next.get k).length (!s.old.era)) := by
  have left := fresh.rowsLeft k
  have bound := fresh.start.reserved.rows k
  rw [Tidy.pushed_next, if_pos rfl, length_append, length_singleton] at left
  intro a _ era
  rw [eraOf_pointer k _ (by omega), fresh.kept.era] at era
  exact absurd era (by cases h.era <;> decide)

theorem slice (payload : wordPayload k = true) :
    s.old.slice k x =
      (h.words.drop ((s.old.row k (indexOf x)).getD 0 0).toNat).take ((s.old.row k (indexOf x)).getD 1 0).toNat := by
  have len : columnIndex k .len = 1 := by
    cases k <;> simp [wordPayload] at payload <;> rfl
  simp only [Heap.slice, Heap.get, Heap.read, fresh.kept.words, (slice_columns payload).2.2.2.1, len]

theorem wordsLeft : weight rowLength ((s.pushed k x).old.table .v32) +
      weight rowLength ((s.pushed k x).old.table .record) + (s.pushed k x).words.length ≤
      (lengths h .v32).sum + (lengths h .record).sum := by
  have left := fresh.kept.wordsLeft
  by_cases payload : wordPayload k = true
  · have same := fresh.weigh rowLength
    have added : (s.pushed k x).words.length ≤
        s.words.length + rowLength (s.old.row k (indexOf x)) := by
      simp only [Tidy.pushed, payload, if_true, length_append, fresh.slice payload,
        length_take, rowLength]
      omega
    cases k <;> simp [wordPayload] at payload
    · rw [fresh.weigh_other rowLength (by decide : Kind.record ≠ .v32)]
      omega
    · rw [fresh.weigh_other rowLength (by decide : Kind.v32 ≠ .record)]
      omega
  · have v32 : Kind.v32 ≠ k := by
      rintro rfl
      exact payload rfl
    have record : Kind.record ≠ k := by
      rintro rfl
      exact payload rfl
    have same : (s.pushed k x).words = s.words := by
      simp [Tidy.pushed, payload]
    rw [fresh.weigh_other _ v32, fresh.weigh_other _ record, same]
    exact left

theorem bytesLeft :
    weight rowLength ((s.pushed k x).old.table .v08) + (s.pushed k x).bytes.length ≤ (lengths h .v08).sum := by
  have left := fresh.kept.bytesLeft
  by_cases text : k = .v08
  · subst text
    have same := fresh.weigh rowLength
    have added : (s.pushed .v08 x).bytes.length ≤
        s.bytes.length + rowLength (s.old.row .v08 (indexOf x)) := by
      have size : (s.old.v08slice x).length ≤ rowLength (s.old.row .v08 (indexOf x)) := by
        rw [Heap.v08slice, length_take]
        exact Nat.min_le_left _ _
      simp only [Tidy.pushed, if_true, length_append]
      omega
    omega
  · have same : (s.pushed k x).bytes = s.bytes := by
      simp [Tidy.pushed, text]
    rw [fresh.weigh_other _ (Ne.symm text), same]
    exact left

theorem kept' : Kept h (s.pushed k x) where
  era := fresh.kept.era
  size l := by
    rw [s.pushed_old_table x fresh.live]
    split
    · rename_i same
      subst same
      rw [length_set]
      exact fresh.kept.size l
    · exact fresh.kept.size l
  words := fresh.kept.words
  bytes := fresh.kept.bytes
  old l data held := by
    rw [s.pushed_old_table x fresh.live] at held
    split at held
    · rename_i same
      subst same
      rcases mem_or_eq_of_mem_set held with before | rfl
      · exact fresh.kept.old l data before
      · have two := two_le_width l
        have shape := fresh.rowOk.shape
        rw [getD_set, if_neg (by omega), getD_set, if_pos ⟨rfl, by omega⟩, getD_set,
          if_pos ⟨rfl, by rw [length_set]; omega⟩]
        exact Or.inr ⟨rfl, fresh.target⟩
    · exact fresh.kept.old l data held
  rows l data held := by
    rw [Tidy.pushed_next] at held
    split at held
    · rename_i same
      subst same
      rcases mem_append.mp held with before | last
      · exact fresh.kept.rows l data before
      · rw [mem_singleton.mp last, s.moved_length]
        refine ⟨fresh.rowOk.shape, fun c value => ?_⟩
        rw [s.moved_column x (mem_valueColumns.mp value) (by decide)]
        exact sane_valid (fresh.rowOk.values c value)
    · exact fresh.kept.rows l data held
  payload w held := by
    rcases mem_append.mp held with before | last
    · exact fresh.kept.payload w before
    · split at last
      · rename_i payload
        rw [fresh.slice payload] at last
        exact sane_valid (fresh.rowOk.payload payload w last)
      · cases last
  roots := fresh.kept.roots
  pins := fresh.kept.pins
  rowsLeft := fresh.rowsLeft
  wordsLeft := fresh.wordsLeft
  bytesLeft := fresh.bytesLeft

end

end Fresh

theorem copy_kept (start : Startable h) (kept : Kept h s) (sane : h.Sane x) :
    Kept h (Tidy.copy x s).2 ∧ h.Sane (Tidy.copy x s).1 := by
  unfold Tidy.copy
  cases kind : (tagOf x).kind? with
  | none => exact ⟨kept, sane⟩
  | some k =>
    change Kept h (Tidy.push k x s).2 ∧ h.Sane (Tidy.push k x s).1
    by_cases current : eraOf x = s.old.era
    · have live : indexOf x < (s.old.table k).length := by
        rw [kept.size]
        exact sane (k, indexOf x) (addr_of_kind kind) (current.trans kept.era)
      by_cases marked : (s.old.row k (indexOf x)).getD 0 0 = zap
      · rw [Tidy.push_forwarded current marked]
        refine ⟨kept, ?_⟩
        rcases kept.old k _ (mem_of_getD live) with held | forwarded
        · exact marked_sane start held marked
        · exact forwarded.2
      · have fresh : Fresh h s k x := ⟨start, kept, live, marked⟩
        rw [Tidy.push_fresh current marked]
        exact ⟨fresh.kept', fresh.target⟩
    · rw [Tidy.push_relocated current]
      exact ⟨kept, sane⟩

theorem copy_within (start : Startable h) (kept : Kept h s) (sane : h.Sane x) :
    Tidy.copy? (Tidy.capacity h) x s = some (Tidy.copy x s) :=
  if_pos (copy_kept start kept sane).1.within

end Copy

section Loops
variable {h : Heap} {s : Tidy} {k : Kind}

theorem sane_zero (h : Heap) : h.Sane 0 := sane_integer (by decide)

theorem setNext_kept (kept : Kept h s) {value : Word} (sane : h.Sane value) (i c : Nat) :
    Kept h (s.setNext k i c value) := by
  have next (l : Kind) : (s.setNext k i c value).next.get l =
      if l = k then (s.next.get k).set i (((s.next.get k).getD i []).set c value)
      else s.next.get l := s.next.get_set k l _
  refine { kept with rows := fun l data held => ?_, rowsLeft := fun l => ?_ }
  · rw [next] at held
    split at held
    · rename_i same
      subst same
      rcases mem_or_eq_of_mem_set held with before | rfl
      · exact kept.rows l data before
      · by_cases inside : i < (s.next.get l).length
        · obtain ⟨shape, values⟩ := kept.rows l _ (mem_of_getD (d := []) inside)
          refine ⟨by rw [length_set]; exact shape, fun d column => ?_⟩
          rw [getD_set]
          split
          · exact sane
          · exact values d column
        · rw [set_eq_of_length_le (not_lt.mp inside)] at held
          exact kept.rows l _ held
    · exact kept.rows l data held
  · have left := kept.rowsLeft l
    rw [next]
    split
    · rename_i same
      subst same
      rw [length_set]
      exact left
    · exact left

section
variable (start : Startable h) (kept : Kept h s)
include start kept

theorem pullColumns_within (i : Nat) {cols : List Nat} (values : ∀ c ∈ cols, c ∈ Tidy.valueColumns k) :
    Tidy.pullColumns? (Tidy.capacity h) k i cols s = some (Tidy.pullColumns k i cols s) ∧
      Kept h (Tidy.pullColumns k i cols s) := by
  induction cols generalizing s with
  | nil => exact ⟨rfl, kept⟩
  | cons c rest ih =>
    have sane : h.Sane (((s.next.get k).getD i []).getD c 0) := by
      by_cases inside : i < (s.next.get k).length
      · exact (kept.rows k _ (mem_of_getD inside)).2 c (values c mem_cons_self)
      · rw [getD_eq_default _ _ (not_lt.mp inside)]
        exact sane_zero h
    obtain ⟨copied, value⟩ := copy_kept start kept sane
    have next := ih (setNext_kept (k := k) copied value i c)
      (fun d later => values d (mem_cons_of_mem _ later))
    rw [Tidy.pullColumns?, copy_within start kept sane]
    exact next

theorem pullRow_within : Tidy.pullRow? (Tidy.capacity h) k s = some (Tidy.pullRow k s) ∧ Kept h (Tidy.pullRow k s) := by
  obtain ⟨pulled, after⟩ := pullColumns_within (k := k) start kept (s.scan k) fun _ held => held
  rw [Tidy.pullRow?, pulled]
  exact ⟨rfl, { after with }⟩

theorem pullLoop_within (fuel : Nat) : Tidy.pullLoop? (Tidy.capacity h) k fuel s = some (Tidy.pullLoop k fuel s) ∧
      Kept h (Tidy.pullLoop k fuel s) := by
  induction fuel generalizing s with
  | zero => exact ⟨rfl, kept⟩
  | succ fuel ih =>
    rw [Tidy.pullLoop?, Tidy.pullLoop]
    split
    · obtain ⟨pulled, after⟩ := pullRow_within (k := k) start kept
      rw [pulled]
      exact ih after
    · exact ⟨rfl, kept⟩

theorem pullAll_within (fuel : Nat) (kinds : List Kind)
    (changed : Bool) : Tidy.pullAll? (Tidy.capacity h) fuel kinds changed s =
        some (Tidy.pullAll fuel kinds changed s) ∧ Kept h (Tidy.pullAll fuel kinds changed s).2 := by
  induction kinds generalizing s changed with
  | nil => exact ⟨rfl, kept⟩
  | cons k rest ih =>
    obtain ⟨pulled, after⟩ := pullLoop_within (k := k) start kept fuel
    rw [Tidy.pullAll?, pulled]
    exact ih after _

theorem pullWord_within : Tidy.pullWord? (Tidy.capacity h) s = some (Tidy.pullWord s) ∧ Kept h (Tidy.pullWord s) := by
  have sane : h.Sane (s.words.getD s.wordScan 0) := by
    by_cases inside : s.wordScan < s.words.length
    · exact kept.payload _ (mem_of_getD inside)
    · rw [getD_eq_default _ _ (not_lt.mp inside)]
      exact sane_zero h
  obtain ⟨copied, value⟩ := copy_kept start kept sane
  rw [Tidy.pullWord?, copy_within start kept sane]
  refine ⟨rfl, { copied with payload := fun w held => ?_, wordsLeft := ?_ }⟩
  · rcases mem_or_eq_of_mem_set held with before | rfl
    · exact copied.payload w before
    · exact value
  · have left := copied.wordsLeft
    change _ + (List.set _ _ _).length ≤ _
    rw [length_set]
    exact left

theorem pullWords_within (fuel : Nat) (changed : Bool) : Tidy.pullWords? (Tidy.capacity h) fuel changed s = some
    (Tidy.pullWords fuel changed s) ∧ Kept h (Tidy.pullWords fuel changed s).2 := by
  induction fuel generalizing s changed with
  | zero => exact ⟨rfl, kept⟩
  | succ fuel ih =>
    rw [Tidy.pullWords?, Tidy.pullWords]
    split
    · obtain ⟨pulled, after⟩ := pullWord_within start kept
      rw [pulled]
      exact ih after true
    · exact ⟨rfl, kept⟩

theorem round_within (fuel : Nat) :
    Tidy.round? (Tidy.capacity h) fuel s = some (Tidy.round fuel s) ∧ Kept h (Tidy.round fuel s).2 := by
  obtain ⟨pulled, after⟩ := pullAll_within start kept fuel Kind.all false
  rw [Tidy.round?, pulled]
  exact pullWords_within start after fuel _

theorem rounds_within (fuel n : Nat) :
    Tidy.rounds? (Tidy.capacity h) fuel n s = some (Tidy.rounds fuel n s) ∧ Kept h (Tidy.rounds fuel n s) := by
  induction n generalizing s with
  | zero => exact ⟨rfl, kept⟩
  | succ n ih =>
    obtain ⟨pulled, after⟩ := round_within start kept fuel
    rw [Tidy.rounds?, Tidy.rounds, pulled]
    generalize Tidy.round fuel s = result at after ⊢
    obtain ⟨changed, next⟩ := result
    cases changed with
    | true => exact ih after
    | false => exact ⟨rfl, after⟩

theorem copyValues_within {xs : List Word} (sane : ∀ x ∈ xs, h.Sane x) : Tidy.copyValues? (Tidy.capacity h) xs s = some
    (Tidy.copyValues xs s) ∧ Kept h (Tidy.copyValues xs s).2 ∧ ∀ y ∈ (Tidy.copyValues xs s).1, h.Sane y := by
  induction xs generalizing s with
  | nil => exact ⟨rfl, kept, nofun⟩
  | cons x rest ih =>
    obtain ⟨copied, value⟩ := copy_kept start kept (sane x mem_cons_self)
    obtain ⟨same, after, values⟩ := ih copied fun y later => sane y (mem_cons_of_mem _ later)
    rw [Tidy.copyValues?, copy_within start kept (sane x mem_cons_self)]
    refine ⟨?_, after, fun y held => ?_⟩
    · change (Tidy.copyValues? (Tidy.capacity h) rest (Tidy.copy x s).2 >>= _) = _
      rw [same]
      rfl
    · rcases mem_cons.mp held with rfl | later
      · exact value
      · exact values y later

theorem copyPins_within : Tidy.copyPins? (Tidy.capacity h) s = some s.copyPins ∧ Kept h s.copyPins := by
  obtain ⟨same, after, values⟩ := copyValues_within start kept kept.pins
  rw [Tidy.copyPins?, same]
  refine ⟨rfl, { after with pins := fun w held => ?_ }⟩
  obtain ⟨entry, zipped, rfl⟩ := mem_map.mp held
  exact values _ (of_mem_zip zipped).2

theorem copyRoots_within : Tidy.copyRoots? (Tidy.capacity h) s = some s.copyRoots ∧ Kept h s.copyRoots := by
  obtain ⟨same, after, values⟩ := copyValues_within start kept kept.roots
  rw [Tidy.copyRoots?, same]
  exact ⟨rfl, { after with roots := values }⟩

theorem copied_within (fuel : Nat) :
    Tidy.copied? (Tidy.capacity h) fuel s = some (s.copied fuel) ∧ Kept h (s.copied fuel) := by
  obtain ⟨pins, pinned⟩ := copyPins_within start kept
  obtain ⟨roots, rooted⟩ := copyRoots_within start pinned
  rw [Tidy.copied?, pins]
  change (Tidy.copyRoots? (Tidy.capacity h) s.copyPins >>= _) = _ ∧ _
  rw [roots]
  exact rounds_within start rooted fuel fuel

end

theorem weight_le (w : Row → Nat) (rows : Table) : weight w rows ≤ (rows.map w).sum := by
  apply sum_le_sum
  intro data _
  split
  · exact Nat.zero_le _
  · exact le_rfl

theorem start_kept (start : Startable h) : Kept h { old := h } where
  era := rfl
  size _ := rfl
  words := rfl
  bytes := rfl
  old _ _ held := Or.inl held
  rows k data held := by cases k <;> cases held
  payload _ held := by cases held
  roots w held := sane_valid (start.wf.roots w held)
  pins w held := sane_valid (start.wf.pins w held)
  rowsLeft k := by
    have rows := weight_le (fun _ => 1) (h.table k)
    have none : (({ old := h } : Tidy).next.get k).length = 0 := by cases k <;> rfl
    rw [none]
    simpa using rows
  wordsLeft := by
    have vectors := weight_le rowLength (h.table .v32)
    have records := weight_le rowLength (h.table .record)
    change weight rowLength (h.table .v32) + weight rowLength (h.table .record) ≤ _
    exact Nat.add_le_add vectors records
  bytesLeft := weight_le rowLength (h.table .v08)

end Loops

section Granted
variable {grant : Reservation → Bool} {h : Heap}

theorem request_ok {r : Reservation} (done : request grant r = .ok ()) : grant r = true := by
  unfold request at done
  split at done
  · assumption
  · cases done

theorem reserveTables_granted {kinds : List Kind} (done : reserveTables grant h kinds = .ok ()) :
    ∀ k ∈ kinds, (h.table k).length ≠ 0 → grant (.table k (h.table k).length) = true := by
  induction kinds with
  | nil => exact nofun
  | cons k rest ih =>
    obtain ⟨_, first, tail⟩ := bind_ok done
    intro l held some
    rcases mem_cons.mp held with rfl | later
    · unfold reserveTable at first
      split at first
      · cases first
      · exact request_ok first
    · exact ih tail l later some

theorem tidy_granted_sizes {s : Tidy} (begun : tidy grant h = .ok s) :
    (∀ k, (h.table k).length ≠ 0 → grant (.table k ((Tidy.capacity h).rows k)) = true) ∧
      grant (.words (Tidy.capacity h).words) = true ∧ grant (.bytes (Tidy.capacity h).bytes) = true := by
  obtain ⟨_, tables, begun⟩ := bind_ok begun
  obtain ⟨vectors, first, begun⟩ := bind_ok begun
  obtain ⟨words, second, begun⟩ := bind_ok begun
  obtain ⟨_, wordsAsked, begun⟩ := bind_ok begun
  obtain ⟨bytes, third, begun⟩ := bind_ok begun
  obtain ⟨_, bytesAsked, _⟩ := bind_ok begun
  obtain ⟨vectorSum, small⟩ := sumLengths_ok first (Nat.zero_le _)
  obtain ⟨wordSum, _⟩ := sumLengths_ok second small
  obtain ⟨byteSum, _⟩ := sumLengths_ok third (Nat.zero_le _)
  refine ⟨fun k some => reserveTables_granted tables k (Kind.mem_all k) some, ?_, ?_⟩
  · have same : (Tidy.capacity h).words = words := by
      change (lengths h .v32).sum + (lengths h .record).sum = words
      omega
    rw [same]
    exact request_ok wordsAsked
  · have same : (Tidy.capacity h).bytes = bytes := by
      change (lengths h .v08).sum = bytes
      omega
    rw [same]
    exact request_ok bytesAsked

end Granted

/-- Once the reservations of a collection have been granted, its copy phase makes no insertion
    beyond them. -/
theorem copy_reserved (grant : Reservation → Bool) (h : Heap) (s : Tidy) (wf : h.WellFormed)
    (words : h.words.length ≤ maxWord) (bytes : h.bytes.length ≤ maxWord)
    (begun : tidy grant h = .ok s) (fuel : Nat) : Tidy.copied? (Tidy.capacity h) fuel s = some (s.copied fuel) ∧
      (∀ k, (h.table k).length ≠ 0 → grant (.table k ((Tidy.capacity h).rows k)) = true) ∧
      grant (.words (Tidy.capacity h).words) = true ∧ grant (.bytes (Tidy.capacity h).bytes) = true := by
  refine ⟨?_, tidy_granted_sizes begun⟩
  obtain ⟨rfl, reserved⟩ := tidy_ok begun
  have start : Startable h := ⟨wf, reserved, words, bytes⟩
  exact (copied_within start (start_kept start) fuel).1

/-- A cycle of pairs and two vectors that share their words. -/
def sharedHeap : Heap where
  vat := { duo := [[pointer .duo 1 false, pointer .v32 0 false], [pointer .duo 0 false, pointer .v32 1 false]]
           v32 := [[0, 2], [1, 2]] }
  words := [pointer .duo 0 false, nil, pointer .v32 1 false]
  roots := [pointer .duo 0 false]

/-- Four words are reserved for the three, since the slices are copied apart. -/
theorem copy_reserved_shared :
    Tidy.copied? (Tidy.capacity sharedHeap) 10 { old := sharedHeap } =
        some (Tidy.copied 10 { old := sharedHeap }) ∧ (Tidy.capacity sharedHeap).words = 4 := by
  have begun : tidy (fun _ => true) sharedHeap = .ok { old := sharedHeap } := rfl
  exact ⟨(copy_reserved (fun _ => true) sharedHeap _ (by decide +kernel) (by decide) (by decide)
    begun 10).1, by decide⟩

end Nxt.Wisp
