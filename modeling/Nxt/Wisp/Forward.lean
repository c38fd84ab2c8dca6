import Nxt.Wisp.Graph

/- Forwarding. The marks of the old tables are a partial injection `f` onto the new rows.
   Every word copied so far is either still the old word or already its image under `f`
   (`Loose`); the scans turn the first into the second, and the era bit tells them apart, so a
   word is never copied twice. -/
namespace Nxt.Wisp
open Nxt.Lib List

abbrev Forward := Addr → Option Nat

def Img (f : Forward) (e : Bool) (o n : Word) : Prop :=
  match addr? o with
  | some a => ∃ j, f a = some j ∧ n = pointer a.1 j e
  | none => n = o

def Loose (f : Forward) (e : Bool) (o c : Word) : Prop := c = o ∨ Img f e o c

def Extends (f g : Forward) : Prop := ∀ a j, f a = some j → g a = some j

/-- What the rows not yet forwarded weigh. -/
def weight (w : Row → Nat) (rows : Table) : Nat :=
  (rows.map fun data => if data.getD 0 0 = zap then 0 else w data).sum

def rowLength (data : Row) : Nat := (data.getD 1 0).toNat

structure Inv (h : Heap) (f : Forward) (s : Tidy) : Prop where
  era : s.old.era = h.era
  words : s.old.words = h.words
  bytes : s.old.bytes = h.bytes
  size : ∀ k, (s.old.table k).length = (h.table k).length
  unmoved : ∀ a, f a = none → s.old.row a.1 a.2 = h.row a.1 a.2
  marked : ∀ a j, f a = some j →
    s.old.cell a 0 = zap ∧ s.old.cell a 1 = pointer a.1 j (!h.era)
  source : ∀ a j, f a = some j → h.Reachable a
  target : ∀ a j, f a = some j → j < (s.next.get a.1).length
  injective : ∀ a b j, a.1 = b.1 → f a = some j → f b = some j → a = b
  surjective : ∀ k j, j < (s.next.get k).length → ∃ i, f (k, i) = some j
  shape : ∀ k, ∀ data ∈ s.next.get k, data.length = width k
  value : ∀ a j, f a = some j → ∀ c, columnKind a.1 c = some .value →
    Loose f (!h.era) (h.cell a c) (cell (s.next.get a.1) j c)
  raw : ∀ a j, f a = some j → ∀ c r, columnKind a.1 c = some r → r ≠ .value → r ≠ .offset →
    cell (s.next.get a.1) j c = h.cell a c
  inside : ∀ a j, f a = some j → wordPayload a.1 = true →
    (cell (s.next.get a.1) j 0).toNat + h.length a ≤ s.words.length
  slice : ∀ a j, f a = some j → wordPayload a.1 = true → ∀ n, n < h.length a →
    Loose f (!h.era) (h.words.getD (h.offset a + n) 0)
      (s.words.getD ((cell (s.next.get a.1) j 0).toNat + n) 0)
  cover : ∀ p, p < s.words.length → ∃ a j n, f a = some j ∧ wordPayload a.1 = true ∧
    n < h.length a ∧ p = (cell (s.next.get a.1) j 0).toNat + n
  apart : ∀ a j n b i m, f a = some j → wordPayload a.1 = true → n < h.length a →
    f b = some i → wordPayload b.1 = true → m < h.length b →
    (cell (s.next.get a.1) j 0).toNat + n = (cell (s.next.get b.1) i 0).toNat + m →
    a = b ∧ n = m
  text : ∀ i j, f (.v08, i) = some j →
    (cell (s.next.get .v08) j 0).toNat + h.length (.v08, i) ≤ s.bytes.length ∧
    (s.bytes.drop (cell (s.next.get .v08) j 0).toNat).take (h.length (.v08, i)) =
      h.text (.v08, i)
  rowsLeft : ∀ k, weight (fun _ => 1) (s.old.table k) + (s.next.get k).length =
    (h.table k).length
  wordsLeft : weight rowLength (s.old.table .v32) + weight rowLength (s.old.table .record) +
    s.words.length = (lengths h .v32).sum + (lengths h .record).sum
  bytesLeft : weight rowLength (s.old.table .v08) + s.bytes.length = (lengths h .v08).sum
  cursor : ∀ k, s.scan k ≤ (s.next.get k).length
  wordCursor : s.wordScan ≤ s.words.length
  scanned : ∀ a j, f a = some j → j < s.scan a.1 → ∀ c, columnKind a.1 c = some .value →
    Img f (!h.era) (h.cell a c) (cell (s.next.get a.1) j c)
  scannedWords : ∀ a j, f a = some j → wordPayload a.1 = true → ∀ n, n < h.length a →
    (cell (s.next.get a.1) j 0).toNat + n < s.wordScan →
    Img f (!h.era) (h.words.getD (h.offset a + n) 0)
      (s.words.getD ((cell (s.next.get a.1) j 0).toNat + n) 0)

/-- What the constructor has established when it does not throw. -/
structure Reserved (h : Heap) : Prop where
  rows : ∀ k, (h.table k).length ≤ 2 ^ 26
  words : (lengths h .v32).sum + (lengths h .record).sum ≤ maxWord
  bytes : (lengths h .v08).sum ≤ maxWord

section Lists
variable {α : Type}

theorem getD_set (l : List α) (i j : Nat) (a d : α) :
    (l.set i a).getD j d = if i = j ∧ j < l.length then a else l.getD j d := by
  simp only [getD_eq_getElem?_getD, getElem?_set]
  by_cases same : i = j
  · subst same
    by_cases inside : i < l.length <;> simp [inside]
  · simp [same]

theorem mem_of_getD {l : List α} {i : Nat} {d : α} (h : i < l.length) : l.getD i d ∈ l := by
  simp [getD_eq_getElem?_getD, h]

end Lists

variable {i : Nat} {f g : Forward} {j : Nat} {k : Kind} {a : Addr} {h : Heap}

theorem weight_set (w : Row → Nat) (rows : Table) (inside : i < rows.length)
    (open_row : (rows.getD i []).getD 0 0 ≠ zap) {data : Row} (closed : data.getD 0 0 = zap) :
    weight w (rows.set i data) + w (rows.getD i []) = weight w rows := by
  induction rows generalizing i with
  | nil => simp at inside
  | cons first rest ih =>
    cases i with
    | zero =>
      simp only [getD_cons_zero] at open_row ⊢
      simp only [weight, set_cons_zero, map_cons, sum_cons, closed, open_row, if_true, if_false]
      omega
    | succ i =>
      simp only [getD_cons_succ, length_cons] at open_row inside ⊢
      have rest_weight := ih (by omega) open_row
      simp only [weight, set_cons_succ, map_cons, sum_cons] at rest_weight ⊢
      omega

theorem weight_pos {rows : Table} (inside : i < rows.length)
    (open_row : (rows.getD i []).getD 0 0 ≠ zap) (w : Row → Nat) : w (rows.getD i []) ≤ weight w rows := by
  have marked : ([zap] : Row).getD 0 0 = zap := rfl
  have := weight_set w rows inside open_row marked
  omega

theorem img_mono (more : Extends f g) {e : Bool} {o n : Word} (h : Img f e o n) : Img g e o n := by
  unfold Img at *
  cases points : addr? o with
  | none =>
    rw [points] at h
    exact h
  | some a =>
    rw [points] at h
    obtain ⟨j, forwarded, eq⟩ := h
    exact ⟨j, more a j forwarded, eq⟩

theorem loose_mono (more : Extends f g) {e : Bool} {o c : Word}
    (h : Loose f e o c) : Loose g e o c := h.imp_right (img_mono more)

theorem Extends.refl (f : Forward) : Extends f f := fun _ _ h => h

theorem Extends.trans {h : Forward} (fg : Extends f g) (gh : Extends g h) : Extends f h :=
  fun a j found => gh a j (fg a j found)

@[simp] theorem table_setTable (h : Heap) (k l : Kind) (rows : Table) :
    (h.setTable k rows).table l = if l = k then rows else h.table l := h.vat.get_set k l rows

theorem cell_set_ne (rows : Table) (data : Row) (c : Nat) (h : i ≠ j) : cell (rows.set i data) j c = cell rows j c := by
  simp only [cell, getD_set, h, false_and, if_false]

theorem cell_append (rows : Table) (data : Row) (c : Nat) (h : j < rows.length) :
    cell (rows ++ [data]) j c = cell rows j c := by
  rw [cell, getD_append rows [data] [] j h, cell]

theorem cell_append_last (rows : Table) (data : Row) (c : Nat) :
    cell (rows ++ [data]) rows.length c = data.getD c 0 := by
  simp [cell]

theorem columnKind_lt {c : Nat} {r : FieldKind} (h : columnKind k c = some r) : c < width k := by
  simp only [columnKind] at h
  have := (List.getElem?_eq_some_iff.mp h).1
  simpa [width] using this

theorem mem_valueColumns {c : Nat} : c ∈ Tidy.valueColumns k ↔ columnKind k c = some .value := by
  simp only [Tidy.valueColumns, mem_filter, mem_range, decide_eq_true_eq]
  exact ⟨fun h => h.2, fun h => ⟨columnKind_lt h, h⟩⟩

theorem slice_columns (h : wordPayload k = true) :
    columnKind k 0 = some .offset ∧ columnKind k 1 = some .length ∧ width k = 2 ∧
      columnIndex k .idx = 0 ∧ Tidy.valueColumns k = [] := by
  cases k <;> simp [wordPayload] at h <;> decide

namespace Tidy

/-- The row as the new table receives it. -/
def moved (s : Tidy) (k : Kind) (x : Word) : Row :=
  let data := s.old.row k (indexOf x)
  if wordPayload k then data.set 0 (UInt32.ofNat s.words.length)
  else if k = .v08 then data.set 0 (UInt32.ofNat s.bytes.length)
  else data

def pushed (s : Tidy) (k : Kind) (x : Word) : Tidy :=
  { s with
    old := (s.old.setColumn k (indexOf x) 0 zap).setColumn k (indexOf x) 1
      (pointer k (s.next.get k).length (!s.old.era))
    next := s.next.set k (s.next.get k ++ [s.moved k x])
    words := s.words ++ if wordPayload k then s.old.slice k x else []
    bytes := s.bytes ++ if k = .v08 then s.old.v08slice x else [] }

theorem push_fresh {s : Tidy} {k : Kind} {x : Word} (current : eraOf x = s.old.era)
    (open_row : (s.old.row k (indexOf x)).getD 0 0 ≠ zap) :
    push k x s = (pointer k (s.next.get k).length (!s.old.era), s.pushed k x) := by
  simp only [push, current, open_row, ne_eq, not_true_eq_false, if_false, pushed, moved]
  by_cases payload : wordPayload k = true
  · have other : k ≠ .v08 := by
      rintro rfl
      exact absurd payload (by decide)
    simp [payload, other, (slice_columns payload).2.2.2.1]
  · by_cases text : k = .v08
    · subst text
      simp [wordPayload, show columnIndex .v08 .idx = 0 from rfl]
    · simp [payload, text]

theorem push_forwarded {s : Tidy} {k : Kind} {x : Word} (current : eraOf x = s.old.era)
    (closed : (s.old.row k (indexOf x)).getD 0 0 = zap) : push k x s = ((s.old.row k (indexOf x)).getD 1 0, s) := by
  simp only [push, current, closed, ne_eq, not_true_eq_false, if_false, if_true]

theorem push_relocated {s : Tidy} {k : Kind} {x : Word} (flipped : eraOf x ≠ s.old.era) : push k x s = (x, s) := by
  simp [push, flipped]

theorem moved_length (s : Tidy) (k : Kind) (x : Word) : (s.moved k x).length = (s.old.row k (indexOf x)).length := by
  unfold moved
  split
  · simp
  · split <;> simp

theorem moved_column (s : Tidy) {k : Kind} (x : Word) {c : Nat} {r : FieldKind} (column : columnKind k c = some r)
    (kept : r ≠ .offset) : (s.moved k x).getD c 0 = (s.old.row k (indexOf x)).getD c 0 := by
  have away (offset : columnKind k 0 = some .offset) : 0 ≠ c := by
    rintro rfl
    rw [offset] at column
    exact kept (Option.some.inj column).symm
  unfold moved
  split
  · rename_i payload
    rw [getD_set, if_neg (fun h => away (slice_columns payload).1 h.1)]
  · split
    · rename_i text
      subst text
      rw [getD_set, if_neg (fun h => away rfl h.1)]
    · rfl

theorem moved_offset (s : Tidy) {k : Kind} (x : Word) (payload : wordPayload k = true)
    (shape : (s.old.row k (indexOf x)).length = width k) (fits : s.words.length < 2 ^ 32) :
    ((s.moved k x).getD 0 0).toNat = s.words.length := by
  have two := two_le_width k
  simp only [moved, payload, if_true]
  rw [getD_set, if_pos ⟨rfl, by omega⟩, UInt32.toNat_ofNat', Nat.mod_eq_of_lt fits]

theorem moved_text_offset (s : Tidy) (x : Word) (shape : (s.old.row .v08 (indexOf x)).length = width .v08)
    (fits : s.bytes.length < 2 ^ 32) : ((s.moved .v08 x).getD 0 0).toNat = s.bytes.length := by
  have two := two_le_width .v08
  simp only [moved, wordPayload, if_true, Bool.false_eq_true, if_false]
  rw [getD_set, if_pos ⟨rfl, by omega⟩, UInt32.toNat_ofNat', Nat.mod_eq_of_lt fits]

theorem pushed_old_table (s : Tidy) {k : Kind} (x : Word)
    (live : indexOf x < (s.old.table k).length) (l : Kind) : (s.pushed k x).old.table l =
      if l = k then (s.old.table k).set (indexOf x) (((s.old.row k (indexOf x)).set 0 zap).set 1
        (pointer k (s.next.get k).length (!s.old.era))) else s.old.table l := by
  have marked : (s.old.setColumn k (indexOf x) 0 zap).row k (indexOf x) =
      (s.old.row k (indexOf x)).set 0 zap := by
    rw [Heap.row, Heap.setColumn, table_setTable, if_pos rfl, getD_set, if_pos ⟨rfl, live⟩]
  simp only [pushed]
  rw [Heap.setColumn, marked]
  simp only [Heap.setColumn, table_setTable, if_true]
  split
  · rw [set_set]
  · rfl

@[simp] theorem pushed_next (s : Tidy) (k : Kind) (x : Word) (l : Kind) : (s.pushed k x).next.get l =
      if l = k then s.next.get k ++ [s.moved k x] else s.next.get l :=
  s.next.get_set k l _

theorem pushed_cell_old (s : Tidy) (k : Kind) (x : Word) {l : Kind} {j : Nat} (c : Nat)
    (inside : j < (s.next.get l).length) : cell ((s.pushed k x).next.get l) j c = cell (s.next.get l) j c := by
  rw [pushed_next]
  split
  · rename_i same
    subst same
    exact cell_append _ _ c inside
  · rfl

theorem pushed_cell_new (s : Tidy) (k : Kind) (x : Word) (c : Nat) :
    cell ((s.pushed k x).next.get k) (s.next.get k).length c = (s.moved k x).getD c 0 := by
  rw [pushed_next, if_pos rfl]
  exact cell_append_last _ _ c

end Tidy

def extend (f : Forward) (a : Addr) (j : Nat) : Forward := fun b => if b = a then some j else f b

theorem extend_self (f : Forward) (a : Addr) (j : Nat) : extend f a j a = some j := if_pos rfl

theorem extend_some {b : Addr} {n : Nat} (h : extend f a j b = some n) : (b = a ∧ n = j) ∨ f b = some n := by
  unfold extend at h
  split at h
  · exact Or.inl ⟨‹_›, (Option.some.inj h).symm⟩
  · exact Or.inr h

theorem extend_none {b : Addr} (h : extend f a j b = none) : b ≠ a ∧ f b = none := by
  unfold extend at h
  split at h
  · cases h
  · exact ⟨‹_›, h⟩

theorem extends_extend (fresh : f a = none) (j : Nat) : Extends f (extend f a j) := by
  intro b n found
  unfold extend
  split
  · rename_i same
    rw [same, fresh] at found
    cases found
  · exact found

theorem getD_slice {α : Type} (l : List α) (o m n : Nat) (d : α) (inside : n < m) :
    ((l.drop o).take m).getD n d = l.getD (o + n) d := by
  simp [getD_eq_getElem?_getD, getElem?_take_of_lt inside]

theorem payload_length (wf : h.WellFormed) (live : h.Live a)
    (kind : wordPayload a.1 = true) : (h.payload a).length = h.length a := by
  have := wf.words live kind
  simp [Heap.payload]
  omega

theorem text_length (wf : h.WellFormed) (live : h.Live (.v08, i)) : (h.text (.v08, i)).length = h.length (.v08, i) := by
  have := wf.bytes live rfl
  simp [Heap.text]
  omega

theorem row_shape (wf : h.WellFormed) (live : h.Live a) : (h.row a.1 a.2).length = width a.1 := (wf.row live).shape

section Push
variable {h : Heap} {f : Forward} {s : Tidy} {x : Word} {k : Kind}

structure Ready (h : Heap) : Prop where
  wf : h.WellFormed
  unmarked : h.Unmarked
  reserved : Reserved h

structure Pending (h : Heap) (f : Forward) (k : Kind) (x : Word) : Prop extends Ready h where
  reach : h.Reachable (k, indexOf x)
  fresh : f (k, indexOf x) = none

namespace Pending

theorem live (p : Pending h f k x) : h.Live (k, indexOf x) := reachable_live p.wf p.reach

section
variable (p : Pending h f k x) (inv : Inv h f s)
include p inv

theorem row :
    s.old.row k (indexOf x) = h.row k (indexOf x) := inv.unmoved _ p.fresh

theorem shape : (s.old.row k (indexOf x)).length = width k := by
  rw [p.row inv]
  exact row_shape p.wf p.live

theorem liveNow : indexOf x < (s.old.table k).length := by
  rw [inv.size]
  exact p.live

theorem open_row : (s.old.row k (indexOf x)).getD 0 0 ≠ zap := by
  rw [p.row inv]
  exact p.unmarked k _ (mem_of_getD p.live)

theorem rowLength_eq : rowLength (s.old.row k (indexOf x)) = h.length (k, indexOf x) := by
  rw [p.row inv]
  rfl

theorem slice_eq (payload : wordPayload k = true) : s.old.slice k x = h.payload (k, indexOf x) := by
  have row := p.row inv
  have idx := (slice_columns payload).2.2.2.1
  have len : columnIndex k .len = 1 := by
    cases k <;> simp [wordPayload] at payload <;> rfl
  simp only [Heap.slice, Heap.get, Heap.read, row, inv.words, idx, len]
  rfl

end

theorem text_eq (p : Pending h f .v08 x) (inv : Inv h f s) : s.old.v08slice x = h.text (.v08, indexOf x) := by
  have row := p.row inv
  simp only [Heap.v08slice, Heap.get, Heap.read, row, inv.bytes]
  rfl

theorem wordRoom (p : Pending h f k x) (inv : Inv h f s) (payload : wordPayload k = true) :
    s.words.length + h.length (k, indexOf x) ≤ maxWord := by
  have left := inv.wordsLeft
  have bound := p.reserved.words
  have row := weight_pos (p.liveNow inv) (p.open_row inv) rowLength
  have same : rowLength ((s.old.table k).getD (indexOf x) []) = h.length (k, indexOf x) :=
    p.rowLength_eq inv
  rw [same] at row
  cases k <;> simp [wordPayload] at payload <;> omega

theorem byteRoom (p : Pending h f .v08 x) (inv : Inv h f s) :
    s.bytes.length + h.length (.v08, indexOf x) ≤ maxWord := by
  have left := inv.bytesLeft
  have bound := p.reserved.bytes
  have row := weight_pos (p.liveNow inv) (p.open_row inv) rowLength
  have same : rowLength ((s.old.table .v08).getD (indexOf x) []) = h.length (.v08, indexOf x) :=
    p.rowLength_eq inv
  rw [same] at row
  omega

theorem fresh_offset (p : Pending h f k x) (inv : Inv h f s) (payload : wordPayload k = true) :
    (cell ((s.pushed k x).next.get k) (s.next.get k).length 0).toNat = s.words.length := by
  have room := p.wordRoom inv payload
  have bound : maxWord < 2 ^ 32 := by decide
  rw [Tidy.pushed_cell_new]
  exact s.moved_offset x payload (p.shape inv) (by omega)

theorem fresh_text_offset (p : Pending h f .v08 x) (inv : Inv h f s) :
    (cell ((s.pushed .v08 x).next.get .v08) (s.next.get .v08).length 0).toNat = s.bytes.length := by
  have room := p.byteRoom inv
  have bound : maxWord < 2 ^ 32 := by decide
  rw [Tidy.pushed_cell_new]
  exact s.moved_text_offset x (p.shape inv) (by omega)

theorem fresh_column (p : Pending h f k x) (inv : Inv h f s) {c : Nat} {r : FieldKind}
    (column : columnKind k c = some r) (kept : r ≠ .offset) :
    cell ((s.pushed k x).next.get k) (s.next.get k).length c = h.cell (k, indexOf x) c := by
  rw [Tidy.pushed_cell_new, s.moved_column x column kept, p.row inv]
  rfl

theorem pushed_words (p : Pending h f k x) (inv : Inv h f s) (payload : wordPayload k = true) :
    (s.pushed k x).words = s.words ++ h.payload (k, indexOf x) := by
  simp only [Tidy.pushed, payload, if_true, p.slice_eq inv payload]

theorem pushed_words_other (payload : wordPayload k ≠ true) : (s.pushed k x).words = s.words := by
  simp [Tidy.pushed, payload]

theorem words_grow (n : Nat) (inside : n < s.words.length) :
    (s.pushed k x).words.getD n 0 = s.words.getD n 0 := getD_append _ _ _ _ inside

theorem words_length : s.words.length ≤ (s.pushed k x).words.length := by
  simp [Tidy.pushed]

theorem bytes_length : s.bytes.length ≤ (s.pushed k x).bytes.length := by
  simp [Tidy.pushed]

section
variable (p : Pending h f k x) (inv : Inv h f s)
include p inv

theorem marked_row : (s.pushed k x).old.row k (indexOf x) = ((s.old.row k (indexOf x)).set 0 zap).set 1
      (pointer k (s.next.get k).length (!s.old.era)) := by
  rw [Heap.row, s.pushed_old_table x (p.liveNow inv), if_pos rfl, getD_set,
    if_pos ⟨rfl, p.liveNow inv⟩]

theorem other_row {b : Addr} (other : b ≠ (k, indexOf x)) : (s.pushed k x).old.row b.1 b.2 = s.old.row b.1 b.2 := by
  rw [Heap.row, s.pushed_old_table x (p.liveNow inv)]
  split
  · rename_i same
    have away : indexOf x ≠ b.2 := fun index => other (Prod.ext same index.symm)
    rw [getD_set, if_neg (fun h => away h.1), ← same]
    rfl
  · rfl

theorem old_size (l : Kind) : ((s.pushed k x).old.table l).length = (s.old.table l).length := by
  rw [s.pushed_old_table x (p.liveNow inv)]
  split
  · rename_i same
    subst same
    exact length_set
  · rfl

theorem marked_first : ((s.pushed k x).old.row k (indexOf x)).getD 0 0 = zap := by
  have two := two_le_width k
  have shape := p.shape inv
  rw [p.marked_row inv, getD_set, if_neg (by omega), getD_set, if_pos ⟨rfl, by omega⟩]

theorem marked_second : ((s.pushed k x).old.row k (indexOf x)).getD 1 0 = pointer k (s.next.get k).length (!h.era) := by
  have two := two_le_width k
  have shape := p.shape inv
  rw [p.marked_row inv, getD_set, if_pos ⟨rfl, by rw [length_set]; omega⟩, inv.era]

theorem weight_other {w : Row → Nat} {l : Kind} (other : l ≠ k) :
    weight w ((s.pushed k x).old.table l) = weight w (s.old.table l) := by
  rw [s.pushed_old_table x (p.liveNow inv), if_neg other]

end

theorem weight_same (w : Row → Nat) (p : Pending h f k x) (inv : Inv h f s) :
    weight w ((s.pushed k x).old.table k) + w (s.old.row k (indexOf x)) = weight w (s.old.table k) := by
  have mark := p.marked_first inv
  rw [p.marked_row inv] at mark
  rw [s.pushed_old_table x (p.liveNow inv), if_pos rfl]
  exact weight_set w _ (p.liveNow inv) (p.open_row inv) mark

section
variable (p : Pending h f k x) (inv : Inv h f s)
include p inv

theorem rowsLeft (l : Kind) : weight (fun _ => 1) ((s.pushed k x).old.table l) + ((s.pushed k x).next.get l).length =
      (h.table l).length := by
  have left := inv.rowsLeft l
  rw [Tidy.pushed_next]
  by_cases same : l = k
  · subst same
    have one := p.weight_same (fun _ => 1) inv
    simp only [if_true, length_append, length_singleton]
    omega
  · rw [p.weight_other inv same, if_neg same]
    exact left

theorem wordsLeft : weight rowLength ((s.pushed k x).old.table .v32) +
      weight rowLength ((s.pushed k x).old.table .record) + (s.pushed k x).words.length =
      (lengths h .v32).sum + (lengths h .record).sum := by
  have left := inv.wordsLeft
  by_cases payload : wordPayload k = true
  · have same := p.weight_same rowLength inv
    rw [p.rowLength_eq inv] at same
    have added : (s.pushed k x).words.length = s.words.length + h.length (k, indexOf x) := by
      rw [p.pushed_words inv payload, length_append, payload_length p.wf p.live payload]
    cases k <;> simp [wordPayload] at payload
    · rw [p.weight_other inv (by decide : Kind.record ≠ .v32)]
      omega
    · rw [p.weight_other inv (by decide : Kind.v32 ≠ .record)]
      omega
  · have v32 : Kind.v32 ≠ k := by
      intro same
      subst same
      exact payload rfl
    have record : Kind.record ≠ k := by
      intro same
      subst same
      exact payload rfl
    rw [p.weight_other inv v32, p.weight_other inv record, pushed_words_other payload]
    exact left

theorem bytesLeft :
    weight rowLength ((s.pushed k x).old.table .v08) + (s.pushed k x).bytes.length = (lengths h .v08).sum := by
  have left := inv.bytesLeft
  by_cases text : k = .v08
  · subst text
    have same := p.weight_same rowLength inv
    rw [p.rowLength_eq inv] at same
    have added : (s.pushed .v08 x).bytes.length =
        s.bytes.length + h.length (.v08, indexOf x) := by
      simp only [Tidy.pushed, if_true, p.text_eq inv, length_append, text_length p.wf p.live]
    omega
  · rw [p.weight_other inv (Ne.symm text)]
    simp only [Tidy.pushed, text, if_false, append_nil]
    exact left

theorem slice_fresh (payload : wordPayload k = true) {n : Nat} (inside : n < h.length (k, indexOf x)) :
    (s.pushed k x).words.getD (s.words.length + n) 0 = h.words.getD (h.offset (k, indexOf x) + n) 0 := by
  rw [p.pushed_words inv payload, getD_append_right _ _ _ _ (Nat.le_add_right _ _),
    Nat.add_sub_cancel_left]
  exact getD_slice _ _ _ _ _ inside

theorem cover (q : Nat) (inside : q < (s.pushed k x).words.length) :
    ∃ a j n, extend f (k, indexOf x) (s.next.get k).length a = some j ∧
      wordPayload a.1 = true ∧ n < h.length a ∧ q = (cell ((s.pushed k x).next.get a.1) j 0).toNat + n := by
  by_cases earlier : q < s.words.length
  · obtain ⟨a, j, n, found, kind, small, eq⟩ := inv.cover q earlier
    have kept := s.pushed_cell_old k x 0 (inv.target a j found)
    exact ⟨a, j, n, extends_extend p.fresh _ a j found, kind, small, by rw [kept]; exact eq⟩
  · by_cases payload : wordPayload k = true
    · rw [p.pushed_words inv payload, length_append, payload_length p.wf p.live payload] at inside
      refine ⟨(k, indexOf x), _, q - s.words.length, extend_self f _ _, payload, by omega, ?_⟩
      rw [p.fresh_offset inv payload]
      omega
    · rw [pushed_words_other payload] at inside
      exact absurd inside earlier

theorem apart (a : Addr) (j n : Nat) (b : Addr) (i m : Nat)
    (left : extend f (k, indexOf x) (s.next.get k).length a = some j) (leftKind : wordPayload a.1 = true)
    (leftSmall : n < h.length a) (right : extend f (k, indexOf x) (s.next.get k).length b = some i)
    (rightKind : wordPayload b.1 = true) (rightSmall : m < h.length b)
    (eq : (cell ((s.pushed k x).next.get a.1) j 0).toNat + n = (cell ((s.pushed k x).next.get b.1) i 0).toNat + m) :
    a = b ∧ n = m := by
  have kept (c : Addr) (l : Nat) (found : f c = some l) :=
    s.pushed_cell_old k x 0 (inv.target c l found)
  rcases extend_some left with ⟨rfl, rfl⟩ | leftOld
  · rw [p.fresh_offset inv leftKind] at eq
    rcases extend_some right with ⟨rfl, rfl⟩ | rightOld
    · rw [p.fresh_offset inv rightKind] at eq
      exact ⟨rfl, by omega⟩
    · rw [kept b i rightOld] at eq
      have := inv.inside b i rightOld rightKind
      omega
  · rw [kept a j leftOld] at eq
    have inside := inv.inside a j leftOld leftKind
    rcases extend_some right with ⟨rfl, rfl⟩ | rightOld
    · rw [p.fresh_offset inv rightKind] at eq
      omega
    · rw [kept b i rightOld] at eq
      exact inv.apart a j n b i m leftOld leftKind leftSmall rightOld rightKind rightSmall eq

theorem text (i j : Nat) (found : extend f (k, indexOf x) (s.next.get k).length (.v08, i) = some j) :
    (cell ((s.pushed k x).next.get .v08) j 0).toNat + h.length (.v08, i) ≤ (s.pushed k x).bytes.length ∧
      ((s.pushed k x).bytes.drop (cell ((s.pushed k x).next.get .v08) j 0).toNat).take
        (h.length (.v08, i)) = h.text (.v08, i) := by
  rcases extend_some found with ⟨same, last⟩ | before
  · obtain ⟨kind, index⟩ := Prod.ext_iff.mp same
    simp only at kind index
    subst kind index last
    have long := text_length p.wf p.live
    have grown : (s.pushed .v08 x).bytes = s.bytes ++ h.text (.v08, indexOf x) := by
      simp only [Tidy.pushed, if_true, p.text_eq inv]
    rw [p.fresh_text_offset inv, grown, drop_left]
    constructor
    · rw [length_append, long]
    · exact take_of_length_le (Nat.le_of_eq long)
  · obtain ⟨inside, eq⟩ := inv.text i j before
    have longer := bytes_length (s := s) (x := x) (k := k)
    have kept : cell ((s.pushed k x).next.get .v08) j 0 = cell (s.next.get .v08) j 0 :=
      s.pushed_cell_old k x 0 (inv.target (.v08, i) j before)
    rw [kept]
    constructor
    · omega
    · rw [← eq]
      simp only [Tidy.pushed]
      rw [drop_append_of_le_length (by omega), take_append_of_le_length (by rw [length_drop]; omega)]

end

theorem injective (inv : Inv h f s) (a b : Addr) (j : Nat)
    (kind : a.1 = b.1) (left : extend f (k, indexOf x) (s.next.get k).length a = some j)
    (right : extend f (k, indexOf x) (s.next.get k).length b = some j) : a = b := by
  -- the index just given out is one past every earlier one
  have beyond (c : Addr) (same : c.1 = k) (found : f c = some (s.next.get k).length) : False := by
    have := inv.target c _ found
    rw [same] at this
    omega
  rcases extend_some left with ⟨rfl, rfl⟩ | before
  · rcases extend_some right with ⟨rfl, -⟩ | found
    · rfl
    · exact (beyond b kind.symm found).elim
  · rcases extend_some right with ⟨rfl, rfl⟩ | found
    · exact (beyond a kind before).elim
    · exact inv.injective a b j kind before found

theorem pushed_inv (p : Pending h f k x) (inv : Inv h f s) :
    Inv h (extend f (k, indexOf x) (s.next.get k).length) (s.pushed k x) where
  era := inv.era
  words := inv.words
  bytes := inv.bytes
  size l := (p.old_size inv l).trans (inv.size l)
  unmoved b free := by
    obtain ⟨other, none⟩ := extend_none free
    rw [p.other_row inv other]
    exact inv.unmoved b none
  marked b j found := by
    by_cases same : b = (k, indexOf x)
    · subst same
      rw [extend_self] at found
      cases found
      exact ⟨p.marked_first inv, p.marked_second inv⟩
    · rcases extend_some found with ⟨equal, -⟩ | before
      · exact absurd equal same
      · have kept := p.other_row inv same
        have old := inv.marked b j before
        simp only [Heap.cell, Wisp.cell, Heap.row] at kept old ⊢
        rw [kept]
        exact old
  source b j found := by
    rcases extend_some found with ⟨rfl, -⟩ | before
    · exact p.reach
    · exact inv.source b j before
  target b j found := by
    rw [Tidy.pushed_next]
    rcases extend_some found with ⟨rfl, rfl⟩ | before
    · simp
    · have := inv.target b j before
      split
      · rename_i same
        rw [same] at this
        simp only [length_append, length_singleton]
        omega
      · exact this
  injective := Pending.injective inv
  surjective l j inside := by
    rw [Tidy.pushed_next] at inside
    by_cases earlier : j < (s.next.get l).length
    · obtain ⟨i, found⟩ := inv.surjective l j earlier
      exact ⟨i, extends_extend p.fresh _ _ _ found⟩
    · by_cases same : l = k
      · subst same
        simp only [if_true, length_append, length_singleton] at inside
        have last : j = (s.next.get l).length := by omega
        subst last
        exact ⟨indexOf x, extend_self f _ _⟩
      · rw [if_neg same] at inside
        exact absurd inside earlier
  shape l data held := by
    rw [Tidy.pushed_next] at held
    split at held
    · rename_i same
      subst same
      rcases mem_append.mp held with before | last
      · exact inv.shape l data before
      · rw [mem_singleton.mp last, Tidy.moved_length]
        exact p.shape inv
    · exact inv.shape l data held
  value b j found c column := by
    rcases extend_some found with ⟨rfl, rfl⟩ | before
    · exact Or.inl (p.fresh_column inv column (by decide))
    · rw [s.pushed_cell_old k x c (inv.target b j before)]
      exact loose_mono (extends_extend p.fresh _) (inv.value b j before c column)
  raw b j found c r column plain kept := by
    rcases extend_some found with ⟨rfl, rfl⟩ | before
    · exact p.fresh_column inv column kept
    · rw [s.pushed_cell_old k x c (inv.target b j before)]
      exact inv.raw b j before c r column plain kept
  inside b j found payload := by
    rcases extend_some found with ⟨rfl, rfl⟩ | before
    · rw [p.fresh_offset inv payload, p.pushed_words inv payload, length_append,
        payload_length p.wf p.live payload]
    · rw [s.pushed_cell_old k x 0 (inv.target b j before)]
      exact (inv.inside b j before payload).trans words_length
  slice b j found payload n small := by
    rcases extend_some found with ⟨rfl, rfl⟩ | before
    · rw [p.fresh_offset inv payload]
      exact Or.inl (p.slice_fresh inv payload small)
    · have inside := inv.inside b j before payload
      rw [s.pushed_cell_old k x 0 (inv.target b j before), words_grow _ (by omega)]
      exact loose_mono (extends_extend p.fresh _) (inv.slice b j before payload n small)
  cover := p.cover inv
  apart := p.apart inv
  text := p.text inv
  rowsLeft := p.rowsLeft inv
  wordsLeft := p.wordsLeft inv
  bytesLeft := p.bytesLeft inv
  cursor l := by
    have := inv.cursor l
    rw [Tidy.pushed_next]
    split
    · rename_i same
      subst same
      rw [length_append]
      exact this.trans (Nat.le_add_right _ _)
    · exact this
  wordCursor := inv.wordCursor.trans words_length
  scanned b j found behind c column := by
    rcases extend_some found with ⟨rfl, rfl⟩ | before
    · exact absurd behind (Nat.not_lt.mpr (inv.cursor k))
    · rw [s.pushed_cell_old k x c (inv.target b j before)]
      exact img_mono (extends_extend p.fresh _) (inv.scanned b j before behind c column)
  scannedWords b j found payload n small behind := by
    rcases extend_some found with ⟨rfl, rfl⟩ | before
    · rw [p.fresh_offset inv payload] at behind
      have := inv.wordCursor
      exact absurd behind (by simp only [Tidy.pushed]; omega)
    · have inside := inv.inside b j before payload
      rw [s.pushed_cell_old k x 0 (inv.target b j before)] at behind ⊢
      rw [words_grow _ (by omega)]
      exact img_mono (extends_extend p.fresh _)
        (inv.scannedWords b j before payload n small behind)

end Pending
end Push

end Nxt.Wisp
