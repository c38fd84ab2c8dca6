import Nxt.Lib.Exec
import Nxt.Wisp.Ops

/- Allocation step by step (heap.cpp, heap.hpp, vat.hpp). Pools and tables grow through an
   allocator that may refuse any request; a payload is taken back when its row cannot be pushed. -/
namespace Nxt.Wisp
open Nxt.Lib List

structure Storage where
  heap : Heap
  capacity : Kind → Nat
  /-- How often the allocator has been asked. -/
  asked : Nat := 0

namespace Storage

abbrev Alloc := EStateM HostError Storage

section Requests
variable (grant : Nat → Bool)

def ask : Alloc Unit := do
  let s ← get
  set { s with asked := s.asked + 1 }
  if grant s.asked then pure () else throw .badAlloc

def racks : Nat → Alloc Unit
  | 0 => pure ()
  | n + 1 => do
      ask grant
      racks n

/-- `tab::reserve`: the table takes the racks over when it has them all. -/
def reserve (k : Kind) (n : Nat) : Alloc Unit := do
  if n > maxIndex + 1 then throw .tableOverflow
  else if n ≤ (← get).capacity k then pure ()
  else
    racks grant (width k)
    modify fun s => { s with capacity := fun l => if l = k then n else s.capacity l }

def push (k : Kind) (data : Row) : Alloc Nat := do
  let s ← get
  let size := (s.heap.table k).length
  if size = s.capacity k then
    if size = maxIndex + 1 then throw .tableFull
    else reserve grant k (min (maxIndex + 1) (if s.capacity k = 0 then 8 else s.capacity k * 2))
  modify fun s => { s with heap := s.heap.setTable k (s.heap.table k ++ [data]) }
  pure size

def make (k : Kind) (data : Row) : Alloc Word := do
  if data.getD 0 0 = zap then throw .assertion
  else
    let i ← push grant k data
    return pointer k i (← get).heap.era

/-- `catch (...)`; an assertion that fails ends the process. -/
def undoing (undo : Heap → Heap) (m : Alloc Word) : Alloc Word := fun s =>
  match m s with
  | .ok x s' => .ok x s'
  | .error e s' => .error e (if e = .assertion then s' else { s' with heap := undo s'.heap })

/-- The pool after `append`; a slice of the pool itself is copied from its offset. -/
def append {α : Type} (pool data : List α) : Alloc (List α) := do
  if data.isEmpty then pure pool
  else
    match poolSize pool.length data.length with
    | .error e => throw e
    | .ok _ =>
      ask grant
      pure (pool ++ data)

def newv08 (data : List UInt8) : Alloc Word := do
  let s ← get
  let start := s.heap.bytes.length
  let bytes ← append grant s.heap.bytes data
  modify fun s => { s with heap := { s.heap with bytes } }
  undoing (fun h => { h with bytes := h.bytes.take start })
    (make grant .v08 [UInt32.ofNat start, UInt32.ofNat data.length])

/-- The row of a payload that has been appended from `start` on. -/
def wordsRow (k : Kind) (start length : Nat) : Alloc Word :=
  undoing (fun h => { h with words := h.words.take start })
    (make grant k [UInt32.ofNat start, UInt32.ofNat length])

def newWords (k : Kind) (data : List Word) : Alloc Word := do
  let s ← get
  let words ← append grant s.heap.words data
  modify fun s => { s with heap := { s.heap with words } }
  wordsRow grant k s.heap.words.length data.length

def filledv32 (length : Nat) (value : Word) : Alloc Word := do
  let s ← get
  match poolSize s.heap.words.length length with
  | .error e => throw e
  | .ok _ =>
    ask grant
    modify fun t => { t with heap := { t.heap with
      words := s.heap.words ++ replicate length value } }
    wordsRow grant .v32 s.heap.words.length length

end Requests

/-- The entry points; `newv32` is `newWords` and `cons` is `make`. -/
inductive Request where
  | make (k : Kind) (data : Row)
  | newv08 (data : List UInt8)
  | newWords (k : Kind) (data : List Word)
  | filledv32 (length : Nat) (value : Word)
  | clonev32 (x : Word)
  | copy (k : Kind) (x : Word)

def Request.run (grant : Nat → Bool) : Request → Alloc Word
  | .make k data => Storage.make grant k data
  | .newv08 data => Storage.newv08 grant data
  | .newWords k data => Storage.newWords grant k data
  | .filledv32 length value => Storage.filledv32 grant length value
  | .clonev32 x => do Storage.newWords grant .v32 ((← get).heap.v32slice x)
  | .copy k x => do Storage.make grant k ((← get).heap.read k x)

def Request.made (h : Heap) : Request → Except HostError (Word × Heap)
  | .make k data => h.make k data
  | .newv08 data => h.newv08 data
  | .newWords k data => h.newWords k data
  | .filledv32 length value => h.filledv32 length value
  | .clonev32 x => h.clonev32 x
  | .copy k x => h.copy k x

def Request.kind : Request → Kind
  | .make k _ => k
  | .newv08 _ => .v08
  | .newWords k _ => k
  | .filledv32 _ _ => .v32
  | .clonev32 _ => .v32
  | .copy k _ => k

/-- The rows have room, and no table can outgrow the indices. -/
structure Roomy (s : Storage) : Prop where
  rows : ∀ k, (s.heap.table k).length ≤ s.capacity k
  limit : ∀ k, s.capacity k ≤ maxIndex + 1

section Refine
variable {grant : Nat → Bool} {s t : Storage} {k : Kind} {data : Row}

def Idle (s t : Storage) : Prop := t.heap = s.heap ∧ t.capacity = s.capacity

theorem ask_idle (idle : Idle s t) : wp (ask grant) (fun _ => Idle s) (fun _ => Idle s) t := by
  simp only [ask, wp_bind, wp_get, wp_set, wp_ite, wp_pure, wp_throw]
  exact ⟨fun _ => idle, fun _ => idle⟩

theorem racks_idle (n : Nat) (idle : Idle s t) : wp (racks grant n) (fun _ => Idle s) (fun _ => Idle s) t := by
  induction n generalizing t with
  | zero => exact idle
  | succ n ih =>
    rw [racks, wp_bind]
    exact wp_mono (ask_idle idle) (fun _ _ idle => ih idle) fun _ _ idle => idle

theorem Roomy.idle (roomy : Roomy s) (idle : Idle s t) : Roomy t := by
  obtain ⟨heap, capacity⟩ := idle
  exact ⟨by rw [heap, capacity]; exact roomy.rows, by rw [capacity]; exact roomy.limit⟩

theorem reserve_more (roomy : Roomy s) {n : Nat} (more : (s.heap.table k).length < n) : wp (reserve grant k n)
      (fun _ t => Roomy t ∧ t.heap = s.heap ∧ (s.heap.table k).length < t.capacity k)
      (fun _ t => Roomy t ∧ t.heap = s.heap) s := by
  simp only [reserve, wp_ite, wp_throw, wp_bind, wp_get, wp_pure, wp_modify]
  refine ⟨fun _ => ⟨roomy, trivial⟩, fun small =>
    ⟨fun enough => ⟨roomy, trivial, by omega⟩, fun _ => ?_⟩⟩
  refine wp_mono (racks_idle (width k) ⟨rfl, rfl⟩) (fun _ t idle => ?_)
    fun _ t idle => ⟨roomy.idle idle, idle.1⟩
  obtain ⟨heap, capacity⟩ := idle
  refine ⟨⟨fun l => ?_, fun l => ?_⟩, heap, by simpa using more⟩
  · rw [heap]
    dsimp only
    split
    · rename_i same
      rw [same]
      exact more.le
    · rw [capacity]
      exact roomy.rows l
  · dsimp only
    split
    · omega
    · rw [capacity]
      exact roomy.limit l

theorem push_run (roomy : Roomy s) : wp (push grant k data)
      (fun i t => Roomy t ∧ i = (s.heap.table k).length ∧ i ≤ maxIndex ∧
        t.heap = s.heap.setTable k (s.heap.table k ++ [data])) (fun _ t => Roomy t ∧ t.heap = s.heap) s := by
  have pushed {t : Storage} (roomy : Roomy t) (same : t.heap = s.heap)
      (room : (s.heap.table k).length < t.capacity k) :
      Roomy { t with heap := t.heap.setTable k (t.heap.table k ++ [data]) } ∧
        (s.heap.table k).length ≤ maxIndex ∧
        t.heap.setTable k (t.heap.table k ++ [data]) =
          s.heap.setTable k (s.heap.table k ++ [data]) := by
    have limit := roomy.limit k
    refine ⟨⟨fun l => ?_, roomy.limit⟩, by omega, by rw [same]⟩
    rw [table_setTable]
    split
    · rename_i here
      rw [here, length_append, same]
      exact room
    · exact roomy.rows l
  simp only [push, wp_bind, wp_get, wp_ite, wp_throw, wp_modify, wp_pure]
  refine ⟨fun full => ⟨fun _ => ⟨roomy, trivial⟩, fun small => ?_⟩, fun room => ?_⟩
  · have limit := roomy.limit k
    have larger : (s.heap.table k).length <
        min (maxIndex + 1) (if s.capacity k = 0 then 8 else s.capacity k * 2) := by
      split <;> omega
    refine wp_mono (reserve_more roomy larger) (fun _ t grown => ?_) fun _ _ failed => failed
    obtain ⟨roomy', same, room⟩ := grown
    obtain ⟨roomy'', index, heap⟩ := pushed roomy' same room
    exact ⟨roomy'', trivial, index, heap⟩
  · have rows := roomy.rows k
    obtain ⟨roomy', index, -⟩ := pushed roomy rfl (by omega)
    exact ⟨roomy', trivial, index, trivial⟩

theorem make_run (roomy : Roomy s) : wp (make grant k data) (fun x t => Roomy t ∧ s.heap.make k data = .ok (x, t.heap))
      (fun _ t => Roomy t ∧ t.heap = s.heap) s := by
  simp only [make, wp_ite, wp_throw, wp_bind, wp_get, wp_pure]
  refine ⟨fun _ => ⟨roomy, trivial⟩, fun unmarked => ?_⟩
  refine wp_mono (push_run roomy) (fun i t pushed => ?_) fun _ _ failed => failed
  obtain ⟨roomy', rfl, index, heap⟩ := pushed
  refine ⟨roomy', ?_⟩
  simp only [Heap.make]
  rw [if_neg unmarked, if_neg (by omega), heap]
  rfl

theorem undoing_run {undo : Heap → Heap} {m : Alloc Word} {Q : Word → Storage → Prop}
    {h : Heap} (run : wp m Q (fun _ t => Roomy t ∧ t.heap = s.heap) s) (undone : undo s.heap = h)
    (rows : ∀ k, h.table k = s.heap.table k) :
    wp (undoing undo m) Q (fun e t => Roomy t ∧ (e ≠ .assertion → t.heap = h)) s := by
  unfold wp at run ⊢
  unfold undoing
  cases result : m s with
  | ok x t =>
    rw [result] at run
    exact run
  | error e t =>
    rw [result] at run
    obtain ⟨roomy, same⟩ := run
    by_cases broken : e = .assertion
    · simp only [if_pos broken]
      exact ⟨roomy, fun other => absurd broken other⟩
    · simp only [if_neg broken, same, undone]
      refine ⟨⟨fun k => ?_, roomy.limit⟩, fun _ => trivial⟩
      have fits := roomy.rows k
      rw [same] at fits
      rw [rows]
      exact fits

theorem append_run {α : Type} (pool added : List α) : wp (append grant pool added)
      (fun grown t => Idle s t ∧ grown = pool ++ added ∧
        (added = [] ∨ ∃ n, poolSize pool.length added.length = .ok n)) (fun _ t => Idle s t) s := by
  simp only [append, wp_ite, wp_pure, List.isEmpty_iff]
  refine ⟨fun none => ⟨⟨rfl, rfl⟩, by rw [none, append_nil], Or.inl none⟩, fun _ => ?_⟩
  cases size : poolSize pool.length added.length with
  | error e => exact ⟨rfl, rfl⟩
  | ok n =>
    simp only [wp_bind, wp_pure]
    exact wp_mono (ask_idle ⟨rfl, rfl⟩) (fun _ t idle => ⟨idle, trivial, Or.inr ⟨n, rfl⟩⟩)
      fun _ _ idle => idle

theorem newv08_eq {h : Heap} {data : List UInt8}
    (fits : data = [] ∨ ∃ n, poolSize h.bytes.length data.length = .ok n) :
    h.newv08 data = ({ h with bytes := h.bytes ++ data } : Heap).make .v08
      [UInt32.ofNat h.bytes.length, UInt32.ofNat data.length] := by
  rcases fits with rfl | ⟨n, size⟩
  · rfl
  · simp only [Heap.newv08, size]
    split <;> rfl

theorem newWords_eq {h : Heap} {data : List Word}
    (fits : data = [] ∨ ∃ n, poolSize h.words.length data.length = .ok n) :
    h.newWords k data = ({ h with words := h.words ++ data } : Heap).make k
      [UInt32.ofNat h.words.length, UInt32.ofNat data.length] := by
  rcases fits with rfl | ⟨n, size⟩
  · rfl
  · simp only [Heap.newWords, size]
    split <;> rfl

theorem newv08_run (roomy : Roomy s) (data : List UInt8) :
    wp (newv08 grant data) (fun x t => Roomy t ∧ s.heap.newv08 data = .ok (x, t.heap))
      (fun e t => Roomy t ∧ (e ≠ .assertion → t.heap = s.heap)) s := by
  simp only [newv08, wp_bind, wp_get, wp_modify]
  refine wp_mono (append_run _ data) (fun bytes t appended => ?_)
    fun _ _ idle => ⟨roomy.idle idle, fun _ => idle.1⟩
  obtain ⟨idle, rfl, fits⟩ := appended
  obtain ⟨rows, limit⟩ := roomy.idle idle
  rw [newv08_eq fits, ← idle.1]
  exact undoing_run (make_run ⟨rows, limit⟩) (by simp) fun _ => rfl

theorem wordsRow_run (roomy : Roomy s) (idle : Idle s t) (added : List Word) (length : Nat) :
    wp (wordsRow grant k s.heap.words.length length)
      (fun x u => Roomy u ∧ ({ s.heap with words := s.heap.words ++ added } : Heap).make k
        [UInt32.ofNat s.heap.words.length, UInt32.ofNat length] = .ok (x, u.heap))
      (fun e u => Roomy u ∧ (e ≠ .assertion → u.heap = s.heap))
      { t with heap := { t.heap with words := s.heap.words ++ added } } := by
  obtain ⟨rows, limit⟩ := roomy.idle idle
  rw [← idle.1]
  exact undoing_run (make_run ⟨rows, limit⟩) (by simp) fun _ => rfl

theorem newWords_run (roomy : Roomy s) (data : List Word) :
    wp (newWords grant k data) (fun x t => Roomy t ∧ s.heap.newWords k data = .ok (x, t.heap))
      (fun e t => Roomy t ∧ (e ≠ .assertion → t.heap = s.heap)) s := by
  simp only [newWords, wp_bind, wp_get, wp_modify]
  refine wp_mono (append_run _ data) (fun words t appended => ?_)
    fun _ _ idle => ⟨roomy.idle idle, fun _ => idle.1⟩
  obtain ⟨idle, rfl, fits⟩ := appended
  rw [newWords_eq fits]
  exact wordsRow_run roomy idle data data.length

theorem filledv32_run (roomy : Roomy s) (length : Nat) (value : Word) : wp (filledv32 grant length value)
      (fun x t => Roomy t ∧ s.heap.filledv32 length value = .ok (x, t.heap))
      (fun e t => Roomy t ∧ (e ≠ .assertion → t.heap = s.heap)) s := by
  simp only [filledv32, Heap.filledv32, wp_bind, wp_get]
  cases size : poolSize s.heap.words.length length with
  | error e => exact ⟨roomy, fun _ => rfl⟩
  | ok n =>
    simp only [wp_bind, wp_modify]
    refine wp_mono (ask_idle ⟨rfl, rfl⟩) (fun _ t idle => ?_)
      fun _ _ idle => ⟨roomy.idle idle, fun _ => idle.1⟩
    exact wordsRow_run roomy idle (replicate length value) length

/-- Whatever the allocator grants, a request does what the operation of the heap does, or leaves
    the heap as it was. -/
theorem run_made (roomy : Roomy s) (r : Request) :
    wp (r.run grant) (fun x t => Roomy t ∧ r.made s.heap = .ok (x, t.heap))
      (fun e t => Roomy t ∧ (e ≠ .assertion → t.heap = s.heap)) s := by
  have row (k : Kind) (data : Row) := wp_mono (@make_run grant s k data roomy)
    (fun _ _ made => made) fun e t failed => (⟨failed.1, fun _ => failed.2⟩ :
      Roomy t ∧ (e ≠ .assertion → t.heap = s.heap))
  cases r with
  | make k data => exact row k data
  | newv08 data => exact newv08_run roomy data
  | newWords k data => exact newWords_run roomy data
  | filledv32 length value => exact filledv32_run roomy length value
  | clonev32 x => exact newWords_run roomy (s.heap.v32slice x)
  | copy k x => exact row k (s.heap.read k x)

end Refine
def Inside (h : Heap) (k : Kind) (data : Row) : Prop :=
  (wordPayload k = true → (data.getD 0 0).toNat + (data.getD 1 0).toNat ≤ h.words.length) ∧
  (k = .v08 → (data.getD 0 0).toNat + (data.getD 1 0).toNat ≤ h.bytes.length)

/-- The row invariant of a heap. -/
structure Rows (h : Heap) : Prop where
  unmarked : ∀ k, ∀ data ∈ h.table k, data.getD 0 0 ≠ zap
  inside : ∀ k, ∀ data ∈ h.table k, Inside h k data
  words : h.words.length ≤ maxWord
  bytes : h.bytes.length ≤ maxWord

/-- What a request owes: a descriptor inside its pool, a kind with words, a row that is there. -/
def Request.Allowed (h : Heap) : Request → Prop
  | .make k data => Inside h k data
  | .newv08 _ => True
  | .newWords k _ => wordPayload k = true
  | .filledv32 _ _ => True
  | .clonev32 x => h.Points .v32 x
  | .copy k x => h.Points k x

/-- The heap after an allocation: the row `x` is new, and nothing that was there has changed. -/
structure Grown (h g : Heap) (k : Kind) (x : Word) : Prop where
  points : tagOf x = k.tag ∧ eraOf x = g.era ∧ indexOf x = (h.table k).length
  unmarked : (g.read k x).getD 0 0 ≠ zap
  inside : Inside g k (g.read k x)
  tables : ∀ l, h.table l <+: g.table l
  words : h.words <+: g.words
  bytes : h.bytes <+: g.bytes

section Made
variable {h g : Heap} {k : Kind} {data : Row} {x : Word}

theorem inside_longer (inside : Inside h k data) (words : h.words <+: g.words)
    (bytes : h.bytes <+: g.bytes) : Inside g k data :=
  ⟨fun payload => (inside.1 payload).trans words.length_le, fun text => (inside.2 text).trans bytes.length_le⟩

theorem make_rows (rows : Rows h) (inside : Inside h k data) (made : h.make k data = .ok (x, g)) :
    Rows g ∧ Grown h g k x := by
  have read := make_read made
  obtain ⟨unmarked, room, rfl, rfl⟩ := make_ok made
  have held {l : Kind} {row : Row} (row_in : row ∈ (h.setTable k (h.table k ++ [data])).table l) :
      row ∈ h.table l ∨ l = k ∧ row = data := by
    rw [table_setTable] at row_in
    split at row_in
    · rename_i same
      subst same
      rcases mem_append.mp row_in with before | last
      · exact Or.inl before
      · exact Or.inr ⟨rfl, mem_singleton.mp last⟩
    · exact Or.inl row_in
  refine ⟨⟨fun l row row_in => ?_, fun l row row_in => ?_, rows.words, rows.bytes⟩,
    ⟨tagOf_pointer k _ room, eraOf_pointer k _ room, indexOf_pointer k _ room⟩, ?_, ?_, fun l => ?_,
    prefix_rfl, prefix_rfl⟩
  · rcases held row_in with before | ⟨-, rfl⟩
    · exact rows.unmarked l row before
    · exact unmarked
  · rcases held row_in with before | ⟨rfl, rfl⟩
    · exact rows.inside l row before
    · exact inside
  · rw [read]
    exact unmarked
  · rw [read]
    exact inside
  · rw [table_setTable]
    split
    · rename_i same
      rw [same]
      exact prefix_append _ _
    · exact prefix_rfl

theorem appended_rows {h' : Heap} (rows : Rows h) (made : h'.make k data = .ok (x, g))
    (same : ∀ l, h'.table l = h.table l) (words : h.words <+: h'.words) (bytes : h.bytes <+: h'.bytes)
    (pooled : h'.words.length ≤ maxWord) (pooled' : h'.bytes.length ≤ maxWord)
    (inside : Inside h' k data) : Rows g ∧ Grown h g k x := by
  obtain ⟨after, grown⟩ := make_rows ⟨fun l row held => rows.unmarked l row (same l ▸ held),
    fun l row held => inside_longer (rows.inside l row (same l ▸ held)) words bytes, pooled, pooled'⟩
    inside made
  obtain ⟨points, unmarked, inside, tables, grownWords, grownBytes⟩ := grown
  exact ⟨after, same k ▸ points, unmarked, inside, fun l => same l ▸ tables l,
    words.trans grownWords, bytes.trans grownBytes⟩

theorem fits_pool {α : Type} {pool added : List α} (before : pool.length ≤ maxWord)
    (fits : Fits pool.length added.length) : (pool ++ added).length ≤ maxWord := by
  rw [length_append]
  rcases fits with none | room <;> omega

theorem descriptor_le {α : Type} (pool added : List α) :
    (UInt32.ofNat pool.length).toNat + (UInt32.ofNat added.length).toNat ≤ (pool ++ added).length := by
  rw [UInt32.toNat_ofNat', UInt32.toNat_ofNat', length_append]
  exact Nat.add_le_add (Nat.mod_le _ _) (Nat.mod_le _ _)

theorem words_rows (rows : Rows h) {added : List Word} (fits : Fits h.words.length added.length)
    (payload : wordPayload k = true)
    (made : ({ h with words := h.words ++ added } : Heap).make k
      [UInt32.ofNat h.words.length, UInt32.ofNat added.length] = .ok (x, g)) :
    Rows g ∧ Grown h g k x :=
  appended_rows rows made (fun _ => rfl) (prefix_append _ _) prefix_rfl
    (fits_pool rows.words fits) rows.bytes
    ⟨fun _ => descriptor_le h.words added, fun text => by rw [text] at payload; cases payload⟩

theorem made_rows (rows : Rows h) {r : Request} (allowed : r.Allowed h)
    (made : r.made h = .ok (x, g)) : Rows g ∧ Grown h g r.kind x := by
  cases r with
  | make k data => exact make_rows rows allowed made
  | newv08 data =>
    exact appended_rows rows (newv08_ok made) (fun _ => rfl) prefix_rfl
      (prefix_append _ _) rows.words (fits_pool rows.bytes (newv08_fits made))
      ⟨nofun, fun _ => descriptor_le h.bytes data⟩
  | newWords k data =>
    obtain ⟨fits, row⟩ := newWords_ok made
    exact words_rows rows fits allowed row
  | filledv32 length value =>
    obtain ⟨fits, row⟩ := filledv32_ok made
    exact words_rows rows fits rfl row
  | clonev32 y =>
    obtain ⟨fits, row⟩ := newWords_ok made
    exact words_rows rows fits rfl row
  | copy k y => exact make_rows rows (rows.inside k _ (mem_of_getD (points_live allowed))) made

end Made

/-- Whatever the allocator grants: an allocation that succeeds adds a row, and its slice, to a
    heap that keeps the row invariant, and one that throws leaves the heap as it was. -/
theorem allocation_rows (grant : Nat → Bool) {s : Storage} (roomy : Roomy s) (rows : Rows s.heap) {r : Request}
    (allowed : r.Allowed s.heap) : wp (r.run grant) (fun x t => Roomy t ∧ Rows t.heap ∧ Grown s.heap t.heap r.kind x)
    (fun e t => Roomy t ∧ (e ≠ .assertion → t.heap = s.heap)) s := by
  refine wp_mono (run_made roomy r) (fun x t made => ?_) fun _ _ failed => failed
  obtain ⟨roomy', made⟩ := made
  exact ⟨roomy', made_rows rows allowed made⟩

def oneVector : Storage where
  heap := { vat := { v32 := [[0, 2]] }, words := [nil, t] }
  capacity k := (({ v32 := [[0, 2]] } : Vat).get k).length

theorem allocation_rows_clone : wp (Request.run (fun n => n = 0) (.clonev32 (pointer .v32 0 false)))
      (fun x u => Roomy u ∧ Rows u.heap ∧ Grown oneVector.heap u.heap .v32 x)
      (fun e u => Roomy u ∧ (e ≠ .assertion → u.heap = oneVector.heap)) oneVector := by
  have row {k : Kind} {data : Row} (held : data ∈ oneVector.heap.table k) : k = .v32 ∧ data = [0, 2] := by
    cases k <;> simp_all [oneVector, Heap.table, Vat.get]
  apply allocation_rows (fun n => n = 0) (s := oneVector) (r := .clonev32 (pointer .v32 0 false))
  · exact ⟨fun k => le_rfl, fun k => by cases k <;> decide⟩
  · refine ⟨fun k data held => ?_, fun k data held => ?_, by decide, by decide⟩ <;>
      obtain ⟨rfl, rfl⟩ := row held
    · decide
    · exact ⟨by decide, nofun⟩
  · exact ⟨by decide, by decide⟩

end Storage
end Nxt.Wisp
