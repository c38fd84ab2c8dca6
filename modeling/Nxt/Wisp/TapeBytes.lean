import Nxt.Wisp.Tape

/- Reading back what the encoder wrote, section by section. -/
namespace Nxt.Wisp
open Nxt.Lib List

/-- The representation: rows as wide as their schema, tables no longer than an index can address,
pins in the order of their ids. -/
structure Heap.Shaped (h : Heap) : Prop where
  width : ∀ k, ∀ data ∈ h.table k, data.length = width k
  rows : ∀ k, (h.table k).length ≤ maxIndex + 1
  pins : (h.pins.map Prod.fst).Pairwise (· < ·)

structure Machine.Counted (m : Machine) : Prop where
  nextPin : m.heap.nextPin < 2 ^ 32
  nextKey : m.nextKey < 2 ^ 64
  pins : ∀ pin ∈ m.heap.pins, pin.1 < 2 ^ 32

section Primitives
variable {β : Type} {ws : List (Writer TapeError)} {b : β}

theorem take_append (data rest : Bytes) : take data.length (data ++ rest) = .ok (data, rest) := by
  have fits : data.length ≤ (data ++ rest).length := by
    rw [length_append]
    exact Nat.le_add_right _ _
  rw [take, if_pos fits, take_left, drop_left]

theorem codes_raw (data : Bytes) : Codes (raw data) (take data.length) data := by
  intro bytes written rest
  cases written
  exact take_append data rest

theorem codes_u32 (x : Word) : Codes (u32 x) readU32 x := by
  intro bytes written rest
  cases written
  have four : take 4 (u32le x ++ rest) = .ok (u32le x, rest) := take_append (u32le x) rest
  have step : readU32 (u32le x ++ rest) =
      (take 4 (u32le x ++ rest) >>= fun p => .ok (ofU32le p.1, p.2)) := rfl
  rw [step, four]
  exact congrArg (fun y => Except.ok (y, rest)) (ofU32le_u32le x)

theorem count_ok {n : Nat} {bytes : Bytes} (written : count n = .ok bytes) :
    n ≤ maxWord ∧ bytes = u32le (UInt32.ofNat n) := by
  unfold count demand at written
  split at written
  · rename_i fits
    cases written
    exact ⟨of_decide_eq_true fits, rfl⟩
  · cases written

theorem toNat_count {n : Nat} (fits : n ≤ maxWord) : (UInt32.ofNat n).toNat = n := by
  have bound : maxWord < 2 ^ 32 := by decide
  rw [UInt32.toNat_ofNat']
  exact Nat.mod_eq_of_lt (Nat.lt_of_le_of_lt fits bound)

theorem codes_count {n : Nat} {f : Word → Reader TapeError β}
    (next : n ≤ maxWord → ∀ x : Word, x.toNat = n → Codes (joined ws) (f x) b) :
    Codes (joined (count n :: ws)) (readU32 >>= f) b := by
  intro bytes written
  obtain ⟨xs, head, written⟩ := bind_ok written
  obtain ⟨ys, tail, written⟩ := bind_ok written
  cases written
  obtain ⟨fits, rfl⟩ := count_ok head
  exact parses_bind (codes_u32 _ _ rfl) (next fits _ (toNat_count fits) ys tail)

theorem codes_text (value : Bytes) : Codes (text value) readText value := by
  apply codes_count
  intro fits x size
  rw [size]
  exact codes_last (codes_raw value)

theorem codes_expect {w : Writer TapeError} {good : Bool} {message : String} {f : Unit → Reader TapeError β}
    (holds : good = true) (next : Codes w (f ()) b) : Codes w (expect good message >>= f) b := by
  apply codes_check _ next
  intro s
  rw [expect, if_pos holds]

theorem codes_flag (value : Bool) : Codes (flag value) readFlag value := by
  have small : (UInt32.ofNat value.toNat).toNat ≤ 1 := by cases value <;> decide
  have back : decide (UInt32.ofNat value.toNat ≠ 0) = value := by cases value <;> decide
  apply codes_congr (v := joined [u32 (UInt32.ofNat value.toNat)]) rfl back
  apply codes_bind (codes_u32 _)
  apply codes_expect (decide_eq_true small)
  exact codes_pure _

end Primitives

section Sections
variable (m : Machine) (entry : Word)

/-- What the header of a tape restores. -/
def Machine.header (m : Machine) : Machine where
  heap := { era := m.heap.era, nextPin := m.heap.nextPin }
  nextKey := m.nextKey
  collectRequested := m.collectRequested

theorem codes_header (counted : m.Counted) : Codes (writeHeader m entry) readHeader { machine := m.header, entry } := by
  have pin : (UInt32.ofNat m.heap.nextPin).toNat = m.heap.nextPin := by
    rw [UInt32.toNat_ofNat']
    exact Nat.mod_eq_of_lt counted.nextPin
  have key : (UInt32.ofNat m.nextKey).toNat + (UInt32.ofNat (m.nextKey / 2 ^ 32)).toNat * 2 ^ 32 =
      m.nextKey := by
    have bound := counted.nextKey
    rw [UInt32.toNat_ofNat', UInt32.toNat_ofNat']
    omega
  apply codes_bind (codes_raw magic)
  apply codes_expect (decide_eq_true rfl)
  apply codes_bind (codes_u32 _)
  apply codes_expect (decide_eq_true rfl)
  apply codes_bind (codes_flag _)
  apply codes_bind (codes_u32 _)
  apply codes_bind (codes_u32 _)
  apply codes_bind (codes_u32 _)
  apply codes_bind (codes_flag _)
  apply codes_bind (codes_u32 _)
  rw [pin, key]
  exact codes_pure _

theorem find_root : ∀ r ∈ roots, roots.find? (fun s => ascii s.name = ascii r.name) = some r := by
  decide +kernel

theorem roots_nodup : roots.Nodup := by decide +kernel

def Machine.setRoots (m m₀ : Machine) (rs : List SavedRoot) : Machine :=
  rs.foldl (fun n r => n.setRoot (m.root r) r) m₀

theorem codes_root (m₀ : Machine) {before after : List SavedRoot} {r : SavedRoot}
    (split : roots = before ++ r :: after) : Codes (writeRoot m r) (readRoot (before.reverse, m.setRoots m₀ before))
      ((before ++ [r]).reverse, m.setRoots m₀ (before ++ [r])) := by
  have held : r ∈ roots := by
    rw [split]
    exact mem_append_right _ mem_cons_self
  have unseen : r ∉ before.reverse := by
    intro seen
    have nodup := roots_nodup
    rw [split] at nodup
    have apart := disjoint_of_nodup_append nodup
    exact apart (mem_reverse.mp seen) mem_cons_self
  apply codes_bind (codes_text _)
  simp only [find_root r held]
  apply codes_expect (decide_eq_true unseen)
  apply codes_bind (codes_u32 _)
  simp only [Machine.setRoots, foldl_append, reverse_append]
  exact codes_pure _

theorem codes_roots (m₀ : Machine) : Codes (writeRoots m) (readRoots m₀) (m.setRoots m₀ roots) := by
  apply codes_count
  intro _ x size
  apply codes_expect (decide_eq_true size)
  have whole := codes_loop (fun before => (before.reverse, m.setRoots m₀ before))
    (fun before r after split => codes_root m m₀ split)
  exact codes_map Prod.snd (codes_last whole)

theorem find_jet {before after : List Builtin} {b : Builtin} (split : Builtin.all = before ++ b :: after) :
    Builtin.all.findIdx? (fun c => c.bytes = b.bytes) = some before.length := by
  have nodup := Builtin.nodup_bytes
  rw [split, map_append, map_cons] at nodup
  have apart := disjoint_of_nodup_append nodup
  rw [split, findIdx?_append]
  have none : before.findIdx? (fun c => c.bytes = b.bytes) = none := by
    rw [findIdx?_eq_none_iff]
    intro c held
    simp only [decide_eq_false_iff_not]
    intro same
    exact apart (mem_map_of_mem held) (by rw [same]; exact mem_cons_self)
  rw [none]
  simp [findIdx?_cons]

theorem codes_jet {before after : List Builtin} {b : Builtin} (split : Builtin.all = before ++ b :: after) :
    Codes (writeJet b) (readJet (range before.length)) (range (before ++ [b]).length) := by
  have here : Builtin.all[before.length]? = some b := by
    rw [split]
    simp
  apply codes_bind (codes_text _)
  apply codes_bind (codes_flag _)
  simp only [find_jet split]
  apply codes_expect (by rw [here]; exact decide_eq_true rfl)
  apply codes_expect (by simp)
  rw [length_append, length_singleton, range_succ]
  exact codes_pure _

theorem codes_jets : Codes writeJets readJets (range Builtin.all.length) := by
  apply codes_count
  intro _ x size
  apply codes_expect (decide_eq_true size.le)
  rw [size]
  exact codes_last (codes_loop (fun before : List Builtin => range before.length)
    fun before b after split => codes_jet split)

theorem codes_code : Codes writeCode readCode () := by
  apply codes_bind (codes_u32 _)
  apply codes_expect (by decide)
  apply codes_count
  intro _ x size
  apply codes_expect (decide_eq_true size)
  apply codes_last
  apply codes_each
  intro operation held
  apply codes_bind (codes_text _)
  apply codes_expect (decide_eq_true rfl)
  apply codes_bind (codes_u32 _)
  apply codes_expect (decide_eq_true rfl)
  apply codes_count
  intro _ y arity
  apply codes_expect (decide_eq_true arity)
  apply codes_last
  apply codes_each
  intro kind _
  apply codes_then (codes_text _)
  intro s
  rw [expect, if_pos (decide_eq_true rfl)]

theorem codes_words (xs : List Word) : Codes (joined (xs.map u32)) (loop readWord xs.length []) xs := by
  apply codes_loop (fun before => before)
  intro before x after split
  exact codes_map (fun y => before ++ [y]) (codes_u32 x)

theorem written_words {xs : List Word} {bytes : Bytes} (written : joined (xs.map u32) = .ok bytes) :
    bytes.length = 4 * xs.length := by
  induction xs generalizing bytes with
  | nil =>
    cases written
    rfl
  | cons x rest ih =>
    obtain ⟨first, head, written⟩ := bind_ok written
    obtain ⟨later, tail, written⟩ := bind_ok written
    cases written
    cases head
    have size := ih tail
    simp only [u32le, length_append, length_cons, length_nil, size]
    omega

theorem codes_pools (h h₀ : Heap) :
    Codes (writePools h) (readPools h₀) { h₀ with bytes := h.bytes, words := h.words } := by
  apply codes_count
  intro _ x size
  rw [size]
  apply codes_bind (codes_raw h.bytes)
  apply codes_count
  intro _ y length
  apply codes_leftover
  intro bytes left written long
  have room := written_words (joined_single written)
  apply codes_expect (decide_eq_true (by omega))
  rw [length]
  exact codes_bind (codes_words h.words) (codes_pure _)

variable {c : Nat} {col : Column} {w : Nat} {rows : Table}

theorem find_column (k : Kind) (here : (schema k)[c]? = some col) :
    (schema k).findIdx? (fun other => ascii other.name = ascii col.name) = some c := by
  have all : ∀ c < width k, ∀ col, (schema k)[c]? = some col →
      (schema k).findIdx? (fun other => ascii other.name = ascii col.name) = some c := by
    cases k <;> decide +kernel
  have inside : c < width k := by
    obtain ⟨bound, -⟩ := List.getElem?_eq_some_iff.mp here
    exact bound
  exact all c inside col here

theorem codes_column (k : Kind) {before after : List Column} (split : schema k = before ++ col :: after) :
    Codes (writeColumn col) (readColumn k (range before.length)) (range (before ++ [col]).length) := by
  have here : (schema k)[before.length]? = some col := by
    rw [split]
    simp
  apply codes_bind (codes_text _)
  apply codes_bind (codes_text _)
  simp only [find_column k here]
  apply codes_expect (by rw [here]; exact decide_eq_true rfl)
  apply codes_expect (by simp)
  rw [length_append, length_singleton, range_succ]
  exact codes_pure _

def filled (w : Nat) (rows : Table) (c : Nat) : Table :=
  rows.map fun data => data.take c ++ replicate (w - c) 0

theorem filled_none (w : Nat) (rows : Table) : filled w rows 0 = replicate rows.length (replicate w 0) := by
  simp only [filled, take_zero, nil_append, Nat.sub_zero]
  exact map_const'

theorem filled_all (shape : ∀ data ∈ rows, data.length = w) : filled w rows w = rows := by
  have same : ∀ data ∈ rows, data.take w ++ replicate (w - w) 0 = data := by
    intro data held
    simp [← shape data held]
  simpa [filled] using map_congr_left same

theorem set_filled {data : Row} (shape : data.length = w) (inside : c < w) :
    (data.take c ++ replicate (w - c) 0).set c (data.getD c 0) = data.take (c + 1) ++ replicate (w - (c + 1)) 0 := by
  have here : c < data.length := by omega
  have size : (data.take c).length = c := by
    rw [length_take]
    omega
  have blank : replicate (w - c) (0 : Word) = 0 :: replicate (w - (c + 1)) 0 := by
    rw [show w - c = w - (c + 1) + 1 by omega, replicate_succ]
  rw [set_append_right _ _ (by omega), size, Nat.sub_self, blank, set_cons_zero,
    getD_eq_getElem?_getD, getElem?_eq_getElem here, take_succ_eq_append_getElem here, append_assoc]
  rfl

theorem setCells_filled (shape : ∀ data ∈ rows, data.length = w) (inside : c < w) :
    setCells (filled w rows c) c (rows.map fun data => data.getD c 0) = filled w rows (c + 1) := by
  simp only [setCells, filled, zipWith_map, zipWith_self]
  apply map_congr_left
  intro data held
  exact set_filled (shape data held) inside

theorem codes_cells (shape : ∀ data ∈ rows, data.length = w) (n : Nat) (split : c + n = w) :
    Codes (joined ((List.range' c n).map (writeCells rows))) (readCells (List.range' c n) (filled w rows c)) rows := by
  induction n generalizing c with
  | zero =>
    have whole : filled w rows c = rows := by
      rw [show c = w by omega]
      exact filled_all shape
    rw [whole]
    exact codes_pure rows
  | succ n ih =>
    have column : Codes (writeCells rows c) (loop readWord (filled w rows c).length [])
        (rows.map fun data => data.getD c 0) := by
      have words := codes_words (rows.map fun data => data.getD c 0)
      rw [map_map, length_map] at words
      rw [filled, length_map]
      exact words
    have later := ih (show c + 1 + n = w by omega)
    rw [← setCells_filled shape (by omega)] at later
    exact codes_bind column later

theorem written_cells {bytes : Bytes} {columns : List Nat}
    (written : joined (columns.map (writeCells rows)) = .ok bytes) :
    bytes.length = 4 * rows.length * columns.length := by
  induction columns generalizing bytes with
  | nil =>
    cases written
    rfl
  | cons c rest ih =>
    obtain ⟨first, head, written⟩ := bind_ok written
    obtain ⟨later, tail, written⟩ := bind_ok written
    cases written
    have cells : joined ((rows.map fun data => data.getD c 0).map u32) = .ok first := by
      rw [map_map]
      exact head
    have size := written_words cells
    rw [length_map] at size
    rw [length_append, size, ih tail, length_cons]
    ring

theorem codes_table (h : Heap) (shaped : h.Shaped) (k : Kind) (portable : (h.table .ext).length = 0) :
    Codes (joined [count (h.table k).length, count (width k), joined ((schema k).map writeColumn),
        joined ((range (width k)).map (writeCells (h.table k)))]) (readTable k) (h.table k) := by
  apply codes_count
  intro _ x size
  rw [size]
  apply codes_expect (decide_eq_true (shaped.rows k))
  have empty : k = .ext → (h.table k).length = 0 := by
    intro same
    rw [same]
    exact portable
  apply codes_expect (decide_eq_true empty)
  apply codes_count
  intro _ y columns
  apply codes_expect (decide_eq_true columns)
  have names := codes_loop (fun before : List Column => range before.length)
    fun before col after split => codes_column k split
  apply codes_bind names
  apply codes_leftover
  intro bytes left written long
  have room := written_cells (joined_single written)
  rw [length_range] at room
  have enough : (h.table k).length ≤ left / (4 * width k) := by
    rw [Nat.le_div_iff_mul_le (by have := two_le_width k; omega)]
    calc (h.table k).length * (4 * width k) = bytes.length := by rw [room]; ring
      _ ≤ left := long
  apply codes_expect (decide_eq_true enough)
  apply codes_last
  have cells := codes_cells (shaped.width k) (width k) (show 0 + width k = width k by omega)
  rw [← range_eq_range', filled_none] at cells
  exact cells

theorem find_kind (k : Kind) : Kind.all.find? (fun l => l.tag.code = (UInt32.ofNat k.tag.code).toNat) = some k := by
  cases k <;> decide

theorem tables_nodup : (Kind.all.map fun k => UInt32.ofNat k.tag.code).Nodup := by decide

def Vat.setAll (v : Vat) (h : Heap) (kinds : List Kind) : Vat :=
  kinds.foldl (fun w k => w.set k (h.table k)) v

theorem codes_one_table (h : Heap) (shaped : h.Shaped) (portable : (h.table .ext).length = 0)
    (v : Vat) {before after : List Kind} {k : Kind} (split : Kind.all = before ++ k :: after) : Codes (writeTable h k)
      (readOneTable ((before.map fun l => UInt32.ofNat l.tag.code).reverse, v.setAll h before))
      (((before ++ [k]).map fun l => UInt32.ofNat l.tag.code).reverse, v.setAll h (before ++ [k])) := by
  have unseen : UInt32.ofNat k.tag.code ∉ (before.map fun l => UInt32.ofNat l.tag.code).reverse := by
    intro seen
    have nodup := tables_nodup
    rw [split, map_append, map_cons] at nodup
    have apart := disjoint_of_nodup_append nodup
    exact apart (mem_reverse.mp seen) mem_cons_self
  apply codes_bind (codes_u32 _)
  apply codes_expect (decide_eq_true unseen)
  simp only [find_kind k]
  have table := codes_map
    (fun rows => (UInt32.ofNat k.tag.code :: (before.map fun l => UInt32.ofNat l.tag.code).reverse,
      (v.setAll h before).set k rows)) (codes_table h shaped k portable)
  simp only [Vat.setAll, map_append, reverse_append, foldl_append]
  exact table

theorem get_setAll (h : Heap) (v : Vat) (kinds : List Kind) (k : Kind) :
    (v.setAll h kinds).get k = if k ∈ kinds then h.table k else v.get k := by
  induction kinds generalizing v with
  | nil => rfl
  | cons l rest ih =>
    rw [Vat.setAll, foldl_cons, ← Vat.setAll, ih, Vat.get_set]
    by_cases later : k ∈ rest
    · simp [later]
    · by_cases here : k = l
      · simp [here]
      · simp [later, here]

theorem setAll_all (h : Heap) (v : Vat) : v.setAll h Kind.all = h.vat := by
  apply Vat.ext_get
  intro k
  rw [get_setAll, if_pos (Kind.mem_all k)]
  rfl

theorem codes_tables (h h₀ : Heap) (shaped : h.Shaped) (portable : (h.table .ext).length = 0) :
    Codes (writeTables h) (readTables h₀) { h₀ with vat := h.vat } := by
  apply codes_count
  intro _ x size
  apply codes_expect (decide_eq_true size)
  have whole := codes_loop (fun before : List Kind =>
      ((before.map fun l => UInt32.ofNat l.tag.code).reverse, h₀.vat.setAll h before))
    (fun before k after split => codes_one_table h shaped portable h₀.vat split)
  have result := codes_map (fun state => ({ h₀ with vat := state.2 } : Heap)) (codes_last whole)
  rw [← setAll_all h h₀.vat]
  exact result

theorem emplacePin_last {n : Nat} {x : Word} {pins : List (Nat × Word)}
    (above : ∀ pin ∈ pins, pin.1 < n) : emplacePin n x pins = pins ++ [(n, x)] := by
  induction pins with
  | nil => rfl
  | cons pin rest ih =>
    have below := above pin mem_cons_self
    have later := ih fun other held => above other (mem_cons_of_mem _ held)
    rw [emplacePin, if_neg (by omega), if_neg (by omega), later, cons_append]

theorem codes_pin {before : List (Nat × Word)} {pin : Nat × Word} (bound : pin.1 < 2 ^ 32)
    (above : ∀ other ∈ before, other.1 < pin.1) : Codes (writePin pin) (readPin before) (before ++ [pin]) := by
  have id : (UInt32.ofNat pin.1).toNat = pin.1 := by
    rw [UInt32.toNat_ofNat']
    exact Nat.mod_eq_of_lt bound
  have unseen : pin.1 ∉ before.map Prod.fst := by
    intro seen
    obtain ⟨other, held, same⟩ := mem_map.mp seen
    have := above other held
    omega
  apply codes_bind (codes_u32 _)
  apply codes_bind (codes_u32 _)
  rw [id]
  apply codes_expect (decide_eq_true unseen)
  rw [emplacePin_last above]
  exact codes_pure _

theorem written_pins {pins : List (Nat × Word)} {bytes : Bytes}
    (written : joined (pins.map writePin) = .ok bytes) : bytes.length = 8 * pins.length := by
  induction pins generalizing bytes with
  | nil =>
    cases written
    rfl
  | cons pin rest ih =>
    obtain ⟨first, head, written⟩ := bind_ok written
    obtain ⟨later, tail, written⟩ := bind_ok written
    cases written
    cases head
    have size := ih tail
    simp only [u32le, length_append, length_cons, length_nil, size]
    omega

theorem codes_pins (h h₀ : Heap) (shaped : h.Shaped) (bound : ∀ pin ∈ h.pins, pin.1 < 2 ^ 32) :
    Codes (writePins h) (readPins h₀) { h₀ with pins := h.pins } := by
  apply codes_count
  intro _ x size
  rw [size]
  apply codes_leftover
  intro bytes left written long
  have room := written_pins (joined_single written)
  apply codes_expect (decide_eq_true (by omega))
  have once : ∀ before pin after, h.pins = before ++ pin :: after →
      Codes (writePin pin) (readPin before) (before ++ [pin]) := by
    intro before pin after split
    have ascending := shaped.pins
    rw [split, map_append, map_cons] at ascending
    have apart := (pairwise_append.mp ascending).2.2
    have held : pin ∈ h.pins := by
      rw [split]
      exact mem_append_right _ mem_cons_self
    apply codes_pin (bound pin held)
    intro other earlier
    exact apart other.1 (mem_map_of_mem earlier) pin.1 mem_cons_self
  exact codes_bind (codes_loop (fun before => before) once) (codes_pure _)

end Sections

/-- What a tape keeps of a machine. -/
def Machine.saved (m : Machine) : Machine :=
  let m₀ := m.setRoots m.header roots
  { m₀ with
    heap := { era := m.heap.era, nextPin := m.heap.nextPin, bytes := m.heap.bytes
              words := m.heap.words, vat := m.heap.vat, pins := m.heap.pins } }

theorem setRoots_heap (m m₀ : Machine) (rs : List SavedRoot) : (m.setRoots m₀ rs).heap = m₀.heap := by
  induction rs generalizing m₀ with
  | nil => rfl
  | cons r rest ih =>
    rw [Machine.setRoots, foldl_cons]
    have same : (m₀.setRoot (m.root r) r).heap = m₀.heap := by cases r <;> rfl
    rw [← same]
    exact ih _

theorem codes_parts (m : Machine) (entry : Word) (shaped : m.heap.Shaped) (counted : m.Counted)
    (portable : (m.heap.table .ext).length = 0) : Codes (writeBody m entry) readParts
      (range Builtin.all.length, { machine := m.saved, entry }) := by
  apply codes_bind (codes_header m entry counted)
  apply codes_bind (codes_roots m m.header)
  apply codes_bind codes_jets
  apply codes_bind codes_code
  apply codes_bind (codes_pools m.heap _)
  apply codes_bind (codes_tables m.heap _ shaped portable)
  apply codes_bind (codes_pins m.heap _ shaped counted.pins)
  rw [setRoots_heap]
  exact codes_pure _

theorem readBody_writeBody {m : Machine} {entry : Word} {body : Bytes} (shaped : m.heap.Shaped)
    (counted : m.Counted) (portable : (m.heap.table .ext).length = 0) (written : writeBody m entry = .ok body) :
    readBody body = .ok ((range Builtin.all.length, { machine := m.saved, entry }), []) := by
  have parts := codes_parts m entry shaped counted portable body written []
  rw [append_nil] at parts
  have step : readBody body = (readParts body >>= fun p =>
      (expect (p.2.length = 0) "trailing tape bytes" >>= fun _ => pure p.1 :
        Reader TapeError (List Nat × Image)) p.2) := rfl
  rw [step, parts]
  rfl

end Nxt.Wisp
