import Nxt.Wisp.Restore

/- How long a tape is. The writer fails only on a count beyond 32 bits, so a machine the validator
   accepts is written whenever its pools are within their index range. -/
namespace Nxt.Wisp
open Nxt.Lib Nxt.Crypto List

section Primitives

theorem sized_raw (data : Bytes) : Sized (raw data) data.length := ⟨data, rfl, rfl⟩

theorem sized_u32 (x : Word) : Sized (u32 x) 4 := ⟨u32le x, rfl, rfl⟩

theorem sized_count {n : Nat} (fits : n ≤ maxWord) : Sized (count n) 4 := by
  refine ⟨u32le (UInt32.ofNat n), ?_, rfl⟩
  have small : demand (decide (n ≤ maxWord)) "tape count overflow" = .ok () := demand_iff.mpr fits
  rw [count, small]
  rfl

theorem sized_text {value : Bytes} (fits : value.length ≤ maxWord) : Sized (text value) (4 + value.length) :=
  sized_cons (sized_count fits) (sized_cons (sized_raw value) sized_nil)

theorem sized_flag (b : Bool) : Sized (flag b) 4 := sized_u32 _

end Primitives

def tableHead (k : Kind) : Nat :=
  12 + ((schema k).map fun col =>
    (4 + (ascii col.name).length) + (4 + (ascii col.kind.text).length)).sum

/-- What no machine changes: header, root names, builtins, code layout, table heads, counts. -/
def fixedSize : Nat :=
  36 + (4 + (roots.map fun r => 4 + (ascii r.name).length + 4).sum) +
    (4 + (Builtin.all.map fun b => 4 + b.bytes.length + 4).sum) +
    (8 + (codeOperations.map fun operation => 4 + (ascii operation.name).length + 8 +
      (operation.operands.map fun kind => 4 + (ascii kind.text).length).sum).sum) +
    (Kind.all.map tableHead).sum + 16

def tapeSize (h : Heap) : Nat :=
  fixedSize + h.bytes.length + 4 * h.words.length +
    (Kind.all.map fun k => 4 * width k * (h.table k).length).sum + 8 * h.pins.length

theorem fixedSize_le : fixedSize ≤ 2 ^ 16 := by decide +kernel

section Sections
variable {m : Machine} {entry : Word}

theorem names_short : (roots.length ≤ maxWord ∧ Builtin.all.length ≤ maxWord ∧ codeOperations.length ≤ maxWord) ∧
    (∀ r ∈ roots, (ascii r.name).length ≤ maxWord) ∧ (∀ b ∈ Builtin.all, b.bytes.length ≤ maxWord) ∧
    (∀ operation ∈ codeOperations, (ascii operation.name).length ≤ maxWord ∧
      operation.operands.length ≤ maxWord ∧ ∀ kind ∈ operation.operands, (ascii kind.text).length ≤ maxWord) ∧
    ∀ k ∈ Kind.all, width k ≤ maxWord ∧ ∀ col ∈ schema k,
      (ascii col.name).length ≤ maxWord ∧ (ascii col.kind.text).length ≤ maxWord := by
  decide +kernel

theorem sized_header (m : Machine) (entry : Word) : Sized (writeHeader m entry) 36 :=
  sized_cons (n := 8) (k := 28) (sized_raw magic)
    (sized_cons (k := 24) (sized_u32 _) (sized_cons (k := 20) (sized_flag _) (sized_cons (k := 16) (sized_u32 _)
          (sized_cons (k := 12) (sized_u32 _) (sized_cons (k := 8) (sized_u32 _)
              (sized_cons (k := 4) (sized_flag _) (sized_cons (sized_u32 _) sized_nil)))))))

theorem sized_root {r : SavedRoot} (held : r ∈ roots) : Sized (writeRoot m r) (4 + (ascii r.name).length + 4) := by
  have all := sized_cons (sized_text (names_short.2.1 r held)) (sized_cons (sized_u32 (m.root r)) sized_nil)
  exact sized_eq all (by omega)

theorem sized_roots : Sized (writeRoots m) (4 + (roots.map fun r => 4 + (ascii r.name).length + 4).sum) := by
  have few := names_short.1.1
  have each := sized_map roots fun r held => sized_root (m := m) (r := r) held
  exact sized_eq (sized_cons (sized_count few) (sized_cons each sized_nil)) (by omega)

theorem sized_jets : Sized writeJets (4 + (Builtin.all.map fun b => 4 + b.bytes.length + 4).sum) := by
  have few := names_short.1.2.1
  have jet : ∀ b ∈ Builtin.all, Sized (writeJet b) (4 + b.bytes.length + 4) := by
    intro b held
    have all := sized_cons (sized_text (names_short.2.2.1 b held))
      (sized_cons (sized_flag b.control) sized_nil)
    exact sized_eq all (by omega)
  exact sized_eq (sized_cons (sized_count few) (sized_cons (sized_map Builtin.all jet) sized_nil)) (by omega)

theorem sized_operation {operation : CodeOperation} (held : operation ∈ codeOperations) :
    Sized (writeOperation operation) (4 + (ascii operation.name).length + 8 +
      (operation.operands.map fun kind => 4 + (ascii kind.text).length).sum) := by
  obtain ⟨name, operands, texts⟩ := names_short.2.2.2.1 operation held
  have kinds := sized_map operation.operands fun kind member => sized_text (texts kind member)
  have all := sized_cons (sized_text name) (sized_cons (sized_u32 (codeOpcode operation.op))
    (sized_cons (sized_count operands) (sized_cons kinds sized_nil)))
  exact sized_eq all (by omega)

theorem sized_code : Sized writeCode (8 + (codeOperations.map fun operation => 4 + (ascii operation.name).length + 8 +
      (operation.operands.map fun kind => 4 + (ascii kind.text).length).sum).sum) := by
  have all := sized_cons (sized_u32 (UInt32.ofNat codeVersion))
    (sized_cons (sized_count names_short.1.2.2)
      (sized_cons (sized_map codeOperations fun _ held => sized_operation held) sized_nil))
  exact sized_eq all (by omega)

theorem sized_words (xs : List Word) : Sized (joined (xs.map u32)) (4 * xs.length) := by
  have all := sized_map xs fun x _ => sized_u32 x
  exact sized_eq all (by simp [Nat.mul_comm])

theorem sized_pools {h : Heap} (bytes : h.bytes.length ≤ maxWord) (words : h.words.length ≤ maxWord) :
    Sized (writePools h) (8 + h.bytes.length + 4 * h.words.length) := by
  have all := sized_cons (sized_count bytes) (sized_cons (sized_raw h.bytes)
    (sized_cons (sized_count words) (sized_cons (sized_words h.words) sized_nil)))
  exact sized_eq all (by omega)

theorem sized_cells (rows : Table) (c : Nat) : Sized (writeCells rows c) (4 * rows.length) := by
  have all := sized_map rows fun data _ => sized_u32 (data.getD c 0)
  exact sized_eq all (by simp [Nat.mul_comm])

theorem sized_table {h : Heap} (k : Kind) (rows : (h.table k).length ≤ maxWord) :
    Sized (writeTable h k) (tableHead k + 4 * width k * (h.table k).length) := by
  obtain ⟨narrow, texts⟩ := names_short.2.2.2.2 k (Kind.mem_all k)
  have column : ∀ col ∈ schema k, Sized (writeColumn col)
      ((4 + (ascii col.name).length) + (4 + (ascii col.kind.text).length)) := by
    intro col held
    have all := sized_cons (sized_text (texts col held).1)
      (sized_cons (sized_text (texts col held).2) sized_nil)
    exact sized_eq all (by omega)
  have cells := sized_map (List.range (width k)) fun c _ => sized_cells (h.table k) c
  have all := sized_cons (sized_u32 (UInt32.ofNat k.tag.code)) (sized_cons (sized_count rows)
    (sized_cons (sized_count narrow) (sized_cons (sized_map (schema k) column) (sized_cons cells sized_nil))))
  apply sized_eq all
  rw [tableHead, map_const', sum_replicate, length_range, smul_eq_mul]
  have product : 4 * width k * (h.table k).length = width k * (4 * (h.table k).length) := by ring
  omega

theorem sized_tables {h : Heap} (rows : ∀ k, (h.table k).length ≤ maxWord) : Sized (writeTables h)
    (4 + (Kind.all.map tableHead).sum + (Kind.all.map fun k => 4 * width k * (h.table k).length).sum) := by
  have tables := sized_map Kind.all fun k _ => sized_table (h := h) k (rows k)
  have all := sized_cons (sized_count (n := Kind.all.length) (by decide)) (sized_cons tables sized_nil)
  apply sized_eq all
  rw [sum_map_add]
  omega

theorem sized_pins {h : Heap} (few : h.pins.length ≤ maxWord) : Sized (writePins h) (4 + 8 * h.pins.length) := by
  have pin : ∀ p ∈ h.pins, Sized (writePin p) 8 := fun p _ =>
    sized_cons (n := 4) (k := 4) (sized_u32 _) (sized_cons (sized_u32 _) sized_nil)
  have all := sized_cons (sized_count few) (sized_cons (sized_map h.pins pin) sized_nil)
  exact sized_eq all (by simp [Nat.mul_comm])

structure Heap.Countable (h : Heap) : Prop where
  bytes : h.bytes.length ≤ maxWord
  words : h.words.length ≤ maxWord
  rows : ∀ k, (h.table k).length ≤ maxWord
  pins : h.pins.length ≤ maxWord

theorem sized_body (entry : Word) (countable : m.heap.Countable) : Sized (writeBody m entry) (tapeSize m.heap) := by
  have all := sized_cons (sized_header m entry) (sized_cons (sized_roots (m := m))
    (sized_cons sized_jets (sized_cons sized_code
      (sized_cons (sized_pools countable.bytes countable.words)
        (sized_cons (sized_tables countable.rows)
          (sized_cons (sized_pins countable.pins) sized_nil))))))
  apply sized_eq all
  rw [tapeSize, fixedSize]
  omega

end Sections

section Encode
variable {m : Machine} {entry : Word}

theorem sound_countable (shaped : m.heap.Shaped) (bytes : m.heap.bytes.length ≤ maxWord)
    (words : m.heap.words.length ≤ maxWord) (sound : m.Sound entry) : m.heap.Countable where
  bytes := bytes
  words := words
  rows k := (shaped.rows k).trans (by decide)
  pins := by
    -- the ids are distinct and below the next one
    have nodup : (m.heap.pins.map Prod.fst).Nodup := shaped.pins.imp fun lower => Nat.ne_of_lt lower
    have inside : m.heap.pins.map Prod.fst ⊆ List.range m.heap.nextPin := by
      intro id held
      obtain ⟨pin, member, rfl⟩ := mem_map.mp held
      exact mem_range.mpr (sound.pins pin member).1.2
    have few := (subperm_of_subset nodup inside).length_le
    rw [length_map, length_range] at few
    have bound := sound.nextPin.2
    have small : maxImmediate + 1 ≤ maxWord := by decide
    omega

theorem encode_sized (shaped : m.heap.Shaped) (bytes : m.heap.bytes.length ≤ maxWord)
    (words : m.heap.words.length ≤ maxWord) (sound : m.Sound entry) :
    ∃ data, Codec.encode m entry = .ok data ∧ data.length = tapeSize m.heap + sha256Len := by
  obtain ⟨body, wrote, size⟩ := sized_body entry (sound_countable shaped bytes words sound)
  have valid := (validate_ok (shaped.rows .duo)).mpr sound
  refine ⟨body ++ sha256 body, ?_, ?_⟩
  · rw [Codec.encode, valid, wrote]
    rfl
  · rw [length_append, size, sha256_length]

end Encode
end Nxt.Wisp
