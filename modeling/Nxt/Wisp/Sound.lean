import Nxt.Wisp.Lists
import Nxt.Wisp.TapeBytes

/- What the validator decides, as a property of the machine. -/
namespace Nxt.Wisp
open Nxt.Lib List

/-- The size of the pool a kind's slices lie in. -/
def Heap.pool (h : Heap) (k : Kind) : Nat := if k = .v08 then h.bytes.length else h.words.length

def sliced (k : Kind) : Bool := k = .v08 || wordPayload k

/-- A symbol that native code keeps under the name `k`. -/
def Heap.Homed (h : Heap) (base : Word) (k : Known) (x : Word) : Prop :=
  tagOf x = .sym ∧ h.get .sym .pkg x = base ∧ h.symbolName x = k.bytes

/-- The roots as the registered packages `ps` require them. -/
structure Machine.Rooted (m : Machine) (ps : List Word) : Prop where
  current : m.current ∈ ps
  canonical : ∀ r ∈ [SavedRoot.base, .keywords, .keys],
    m.root r ∈ ps ∧ m.heap.packageName (m.root r) = ascii r.name
  nilName : tagOf m.nilName = .v08 ∧ m.heap.v08slice m.nilName = ascii "NIL"
  trueName : tagOf m.trueName = .v08 ∧ m.heap.v08slice m.trueName = ascii "T"
  cached : ∀ k ∈ savedKnown, m.heap.Homed m.base k (m.known k)

structure Machine.Sound (m : Machine) (entry : Word) : Prop where
  portable : (m.heap.table .ext).length = 0
  nextPin : 1 ≤ m.heap.nextPin ∧ m.heap.nextPin ≤ maxImmediate + 1
  nextKey : m.nextKey < 2 ^ 48
  entry : m.heap.Fit entry
  roots : ∀ r ∈ roots, m.heap.Fit (m.root r)
  pins : ∀ pin ∈ m.heap.pins, (0 < pin.1 ∧ pin.1 < m.heap.nextPin) ∧ m.heap.Fit pin.2
  words : ∀ w ∈ m.heap.words, m.heap.Fit w
  unmarked : m.heap.Unmarked
  fitting : m.heap.Fitting
  slices : ∀ k, sliced k = true → ∀ data ∈ m.heap.table k,
    (data.getD 0 0).toNat + (data.getD 1 0).toNat ≤ m.heap.pool k
  totals : ∀ k, sliced k = true → (lengths m.heap k).sum ≤ maxWord
  symbols : ∀ data ∈ m.heap.table .sym, tagOf (data.getD 0 0) = .v08 ∧
    (data.getD 1 0 ≠ nil → tagOf (data.getD 1 0) = .pkg)
  code : ∀ i < (m.heap.table .record).length, checkCode m.heap i = .ok ()
  packages : ∀ data ∈ m.heap.table .pkg, tagOf (data.getD 0 0) = .v08 ∧
    m.heap.ListOf .sym (data.getD 1 0)
  registry : ∃ ps, m.heap.links.Items m.packages ps ∧ (∀ p ∈ ps, tagOf p = .pkg) ∧
    (ps.map m.heap.packageName).Nodup ∧ m.Rooted ps
  control : checkControl m.heap (fun k x => x = m.known k) = .ok ()

section Parts
variable {h : Heap} {m : Machine}

theorem checkSlices_ok {size : Nat} {rows : Table} : checkSlices size rows = .ok () ↔
      (∀ data ∈ rows, (data.getD 0 0).toNat + (data.getD 1 0).toNat ≤ size) ∧
        (rows.map fun data => (data.getD 1 0).toNat).sum ≤ maxWord := by
  simp only [checkSlices, check_ok_iff, each_ok, demand_iff]
  constructor
  · intro both
    refine ⟨fun data held => ?_, both.2⟩
    have := both.1 data held
    omega
  · intro both
    refine ⟨fun data held => ?_, both.2⟩
    have := both.1 data held
    omega

theorem lengths_eq {k : Kind} (slice : sliced k = true) :
    lengths h k = (h.table k).map fun data => (data.getD 1 0).toNat := by
  cases k <;> first | rfl | cases slice

theorem checkTable_ok {k : Kind} : checkTable h k = .ok () ↔ (∀ data ∈ h.table k, data.getD 0 0 ≠ zap) ∧
      (∀ data ∈ h.table k, ∀ c ∈ Tidy.valueColumns k, h.Fit (data.getD c 0)) ∧
      (sliced k = true → (∀ data ∈ h.table k, (data.getD 0 0).toNat + (data.getD 1 0).toNat ≤ h.pool k) ∧
          (lengths h k).sum ≤ maxWord) := by
  have marks : each (fun data => demand (decide (data.getD 0 0 ≠ zap))
      "collector forwarding marker in tape") (h.table k) = .ok () ↔
        ∀ data ∈ h.table k, data.getD 0 0 ≠ zap := by
    simp only [each_ok, demand_iff]
  have values : each (fun c => each (fun data => checkValue h (data.getD c 0)) (h.table k))
      (Tidy.valueColumns k) = .ok () ↔
        ∀ data ∈ h.table k, ∀ c ∈ Tidy.valueColumns k, h.Fit (data.getD c 0) := by
    simp only [each_ok]
    exact ⟨fun all data held c column => all c column data held,
      fun all c column data held => all data held c column⟩
  have slices : (if k = .v08 then checkSlices h.bytes.length (h.table k)
      else if wordPayload k then checkSlices h.words.length (h.table k) else .ok ()) = .ok () ↔
        (sliced k = true → (∀ data ∈ h.table k, (data.getD 0 0).toNat + (data.getD 1 0).toNat ≤ h.pool k) ∧
            (lengths h k).sum ≤ maxWord) := by
    by_cases text : k = .v08
    · subst text
      simp only [if_true, checkSlices_ok, sliced, decide_true, Bool.true_or, true_imp_iff,
        Heap.pool, lengths_eq (k := .v08) rfl]
    · by_cases payload : wordPayload k = true
      · have slice : sliced k = true := by simp [sliced, payload]
        simp only [if_neg text, payload, if_true, checkSlices_ok, slice, true_imp_iff, Heap.pool,
          lengths_eq slice]
      · have none : sliced k ≠ true := by simp [sliced, text, payload]
        simp only [if_neg text, if_neg payload, true_iff]
        intro slice
        exact absurd slice none
  simp only [checkTable, check_ok_iff, marks, values, slices]

theorem checkSymbol_ok {data : Row} : checkSymbol data = .ok () ↔
    tagOf (data.getD 0 0) = .v08 ∧ (data.getD 1 0 ≠ nil → tagOf (data.getD 1 0) = .pkg) := by
  have str : columnIndex .sym .str = 0 := by decide
  have pkg : columnIndex .sym .pkg = 1 := by decide
  simp only [checkSymbol, check_ok_iff, typed_ok, str, pkg]
  split
  · rename_i home
    simp only [typed_ok, home, not_false_eq_true, true_imp_iff, ne_eq]
  · rename_i home
    simp only [home, false_imp_iff, and_true, pure, Except.pure]

theorem checkLists_ok {packages : Word} (fitting : h.Fitting) (fit : h.Fit packages)
    (rows : (h.table .duo).length ≤ maxIndex + 1) (result : List Word) : checkLists h packages = .ok result ↔
      (∀ data ∈ h.table .pkg, tagOf (data.getD 0 0) = .v08 ∧ h.ListOf .sym (data.getD 1 0)) ∧
      ∃ ps, h.links.Items packages ps ∧ (∀ p ∈ ps, tagOf p = .pkg) ∧
        (ps.map h.packageName).Nodup ∧ result = ps.reverse := by
  have blank (element : Tag) : Colored h element (replicate (h.table .duo).length 0) := by
    have zero (i : Nat) : (replicate (h.table .duo).length 0).getD i 0 = 0 := by
      rw [getD_eq_getElem?_getD, getElem?_replicate]
      split <;> rfl
    refine ⟨length_replicate, ?_, ?_⟩
    · intro x _ _ two
      rw [zero] at two
      cases two
    · intro i
      rw [zero]
      decide
  have symbols : columnIndex .pkg .sym ∈ Tidy.valueColumns .pkg := by decide
  have heads := checkPackageRows_ok (h.table .pkg) fitting rows (blank .sym)
    fun data held => fitting .pkg data held _ symbols
  have nam : columnIndex .pkg .nam = 0 := by decide
  have sym : columnIndex .pkg .sym = 1 := by decide
  rw [nam, sym] at heads
  have enough {ps : List Word} (items : h.links.Items packages ps) : ps.length < listFuel := by
    have short := items_short fitting items fit
    unfold listFuel
    omega
  rw [← heads]
  simp only [checkLists, bind_ok_iff]
  constructor
  · rintro ⟨after, first, middle, second, done⟩
    obtain ⟨ps, items, tags⟩ := proper_ok fitting (blank .pkg) fit second
    have whole := (registered_runs [] items (enough items) nodup_nil result).mp done
    rw [append_nil] at whole
    refine ⟨⟨after, first⟩, ps, items, tags, ?_, whole.1⟩
    rw [← nodup_reverse, ← map_reverse]
    exact whole.2
  · rintro ⟨⟨after, first⟩, ps, items, tags, nodup, rfl⟩
    obtain ⟨middle, second, -⟩ := proper_runs fitting rows (blank .pkg) fit ⟨ps, items, tags⟩
    refine ⟨after, first, middle, second, ?_⟩
    apply (registered_runs [] items (enough items) nodup_nil _).mpr
    rw [append_nil]
    refine ⟨rfl, ?_⟩
    rw [map_reverse, nodup_reverse]
    exact nodup

theorem checkRoots_ok {ps : List Word} :
    (m.current ∈ ps.reverse ∧ each (checkRoot m ps.reverse) roots = .ok ()) ↔ m.Rooted ps := by
  have known : (∀ r ∈ savedKnown.map SavedRoot.known, checkRoot m ps.reverse r = .ok ()) ↔
      ∀ k ∈ savedKnown, m.heap.Homed m.base k (m.known k) := by
    simp only [forall_mem_map, checkRoot, check_ok_iff, typed_ok, demand_iff]
    rfl
  simp only [each_ok, roots, mem_append, or_imp, forall_and, known, mem_reverse]
  simp only [forall_mem_cons, not_mem_nil, false_imp_iff, implies_true, checkRoot,
    check_ok_iff, typed_ok, demand_iff, mem_reverse, and_true, true_and]
  constructor
  · rintro ⟨current, ⟨base, keywords, keys, nilName, trueName⟩, cached⟩
    refine ⟨current, ?_, nilName, trueName, cached⟩
    simp only [forall_mem_cons, not_mem_nil, false_imp_iff, implies_true, and_true]
    exact ⟨base, keywords, keys⟩
  · intro rooted
    have canonical := rooted.canonical
    simp only [forall_mem_cons, not_mem_nil, false_imp_iff, implies_true, and_true]
      at canonical
    exact ⟨rooted.current, ⟨canonical.1, canonical.2.1, canonical.2.2, rooted.nilName,
      rooted.trueName⟩, rooted.cached⟩

end Parts

theorem validate_ok {m : Machine} {entry : Word} (rows : (m.heap.table .duo).length ≤ maxIndex + 1) :
    validate m entry = .ok () ↔ m.Sound entry := by
  have duo (fitting : m.heap.Fitting) (fit : m.heap.Fit m.packages) (result : List Word) :=
    checkLists_ok fitting fit rows result
  have tables : each (checkTable m.heap) Kind.all = .ok () ↔ m.heap.Unmarked ∧ m.heap.Fitting ∧
      ∀ k, sliced k = true → (∀ data ∈ m.heap.table k,
        (data.getD 0 0).toNat + (data.getD 1 0).toNat ≤ m.heap.pool k) ∧
          (lengths m.heap k).sum ≤ maxWord := by
    simp only [each_ok, Kind.mem_all, true_imp_iff, checkTable_ok, forall_and]
    rfl
  have pins : each (checkPin m.heap) m.heap.pins = .ok () ↔
      ∀ pin ∈ m.heap.pins, (0 < pin.1 ∧ pin.1 < m.heap.nextPin) ∧ m.heap.Fit pin.2 := by
    simp only [each_ok, checkPin, check_ok_iff, demand_iff]
    rfl
  simp only [validate, checkCounters, check_ok_iff, demand_iff, tables, pins,
    bind_ok_iff (m := checkLists m.heap m.packages)]
  constructor
  · rintro ⟨⟨portable, nextPin, nextKey⟩, entryFits, rootsFit, pinsFit, wordsFit,
      ⟨unmarked, fitting, slices⟩, symbols, code, result, lists, current, cached, control⟩
    rw [each_ok] at rootsFit wordsFit symbols code
    obtain ⟨packages, ps, items, tags, nodup, rfl⟩ :=
      (duo fitting (rootsFit .packages (by decide)) result).mp lists
    have rooted := checkRoots_ok.mp ⟨current, cached⟩
    exact
      { portable, nextPin, nextKey, unmarked, fitting, packages, control
        entry := entryFits
        roots := rootsFit
        pins := pinsFit
        words := wordsFit
        slices := fun k slice => (slices k slice).1
        totals := fun k slice => (slices k slice).2
        symbols := fun data held => checkSymbol_ok.mp (symbols data held)
        code := fun i inside => code i (mem_range.mpr inside)
        registry := ⟨ps, items, tags, nodup, rooted⟩ }
  · intro sound
    obtain ⟨ps, items, tags, nodup, rooted⟩ := sound.registry
    have lists := (duo sound.fitting (sound.roots .packages (by decide)) ps.reverse).mpr
      ⟨sound.packages, ps, items, tags, nodup, rfl⟩
    obtain ⟨current, cached⟩ := checkRoots_ok.mpr rooted
    refine ⟨⟨sound.portable, sound.nextPin, sound.nextKey⟩, sound.entry, each_ok.mpr sound.roots,
      sound.pins, each_ok.mpr sound.words, ⟨sound.unmarked, sound.fitting, ?_⟩, ?_, ?_,
      ps.reverse, lists, current, cached, sound.control⟩
    · exact fun k slice => ⟨sound.slices k slice, sound.totals k slice⟩
    · exact each_ok.mpr fun data held => checkSymbol_ok.mpr (sound.symbols data held)
    · exact each_ok.mpr fun i held => sound.code i (mem_range.mp held)

end Nxt.Wisp
