import Nxt.Wisp.Ops
import Nxt.Wisp.Sound

/- Interning. A name that is found changes nothing; a name that is not gets a text, a symbol and
   a cell at the head of its package's list, and every other name is found as before. -/
namespace Nxt.Wisp
open Nxt.Lib List

/-- What `addSymbol` does to the tables. -/
def addedTable (h : Heap) (name : List UInt8) (package : Word) : Kind → Table
  | .v08 => h.table .v08 ++ [[UInt32.ofNat h.bytes.length, UInt32.ofNat name.length]]
  | .sym => h.table .sym ++ [[pointer .v08 (h.table .v08).length h.era, package, nah, nil, nil]]
  | .duo => h.table .duo ++ [[pointer .sym (h.table .sym).length h.era, h.get .pkg .sym package]]
  | .pkg => (h.table .pkg).set (indexOf package)
      ((h.row .pkg (indexOf package)).set 1 (pointer .duo (h.table .duo).length h.era))
  | k => h.table k

structure Heap.Added (h : Heap) (name : List UInt8) (package : Word) (g : Heap) (x : Word) :
    Prop where
  tables : ∀ k, g.table k = addedTable h name package k
  bytes : g.bytes = h.bytes ++ name
  rest : g = { h with vat := g.vat, bytes := g.bytes }
  symbol : x = pointer .sym (h.table .sym).length h.era
  room : Fits h.bytes.length name.length
  start : UInt32.ofNat h.bytes.length ≠ zap
  rows : (h.table .v08).length < 2 ^ 26 ∧ (h.table .sym).length < 2 ^ 26 ∧
    (h.table .duo).length < 2 ^ 26

theorem addSymbol_ok {h g : Heap} {name : List UInt8} {package x : Word}
    (done : h.addSymbol name package = .ok (x, g)) : h.Added name package g x := by
  obtain ⟨⟨str, h₁⟩, text, done⟩ := bind_ok done
  obtain ⟨⟨sym, h₂⟩, symbol, done⟩ := bind_ok done
  obtain ⟨⟨cell, h₃⟩, cons, done⟩ := bind_ok done
  obtain ⟨first, last⟩ := Prod.mk.inj (Except.ok.inj done)
  have fits := newv08_fits text
  obtain ⟨start, room₁, str_eq, h₁_eq⟩ := make_ok (newv08_ok text)
  obtain ⟨-, room₂, sym_eq, h₂_eq⟩ := make_ok symbol
  obtain ⟨-, room₃, cell_eq, h₃_eq⟩ := make_ok cons
  have vat₁ : h₁ = { h with vat := h.vat.set .v08 (addedTable h name package .v08)
                            bytes := h.bytes ++ name } := h₁_eq
  have sym_is : sym = pointer .sym (h.table .sym).length h.era := by
    rw [sym_eq, vat₁]
    rfl
  have vat₂ : h₂ = { h₁ with vat := h₁.vat.set .sym (addedTable h name package .sym) } := by
    rw [h₂_eq, str_eq, vat₁]
    rfl
  have cell_is : cell = pointer .duo (h.table .duo).length h.era := by
    rw [cell_eq, vat₂, vat₁]
    rfl
  have vat₃ : h₃ = { h₂ with vat := h₂.vat.set .duo (addedTable h name package .duo) } := by
    rw [h₃_eq, sym_is, vat₂, vat₁]
    rfl
  have vat₄ : g = { h₃ with vat := h₃.vat.set .pkg (addedTable h name package .pkg) } := by
    rw [← last, cell_is, vat₃, vat₂, vat₁]
    rfl
  constructor
  · intro k
    rw [vat₄, vat₃, vat₂, vat₁]
    cases k <;> rfl
  · rw [vat₄, vat₃, vat₂, vat₁]
  · rw [vat₄, vat₃, vat₂, vat₁]
  · rw [← first, sym_is]
  · exact fits
  · exact start
  · refine ⟨room₁, ?_, ?_⟩
    · rw [vat₁] at room₂
      exact room₂
    · rw [vat₂, vat₁] at room₃
      exact room₃

theorem fit_mono {h g : Heap} (below : h.Below g) (pins : h.nextPin ≤ g.nextPin) {w : Word}
    (fit : h.Fit w) : g.Fit w := by
  cases kind : (tagOf w).kind? with
  | some k =>
    have tag := kind?_eq_some.mp kind
    obtain ⟨era, inside⟩ := fit_pointer fit tag
    exact fit_of_pointer tag (era.trans below.era.symm) (Nat.lt_of_lt_of_le inside (below.size k))
  | none =>
    unfold Heap.Fit checkValue at *
    simp only [kind] at fit ⊢
    by_cases pin : tagOf w = .pin
    · simp only [pin] at fit ⊢
      have old := demand_iff.mp fit
      exact demand_iff.mpr ⟨old.1, Nat.lt_of_lt_of_le old.2 pins⟩
    · -- What is neither a pointer nor a pin does not depend on the heap.
      revert fit
      split <;> first | exact id | contradiction

/-- What names rest on: texts inside their pool, symbols named by texts, packages with proper
symbol lists. -/
structure Heap.Catalog (h : Heap) : Prop where
  shaped : h.Shaped
  fitting : h.Fitting
  texts : ∀ data ∈ h.table .v08, (data.getD 0 0).toNat + (data.getD 1 0).toNat ≤ h.bytes.length
  symbols : ∀ data ∈ h.table .sym, tagOf (data.getD 0 0) = .v08
  packages : ∀ data ∈ h.table .pkg, tagOf (data.getD 0 0) = .v08 ∧ h.ListOf .sym (data.getD 1 0)

def Heap.Next (h : Heap) (a b : Word) : Prop := tagOf a = .duo ∧ b = h.get .duo .cdr a

section Catalog
variable {h : Heap} {w : Word} (catalog : h.Catalog)
include catalog

theorem Heap.Catalog.name (fit : h.Fit w) (tag : tagOf w = .sym) :
    h.Fit (h.get .sym .str w) ∧ tagOf (h.get .sym .str w) = .v08 := by
  have held := read_mem (k := .sym) fit tag
  exact ⟨fit_get (k := .sym) catalog.fitting fit tag (by decide), catalog.symbols _ held⟩

theorem Heap.Catalog.packageName (fit : h.Fit w) (tag : tagOf w = .pkg) :
    h.Fit (h.get .pkg .nam w) ∧ tagOf (h.get .pkg .nam w) = .v08 := by
  have held := read_mem (k := .pkg) fit tag
  exact ⟨fit_get (k := .pkg) catalog.fitting fit tag (by decide), (catalog.packages _ held).1⟩

theorem Heap.Catalog.list (fit : h.Fit w) (tag : tagOf w = .pkg) :
    h.Fit (h.get .pkg .sym w) ∧ h.ListOf .sym (h.get .pkg .sym w) := by
  have held := read_mem (k := .pkg) fit tag
  exact ⟨fit_get (k := .pkg) catalog.fitting fit tag (by decide), (catalog.packages _ held).2⟩

theorem Heap.Catalog.inside (fit : h.Fit w) (tag : tagOf w = .v08) :
    (h.get .v08 .idx w).toNat + (h.get .v08 .len w).toNat ≤ h.bytes.length :=
  catalog.texts _ (read_mem (k := .v08) fit tag)

theorem Heap.Catalog.find (fit : h.Fit w) (tag : tagOf w = .pkg) :
    ∃ xs, h.links.Items (h.get .pkg .sym w) xs ∧ (∀ y ∈ xs, tagOf y = .sym ∧ h.Fit y) ∧
      ∀ name, h.find name w = .ok (xs.find? fun sym => h.symbolName sym = name) := by
  obtain ⟨head, xs, items, tags⟩ := catalog.list fit tag
  have short := items_short catalog.fitting items head
  have enough : xs.length < listFuel := by
    have rows := catalog.shaped.rows .duo
    unfold listFuel
    omega
  refine ⟨xs, items, ?_, fun name => findFrom_items items enough⟩
  intro y held
  exact ⟨tags y held, items_fit catalog.fitting items head y held⟩

end Catalog

section Added
variable {h g : Heap} {name : List UInt8} {package x w : Word} (added : h.Added name package g x)
include added

theorem Heap.Added.era : g.era = h.era := by rw [added.rest]

theorem Heap.Added.words : g.words = h.words := by rw [added.rest]

theorem Heap.Added.pins : g.pins = h.pins := by rw [added.rest]

theorem Heap.Added.nextPin : g.nextPin = h.nextPin := by rw [added.rest]

theorem Heap.Added.below : h.Below g where
  era := added.era
  size k := by
    rw [added.tables]
    cases k <;> simp [addedTable]

theorem Heap.Added.fit (fit : h.Fit w) : g.Fit w := fit_mono added.below added.nextPin.ge fit

variable {k : Kind} {xs : List Word} {other : List UInt8}

theorem Heap.Added.read (other : k ≠ .pkg) (fit : h.Fit w) (tag : tagOf w = k.tag) : g.read k w = h.read k w := by
  have inside := (fit_pointer fit tag).2
  have append (rows : Table) (data : Row) (bound : indexOf w < rows.length) :
      (rows ++ [data]).getD (indexOf w) [] = rows.getD (indexOf w) [] :=
    getD_append rows [data] [] _ bound
  rw [Heap.read, Heap.row, added.tables, Heap.read, Heap.row]
  cases k with
  | pkg => exact absurd rfl other
  | v08 => exact append _ _ inside
  | sym => exact append _ _ inside
  | duo => exact append _ _ inside
  | _ => rfl

theorem Heap.Added.get (other : k ≠ .pkg) (fit : h.Fit w) (tag : tagOf w = k.tag)
    (f : Field) : g.get k f w = h.get k f w := by
  rw [Heap.get, added.read other fit tag, Heap.get]

theorem Heap.Added.package_get {f : Field} (other : columnIndex .pkg f ≠ 1) : g.get .pkg f w = h.get .pkg f w := by
  simp only [Heap.get, Heap.read, Heap.row, added.tables, addedTable, getD_set]
  split
  · rename_i same
    rw [getD_set, if_neg (fun both => other both.1.symm), same.1]
  · rfl

theorem Heap.Added.symbols_get (other : w ≠ package) (fit : h.Fit w) (tag : tagOf w = .pkg)
    (packageFit : h.Fit package) (packageTag : tagOf package = .pkg) : g.get .pkg .sym w = h.get .pkg .sym w := by
  simp only [Heap.get, Heap.read, Heap.row, added.tables, addedTable, getD_set]
  rw [if_neg]
  intro both
  exact other (fit_injective (k := .pkg) packageFit packageTag fit tag both.1).symm

theorem Heap.Added.symbols_head (shaped : h.Shaped) (packageFit : h.Fit package) (packageTag : tagOf package = .pkg) :
    g.get .pkg .sym package = pointer .duo (h.table .duo).length h.era := by
  have inside := (fit_pointer (k := .pkg) packageFit packageTag).2
  have wide : (h.row .pkg (indexOf package)).length = 3 :=
    shaped.width .pkg _ (read_mem (k := .pkg) packageFit packageTag)
  have column : columnIndex .pkg .sym = 1 := by decide
  simp only [Heap.get, Heap.read, Heap.row, added.tables, addedTable, getD_set, column]
  rw [if_pos ⟨trivial, inside⟩, getD_set, if_pos ⟨rfl, by rw [Heap.row] at wide; rw [wide]; decide⟩]

theorem Heap.Added.text (catalog : h.Catalog) (fit : h.Fit w) (tag : tagOf w = .v08) : g.v08slice w = h.v08slice w := by
  have inside := catalog.inside fit tag
  have longer : h.bytes <+: g.bytes := by
    rw [added.bytes]
    exact prefix_append _ _
  rw [Heap.v08slice, added.get (k := .v08) (by decide) fit tag, added.get (k := .v08) (by decide) fit tag]
  exact slice_longer longer inside

theorem Heap.Added.symbolName (catalog : h.Catalog) (fit : h.Fit w) (tag : tagOf w = .sym) :
    g.symbolName w = h.symbolName w := by
  obtain ⟨named, text⟩ := catalog.name fit tag
  rw [Heap.symbolName, added.get (k := .sym) (by decide) fit tag, added.text catalog named text]
  rfl

theorem Heap.Added.packageName (catalog : h.Catalog) (fit : h.Fit w) (tag : tagOf w = .pkg) :
    g.packageName w = h.packageName w := by
  obtain ⟨named, text⟩ := catalog.packageName fit tag
  rw [Heap.packageName, added.package_get (by decide), added.text catalog named text]
  rfl

theorem Heap.Added.items (fitting : h.Fitting) (items : h.links.Items w xs) (fit : h.Fit w) : g.links.Items w xs := by
  apply Links.items_congr (M := g.links) items rfl
  intro c held
  have tag := Links.cells_are_cells items c held
  have fits := fit_cells fitting items fit c held
  exact ⟨tag, added.get (k := .duo) (by decide) fits tag _, added.get (k := .duo) (by decide) fits tag _⟩

theorem Heap.Added.symbol_tag : tagOf x = .sym := by
  rw [added.symbol]
  exact tagOf_pointer .sym _ added.rows.2.1

theorem Heap.Added.symbol_index : indexOf x = (h.table .sym).length := by
  rw [added.symbol]
  exact indexOf_pointer .sym _ added.rows.2.1

theorem Heap.Added.symbol_row : g.read .sym x = [pointer .v08 (h.table .v08).length h.era, package, nah, nil, nil] := by
  rw [Heap.read, Heap.row, added.tables, added.symbol_index]
  simp [addedTable]

theorem Heap.Added.symbol_fit : g.Fit x := by
  apply fit_of_pointer (k := .sym) added.symbol_tag
  · rw [added.symbol, added.era]
    exact eraOf_pointer .sym _ added.rows.2.1
  · rw [added.tables, added.symbol_index]
    simp [addedTable]

theorem Heap.Added.named : g.symbolName x = name := by
  have text : g.get .sym .str x = pointer .v08 (h.table .v08).length h.era := by
    rw [Heap.get, added.symbol_row]
    rfl
  have row : g.read .v08 (pointer .v08 (h.table .v08).length h.era) =
      [UInt32.ofNat h.bytes.length, UInt32.ofNat name.length] := by
    rw [Heap.read, Heap.row, added.tables, indexOf_pointer .v08 _ added.rows.1]
    simp [addedTable]
  have start : g.get .v08 .idx (pointer .v08 (h.table .v08).length h.era) =
      UInt32.ofNat h.bytes.length := by
    rw [Heap.get, row]
    rfl
  have size : g.get .v08 .len (pointer .v08 (h.table .v08).length h.era) =
      UInt32.ofNat name.length := by
    rw [Heap.get, row]
    rfl
  rw [Heap.symbolName, text, Heap.v08slice, start, size, added.bytes]
  rcases added.room with empty | fits
  · have none : name = [] := length_eq_zero_iff.mp empty
    simp [none]
  · rw [toNat_ofNat_of_le (by omega), toNat_ofNat_of_le (by omega), drop_left, take_length]

theorem Heap.Added.list (catalog : h.Catalog) (fit : h.Fit package) (tag : tagOf package = .pkg)
    (items : h.links.Items (h.get .pkg .sym package) xs) : g.links.Items (g.get .pkg .sym package) (x :: xs) := by
  have head := added.symbols_head catalog.shaped fit tag
  have row : g.read .duo (pointer .duo (h.table .duo).length h.era) =
      [x, h.get .pkg .sym package] := by
    rw [Heap.read, Heap.row, added.tables, indexOf_pointer .duo _ added.rows.2.2, added.symbol]
    simp [addedTable]
  rw [head]
  refine ⟨tagOf_pointer .duo _ added.rows.2.2, ?_, ?_⟩
  · show g.get .duo .car _ = x
    rw [Heap.get, row]
    rfl
  · have next : g.links.next (pointer .duo (h.table .duo).length h.era) =
        h.get .pkg .sym package := by
      show g.get .duo .cdr _ = _
      rw [Heap.get, row]
      rfl
    rw [next]
    exact added.items catalog.fitting items (catalog.list fit tag).1

theorem Heap.Added.text_fit : g.Fit (pointer .v08 (h.table .v08).length h.era) := by
  apply fit_of_pointer (k := .v08) (tagOf_pointer .v08 _ added.rows.1)
  · rw [added.era]
    exact eraOf_pointer .v08 _ added.rows.1
  · rw [added.tables, indexOf_pointer .v08 _ added.rows.1]
    simp [addedTable]

theorem Heap.Added.cell_fit : g.Fit (pointer .duo (h.table .duo).length h.era) := by
  apply fit_of_pointer (k := .duo) (tagOf_pointer .duo _ added.rows.2.2)
  · rw [added.era]
    exact eraOf_pointer .duo _ added.rows.2.2
  · rw [added.tables, indexOf_pointer .duo _ added.rows.2.2]
    simp [addedTable]

theorem Heap.Added.row_cases {data : Row} (held : data ∈ g.table k) : data ∈ h.table k ∨
      (k = .v08 ∧ data = [UInt32.ofNat h.bytes.length, UInt32.ofNat name.length]) ∨
      (k = .sym ∧ data = [pointer .v08 (h.table .v08).length h.era, package, nah, nil, nil]) ∨
      (k = .duo ∧ data = [x, h.get .pkg .sym package]) ∨ (k = .pkg ∧ data =
        (h.row .pkg (indexOf package)).set 1 (pointer .duo (h.table .duo).length h.era)) := by
  rw [added.tables] at held
  cases k with
  | v08 =>
    rcases mem_append.mp held with old | new
    · exact Or.inl old
    · exact Or.inr (Or.inl ⟨rfl, mem_singleton.mp new⟩)
  | sym =>
    rcases mem_append.mp held with old | new
    · exact Or.inl old
    · exact Or.inr (Or.inr (Or.inl ⟨rfl, mem_singleton.mp new⟩))
  | duo =>
    rcases mem_append.mp held with old | new
    · exact Or.inl old
    · rw [← added.symbol] at new
      exact Or.inr (Or.inr (Or.inr (Or.inl ⟨rfl, mem_singleton.mp new⟩)))
  | pkg =>
    rcases mem_or_eq_of_mem_set held with old | new
    · exact Or.inl old
    · exact Or.inr (Or.inr (Or.inr (Or.inr ⟨rfl, new⟩)))
  | _ => exact Or.inl held

theorem Heap.Added.shaped (shaped : h.Shaped) (fit : h.Fit package)
    (tag : tagOf package = .pkg) : g.Shaped where
  width k data held := by
    rcases added.row_cases held with old | ⟨rfl, rfl⟩ | ⟨rfl, rfl⟩ | ⟨rfl, rfl⟩ | ⟨rfl, rfl⟩
    · exact shaped.width k data old
    · rfl
    · rfl
    · rfl
    · rw [length_set]
      exact shaped.width .pkg _ (read_mem (k := .pkg) fit tag)
  rows k := by
    have bound : maxIndex + 1 = 2 ^ 26 := rfl
    have old := shaped.rows k
    obtain ⟨v08, sym, duo⟩ := added.rows
    rw [added.tables]
    cases k with
    | v08 => simp only [addedTable, length_append, length_singleton]; omega
    | sym => simp only [addedTable, length_append, length_singleton]; omega
    | duo => simp only [addedTable, length_append, length_singleton]; omega
    | pkg => simp only [addedTable, length_set]; exact old
    | _ => exact old
  pins := by
    rw [added.pins]
    exact shaped.pins

theorem Heap.Added.fitting (fitting : h.Fitting) (fit : h.Fit package) (tag : tagOf package = .pkg) : g.Fitting := by
  have immediates : g.Fit nah ∧ g.Fit nil := ⟨rfl, rfl⟩
  intro k data held c column
  rcases added.row_cases held with old | ⟨rfl, rfl⟩ | ⟨rfl, rfl⟩ | ⟨rfl, rfl⟩ | ⟨rfl, rfl⟩
  · exact added.fit (fitting k data old c column)
  · cases column
  · have columns : Tidy.valueColumns .sym = [0, 1, 2, 3, 4] := by decide
    have cases : c = 0 ∨ c = 1 ∨ c = 2 ∨ c = 3 ∨ c = 4 := by simpa [columns] using column
    rcases cases with rfl | rfl | rfl | rfl | rfl
    · exact added.text_fit
    · exact added.fit fit
    · exact immediates.1
    · exact immediates.2
    · exact immediates.2
  · have columns : Tidy.valueColumns .duo = [0, 1] := by decide
    have cases : c = 0 ∨ c = 1 := by simpa [columns] using column
    rcases cases with rfl | rfl
    · exact added.symbol_fit
    · exact added.fit (fit_get (k := .pkg) fitting fit tag (by decide))
  · rw [getD_set]
    split
    · exact added.cell_fit
    · exact added.fit (fitting .pkg _ (read_mem (k := .pkg) fit tag) c column)

theorem Heap.Added.catalog (catalog : h.Catalog) (fit : h.Fit package)
    (tag : tagOf package = .pkg) : g.Catalog where
  shaped := added.shaped catalog.shaped fit tag
  fitting := added.fitting catalog.fitting fit tag
  texts data held := by
    have size : g.bytes.length = h.bytes.length + name.length := by
      rw [added.bytes, length_append]
    rcases added.row_cases held with old | ⟨-, rfl⟩ | ⟨never, -⟩ | ⟨never, -⟩ | ⟨never, -⟩
    · have inside := catalog.texts data old
      omega
    · have start := toNat_ofNat_le h.bytes.length
      have length := toNat_ofNat_le name.length
      simp only [getD_cons_zero, getD_cons_succ]
      omega
    all_goals cases never
  symbols data held := by
    rcases added.row_cases held with old | ⟨never, -⟩ | ⟨-, rfl⟩ | ⟨never, -⟩ | ⟨never, -⟩
    · exact catalog.symbols data old
    · cases never
    · exact tagOf_pointer .v08 _ added.rows.1
    all_goals cases never
  packages data held := by
    rcases added.row_cases held with old | ⟨never, -⟩ | ⟨never, -⟩ | ⟨never, -⟩ | ⟨-, rfl⟩
    · obtain ⟨named, xs, items, tags⟩ := catalog.packages data old
      have head := catalog.fitting .pkg data old 1 (by decide)
      exact ⟨named, xs, added.items catalog.fitting items head, tags⟩
    · cases never
    · cases never
    · cases never
    · have row := read_mem (k := .pkg) fit tag
      obtain ⟨xs, items, tags⟩ := (catalog.list fit tag).2
      have list := added.list catalog fit tag items
      have head := added.symbols_head catalog.shaped fit tag
      have wide : (h.row .pkg (indexOf package)).length = 3 := catalog.shaped.width .pkg _ row
      constructor
      · rw [getD_set, if_neg (by simp)]
        exact (catalog.packages _ row).1
      · rw [getD_set, if_pos ⟨rfl, by rw [wide]; decide⟩, ← head]
        refine ⟨x :: xs, list, ?_⟩
        intro y member
        rcases mem_cons.mp member with rfl | later
        · exact added.symbol_tag
        · exact tags y later

theorem Heap.Added.find_new (catalog : h.Catalog) (fit : h.Fit package)
    (tag : tagOf package = .pkg) : g.find name package = .ok (some x) := by
  have after := added.catalog catalog fit tag
  obtain ⟨xs, items, -, -⟩ := catalog.find fit tag
  obtain ⟨ys, again, -, refound⟩ := after.find (added.fit fit) tag
  have list := added.list catalog fit tag items
  rw [refound, Links.items_unique again list, find?_cons, added.named]
  simp

theorem Heap.Added.find_other (catalog : h.Catalog) (packageFit : h.Fit package) (packageTag : tagOf package = .pkg)
    (different : other ≠ name) (fit : h.Fit w) (tag : tagOf w = .pkg) : g.find other w = h.find other w := by
  have after := added.catalog catalog packageFit packageTag
  obtain ⟨xs, items, syms, found⟩ := catalog.find fit tag
  obtain ⟨ys, again, -, refound⟩ := after.find (added.fit fit) tag
  have same : xs.find? (fun sym => g.symbolName sym = other) =
      xs.find? (fun sym => h.symbolName sym = other) := by
    apply find?_congr
    intro sym held
    rw [added.symbolName catalog (syms sym held).2 (syms sym held).1]
  rw [found, refound]
  by_cases here : w = package
  · subst here
    have list := added.list catalog packageFit packageTag items
    rw [Links.items_unique again list, find?_cons, added.named]
    simp only [Ne.symm different, decide_false]
    rw [same]
  · have list : g.links.Items (g.get .pkg .sym w) xs := by
      rw [added.symbols_get here fit tag packageFit packageTag]
      exact added.items catalog.fitting items (catalog.list fit tag).1
    rw [Links.items_unique again list, same]

theorem Heap.Added.findUsed_other (fuel : Nat) (moveSlow : Bool) (catalog : h.Catalog) (packageFit : h.Fit package)
    (packageTag : tagOf package = .pkg) (different : other ≠ name)
    {cur slow : Word} (curFit : h.Fit cur) (slowFit : h.Fit slow) (behind : Relation.ReflTransGen h.Next slow cur) :
    g.findUsed other fuel cur slow moveSlow = h.findUsed other fuel cur slow moveSlow := by
  induction fuel generalizing cur slow moveSlow with
  | zero => rfl
  | succ fuel ih =>
    rw [Heap.findUsed, Heap.findUsed]
    split
    · rfl
    · split
      · rfl
      · rename_i cell
        have tag : tagOf cur = .duo := not_not.mp cell
        have car := added.get (k := .duo) (by decide) curFit tag .car
        have cdr := added.get (k := .duo) (by decide) curFit tag .cdr
        simp only [car, cdr]
        split
        · rfl
        · rename_i used
          have usedTag : tagOf (h.get .duo .car cur) = .pkg := not_not.mp used
          have usedFit := fit_get (k := .duo) catalog.fitting curFit tag
            (show columnIndex .duo .car ∈ Tidy.valueColumns .duo by decide)
          have found := added.find_other catalog packageFit packageTag different usedFit usedTag
          -- The slow cursor is on a cell the walk has passed.
          obtain ⟨c, ⟨slowTag, rfl⟩, closer⟩ := Relation.TransGen.head'_iff.mp
            (Relation.TransGen.tail' behind ⟨tag, rfl⟩)
          have slowNext := added.get (k := .duo) (by decide) slowFit slowTag .cdr
          rw [found, slowNext]
          have nextFit := fit_tail catalog.fitting curFit tag
          have rest : ∀ s, h.Fit s → Relation.ReflTransGen h.Next s (h.get .duo .cdr cur) →
              g.findUsed other fuel (h.get .duo .cdr cur) s (!moveSlow) =
                h.findUsed other fuel (h.get .duo .cdr cur) s (!moveSlow) :=
            fun s fits trail => ih _ nextFit fits trail
          cases moveSlow with
          | false => simp only [rest slow slowFit (behind.tail ⟨tag, rfl⟩), Bool.false_eq_true, if_false]
          | true => simp only [rest _ (fit_tail catalog.fitting slowFit slowTag) closer, if_true]

theorem Heap.Added.lookup_other (catalog : h.Catalog) (packageFit : h.Fit package) (packageTag : tagOf package = .pkg)
    (different : other ≠ name) (fit : h.Fit w) (tag : tagOf w = .pkg) : g.lookup other w = h.lookup other w := by
  have uses := added.package_get (w := w) (f := .use) (by decide)
  have usesFit := fit_get (k := .pkg) catalog.fitting fit tag
    (show columnIndex .pkg .use ∈ Tidy.valueColumns .pkg by decide)
  have walk := added.findUsed_other (4 * listFuel) false catalog packageFit
    packageTag different usesFit usesFit .refl
  rw [Heap.lookup, added.find_other catalog packageFit packageTag different fit tag]
  simp only [uses, walk]
  rfl

end Added

end Nxt.Wisp
