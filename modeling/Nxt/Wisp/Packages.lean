import Nxt.Lib.Meeting
import Nxt.Wisp.Install

/- The tables of symbols and packages over a whole run (eval.cpp, reader.cpp): what creates a
   symbol or a package, what every creation leaves as it was, and that no list of symbols and
   not the list of packages ever holds a name twice. -/
namespace Nxt.Wisp
open Nxt.Lib List

namespace Heap

def findPackageFrom (h : Heap) (name : List UInt8) : Nat → Word → Except HostError Word
  | 0, _ => .error .diverged
  | fuel + 1, cur =>
      if cur = nil then .ok nil
      else
        let pkg := h.get .duo .car cur
        if h.packageName pkg = name then .ok pkg
        else h.findPackageFrom name fuel (h.get .duo .cdr cur)

end Heap

/-- The bytes of `~20220101.` and ten digits of base 32, the lowest first. -/
def freshName (serial : Nat) : List UInt8 :=
  ascii "~20220101." ++ (range 10).map fun i =>
    (ascii "YBNDRFG8EJKMCPQXOT1UWISZA345H769").getD (serial / 32 ^ i % 32) 0

def keyLimit : Nat := 2 ^ 48 - 1

/-- The operations that create symbols and packages, as a guest or the reader asks for them. -/
inductive SymbolOp where
  | intern (name : List UInt8) (package : Word)
  | keyword (name : List UInt8)
  /-- A symbol token of the reader, in upper case, with or without a package. -/
  | read (text : List UInt8)
  | define (name : List UInt8)
  | fresh
  /-- `PACKAGE-SET-USES!`, whatever the list has become since it was checked. -/
  | setUses (package uses : Word)

namespace Machine

def findPackage (m : Machine) (name : List UInt8) : Except HostError Word :=
  m.heap.findPackageFrom name listFuel m.packages

def definePackage (m : Machine) (name : List UInt8) : Except HostError (Word × Machine) := do
  if (← m.findPackage name) ≠ nil then .error (.invalidArgument "package already exists")
  else
    let (pkg, heap) ← m.heap.newPackage name
    let (packages, heap) ← heap.cons pkg m.packages
    .ok (pkg, { m with heap, packages })

def readSymbol (m : Machine) (text : List UInt8) : Except HostError (Word × Machine) :=
  match text.findIdx? (· = 58) with
  | none => m.intern text m.current
  | some colon => do
      if 58 ∈ text.drop (colon + 1) then .error (.invalidArgument "colon in symbol name")
      else
        let package ← m.findPackage (text.take colon)
        if package = nil then .error (.invalidArgument "no such package")
        else m.intern (text.drop (colon + 1)) package

/-- `FRESH-SYMBOL!`; no symbol when the keys are exhausted. Its checks of the list of keys are
    left out: they pass on every list of symbols that ends. -/
def freshSymbol : Nat → Machine → Except HostError (Option Word × Machine)
  | 0, _ => .error .diverged
  | fuel + 1, m =>
      if m.nextKey < keyLimit then do
        let serial := m.nextKey + 1
        let m := { m with nextKey := serial }
        match ← m.heap.find (freshName serial) m.keys with
        | some _ => freshSymbol fuel m
        | none =>
            let (key, m) ← m.intern (freshName serial) m.keys
            .ok (some key, { m with heap := m.heap.set .sym .val key key })
      else .ok (none, m)

def given (done : Except HostError (Word × Machine)) : Except HostError (Option Word × Machine) := do
  let (x, m) ← done
  .ok (some x, m)

def perform (m : Machine) : SymbolOp → Except HostError (Option Word × Machine)
  | .intern name package => given (m.intern name package)
  | .keyword name => given (m.keyword name)
  | .read text => given (m.readSymbol text)
  | .define name => given (m.definePackage name)
  | .fresh => freshSymbol (keyLimit + 1 - m.nextKey) m
  | .setUses package uses =>
      .ok (some package, { m with heap := m.heap.set .pkg .use package uses })

end Machine

/-- What a later heap has kept of an earlier one: its words, its lists and all its names. -/
structure Heap.Kept (h g : Heap) : Prop where
  below : h.Below g
  pins : h.nextPin ≤ g.nextPin
  bytes : h.bytes <+: g.bytes
  duo : ∀ w, h.Fit w → tagOf w = .duo → g.read .duo w = h.read .duo w
  text : ∀ w, h.Fit w → tagOf w = .v08 → g.read .v08 w = h.read .v08 w
  name : ∀ w, h.Fit w → tagOf w = .sym → g.get .sym .str w = h.get .sym .str w
  package : ∀ w, h.Fit w → tagOf w = .pkg → g.get .pkg .nam w = h.get .pkg .nam w
  lists : ∀ w, h.Fit w → tagOf w = .pkg → ∀ xs, h.links.Items (h.get .pkg .sym w) xs →
    ∃ ys, g.links.Items (g.get .pkg .sym w) (ys ++ xs)

theorem items_kept {h g : Heap} {w : Word} {xs : List Word}
    (duo : ∀ w, h.Fit w → tagOf w = .duo → g.read .duo w = h.read .duo w) (fitting : h.Fitting)
    (items : h.links.Items w xs) (fit : h.Fit w) : g.links.Items w xs := by
  apply Links.items_congr (M := g.links) items rfl
  intro c held
  have tag := Links.cells_are_cells items c held
  have row := duo c (fit_cells fitting items fit c held) tag
  refine ⟨tag, ?_, ?_⟩
  · change g.get .duo .car c = h.get .duo .car c
    rw [Heap.get, row, Heap.get]
  · change g.get .duo .cdr c = h.get .duo .cdr c
    rw [Heap.get, row, Heap.get]

section Kept
variable {h g : Heap} {w : Word} (kept : h.Kept g)
include kept

theorem Heap.Kept.fit (fit : h.Fit w) : g.Fit w := fit_mono kept.below kept.pins fit

theorem Heap.Kept.slice (catalog : h.Catalog) (fit : h.Fit w) (tag : tagOf w = .v08) : g.v08slice w = h.v08slice w := by
  have row := kept.text w fit tag
  rw [Heap.v08slice, Heap.get, Heap.get, row]
  exact slice_longer kept.bytes (catalog.inside fit tag)

theorem Heap.Kept.symbolName (catalog : h.Catalog) (fit : h.Fit w) (tag : tagOf w = .sym) :
    g.symbolName w = h.symbolName w := by
  obtain ⟨named, text⟩ := catalog.name fit tag
  rw [Heap.symbolName, kept.name w fit tag, kept.slice catalog named text, Heap.symbolName]

theorem Heap.Kept.packageName (catalog : h.Catalog) (fit : h.Fit w) (tag : tagOf w = .pkg) :
    g.packageName w = h.packageName w := by
  obtain ⟨named, text⟩ := catalog.packageName fit tag
  rw [Heap.packageName, kept.package w fit tag, kept.slice catalog named text, Heap.packageName]

theorem Heap.Kept.items {xs : List Word} (fitting : h.Fitting) (items : h.links.Items w xs)
    (fit : h.Fit w) : g.links.Items w xs :=
  items_kept kept.duo fitting items fit

end Kept

theorem Heap.Kept.refl (h : Heap) : h.Kept h where
  below := ⟨rfl, fun _ => le_rfl⟩
  pins := le_rfl
  bytes := prefix_rfl
  duo _ _ _ := rfl
  text _ _ _ := rfl
  name _ _ _ := rfl
  package _ _ _ := rfl
  lists _ _ _ _ items := ⟨[], items⟩

theorem Heap.Kept.trans {h g k : Heap} (first : h.Kept g) (second : g.Kept k) : h.Kept k where
  below := ⟨second.below.era.trans first.below.era, fun l => (first.below.size l).trans (second.below.size l)⟩
  pins := first.pins.trans second.pins
  bytes := first.bytes.trans second.bytes
  duo w fit tag := (second.duo w (first.fit fit) tag).trans (first.duo w fit tag)
  text w fit tag := (second.text w (first.fit fit) tag).trans (first.text w fit tag)
  name w fit tag := (second.name w (first.fit fit) tag).trans (first.name w fit tag)
  package w fit tag := (second.package w (first.fit fit) tag).trans (first.package w fit tag)
  lists w fit tag xs items := by
    obtain ⟨ys, grown⟩ := first.lists w fit tag xs items
    obtain ⟨zs, again⟩ := second.lists w (first.fit fit) tag _ grown
    exact ⟨zs ++ ys, by rw [append_assoc]; exact again⟩

def Heap.Unique (h : Heap) : Prop :=
  ∀ p, h.Fit p → tagOf p = .pkg → ∀ xs, h.links.Items (h.get .pkg .sym p) xs →
    (xs.map h.symbolName).Nodup

theorem unique_kept {h g : Heap} (kept : h.Kept g) (catalog : h.Catalog) (unique : h.Unique)
    (lists : ∀ p, g.Fit p → tagOf p = .pkg →
      (h.Fit p ∧ g.get .pkg .sym p = h.get .pkg .sym p) ∨ g.get .pkg .sym p = nil) : g.Unique := by
  intro p fit tag xs items
  rcases lists p fit tag with ⟨old, same⟩ | empty
  · obtain ⟨head, ys, before, tags⟩ := catalog.list old tag
    rw [same] at items
    have list := Links.items_unique items (kept.items catalog.fitting before head)
    have names : xs.map g.symbolName = ys.map h.symbolName := by
      rw [list]
      apply map_congr_left
      intro y held
      exact kept.symbolName catalog (items_fit catalog.fitting before head y held) (tags y held)
    rw [names]
    exact unique p old tag ys before
  · rw [empty] at items
    have none : xs = [] := Links.items_unique items rfl
    rw [none]
    exact nodup_nil

/-- A row that may be added: its values are, and what names rest on is there. -/
structure Heap.Entry (h : Heap) (k : Kind) (data : Row) : Prop where
  width : data.length = width k
  values : ∀ c ∈ Tidy.valueColumns k, h.Fit (data.getD c 0)
  text : k = .v08 → (data.getD 0 0).toNat + (data.getD 1 0).toNat ≤ h.bytes.length
  symbol : k = .sym → tagOf (data.getD 0 0) = .v08
  package : k = .pkg → tagOf (data.getD 0 0) = .v08 ∧ h.ListOf .sym (data.getD 1 0)

section Catalogs
variable {h g : Heap} {k : Kind} {data : Row} {x : Word}

theorem catalog_kept (catalog : h.Catalog) (kept : h.Kept g)
    (rows : ∀ l, ∀ row ∈ g.table l, row ∈ h.table l ∨ h.Entry l row)
    (sizes : ∀ l, (g.table l).length ≤ maxIndex + 1) (pins : g.pins = h.pins) : g.Catalog where
  shaped :=
    { width := fun l row held => by
        rcases rows l row held with old | entry
        · exact catalog.shaped.width l row old
        · exact entry.width
      rows := sizes
      pins := by
        rw [pins]
        exact catalog.shaped.pins }
  fitting l row held c column := by
    rcases rows l row held with old | entry
    · exact kept.fit (catalog.fitting l row old c column)
    · exact kept.fit (entry.values c column)
  texts row held := by
    have longer := kept.bytes.length_le
    rcases rows .v08 row held with old | entry
    · exact (catalog.texts row old).trans longer
    · exact (entry.text rfl).trans longer
  symbols row held := by
    rcases rows .sym row held with old | entry
    · exact catalog.symbols row old
    · exact entry.symbol rfl
  packages row held := by
    have list (head : Word) (fit : h.Fit head) (symbols : h.ListOf .sym head) :
        g.ListOf .sym head := by
      obtain ⟨xs, items, tags⟩ := symbols
      exact ⟨xs, kept.items catalog.fitting items fit, tags⟩
    rcases rows .pkg row held with old | entry
    · obtain ⟨named, symbols⟩ := catalog.packages row old
      exact ⟨named, list _ (catalog.fitting .pkg row old 1 (by decide)) symbols⟩
    · obtain ⟨named, symbols⟩ := entry.package rfl
      exact ⟨named, list _ (entry.values 1 (by decide)) symbols⟩

theorem read_append (h : Heap) (k : Kind) (data : Row) {l : Kind} {w : Word} (fit : h.Fit w)
    (tag : tagOf w = l.tag) : (h.setTable k (h.table k ++ [data])).read l w = h.read l w := by
  have inside := (fit_pointer fit tag).2
  rw [Heap.read, Heap.row, table_setTable, Heap.read, Heap.row]
  split
  · rename_i same
    subst same
    exact getD_append _ _ _ _ inside
  · rfl

theorem make_kept (catalog : h.Catalog) (made : h.make k data = .ok (x, g)) : h.Kept g := by
  obtain ⟨-, -, -, rfl⟩ := make_ok made
  have read {l : Kind} {w : Word} (fit : h.Fit w) (tag : tagOf w = l.tag) :=
    read_append h k data fit tag
  have duo : ∀ w, h.Fit w → tagOf w = .duo →
      (h.setTable k (h.table k ++ [data])).read .duo w = h.read .duo w :=
    fun w fit tag => read (l := .duo) fit tag
  exact
    { below := below_append h k data
      pins := le_rfl
      bytes := prefix_rfl
      duo
      text := fun w fit tag => read (l := .v08) fit tag
      name := fun w fit tag => by rw [Heap.get, read (l := .sym) fit tag, Heap.get]
      package := fun w fit tag => by rw [Heap.get, read (l := .pkg) fit tag, Heap.get]
      lists := fun w fit tag xs items => by
        refine ⟨[], ?_⟩
        rw [Heap.get, read (l := .pkg) fit tag]
        exact items_kept duo catalog.fitting items (catalog.list fit tag).1 }

theorem make_catalog (catalog : h.Catalog) (entry : h.Entry k data)
    (made : h.make k data = .ok (x, g)) : g.Catalog := by
  have kept := make_kept catalog made
  obtain ⟨-, room, -, rfl⟩ := make_ok made
  apply catalog_kept catalog kept
  · intro l row held
    rw [table_setTable] at held
    split at held
    · rename_i same
      subst same
      rcases mem_append.mp held with old | last
      · exact Or.inl old
      · rw [mem_singleton.mp last]
        exact Or.inr entry
    · exact Or.inl held
  · intro l
    have old := catalog.shaped.rows l
    have bound : maxIndex + 1 = 2 ^ 26 := rfl
    rw [table_setTable]
    split
    · rename_i same
      subst same
      rw [length_append, length_singleton]
      omega
    · exact old
  · rfl

theorem make_fit (made : h.make k data = .ok (x, g)) : g.Fit x := by
  obtain ⟨-, room, rfl, rfl⟩ := make_ok made
  apply fit_of_pointer (tagOf_pointer k _ room)
  · exact eraOf_pointer k _ room
  · rw [indexOf_pointer k _ room, table_setTable, if_pos rfl, length_append]
    exact Nat.lt_succ_self _

theorem make_unique (catalog : h.Catalog) (unique : h.Unique) (made : h.make k data = .ok (x, g))
    (other : k ≠ .pkg) : g.Unique := by
  apply unique_kept (make_kept catalog made) catalog unique
  intro p fit tag
  obtain ⟨-, -, -, rfl⟩ := make_ok made
  have same : (h.setTable k (h.table k ++ [data])).table .pkg = h.table .pkg := by
    rw [table_setTable, if_neg (Ne.symm other)]
  obtain ⟨era, inside⟩ := fit_pointer (k := .pkg) fit tag
  rw [same] at inside
  have old : h.Fit p := fit_of_pointer (k := .pkg) tag era inside
  exact Or.inl ⟨old, by rw [Heap.get, read_append h k data (l := .pkg) old tag, Heap.get]⟩

theorem bytes_kept (h : Heap) (text : List UInt8) :
    h.Kept { h with bytes := h.bytes ++ text } where
  below := ⟨rfl, fun _ => le_rfl⟩
  pins := le_rfl
  bytes := prefix_append _ _
  duo _ _ _ := rfl
  text _ _ _ := rfl
  name _ _ _ := rfl
  package _ _ _ := rfl
  lists _ _ _ _ items := ⟨[], items⟩

theorem bytes_catalog (catalog : h.Catalog) (text : List UInt8) :
    ({ h with bytes := h.bytes ++ text } : Heap).Catalog :=
  catalog_kept catalog (bytes_kept h text) (fun _ _ held => Or.inl held) catalog.shaped.rows rfl

theorem bytes_unique (catalog : h.Catalog) (unique : h.Unique) (text : List UInt8) :
    ({ h with bytes := h.bytes ++ text } : Heap).Unique :=
  unique_kept (bytes_kept h text) catalog unique fun _ fit _ => Or.inl ⟨fit, rfl⟩

structure Heap.Grown (h g : Heap) : Prop where
  kept : h.Kept g
  catalog : g.Catalog
  unique : g.Unique

theorem Heap.Grown.trans {l : Heap} (first : h.Grown g) (second : g.Grown l) : h.Grown l :=
  ⟨first.kept.trans second.kept, second.catalog, second.unique⟩

theorem newv08_reads {text : List UInt8} (done : h.newv08 text = .ok (x, g)) : g.v08slice x = text := by
  have fits := newv08_fits done
  have made := newv08_ok done
  have row := make_read made
  obtain ⟨-, -, -, rfl⟩ := make_ok made
  rw [Heap.v08slice, Heap.get, Heap.get, row]
  change List.take (UInt32.ofNat text.length).toNat
    (List.drop (UInt32.ofNat h.bytes.length).toNat (h.bytes ++ text)) = text
  rcases fits with empty | room
  · rw [length_eq_zero_iff.mp empty]
    simp
  · rw [toNat_ofNat_of_le (by omega), toNat_ofNat_of_le (by omega), drop_left, take_length]

section
variable (catalog : h.Catalog) (unique : h.Unique)
include catalog unique

theorem newv08_grown {text : List UInt8}
    (done : h.newv08 text = .ok (x, g)) : h.Grown g ∧ g.Fit x ∧ tagOf x = .v08 := by
  have made := newv08_ok done
  have longer := bytes_catalog catalog text
  refine ⟨⟨(bytes_kept h text).trans (make_kept longer made), make_catalog longer ?_ made,
    make_unique longer (bytes_unique catalog unique text) made (by decide)⟩, make_fit made,
    (make_points made).1⟩
  exact
    { width := rfl
      values := fun c column => by cases column
      text := fun _ => by
        have start := toNat_ofNat_le h.bytes.length
        have size := toNat_ofNat_le text.length
        simp only [getD_cons_zero, getD_cons_succ, length_append]
        omega
      symbol := fun never => by cases never
      package := fun never => by cases never }

theorem cons_grown {car cdr : Word} (first : h.Fit car)
    (rest : h.Fit cdr) (done : h.cons car cdr = .ok (x, g)) : h.Grown g ∧ g.Fit x := by
  refine ⟨⟨make_kept catalog done, make_catalog catalog ?_ done,
    make_unique catalog unique done (by decide)⟩, make_fit done⟩
  have columns : Tidy.valueColumns .duo = [0, 1] := by decide
  exact
    { width := rfl
      values := fun c column => by
        have cases : c = 0 ∨ c = 1 := by simpa [columns] using column
        rcases cases with rfl | rfl
        · exact first
        · exact rest
      text := fun never => by cases never
      symbol := fun never => by cases never
      package := fun never => by cases never }

theorem newPackage_grown {name : List UInt8} (done : h.newPackage name = .ok (x, g)) : h.Grown g ∧ g.Fit x ∧
    tagOf x = .pkg ∧ g.packageName x = name ∧ g.get .pkg .sym x = nil ∧ g.get .pkg .use x = nil ∧ ¬ h.Fit x := by
  obtain ⟨⟨nam, middle⟩, text, made⟩ := bind_ok done
  obtain ⟨first, fit, tag⟩ := newv08_grown catalog unique text
  have row := make_read made
  have packages : middle.table .pkg = h.table .pkg := by
    obtain ⟨-, -, -, rfl⟩ := make_ok (newv08_ok text)
    rw [table_setTable, if_neg (by decide)]
    rfl
  have kept := make_kept first.catalog made
  have columns : Tidy.valueColumns .pkg = [0, 1, 2] := by decide
  have empty : middle.Fit nil := rfl
  have entry : middle.Entry .pkg [nam, nil, nil] :=
    { width := rfl
      values := fun c column => by
        have cases : c = 0 ∨ c = 1 ∨ c = 2 := by simpa [columns] using column
        rcases cases with rfl | rfl | rfl
        · exact fit
        · exact empty
        · exact empty
      text := fun never => by cases never
      symbol := fun never => by cases never
      package := fun _ => ⟨tag, [], rfl, nofun⟩ }
  have catalog' := make_catalog first.catalog entry made
  have symbols : g.get .pkg .sym x = nil := by
    rw [Heap.get, row]
    rfl
  have new : ¬ h.Fit x := by
    intro before
    obtain ⟨-, room, place, -⟩ := make_ok made
    have inside := (fit_pointer (k := .pkg) before (make_points made).1).2
    rw [place, indexOf_pointer _ _ room, packages] at inside
    exact absurd inside (lt_irrefl _)
  refine ⟨⟨first.kept.trans kept, catalog', ?_⟩, make_fit made, (make_points made).1, ?_, symbols, ?_, new⟩
  · apply unique_kept kept first.catalog first.unique
    intro p here pkg
    by_cases same : p = x
    · rw [same]
      exact Or.inr symbols
    · obtain ⟨era, inside⟩ := fit_pointer (k := .pkg) here pkg
      have size : (g.table .pkg).length = (middle.table .pkg).length + 1 := by
        rw [(make_ok made).2.2.2, table_setTable, if_pos rfl, length_append]
        rfl
      have old : indexOf p < (middle.table .pkg).length := by
        by_contra last
        have index : indexOf p = (middle.table .pkg).length := by omega
        apply same
        rw [← pointer_eta (k := .pkg) pkg, index, era, kept.below.era]
        exact (make_ok made).2.2.1.symm
      have before : middle.Fit p :=
        fit_of_pointer (k := .pkg) pkg (era.trans kept.below.era) old
      refine Or.inl ⟨before, ?_⟩
      rw [(make_ok made).2.2.2, Heap.get, read_append middle .pkg _ (l := .pkg) before pkg, Heap.get]
  · rw [Heap.packageName]
    have named : g.get .pkg .nam x = nam := by
      rw [Heap.get, row]
      rfl
    rw [named, kept.slice first.catalog fit tag]
    exact newv08_reads text
  · rw [Heap.get, row]
    rfl

theorem added_grown {name : List UInt8} {package : Word} (fit : h.Fit package) (tag : tagOf package = .pkg)
    (missing : h.find name package = .ok none) (added : h.Added name package g x) : h.Grown g := by
  have after := added.catalog catalog fit tag
  have lists (w : Word) (old : h.Fit w) (pkg : tagOf w = .pkg) (xs : List Word)
      (items : h.links.Items (h.get .pkg .sym w) xs) :
      g.links.Items (g.get .pkg .sym w) (if w = package then x :: xs else xs) := by
    split
    · rename_i same
      rw [same] at items ⊢
      exact added.list catalog fit tag items
    · rename_i other
      rw [added.symbols_get other old pkg fit tag]
      exact added.items catalog.fitting items (catalog.list old pkg).1
  refine ⟨?_, after, ?_⟩
  · exact
      { below := added.below
        pins := added.nextPin.ge
        bytes := by
          rw [added.bytes]
          exact prefix_append _ _
        duo := fun w old cell => added.read (k := .duo) (by decide) old cell
        text := fun w old text => added.read (k := .v08) (by decide) old text
        name := fun w old sym => added.get (k := .sym) (by decide) old sym .str
        package := fun w _ _ => added.package_get (by decide)
        lists := fun w old pkg xs items => by
          have longer := lists w old pkg xs items
          split at longer
          · exact ⟨[x], longer⟩
          · exact ⟨[], longer⟩ }
  · intro p here pkg xs items
    obtain ⟨era, inside⟩ := fit_pointer (k := .pkg) here pkg
    have size : (g.table .pkg).length = (h.table .pkg).length := by
      rw [added.tables]
      exact length_set
    have old : h.Fit p :=
      fit_of_pointer (k := .pkg) pkg (era.trans added.era) (by omega)
    obtain ⟨ys, before, syms, search⟩ := catalog.find old pkg
    have list := Links.items_unique items (lists p old pkg ys before)
    have names : ys.map g.symbolName = ys.map h.symbolName := by
      apply map_congr_left
      intro y held
      exact added.symbolName catalog (syms y held).2 (syms y held).1
    rw [list]
    split
    · rename_i same
      rw [same] at search
      have absent := (search name).symm.trans missing
      rw [map_cons, names, added.named]
      apply nodup_cons.mpr
      refine ⟨fun held => ?_, unique p old pkg ys before⟩
      obtain ⟨y, member, named⟩ := mem_map.mp held
      have lacks := find?_eq_none.mp (Except.ok.inj absent) y member
      exact lacks (decide_eq_true named)
    · rw [names]
      exact unique p old pkg ys before

theorem set_grown {f : Field} {w value : Word} (fit : h.Fit w) (tag : tagOf w = k.tag) (kind : k = .sym ∨ k = .pkg)
    (column : 2 ≤ columnIndex k f) (held : h.Fit value) : h.Grown (h.set k f w value) := by
  have inside := (fit_pointer fit tag).2
  have plain : k ≠ .duo ∧ k ≠ .v08 := by
    rcases kind with rfl | rfl <;> decide
  have table (l : Kind) : (h.set k f w value).table l = if l = k then
      (h.table k).set (indexOf w) ((h.row k (indexOf w)).set (columnIndex k f) value)
      else h.table l := by
    rw [Heap.set, Heap.setColumn, table_setTable]
  have read {l : Kind} (other : l ≠ k) (x : Word) : (h.set k f w value).read l x = h.read l x := by
    rw [Heap.read, Heap.row, table, if_neg other, Heap.read, Heap.row]
  -- The first two columns of every row are what they were.
  have early {l : Kind} (x : Word) {c : Nat} (first : c < 2) :
      ((h.set k f w value).read l x).getD c 0 = (h.read l x).getD c 0 := by
    rw [Heap.read, Heap.row, table]
    split
    · rename_i same
      subst same
      rw [getD_set]
      split
      · rename_i here
        rw [getD_set, if_neg (by omega), Heap.read, here.1]
      · rfl
    · rfl
  have kept : h.Kept (h.set k f w value) :=
    { below :=
        { era := rfl
          size := fun l => by
            rw [table]
            split
            · rename_i same
              subst same
              rw [length_set]
            · exact le_rfl }
      pins := le_rfl
      bytes := prefix_rfl
      duo := fun x _ _ => read plain.1.symm x
      text := fun x _ _ => read plain.2.symm x
      name := fun x _ _ => early x (by decide)
      package := fun x _ _ => early x (by decide)
      lists := fun x old pkg xs items => by
        have same : (h.set k f w value).get .pkg .sym x = h.get .pkg .sym x :=
          early x (by decide)
        refine ⟨[], ?_⟩
        rw [same]
        exact items_kept (fun y _ _ => read plain.1.symm y) catalog.fitting items
          (catalog.list old pkg).1 }
  refine ⟨kept, ?_, ?_⟩
  · apply catalog_kept catalog kept
    · intro l row member
      rw [table] at member
      split at member
      · rename_i same
        subst same
        have mem := read_mem fit tag
        have first {c : Nat} (early : c < 2) : ((h.row l (indexOf w)).set (columnIndex l f) value).getD c 0 =
            (h.row l (indexOf w)).getD c 0 := by
          rw [getD_set, if_neg (by omega)]
        rcases mem_or_eq_of_mem_set member with old | rfl
        · exact Or.inl old
        · right
          exact
            { width := by
                rw [length_set]
                exact catalog.shaped.width l _ mem
              values := fun c value => by
                rw [getD_set]
                split
                · exact held
                · exact catalog.fitting l _ mem c value
              text := fun text => absurd text plain.2
              symbol := fun sym => by
                subst sym
                rw [first (by decide)]
                exact catalog.symbols _ mem
              package := fun pkg => by
                subst pkg
                rw [first (by decide), first (by decide)]
                exact catalog.packages _ mem }
      · exact Or.inl member
    · intro l
      have size := catalog.shaped.rows l
      rw [table]
      split
      · rename_i same
        subst same
        rw [length_set]
        exact size
      · exact size
    · rfl
  · apply unique_kept kept catalog unique
    intro p here pkg
    obtain ⟨era, bound⟩ := fit_pointer (k := .pkg) here pkg
    have size : ((h.set k f w value).table .pkg).length = (h.table .pkg).length := by
      rw [table]
      split
      · rename_i same
        subst same
        rw [length_set]
      · rfl
    exact Or.inl ⟨fit_of_pointer (k := .pkg) pkg era (by omega), early p (by decide)⟩

end

end Catalogs

/-! ### One operation -/

structure Machine.Tables (m : Machine) : Prop where
  catalog : m.heap.Catalog
  unique : m.heap.Unique
  head : m.heap.Fit m.packages
  registry : ∃ ps, m.heap.links.Items m.packages ps ∧ (∀ p ∈ ps, tagOf p = .pkg) ∧
    (ps.map m.heap.packageName).Nodup
  members : ∀ p ∈ [m.base, m.keywords, m.keys, m.current], m.heap.Fit p ∧ tagOf p = .pkg
  apart : m.keys ≠ m.base

structure Machine.Onward (m n : Machine) : Prop where
  tables : n.Tables
  kept : m.heap.Kept n.heap
  base : n.base = m.base

section Operations
variable {m n : Machine} {x : Word} {name : List UInt8} {package : Word}

theorem Machine.Onward.trans {l : Machine} (first : m.Onward n) (second : n.Onward l) : m.Onward l :=
  ⟨second.tables, first.kept.trans second.kept, second.base.trans first.base⟩

theorem Machine.Tables.grown {g : Heap} (tables : m.Tables) (grown : m.heap.Grown g) :
    m.Onward { m with heap := g } := by
  obtain ⟨ps, items, tags, nodup⟩ := tables.registry
  have fits := items_fit tables.catalog.fitting items tables.head
  refine ⟨⟨grown.catalog, grown.unique, grown.kept.fit tables.head, ?_, ?_, tables.apart⟩, grown.kept, rfl⟩
  · refine ⟨ps, grown.kept.items tables.catalog.fitting items tables.head, tags, ?_⟩
    have names : ps.map g.packageName = ps.map m.heap.packageName := by
      apply map_congr_left
      intro p held
      exact grown.kept.packageName tables.catalog (fits p held) (tags p held)
    rw [names]
    exact nodup
  · intro p held
    obtain ⟨fit, tag⟩ := tables.members p held
    exact ⟨grown.kept.fit fit, tag⟩

theorem Machine.Tables.refl (tables : m.Tables) : m.Onward m :=
  ⟨tables, Heap.Kept.refl m.heap, rfl⟩

theorem lookup_missing {h : Heap} (missing : h.lookup name package = .ok none) : h.find name package = .ok none := by
  obtain ⟨own, search, rest⟩ := bind_ok missing
  cases own with
  | none => exact search
  | some y => cases rest

theorem resolve_missing (missing : m.resolve name package = .ok none) : m.heap.lookup name package = .ok none := by
  rw [Machine.resolve] at missing
  split at missing
  · cases missing
  · split at missing
    · cases missing
    · exact missing

theorem intern_onward (tables : m.Tables) (fit : m.heap.Fit package) (tag : tagOf package = .pkg)
    (done : m.intern name package = .ok (x, n)) : m.Onward n := by
  rcases intern_cases done with ⟨_, rfl⟩ | ⟨missing, g, added, rfl⟩
  · exact tables.refl
  · exact tables.grown (added_grown tables.catalog tables.unique fit tag
      (lookup_missing (resolve_missing missing)) added)

theorem findPackageFrom_items {h : Heap} {x : Word} {ps : List Word} {fuel : Nat}
    (items : h.links.Items x ps) (enough : ps.length < fuel) : h.findPackageFrom name fuel x =
      .ok ((ps.find? fun pkg => h.packageName pkg = name).getD nil) := by
  induction ps generalizing x fuel with
  | nil =>
    obtain ⟨fuel, rfl⟩ : ∃ n, fuel = n + 1 := ⟨fuel - 1, by simp at enough; omega⟩
    have stop : x = nil := items
    rw [Heap.findPackageFrom, if_pos stop]
    rfl
  | cons y ys ih =>
    obtain ⟨fuel, rfl⟩ : ∃ n, fuel = n + 1 := ⟨fuel - 1, by simp at enough; omega⟩
    have more : x ≠ nil := by
      rintro rfl
      exact absurd items.1 h.links.outside
    have head : h.get .duo .car x = y := items.2.1
    rw [Heap.findPackageFrom, if_neg more, head, find?_cons]
    by_cases found : h.packageName y = name
    · simp [found]
    · simp only [found, if_false, decide_false]
      exact ih items.2.2 (by simp at enough; omega)

theorem findPackage_ok (tables : m.Tables) : ∃ ps, m.heap.links.Items m.packages ps ∧
    (∀ p ∈ ps, tagOf p = .pkg ∧ m.heap.Fit p) ∧ (ps.map m.heap.packageName).Nodup ∧ ∀ name, m.findPackage name =
      .ok ((ps.find? fun pkg => m.heap.packageName pkg = name).getD nil) := by
  obtain ⟨ps, items, tags, nodup⟩ := tables.registry
  have fits := items_fit tables.catalog.fitting items tables.head
  have short := items_short tables.catalog.fitting items tables.head
  have rows := tables.catalog.shaped.rows .duo
  refine ⟨ps, items, fun p held => ⟨tags p held, fits p held⟩, nodup, fun name => ?_⟩
  exact findPackageFrom_items items (by unfold listFuel; omega)

theorem definePackage_onward (tables : m.Tables) (done : m.definePackage name = .ok (x, n)) : m.Onward n := by
  obtain ⟨ps, items, pkgs, nodup, search⟩ := findPackage_ok tables
  rw [Machine.definePackage, search] at done
  obtain ⟨found, same, done⟩ := bind_ok done
  cases same
  split at done
  · cases done
  · rename_i absent
    obtain ⟨⟨pkg, middle⟩, created, done⟩ := bind_ok done
    obtain ⟨⟨cell, g⟩, consed, done⟩ := bind_ok done
    cases done
    obtain ⟨first, fit, tag, named, -, -, -⟩ :=
      newPackage_grown tables.catalog tables.unique created
    obtain ⟨second, cellFit⟩ := cons_grown first.catalog first.unique fit
      (first.kept.fit tables.head) consed
    have grown := first.trans second
    have onward := tables.grown grown
    refine ⟨⟨onward.tables.catalog, onward.tables.unique, cellFit, ?_, onward.tables.members,
      tables.apart⟩, onward.kept, rfl⟩
    have row := make_read consed
    have car : g.get .duo .car cell = x := by
      rw [Heap.get, row]
      rfl
    have cdr : g.get .duo .cdr cell = m.packages := by
      rw [Heap.get, row]
      rfl
    refine ⟨x :: ps, ⟨(make_points consed).1, car, ?_⟩, ?_, ?_⟩
    · change g.links.Items (g.get .duo .cdr cell) ps
      rw [cdr]
      exact grown.kept.items tables.catalog.fitting items tables.head
    · intro p held
      rcases mem_cons.mp held with rfl | old
      · exact tag
      · exact (pkgs p old).1
    · have names : ps.map g.packageName = ps.map m.heap.packageName := by
        apply map_congr_left
        intro p held
        exact grown.kept.packageName tables.catalog (pkgs p held).2 (pkgs p held).1
      have new : g.packageName x = name := by
        rw [second.kept.packageName first.catalog fit tag]
        exact named
      change ((x :: ps).map g.packageName).Nodup
      rw [map_cons, names, new]
      apply nodup_cons.mpr
      refine ⟨fun held => ?_, nodup⟩
      obtain ⟨p, member, same⟩ := mem_map.mp held
      have none : ps.find? (fun pkg => m.heap.packageName pkg = name) = none := by
        cases found : ps.find? (fun pkg => m.heap.packageName pkg = name) with
        | none => rfl
        | some q =>
          rw [found, not_not] at absent
          have tagged := (pkgs q (mem_of_find?_eq_some found)).1
          rw [show q = nil from absent] at tagged
          exact absurd tagged (by decide)
      exact find?_eq_none.mp none p member (decide_eq_true same)

theorem readSymbol_onward (tables : m.Tables) {text : List UInt8}
    (done : m.readSymbol text = .ok (x, n)) : m.Onward n := by
  obtain ⟨ps, _, pkgs, _, search⟩ := findPackage_ok tables
  rw [Machine.readSymbol] at done
  split at done
  · obtain ⟨fit, tag⟩ := tables.members m.current (by simp)
    exact intern_onward tables fit tag done
  · split at done
    · cases done
    · rw [search] at done
      obtain ⟨package, same, done⟩ := bind_ok done
      cases same
      split at done
      · cases done
      · rename_i found
        generalize look : ps.find? _ = result at found done
        cases result with
        | none => exact absurd rfl found
        | some q =>
          obtain ⟨tag, fit⟩ := pkgs q (mem_of_find?_eq_some look)
          exact intern_onward tables fit tag done

theorem intern_symbol (tables : m.Tables) (fit : m.heap.Fit package) (tag : tagOf package = .pkg)
    (plain : package = m.base → name ≠ ascii "NIL" ∧ name ≠ ascii "T")
    (done : m.intern name package = .ok (x, n)) : n.heap.Fit x ∧ tagOf x = .sym := by
  rcases intern_cases done with ⟨found, rfl⟩ | ⟨_, g, added, rfl⟩
  · rw [Machine.resolve, if_neg (fun both => (plain both.1).1 both.2),
      if_neg (fun both => (plain both.1).2 both.2)] at found
    obtain ⟨here, sym, _⟩ := lookup_some tables.catalog fit tag found
    exact ⟨here, sym⟩
  · exact ⟨added.symbol_fit, added.symbol_tag⟩

theorem freshSymbol_onward (fuel : Nat) {result : Option Word} (tables : m.Tables)
    (done : Machine.freshSymbol fuel m = .ok (result, n)) : m.Onward n := by
  induction fuel generalizing m with
  | zero => cases done
  | succ fuel ih =>
    rw [Machine.freshSymbol] at done
    split at done
    · have counted : Machine.Tables { m with nextKey := m.nextKey + 1 } := { tables with }
      have onward : m.Onward { m with nextKey := m.nextKey + 1 } :=
        ⟨counted, Heap.Kept.refl m.heap, rfl⟩
      obtain ⟨found, _, done⟩ := bind_ok done
      cases found with
      | some _ => exact onward.trans (ih counted done)
      | none =>
        obtain ⟨⟨key, next⟩, interned, done⟩ := bind_ok done
        cases done
        obtain ⟨fit, tag⟩ := counted.members m.keys (by simp)
        have first := intern_onward counted fit tag interned
        obtain ⟨keyFit, keyTag⟩ := intern_symbol counted fit tag
          (fun same => absurd same tables.apart) interned
        exact onward.trans (first.trans (first.tables.grown
          (set_grown first.tables.catalog first.tables.unique keyFit (k := .sym) keyTag
            (Or.inl rfl) (by decide) keyFit)))
    · cases done
      exact tables.refl

/-- The words a caller passes are words of this machine, and a package where one is asked for. -/
def SymbolOp.Allowed (m : Machine) : SymbolOp → Prop
  | .intern _ package => m.heap.Fit package ∧ tagOf package = .pkg
  | .setUses package uses => (m.heap.Fit package ∧ tagOf package = .pkg) ∧ m.heap.Fit uses
  | _ => True

theorem given_ok {done : Except HostError (Word × Machine)} {result : Option Word}
    (ran : Machine.given done = .ok (result, n)) : ∃ x, done = .ok (x, n) := by
  obtain ⟨⟨x, m⟩, first, last⟩ := bind_ok ran
  cases last
  exact ⟨x, first⟩

theorem perform_onward (tables : m.Tables) (op : SymbolOp) (allowed : op.Allowed m)
    {result : Option Word} (done : m.perform op = .ok (result, n)) : m.Onward n := by
  cases op with
  | intern name package =>
    obtain ⟨x, ran⟩ := given_ok done
    exact intern_onward tables allowed.1 allowed.2 ran
  | keyword name =>
    obtain ⟨x, ran⟩ := given_ok done
    obtain ⟨fit, tag⟩ := tables.members m.keywords (by simp)
    exact intern_onward tables fit tag ran
  | read text =>
    obtain ⟨x, ran⟩ := given_ok done
    exact readSymbol_onward tables ran
  | define name =>
    obtain ⟨x, ran⟩ := given_ok done
    exact definePackage_onward tables ran
  | fresh => exact freshSymbol_onward _ tables done
  | setUses package uses =>
    cases done
    exact tables.grown (set_grown tables.catalog tables.unique allowed.1.1 (k := .pkg) allowed.1.2
      (Or.inr rfl) (by decide) allowed.2)

/-- Operations one after another. One that is refused leaves the machine as it is. -/
inductive SymbolRun : Machine → List SymbolOp → Machine → Prop where
  | start (m : Machine) : SymbolRun m [] m
  | next {m n l : Machine} {op : SymbolOp} {ops : List SymbolOp} {result : Option Word}
      (allowed : op.Allowed m) (done : m.perform op = .ok (result, n)) (rest : SymbolRun n ops l) :
      SymbolRun m (op :: ops) l
  | refused {m l : Machine} {op : SymbolOp} {ops : List SymbolOp} {message : String}
      (allowed : op.Allowed m) (done : m.perform op = .error (.invalidArgument message))
      (rest : SymbolRun m ops l) : SymbolRun m (op :: ops) l

theorem run_onward {ops : List SymbolOp} (run : SymbolRun m ops n) (tables : m.Tables) : m.Onward n := by
  induction run with
  | start m => exact tables.refl
  | next allowed done _ ih =>
    have first := perform_onward tables _ allowed done
    exact first.trans (ih first.tables)
  | refused _ _ _ ih => exact ih tables

end Operations

/-! ### The search ends -/

section Search
variable {h : Heap} {name : List UInt8} {package : Word}

theorem findUsed_turn (catalog : h.Catalog) {fuel : Nat} {cur slow : Word} {moveSlow : Bool} (fit : h.Fit cur)
    (gave_up : h.findUsed name (fuel + 1) cur slow moveSlow = .error .diverged) : tagOf cur = .duo ∧
      (h.get .duo .cdr cur = (if moveSlow then h.get .duo .cdr slow else slow) → h.get .duo .cdr cur = nil) ∧
      h.findUsed name fuel (h.get .duo .cdr cur)
        (if moveSlow then h.get .duo .cdr slow else slow) (!moveSlow) = .error .diverged := by
  rw [Heap.findUsed] at gave_up
  split at gave_up
  · cases gave_up
  · split at gave_up
    · cases gave_up
    · rename_i cell
      have tag : tagOf cur = .duo := not_not.mp cell
      by_cases usedTag : tagOf (h.get .duo .car cur) = .pkg
      · have usedFit := fit_get (k := .duo) catalog.fitting fit tag
          (show columnIndex .duo .car ∈ Tidy.valueColumns .duo by decide)
        obtain ⟨xs, -, -, search⟩ := catalog.find usedFit usedTag
        simp only [usedTag, ne_eq, not_true, if_false, search] at gave_up
        change (match xs.find? (fun sym => decide (h.symbolName sym = name)) with
          | some inherited => Except.ok (some inherited)
          | none => if ¬ h.get .duo .cdr cur = nil ∧ h.get .duo .cdr cur =
                (if moveSlow = true then h.get .duo .cdr slow else slow) then
              Except.error (HostError.invalidArgument "cyclic package uses list")
            else h.findUsed name fuel (h.get .duo .cdr cur)
              (if moveSlow = true then h.get .duo .cdr slow else slow) (!moveSlow)) = _ at gave_up
        generalize xs.find? (fun sym => decide (h.symbolName sym = name)) = found at gave_up
        generalize (if moveSlow = true then h.get .duo .cdr slow else slow) = s at gave_up ⊢
        cases found with
        | some y => cases gave_up
        | none =>
          simp only at gave_up
          split at gave_up
          · cases gave_up
          · rename_i apart
            refine ⟨tag, fun met => ?_, gave_up⟩
            by_contra more
            exact apart ⟨more, met⟩
      · simp only [usedTag, ne_eq, not_false_eq_true, if_true] at gave_up
        cases gave_up

theorem findUsed_diverges (catalog : h.Catalog) (u : Word) (fuel i : Nat) (fit : h.Fit ((h.get .duo .cdr)^[i] u))
    (gave_up : h.findUsed name fuel ((h.get .duo .cdr)^[i] u) ((h.get .duo .cdr)^[i / 2] u)
      (decide (i % 2 = 1)) = .error .diverged) :
    ∀ j < fuel, h.Fit ((h.get .duo .cdr)^[i + j] u) ∧ tagOf ((h.get .duo .cdr)^[i + j] u) = .duo ∧
      ((h.get .duo .cdr)^[i + j + 1] u = (h.get .duo .cdr)^[(i + j + 1) / 2] u →
        (h.get .duo .cdr)^[i + j + 1] u = nil) := by
  induction fuel generalizing i with
  | zero => exact fun j never => absurd never (Nat.not_lt_zero j)
  | succ fuel ih =>
    obtain ⟨tag, apart, rest⟩ := findUsed_turn catalog fit gave_up
    have next : h.get .duo .cdr ((h.get .duo .cdr)^[i] u) = (h.get .duo .cdr)^[i + 1] u :=
      (Function.iterate_succ_apply' _ _ _).symm
    have slow : (if decide (i % 2 = 1) = true then
        h.get .duo .cdr ((h.get .duo .cdr)^[i / 2] u) else (h.get .duo .cdr)^[i / 2] u) =
        (h.get .duo .cdr)^[(i + 1) / 2] u := by
      split
      · rename_i odd
        have odd : i % 2 = 1 := of_decide_eq_true odd
        rw [show (i + 1) / 2 = i / 2 + 1 by omega, Function.iterate_succ_apply']
      · rename_i even
        have even : i % 2 ≠ 1 := fun odd => even (decide_eq_true odd)
        rw [show (i + 1) / 2 = i / 2 by omega]
    have turn : (!decide (i % 2 = 1)) = decide ((i + 1) % 2 = 1) := by
      rw [← decide_not]
      exact decide_eq_decide.mpr (by omega)
    rw [slow, next] at apart
    rw [slow, next, turn] at rest
    have fitNext : h.Fit ((h.get .duo .cdr)^[i + 1] u) := by
      rw [← next]
      exact fit_tail catalog.fitting fit tag
    have later := ih (i + 1) fitNext rest
    intro j inside
    cases j with
    | zero => exact ⟨fit, tag, apart⟩
    | succ j =>
      have found := later j (by omega)
      rw [show i + (j + 1) = i + 1 + j by omega]
      exact found

theorem lookup_ends (catalog : h.Catalog) (fit : h.Fit package) (tag : tagOf package = .pkg) :
    h.lookup name package ≠ .error .diverged := by
  intro gave_up
  obtain ⟨xs, -, -, search⟩ := catalog.find fit tag
  rw [Heap.lookup, search] at gave_up
  change (match xs.find? (fun sym => decide (h.symbolName sym = name)) with
    | some own => Except.ok (some own)
    | none => h.findUsed name (4 * listFuel) (h.get .pkg .use package)
      (h.get .pkg .use package) false) = _ at gave_up
  generalize xs.find? (fun sym => decide (h.symbolName sym = name)) = own at gave_up
  cases own with
  | some y => cases gave_up
  | none =>
    have usesFit := fit_get (k := .pkg) catalog.fitting fit tag
      (show columnIndex .pkg .use ∈ Tidy.valueColumns .pkg by decide)
    have walk := findUsed_diverges catalog (h.get .pkg .use package) (4 * listFuel) 0 usesFit gave_up
    have rows := catalog.shaped.rows .duo
    have fuel : 4 * listFuel = 4 * (maxIndex + 2) := rfl
    have place (i : Nat) (early : i ≤ (h.table .duo).length) := walk i (by omega)
    simp only [Nat.zero_add] at place walk
    obtain ⟨j, some, bound, met⟩ := meeting (f := h.get .duo .cdr) (x := h.get .pkg .use package)
      (n := (h.table .duo).length) indexOf
      (fun i early => (fit_pointer (k := .duo) (place i early).1 (place i early).2.1).2)
      (fun i early j late same => fit_injective (k := .duo) (place i early).1 (place i early).2.1
        (place j late).1 (place j late).2.1 same)
    obtain ⟨j, rfl⟩ : ∃ n, j = n + 1 := ⟨j - 1, by omega⟩
    have stop := (walk j (by omega)).2.2 met
    have more := (walk (j + 1) (by omega)).2.1
    rw [stop] at more
    exact absurd more (by decide)

end Search

/-! ### What packages use -/

def Heap.Plain (h : Heap) : Prop :=
  ∀ p, h.Fit p → tagOf p = .pkg → h.get .pkg .use p = nil

section Uses
variable {h g : Heap} {m n : Machine} {x : Word} {name : List UInt8} {package : Word}

theorem plain_same (plain : h.Plain) (era : g.era = h.era) (same : g.table .pkg = h.table .pkg) : g.Plain := by
  intro p fit tag
  obtain ⟨current, inside⟩ := fit_pointer (k := .pkg) fit tag
  rw [same] at inside
  have old := plain p (fit_of_pointer (k := .pkg) tag (current.trans era) inside) tag
  rw [Heap.get, Heap.read, Heap.row, same]
  exact old

theorem added_plain (plain : h.Plain) (added : h.Added name package g x) : g.Plain := by
  intro p fit tag
  obtain ⟨current, inside⟩ := fit_pointer (k := .pkg) fit tag
  have size : (g.table .pkg).length = (h.table .pkg).length := by
    rw [added.tables]
    exact length_set
  rw [added.package_get (by decide)]
  exact plain p (fit_of_pointer (k := .pkg) tag (current.trans added.era) (by omega)) tag

theorem newPackage_plain (plain : h.Plain) (done : h.newPackage name = .ok (x, g)) : g.Plain := by
  obtain ⟨⟨nam, middle⟩, text, made⟩ := bind_ok done
  have before : middle.Plain := by
    obtain ⟨-, -, -, rfl⟩ := make_ok (newv08_ok text)
    refine plain_same plain ?_ ?_
    · rfl
    · rw [table_setTable, if_neg (by decide)]
      rfl
  have row := make_read made
  obtain ⟨-, room, place, rfl⟩ := make_ok made
  intro p fit tag
  obtain ⟨current, inside⟩ := fit_pointer (k := .pkg) fit tag
  by_cases same : p = x
  · rw [same, Heap.get, row]
    rfl
  · rw [table_setTable, if_pos rfl, length_append, length_singleton] at inside
    have old : indexOf p < (middle.table .pkg).length := by
      by_contra last
      apply same
      rw [place, ← pointer_eta (k := .pkg) tag, current]
      exact congrArg (fun i => pointer .pkg i middle.era) (by omega)
    have fit := fit_of_pointer (h := middle) (k := .pkg) tag current old
    rw [Heap.get, read_append middle .pkg _ (l := .pkg) fit tag]
    exact before p fit tag

theorem intern_plain (plain : m.heap.Plain) (done : m.intern name package = .ok (x, n)) : n.heap.Plain := by
  rcases intern_cases done with ⟨_, rfl⟩ | ⟨_, g, added, rfl⟩
  · exact plain
  · exact added_plain plain added

theorem freshSymbol_plain (fuel : Nat) {result : Option Word} (plain : m.heap.Plain)
    (done : Machine.freshSymbol fuel m = .ok (result, n)) : n.heap.Plain := by
  induction fuel generalizing m with
  | zero => cases done
  | succ fuel ih =>
    rw [Machine.freshSymbol] at done
    split at done
    · obtain ⟨found, _, done⟩ := bind_ok done
      cases found with
      | some _ => exact ih (m := { m with nextKey := m.nextKey + 1 }) plain done
      | none =>
        obtain ⟨⟨key, next⟩, interned, done⟩ := bind_ok done
        cases done
        have after := intern_plain (m := { m with nextKey := m.nextKey + 1 }) plain interned
        refine plain_same after ?_ ?_
        · rfl
        · rw [Heap.set, Heap.setColumn, table_setTable, if_neg (by decide)]
    · cases done
      exact plain

def SymbolOp.keepsUses : SymbolOp → Bool
  | .setUses _ _ => false
  | _ => true

theorem perform_plain (plain : m.heap.Plain) {op : SymbolOp} (keeps : op.keepsUses = true)
    {result : Option Word} (done : m.perform op = .ok (result, n)) : n.heap.Plain := by
  cases op with
  | intern name package =>
    obtain ⟨x, ran⟩ := given_ok done
    exact intern_plain plain ran
  | keyword name =>
    obtain ⟨x, ran⟩ := given_ok done
    exact intern_plain plain ran
  | read text =>
    obtain ⟨x, ran⟩ := given_ok done
    rw [Machine.readSymbol] at ran
    split at ran
    · exact intern_plain plain ran
    · split at ran
      · cases ran
      · obtain ⟨package, _, ran⟩ := bind_ok ran
        split at ran
        · cases ran
        · exact intern_plain plain ran
  | define name =>
    obtain ⟨x, ran⟩ := given_ok done
    obtain ⟨found, _, ran⟩ := bind_ok ran
    split at ran
    · cases ran
    · obtain ⟨⟨pkg, middle⟩, created, ran⟩ := bind_ok ran
      obtain ⟨⟨cell, g⟩, consed, ran⟩ := bind_ok ran
      cases ran
      obtain ⟨-, -, -, rfl⟩ := make_ok consed
      refine plain_same (newPackage_plain plain created) ?_ ?_
      · rfl
      · rw [table_setTable, if_neg (by decide)]
  | fresh => exact freshSymbol_plain _ plain done
  | setUses package uses => cases keeps

theorem run_plain {ops : List SymbolOp} (run : SymbolRun m ops n) (plain : m.heap.Plain)
    (keeps : ∀ op ∈ ops, op.keepsUses = true) : n.heap.Plain := by
  induction run with
  | start m => exact plain
  | next _ done _ ih =>
    exact ih (perform_plain plain (keeps _ mem_cons_self) done)
      fun op later => keeps op (mem_cons_of_mem _ later)
  | refused _ _ _ ih => exact ih plain fun op later => keeps op (mem_cons_of_mem _ later)

end Uses

/-! ### The same name again -/

section Again
variable {h g : Heap} {m n : Machine} {x : Word} {name : List UInt8} {package : Word}

theorem find_kept (kept : h.Kept g) (catalog : h.Catalog) (after : g.Catalog) (unique : g.Unique) (fit : h.Fit package)
    (tag : tagOf package = .pkg) (found : h.find name package = .ok (some x)) : g.find name package = .ok (some x) := by
  obtain ⟨xs, items, syms, search⟩ := catalog.find fit tag
  have here := Except.ok.inj ((search name).symm.trans found)
  have member := mem_of_find?_eq_some here
  have held := find?_some here
  have named : h.symbolName x = name := of_decide_eq_true held
  obtain ⟨ys, longer⟩ := kept.lists package fit tag xs items
  obtain ⟨zs, again, -, refound⟩ := after.find (kept.fit fit) tag
  have list := Links.items_unique again longer
  have listed : x ∈ zs := by
    rw [list]
    exact mem_append_right ys member
  have still : g.symbolName x = name := by
    rw [kept.symbolName catalog (syms x member).2 (syms x member).1, named]
  have nodup := unique package (kept.fit fit) tag zs again
  rw [refound]
  congr 1
  cases first : zs.find? (fun sym => g.symbolName sym = name) with
  | none => exact absurd (decide_eq_true still) (find?_eq_none.mp first x listed)
  | some y =>
    have matched := find?_some first
    have other : g.symbolName y = name := of_decide_eq_true matched
    exact congrArg some (inj_on_of_nodup_map nodup (mem_of_find?_eq_some first) listed (other.trans still.symm))

theorem intern_of_resolve (found : m.resolve name package = .ok (some x)) : m.intern name package = .ok (x, m) := by
  rw [Machine.intern, found]
  rfl

theorem resolve_own (plain : ¬ (package = m.base ∧ (name = ascii "NIL" ∨ name = ascii "T")))
    (found : m.heap.find name package = .ok (some x)) : m.resolve name package = .ok (some x) := by
  rw [Machine.resolve, if_neg (fun both => plain ⟨both.1, Or.inl both.2⟩),
    if_neg (fun both => plain ⟨both.1, Or.inr both.2⟩)]
  exact lookup_own found

theorem intern_twice (tables : m.Tables) (fit : m.heap.Fit package) (tag : tagOf package = .pkg)
    (done : m.intern name package = .ok (x, n)) : n.intern name package = .ok (x, n) := by
  rcases intern_cases done with ⟨found, rfl⟩ | ⟨missing, g, added, rfl⟩
  · exact intern_of_resolve found
  · apply intern_of_resolve
    apply resolve_own _ (added.find_new tables.catalog fit tag)
    rintro ⟨rfl, special⟩
    rw [Machine.resolve] at missing
    rcases special with rfl | rfl
    · rw [if_pos ⟨rfl, rfl⟩] at missing
      cases missing
    · rw [if_neg (fun both => absurd both.2 (by decide)), if_pos ⟨rfl, rfl⟩] at missing
      cases missing

/-- In a package that used nothing when its name was first asked for, the symbol is the
    package's for good. -/
theorem intern_later {l : Machine} (tables : m.Tables) (fit : m.heap.Fit package)
    (tag : tagOf package = .pkg) (plain : m.heap.get .pkg .use package = nil)
    (done : m.intern name package = .ok (x, n)) (onward : n.Onward l) : l.intern name package = .ok (x, l) := by
  have first := intern_onward tables fit tag done
  apply intern_of_resolve
  by_cases special : package = m.base ∧ (name = ascii "NIL" ∨ name = ascii "T")
  · -- NIL and T are no symbols of the list, in this machine or a later one.
    have base : l.base = m.base := onward.base.trans first.base
    obtain ⟨rfl, special⟩ := special
    rcases intern_cases done with ⟨found, rfl⟩ | ⟨missing, _⟩
    · rw [Machine.resolve] at found ⊢
      rw [base]
      rcases special with rfl | rfl
      · rw [if_pos ⟨rfl, rfl⟩] at found ⊢
        exact found
      · rw [if_neg (fun both => absurd both.2 (by decide)), if_pos ⟨rfl, rfl⟩] at found ⊢
        exact found
    · rw [Machine.resolve] at missing
      rcases special with rfl | rfl
      · rw [if_pos ⟨rfl, rfl⟩] at missing
        cases missing
      · rw [if_neg (fun both => absurd both.2 (by decide)), if_pos ⟨rfl, rfl⟩] at missing
        cases missing
  · have own : n.heap.find name package = .ok (some x) := by
      rcases intern_cases done with ⟨found, rfl⟩ | ⟨_, g, added, rfl⟩
      · rw [Machine.resolve, if_neg (fun both => special ⟨both.1, Or.inl both.2⟩),
          if_neg (fun both => special ⟨both.1, Or.inr both.2⟩)] at found
        obtain ⟨own, search, rest⟩ := bind_ok found
        cases own with
        | some y =>
          cases rest
          exact search
        | none =>
          rw [plain] at rest
          cases rest
      · exact added.find_new tables.catalog fit tag
    have base : l.base = m.base := onward.base.trans first.base
    apply resolve_own (by rw [base]; exact special)
    exact find_kept onward.kept first.tables.catalog onward.tables.catalog onward.tables.unique
      (first.kept.fit fit) tag own

end Again
end Nxt.Wisp
