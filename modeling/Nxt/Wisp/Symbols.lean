import Nxt.Wisp.Packages

/- The evaluator as it starts: its three packages and the names it installs are in order, they all
   fit, and no name is ever held twice afterwards. -/
namespace Nxt.Wisp
open Nxt.Lib List

theorem empty_catalog : ({} : Heap).Catalog where
  shaped :=
    { width := fun k row held => by cases k <;> cases held
      rows := fun k => by cases k <;> exact Nat.zero_le _
      pins := List.Pairwise.nil }
  fitting k row held := by cases k <;> cases held
  texts row held := by cases held
  symbols row held := by cases held
  packages row held := by cases held

theorem empty_unfit {w : Word} (tag : tagOf w = .pkg) : ¬ ({} : Heap).Fit w := by
  intro fit
  have inside := (fit_pointer (k := .pkg) fit tag).2
  exact absurd inside (Nat.not_lt_zero _)

theorem empty_unique : ({} : Heap).Unique := fun _ fit tag => absurd fit (empty_unfit tag)

theorem empty_plain : ({} : Heap).Plain := fun _ fit tag => absurd fit (empty_unfit tag)

theorem jet_fit (h : Heap) {i : Nat} (known : i < Builtin.all.length) : h.Fit (immediate .jet i) := by
  have jets : ∀ i < 105, tagOf (immediate .jet i) = .jet ∧ payloadOf (immediate .jet i) = i := by
    decide +kernel
  obtain ⟨tag, payload⟩ := jets i known
  have kind : (tagOf (immediate .jet i)).kind? = none := by
    rw [tag]
    rfl
  rw [Heap.Fit, checkValue, kind]
  simp only [tag, payload]
  exact demand_iff.mpr known

theorem builtin_plain : ∀ b ∈ Builtin.all, b.bytes ≠ ascii "NIL" ∧ b.bytes ≠ ascii "T" := by
  have plain : ∀ b ∈ Builtin.all, encoded b.name ≠ ascii "NIL" ∧ encoded b.name ≠ ascii "T" := by
    decide +kernel
  intro b held
  rw [Builtin.bytes_eq held]
  exact plain b held

section Starting
variable {m n : Machine} {h g : Heap} {x : Word}

theorem installNames_onward (names : List Known) (tables : m.Tables) (plain : m.heap.Plain)
    (done : Machine.installNames names m = .ok n) : m.Onward n ∧ n.heap.Plain := by
  induction names generalizing m with
  | nil =>
    cases done
    exact ⟨tables.refl, plain⟩
  | cons k rest ih =>
    obtain ⟨⟨x, next⟩, interned, done⟩ := bind_ok done
    obtain ⟨fit, tag⟩ := tables.members m.base (by simp)
    have first := intern_onward tables fit tag interned
    have after : (next.setKnown k x).Tables := { first.tables with }
    have unused : (next.setKnown k x).heap.Plain := intern_plain (n := next) plain interned
    obtain ⟨later, still⟩ := ih after unused done
    have second : next.Onward (next.setKnown k x) := ⟨after, Heap.Kept.refl _, rfl⟩
    exact ⟨(first.trans second).trans later, still⟩

theorem installJets_onward (jets : List Builtin) (i : Nat) (tables : m.Tables)
    (plain : m.heap.Plain) (named : ∀ b ∈ jets, b.bytes ≠ ascii "NIL" ∧ b.bytes ≠ ascii "T")
    (known : i + jets.length ≤ Builtin.all.length)
    (done : Machine.installJets jets i m = .ok n) : m.Onward n ∧ n.heap.Plain := by
  induction jets generalizing m i with
  | nil =>
    cases done
    exact ⟨tables.refl, plain⟩
  | cons b rest ih =>
    obtain ⟨⟨x, next⟩, interned, done⟩ := bind_ok done
    obtain ⟨fit, tag⟩ := tables.members m.base (by simp)
    have first := intern_onward tables fit tag interned
    obtain ⟨here, sym⟩ := intern_symbol tables fit tag (fun _ => named b mem_cons_self) interned
    rw [length_cons] at known
    have second := first.tables.grown (set_grown (f := .func) first.tables.catalog
      first.tables.unique here (k := .sym) sym (Or.inl rfl) (by decide) (jet_fit next.heap (i := i) (by omega)))
    have still : (next.heap.set .sym .func x (immediate .jet i)).Plain := by
      refine plain_same (intern_plain plain interned) ?_ ?_
      · rfl
      · rw [Heap.set, Heap.setColumn, table_setTable, if_neg (by decide)]
    obtain ⟨later, last⟩ := ih (i + 1) second.tables still
      (fun b held => named b (mem_cons_of_mem _ held)) (by omega) done
    exact ⟨(first.trans second).trans later, last⟩

theorem listOf_grown {xs : List Word} (catalog : h.Catalog) (unique : h.Unique)
    (plain : h.Plain) (fits : ∀ y ∈ xs, h.Fit y) (done : h.listOf xs = .ok (x, g)) :
    (h.Kept g ∧ g.Catalog ∧ g.Unique ∧ g.Plain) ∧ g.Fit x ∧ g.links.Items x xs := by
  induction xs generalizing x g with
  | nil =>
    cases done
    exact ⟨⟨Heap.Kept.refl h, catalog, unique, plain⟩, rfl, rfl⟩
  | cons y ys ih =>
    obtain ⟨⟨tail, middle⟩, rest, consed⟩ := bind_ok done
    obtain ⟨⟨kept, after, still, unused⟩, fit, items⟩ :=
      ih (fun z held => fits z (mem_cons_of_mem _ held)) rest
    obtain ⟨last, cell⟩ :=
      cons_grown after still (kept.fit (fits y mem_cons_self)) fit consed
    have row := make_read consed
    have car : g.get .duo .car x = y := by
      rw [Heap.get, row]
      rfl
    have cdr : g.get .duo .cdr x = tail := by
      rw [Heap.get, row]
      rfl
    refine ⟨⟨kept.trans last.kept, last.catalog, last.unique, ?_⟩, cell, ⟨(make_points consed).1, car, ?_⟩⟩
    · obtain ⟨-, -, -, rfl⟩ := make_ok consed
      refine plain_same unused ?_ ?_
      · rfl
      · rw [table_setTable, if_neg (by decide)]
    · change g.links.Items (g.get .duo .cdr x) ys
      rw [cdr]
      exact last.kept.items after.fitting items fit

theorem newv08_plain {text : List UInt8} (plain : h.Plain) (done : h.newv08 text = .ok (x, g)) : g.Plain := by
  obtain ⟨-, -, -, rfl⟩ := make_ok (newv08_ok done)
  refine plain_same plain ?_ ?_
  · rfl
  · rw [table_setTable, if_neg (by decide)]
    rfl

theorem packages_tables {h₁ h₂ h₃ h₄ h₅ h₆ : Heap}
    {base keywords keys packages nilName trueName : Word}
    (first : ({} : Heap).newPackage (ascii "WISP") = .ok (base, h₁))
    (second : h₁.newPackage (ascii "KEYWORD") = .ok (keywords, h₂))
    (third : h₂.newPackage (ascii "KEY") = .ok (keys, h₃))
    (listed : h₃.listOf [keys, keywords, base] = .ok (packages, h₄))
    (fifth : h₄.newv08 (ascii "NIL") = .ok (nilName, h₅))
    (sixth : h₅.newv08 (ascii "T") = .ok (trueName, h₆)) :
    Machine.Tables
      { heap := h₆, base, keywords, keys, packages, current := base, nilName, trueName } ∧
      h₆.Plain := by
  obtain ⟨grown₁, baseFit, baseTag, baseName, -, -, -⟩ :=
    newPackage_grown empty_catalog empty_unique first
  obtain ⟨grown₂, keywordsFit, keywordsTag, keywordsName, -, -, -⟩ :=
    newPackage_grown grown₁.catalog grown₁.unique second
  obtain ⟨grown₃, keysFit, keysTag, keysName, -, -, unfit⟩ :=
    newPackage_grown grown₂.catalog grown₂.unique third
  have plain := newPackage_plain (newPackage_plain (newPackage_plain empty_plain first) second) third
  have baseFit₂ := grown₂.kept.fit baseFit
  have baseFit₃ := grown₃.kept.fit baseFit₂
  have keywordsFit₃ := grown₃.kept.fit keywordsFit
  have baseName₂ := (grown₂.kept.packageName grown₁.catalog baseFit baseTag).trans baseName
  have baseName₃ := (grown₃.kept.packageName grown₂.catalog baseFit₂ baseTag).trans baseName₂
  have keywordsName₃ :=
    (grown₃.kept.packageName grown₂.catalog keywordsFit keywordsTag).trans keywordsName
  have fits : ∀ p ∈ [keys, keywords, base], h₃.Fit p := by simp [keysFit, keywordsFit₃, baseFit₃]
  have tags : ∀ p ∈ [keys, keywords, base], tagOf p = .pkg := by
    simp [keysTag, keywordsTag, baseTag]
  have apart : keys ≠ base := by
    rintro rfl
    exact unfit baseFit₂
  obtain ⟨⟨kept₄, catalog₄, unique₄, plain₄⟩, head₄, items₄⟩ :=
    listOf_grown grown₃.catalog grown₃.unique plain fits listed
  obtain ⟨grown₅, -, -⟩ := newv08_grown catalog₄ unique₄ fifth
  obtain ⟨grown₆, -, -⟩ := newv08_grown grown₅.catalog grown₅.unique sixth
  have later := grown₅.trans grown₆
  have kept := kept₄.trans later.kept
  have name (p : Word) (held : p ∈ [keys, keywords, base]) : h₆.packageName p = h₃.packageName p :=
    kept.packageName grown₃.catalog (fits p held) (tags p held)
  refine ⟨?_, newv08_plain (newv08_plain plain₄ fifth) sixth⟩
  exact
    { catalog := grown₆.catalog
      unique := grown₆.unique
      head := later.kept.fit head₄
      registry := by
        refine ⟨[keys, keywords, base], later.kept.items catalog₄.fitting items₄ head₄, tags, ?_⟩
        change ([keys, keywords, base].map h₆.packageName).Nodup
        rw [map_congr_left name]
        simp only [map_cons, map_nil, keysName, keywordsName₃, baseName₃]
        decide +kernel
      members := by
        intro p held
        have held : p ∈ [keys, keywords, base] := by
          simp only [mem_cons, not_mem_nil, or_false] at held
          rcases held with rfl | rfl | rfl | rfl <;> simp
        have fit : h₆.Fit p := kept.fit (fits p held)
        refine ⟨fit, tags p held⟩
      apart }
theorem fresh_tables (done : Machine.fresh {} = .ok n) : n.Tables ∧ n.heap.Plain := by
  obtain ⟨⟨base, h₁⟩, first, done⟩ := bind_ok done
  obtain ⟨⟨keywords, h₂⟩, second, done⟩ := bind_ok done
  obtain ⟨⟨keys, h₃⟩, third, done⟩ := bind_ok done
  obtain ⟨⟨packages, h₄⟩, listed, done⟩ := bind_ok done
  obtain ⟨⟨nilName, h₅⟩, fifth, done⟩ := bind_ok done
  obtain ⟨⟨trueName, h₆⟩, sixth, done⟩ := bind_ok done
  obtain ⟨middle, names, jets⟩ := bind_ok done
  obtain ⟨started, plain⟩ := packages_tables first second third listed fifth sixth
  obtain ⟨named, still⟩ := installNames_onward _ started plain names
  obtain ⟨filled, last⟩ := installJets_onward _ 0 named.tables still builtin_plain
    (by rw [Nat.zero_add]) jets
  exact ⟨filled.tables, last⟩

end Starting

/-! ### A heap with room to start in -/

structure Heap.Spare (h : Heap) (a c : Nat) : Prop where
  rows : ∀ k, (h.table k).length + a ≤ 2 ^ 16
  bytes : h.bytes.length + c ≤ 2 ^ 16

section Spare
variable {h g : Heap} {m : Machine} {a c : Nat} {x : Word}

theorem Heap.Spare.less (spare : h.Spare a c) {r b : Nat} (few : r ≤ a) (short : b ≤ c) :
    h.Spare r b where
  rows k := (Nat.add_le_add_left few _).trans (spare.rows k)
  bytes := (Nat.add_le_add_left short _).trans spare.bytes

theorem make_spare {k : Kind} (data : Row) (spare : h.Spare (a + 1) c)
    (start : data.getD 0 0 ≠ zap) : ∃ x g, h.make k data = .ok (x, g) ∧ g.Spare a c := by
  have room := spare.rows k
  have bound : maxIndex = 2 ^ 26 - 1 := rfl
  refine ⟨pointer k (h.table k).length h.era, h.setTable k (h.table k ++ [data]), ?_, ?_⟩
  · rw [Heap.make, if_neg start, if_neg (by omega)]
  · constructor
    · intro l
      have old := spare.rows l
      rw [table_setTable]
      split
      · rw [length_append, length_singleton]
        omega
      · omega
    · exact spare.bytes

theorem set_spare {k : Kind} {f : Field} {w value : Word} (spare : h.Spare a c) :
    (h.set k f w value).Spare a c where
  rows l := by
    have old := spare.rows l
    rw [Heap.set, Heap.setColumn, table_setTable]
    split
    · rename_i same
      rw [length_set, ← same]
      exact old
    · exact old
  bytes := spare.bytes

theorem newv08_spare (name : List UInt8) (spare : h.Spare (a + 1) (c + name.length)) :
    ∃ x g, h.newv08 name = .ok (x, g) ∧ g.Spare a c := by
  have room := spare.bytes
  have longer : ({ h with bytes := h.bytes ++ name } : Heap).Spare (a + 1) c :=
    { rows := spare.rows
      bytes := by
        rw [length_append]
        omega }
  have start : UInt32.ofNat h.bytes.length ≠ zap := by
    intro same
    have value := congrArg UInt32.toNat same
    rw [toNat_ofNat_of_le (by unfold maxWord; omega)] at value
    have high : zap.toNat = 0x88000003 := by decide
    omega
  obtain ⟨x, g, made, left⟩ := make_spare (k := .v08)
    [UInt32.ofNat h.bytes.length, UInt32.ofNat name.length] longer start
  refine ⟨x, g, ?_, left⟩
  rw [Heap.newv08]
  split
  · exact made
  · rw [poolSize, if_neg (by unfold maxWord; omega)]
    exact made

theorem addSymbol_spare (name : List UInt8) (package : Word) (spare : h.Spare (a + 3) (c + name.length)) :
    ∃ x g, h.addSymbol name package = .ok (x, g) ∧ g.Spare a c := by
  obtain ⟨str, h₁, text, spare₁⟩ := newv08_spare (a := a + 2) name spare
  have strPlace := make_ok (newv08_ok text)
  obtain ⟨sym, h₂, symbol, spare₂⟩ := make_spare (a := a + 1) (k := .sym)
    [str, package, nah, nil, nil] spare₁ (by
      rw [strPlace.2.2.1]
      exact pointer_ne_zap _ strPlace.2.1)
  have symPlace := make_ok symbol
  obtain ⟨cell, h₃, consed, spare₃⟩ := make_spare (k := .duo)
    [sym, h.get .pkg .sym package] spare₂ (by
      rw [symPlace.2.2.1]
      exact pointer_ne_zap _ symPlace.2.1)
  have pushed : h₂.cons sym (h.get .pkg .sym package) = .ok (cell, h₃) := consed
  refine ⟨sym, h₃.set .pkg .sym package cell, ?_, set_spare spare₃⟩
  simp only [Heap.addSymbol, text, symbol, pushed, Bind.bind, Except.bind]

theorem intern_spare (name : List UInt8) {package : Word} (tables : m.Tables) (plain : m.heap.Plain)
    (fit : m.heap.Fit package) (tag : tagOf package = .pkg) (spare : m.heap.Spare (a + 3) (c + name.length)) :
    ∃ x n, m.intern name package = .ok (x, n) ∧ n.heap.Spare a c := by
  have search : ∃ found, m.resolve name package = .ok found := by
    rw [Machine.resolve]
    split
    · exact ⟨_, rfl⟩
    · split
      · exact ⟨_, rfl⟩
      · obtain ⟨xs, -, -, search⟩ := tables.catalog.find fit tag
        have own := search name
        generalize xs.find? (fun sym => m.heap.symbolName sym = name) = here at own
        cases here with
        | some y => exact ⟨_, lookup_own own⟩
        | none =>
          refine ⟨none, ?_⟩
          rw [Heap.lookup, own, plain package fit tag]
          rfl
  obtain ⟨found, search⟩ := search
  cases found with
  | some y => exact ⟨y, m, intern_of_resolve search, spare.less (by omega) (by omega)⟩
  | none =>
    obtain ⟨x, g, added, left⟩ := addSymbol_spare name package spare
    refine ⟨x, { m with heap := g }, ?_, left⟩
    simp only [Machine.intern, search, ok_bind, added]

theorem installNames_spare (names : List Known) (tables : m.Tables) (plain : m.heap.Plain)
    (spare : m.heap.Spare (a + 3 * names.length) (c + (names.map fun k => k.bytes.length).sum)) :
    ∃ n, Machine.installNames names m = .ok n ∧ n.heap.Spare a c := by
  induction names generalizing m with
  | nil => exact ⟨m, rfl, spare⟩
  | cons k rest ih =>
    obtain ⟨fit, tag⟩ := tables.members m.base (by simp)
    obtain ⟨x, next, interned, left⟩ := intern_spare k.bytes
      (a := a + 3 * rest.length) (c := c + (rest.map fun k => k.bytes.length).sum)
      tables plain fit tag
      (spare.less (by simp; omega) (by simp; omega))
    have first := intern_onward tables fit tag interned
    have after : (next.setKnown k x).Tables := { first.tables with }
    obtain ⟨n, done, room⟩ := ih after (intern_plain (n := next) plain interned) left
    refine ⟨n, ?_, room⟩
    rw [Machine.installNames, interned]
    exact done

theorem installJets_spare (jets : List Builtin) (i : Nat) (tables : m.Tables)
    (plain : m.heap.Plain) (named : ∀ b ∈ jets, b.bytes ≠ ascii "NIL" ∧ b.bytes ≠ ascii "T")
    (known : i + jets.length ≤ Builtin.all.length) (spare : m.heap.Spare (a + 3 * jets.length)
      (c + (jets.map fun b => b.bytes.length).sum)) : ∃ n, Machine.installJets jets i m = .ok n ∧ n.heap.Spare a c := by
  induction jets generalizing m i with
  | nil => exact ⟨m, rfl, spare⟩
  | cons b rest ih =>
    obtain ⟨fit, tag⟩ := tables.members m.base (by simp)
    obtain ⟨x, next, interned, left⟩ := intern_spare b.bytes
      (a := a + 3 * rest.length) (c := c + (rest.map fun b => b.bytes.length).sum)
      tables plain fit tag
      (spare.less (by simp; omega) (by simp; omega))
    rw [length_cons] at known
    obtain ⟨here, sym⟩ := intern_symbol tables fit tag (fun _ => named b mem_cons_self) interned
    have installed : Machine.installJets [b] i m =
        .ok { next with heap := next.heap.set .sym .func x (immediate .jet i) } := by
      simp only [Machine.installJets, interned, Bind.bind, Except.bind]
    obtain ⟨first, unused⟩ := installJets_onward [b] i tables plain
      (fun b held => named b (by simp_all)) (by simp; omega) installed
    obtain ⟨n, done, last⟩ := ih (i + 1) first.tables unused
      (fun b held => named b (mem_cons_of_mem _ held)) (by omega) (set_spare left)
    refine ⟨n, ?_, last⟩
    rw [Machine.installJets, interned]
    exact done

theorem listOf_spare (xs : List Word) (spare : h.Spare (a + xs.length) c)
    (unmarked : ∀ y ∈ xs, y ≠ zap) : ∃ x g, h.listOf xs = .ok (x, g) ∧ g.Spare a c := by
  induction xs generalizing a with
  | nil => exact ⟨nil, h, rfl, spare⟩
  | cons y ys ih =>
    obtain ⟨tail, middle, rest, left⟩ := ih (a := a + 1)
      (spare.less (by simp; omega) le_rfl) fun z held => unmarked z (mem_cons_of_mem _ held)
    obtain ⟨x, g, consed, last⟩ := make_spare (k := .duo) [y, tail] left
      (unmarked y mem_cons_self)
    refine ⟨x, g, ?_, last⟩
    rw [Heap.listOf, rest]
    exact consed

theorem newPackage_spare (name : List UInt8) (spare : h.Spare (a + 2) (c + name.length)) :
    ∃ x g, h.newPackage name = .ok (x, g) ∧ g.Spare a c := by
  obtain ⟨nam, middle, text, left⟩ := newv08_spare (a := a + 1) name spare
  have place := make_ok (newv08_ok text)
  obtain ⟨x, g, made, last⟩ := make_spare (k := .pkg) [nam, nil, nil] left (by
    rw [place.2.2.1]
    exact pointer_ne_zap _ place.2.1)
  refine ⟨x, g, ?_, last⟩
  rw [Heap.newPackage, text]
  exact made

theorem newPackage_tag {name : List UInt8} (done : h.newPackage name = .ok (x, g)) : tagOf x = .pkg := by
  obtain ⟨⟨nam, middle⟩, -, made⟩ := bind_ok done
  exact (make_points made).1

theorem fresh_ok : ∃ m, Machine.fresh {} = .ok m ∧ m.heap.Spare 6 16 := by
  have knowns : Known.all.length = 73 ∧ (Known.all.map fun k => k.bytes.length).sum ≤ 2 ^ 12 := by
    simp only [Known.bytes_eq]
    decide +kernel
  have builtins : Builtin.all.length = 105 ∧
      (Builtin.all.map fun b => b.bytes.length).sum ≤ 2 ^ 12 := by
    rw [map_congr_left fun b held => congrArg List.length (Builtin.bytes_eq held)]
    decide +kernel
  have texts : (ascii "WISP").length = 4 ∧ (ascii "KEYWORD").length = 7 ∧
      (ascii "KEY").length = 3 ∧ (ascii "NIL").length = 3 ∧ (ascii "T").length = 1 := by
    decide +kernel
  have empty : ({} : Heap).Spare (2 ^ 12) (2 ^ 14) :=
    { rows := fun k => by cases k <;> decide
      bytes := by decide }
  obtain ⟨base, h₁, first, spare₁⟩ := newPackage_spare (ascii "WISP") (a := 2 ^ 12 - 2)
    (c := 2 ^ 14 - 4) (empty.less (by omega) (by omega))
  obtain ⟨keywords, h₂, second, spare₂⟩ := newPackage_spare (ascii "KEYWORD")
    (a := 2 ^ 12 - 4) (c := 2 ^ 14 - 11) (spare₁.less (by omega) (by omega))
  obtain ⟨keys, h₃, third, spare₃⟩ := newPackage_spare (ascii "KEY")
    (a := 2 ^ 12 - 6) (c := 2 ^ 14 - 14) (spare₂.less (by omega) (by omega))
  have pointers : ∀ y ∈ [keys, keywords, base], y ≠ zap := by
    have tags : ∀ y ∈ [keys, keywords, base], tagOf y = .pkg := by
      simp [newPackage_tag first, newPackage_tag second, newPackage_tag third]
    rintro y held rfl
    exact absurd (tags zap held) (by decide)
  obtain ⟨packages, h₄, listed, spare₄⟩ := listOf_spare [keys, keywords, base]
    (a := 2 ^ 12 - 9) (spare₃.less (by simp) le_rfl) pointers
  obtain ⟨nilName, h₅, fifth, spare₅⟩ := newv08_spare (ascii "NIL")
    (a := 2 ^ 12 - 10) (c := 2 ^ 14 - 17) (spare₄.less (by omega) (by omega))
  obtain ⟨trueName, h₆, sixth, spare₆⟩ := newv08_spare (ascii "T")
    (a := 2 ^ 12 - 11) (c := 2 ^ 14 - 18) (spare₅.less (by omega) (by omega))
  obtain ⟨started, plain⟩ := packages_tables first second third listed fifth sixth
  obtain ⟨named, names, spare₇⟩ := installNames_spare (a := 2 ^ 10) (c := 2 ^ 13) Known.all
    started plain (spare₆.less (by omega) (by omega))
  obtain ⟨onward, still⟩ := installNames_onward _ started plain names
  obtain ⟨last, jets, room⟩ := installJets_spare (a := 6) (c := 16) Builtin.all 0 onward.tables
    still builtin_plain (by rw [Nat.zero_add]) (spare₇.less (by omega) (by omega))
  have begun : Machine.fresh {} = ((Machine.installKnown
      { heap := h₆, base, keywords, keys, packages, current := base, nilName, trueName }) >>=
      Machine.installJets Builtin.all 0) := by
    simp only [Machine.fresh, ok_bind, first, second, third, listed, fifth, sixth]
  refine ⟨last, ?_, room⟩
  rw [begun, Machine.installKnown, names]
  exact jets

end Spare

/-- Whatever symbols and packages are made, no package holds two symbols of one name, no two
    packages have one name, a search comes to an end, and a name interned again is the same
    symbol: at once, and later too while no package's uses have been set. -/
theorem symbols_unique {m n : Machine} {ops : List SymbolOp} (started : Machine.fresh {} = .ok m)
    (run : SymbolRun m ops n) : n.heap.Unique ∧
    (∃ ps, n.heap.links.Items n.packages ps ∧ (ps.map n.heap.packageName).Nodup) ∧ ∀ name package, n.heap.Fit package →
    tagOf package = .pkg → n.heap.lookup name package ≠ .error .diverged ∧ ∀ x k, n.intern name package = .ok (x, k) →
    k.intern name package = .ok (x, k) ∧
    ((∀ op ∈ ops, op.keepsUses = true) → ∀ more l, SymbolRun k more l → l.intern name package = .ok (x, l)) := by
  obtain ⟨tables, plain⟩ := fresh_tables started
  have after := (run_onward run tables).tables
  obtain ⟨ps, items, -, nodup⟩ := after.registry
  refine ⟨after.unique, ⟨ps, items, nodup⟩, ?_⟩
  intro name package fit tag
  refine ⟨lookup_ends after.catalog fit tag, ?_⟩
  intro x k interned
  have first := intern_onward after fit tag interned
  refine ⟨intern_twice after fit tag interned, ?_⟩
  intro keeps more l later
  have unused := run_plain run plain keeps package fit tag
  exact intern_later after fit tag unused interned (run_onward later first.tables)

/-- An evaluator that has just started, and a name interned in two of its packages. -/
theorem symbols_unique_two : ∃ m n, Machine.fresh {} = .ok m ∧
    SymbolRun m [.intern (ascii "LAMP") m.base, .keyword (ascii "LAMP")] n ∧ n.heap.Unique := by
  obtain ⟨m, started, room⟩ := fresh_ok
  obtain ⟨tables, plain⟩ := fresh_tables started
  obtain ⟨fit, tag⟩ := tables.members m.base (by simp)
  have size : (ascii "LAMP").length = 4 := by decide +kernel
  obtain ⟨x, middle, first, left⟩ := intern_spare (ascii "LAMP") (a := 3) (c := 8)
    tables plain fit tag (room.less le_rfl (by omega))
  have after := (intern_onward tables fit tag first).tables
  obtain ⟨fit', tag'⟩ := after.members middle.keywords (by simp)
  obtain ⟨y, n, second, -⟩ := intern_spare (ascii "LAMP") (a := 0) (c := 4)
    after (intern_plain plain first) fit' tag' (left.less le_rfl (by omega))
  have run : SymbolRun m [.intern (ascii "LAMP") m.base, .keyword (ascii "LAMP")] n := by
    have begins : m.perform (.intern (ascii "LAMP") m.base) = .ok (some x, middle) := by
      rw [Machine.perform, first]
      rfl
    have ends : middle.perform (.keyword (ascii "LAMP")) = .ok (some y, n) := by
      rw [Machine.perform, Machine.keyword, second]
      rfl
    exact .next ⟨fit, tag⟩ begins (.next trivial ends (.start n))
  exact ⟨m, n, started, run, (symbols_unique started run).1⟩

end Nxt.Wisp
