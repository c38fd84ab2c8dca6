import Nxt.Wisp.Interning

/- `installKnown` on a restored machine: which names are found, which are added, and what of the
   machine's soundness the additions keep. -/
namespace Nxt.Wisp
open Nxt.Lib List

def members : List SavedRoot :=
  [.base, .keywords, .keys, .packages, .current, .nilName, .trueName]

/-- What the validator asks for, but for the known names and the size of all texts. -/
structure Machine.Firm (m : Machine) (entry : Word) : Prop where
  catalog : m.heap.Catalog
  portable : (m.heap.table .ext).length = 0
  nextPin : 1 ≤ m.heap.nextPin ∧ m.heap.nextPin ≤ maxImmediate + 1
  nextKey : m.nextKey < 2 ^ 48
  entry : m.heap.Fit entry
  members : ∀ r ∈ members, m.heap.Fit (m.root r)
  pins : ∀ pin ∈ m.heap.pins, (0 < pin.1 ∧ pin.1 < m.heap.nextPin) ∧ m.heap.Fit pin.2
  words : ∀ w ∈ m.heap.words, m.heap.Fit w
  unmarked : m.heap.Unmarked
  slices : ∀ k, wordPayload k = true → ∀ data ∈ m.heap.table k,
    (data.getD 0 0).toNat + (data.getD 1 0).toNat ≤ m.heap.words.length
  totals : ∀ k, wordPayload k = true → (lengths m.heap k).sum ≤ maxWord
  homes : ∀ data ∈ m.heap.table .sym, data.getD 1 0 ≠ nil → tagOf (data.getD 1 0) = .pkg
  code : ∀ i < (m.heap.table .record).length, checkCode m.heap i = .ok ()
  registry : ∃ ps, m.heap.links.Items m.packages ps ∧ (∀ p ∈ ps, tagOf p = .pkg) ∧
    (ps.map m.heap.packageName).Nodup ∧ m.current ∈ ps ∧
    ∀ r ∈ [SavedRoot.base, .keywords, .keys],
      m.root r ∈ ps ∧ m.heap.packageName (m.root r) = ascii r.name
  nilName : tagOf m.nilName = .v08 ∧ m.heap.v08slice m.nilName = ascii "NIL"
  trueName : tagOf m.trueName = .v08 ∧ m.heap.v08slice m.trueName = ascii "T"

structure Machine.Cached (m : Machine) : Prop where
  homed : ∀ k ∈ savedKnown, m.heap.Fit (m.known k) ∧ m.heap.Homed m.base k (m.known k)
  control : checkControl m.heap (fun k x => x = m.known k) = .ok ()

theorem sound_iff {m : Machine} {entry : Word} (shaped : m.heap.Shaped) :
    m.Sound entry ↔ m.Firm entry ∧ (lengths m.heap .v08).sum ≤ maxWord ∧ m.Cached := by
  have split : roots = members ++ savedKnown.map SavedRoot.known := rfl
  constructor
  · intro sound
    obtain ⟨ps, items, tags, nodup, rooted⟩ := sound.registry
    have rootsFit := sound.roots
    rw [split] at rootsFit
    refine ⟨?_, sound.totals .v08 rfl, ⟨?_, sound.control⟩⟩
    · exact
        { catalog :=
            { shaped
              fitting := sound.fitting
              texts := sound.slices .v08 rfl
              symbols := fun data held => (sound.symbols data held).1
              packages := sound.packages }
          portable := sound.portable
          nextPin := sound.nextPin
          nextKey := sound.nextKey
          entry := sound.entry
          members := fun r held => rootsFit r (mem_append_left _ held)
          pins := sound.pins
          words := sound.words
          unmarked := sound.unmarked
          slices := fun k payload => by
            have inside := sound.slices k (by simp [sliced, payload])
            rwa [Heap.pool, if_neg (by rintro rfl; cases payload)] at inside
          totals := fun k payload => sound.totals k (by simp [sliced, payload])
          homes := fun data held => (sound.symbols data held).2
          code := sound.code
          registry := ⟨ps, items, tags, nodup, rooted.current, rooted.canonical⟩
          nilName := rooted.nilName
          trueName := rooted.trueName }
    · intro k held
      exact ⟨rootsFit (.known k) (mem_append_right _ (mem_map_of_mem held)), rooted.cached k held⟩
  · rintro ⟨firm, text, cached⟩
    obtain ⟨ps, items, tags, nodup, current, canonical⟩ := firm.registry
    exact
      { portable := firm.portable
        nextPin := firm.nextPin
        nextKey := firm.nextKey
        entry := firm.entry
        roots := fun r held => by
          rw [split] at held
          rcases mem_append.mp held with member | known
          · exact firm.members r member
          · obtain ⟨k, saved, rfl⟩ := mem_map.mp known
            exact (cached.homed k saved).1
        pins := firm.pins
        words := firm.words
        unmarked := firm.unmarked
        fitting := firm.catalog.fitting
        slices := fun k slice data held => by
          unfold Heap.pool
          split
          · rename_i text
            subst text
            exact firm.catalog.texts data held
          · rename_i other
            have payload : wordPayload k = true := by simpa [sliced, other] using slice
            exact firm.slices k payload data held
        totals := fun k slice => by
          by_cases isText : k = .v08
          · subst isText
            exact text
          · exact firm.totals k (by simpa [sliced, isText] using slice)
        symbols := fun data held => ⟨firm.catalog.symbols data held, firm.homes data held⟩
        code := firm.code
        packages := firm.catalog.packages
        registry := ⟨ps, items, tags, nodup,
          { current, canonical, nilName := firm.nilName, trueName := firm.trueName
            cached := fun k held => (cached.homed k held).2 }⟩
        control := cached.control }

section Firm
variable {m : Machine} {entry : Word}

theorem Machine.Firm.base_tag (firm : m.Firm entry) : tagOf m.base = .pkg := by
  obtain ⟨ps, -, tags, -, -, canonical⟩ := firm.registry
  exact tags _ (canonical .base (by decide)).1

theorem Machine.Firm.base_fit (firm : m.Firm entry) : m.heap.Fit m.base :=
  firm.members .base (by decide)

theorem checkCode_congr {h g : Heap} (words : g.words = h.words) (era : g.era = h.era)
    (rows : g.table .record = h.table .record) (i : Nat) : checkCode g i = checkCode h i := by
  have slice : ∀ x, g.slice .record x = h.slice .record x := by
    intro x
    simp only [Heap.slice, Heap.get, Heap.read, Heap.row, rows, words]
  have op : ∀ x, codeRecordOp g x = codeRecordOp h x := by
    intro x
    simp only [codeRecordOp, slice]
  have operand : ∀ x kind, operandValid g x kind = operandValid h x kind := by
    intro x kind
    cases kind <;> simp only [operandValid, op]
  simp only [checkCode, era, op, slice, codeOperandsValid, operand]

theorem Machine.Firm.added {name : List UInt8} {x : Word} {g : Heap} (firm : m.Firm entry)
    (added : m.heap.Added name m.base g x) : ({ m with heap := g } : Machine).Firm entry := by
  have catalog := firm.catalog
  have after := added.catalog catalog firm.base_fit firm.base_tag
  have same (k : Kind) (payload : wordPayload k = true) : g.table k = m.heap.table k := by
    rw [added.tables]
    cases k <;> first | rfl | cases payload
  exact
    { catalog := after
      portable := by
        show (g.table .ext).length = 0
        rw [added.tables]
        exact firm.portable
      nextPin := by
        show 1 ≤ g.nextPin ∧ g.nextPin ≤ maxImmediate + 1
        rw [added.nextPin]
        exact firm.nextPin
      nextKey := firm.nextKey
      entry := added.fit firm.entry
      members := fun r held => added.fit (by
        have old := firm.members r held
        cases r <;> exact old)
      pins := by
        show ∀ pin ∈ g.pins, (0 < pin.1 ∧ pin.1 < g.nextPin) ∧ g.Fit pin.2
        rw [added.pins, added.nextPin]
        intro pin held
        exact ⟨(firm.pins pin held).1, added.fit (firm.pins pin held).2⟩
      words := by
        show ∀ w ∈ g.words, g.Fit w
        rw [added.words]
        exact fun w held => added.fit (firm.words w held)
      unmarked := fun k data held => by
        rcases added.row_cases held with old | ⟨rfl, rfl⟩ | ⟨rfl, rfl⟩ | ⟨rfl, rfl⟩ | ⟨rfl, rfl⟩
        · exact firm.unmarked k data old
        · exact added.start
        · exact pointer_ne_zap .v08 added.rows.1
        · show x ≠ zap
          rw [added.symbol]
          exact pointer_ne_zap .sym added.rows.2.1
        · rw [getD_set, if_neg (by simp)]
          exact firm.unmarked .pkg _ (read_mem (k := .pkg) firm.base_fit firm.base_tag)
      slices := fun k payload => by
        show ∀ data ∈ g.table k, _ ≤ g.words.length
        rw [added.words, same k payload]
        exact firm.slices k payload
      totals := fun k payload => by
        show (lengths g k).sum ≤ maxWord
        rw [lengths, same k payload]
        exact firm.totals k payload
      homes := fun data held => by
        rcases added.row_cases held with old | ⟨never, -⟩ | ⟨-, rfl⟩ | ⟨never, -⟩ | ⟨never, -⟩
        · exact firm.homes data old
        · cases never
        · exact fun _ => firm.base_tag
        all_goals cases never
      code := fun i inside => by
        show checkCode g i = .ok ()
        rw [checkCode_congr added.words added.era (same .record rfl)]
        apply firm.code
        rw [← same .record rfl]
        exact inside
      registry := by
        obtain ⟨ps, items, tags, nodup, current, canonical⟩ := firm.registry
        have head := firm.members .packages (by decide)
        have fits := items_fit catalog.fitting items head
        have names : ∀ p ∈ ps, g.packageName p = m.heap.packageName p :=
          fun p held => added.packageName catalog (fits p held) (tags p held)
        refine ⟨ps, added.items catalog.fitting items head, tags, ?_, current, ?_⟩
        · show (ps.map g.packageName).Nodup
          rw [map_congr_left names]
          exact nodup
        · intro r held
          obtain ⟨registered, named⟩ := canonical r held
          have unchanged : ({ m with heap := g } : Machine).root r = m.root r := by cases r <;> rfl
          rw [unchanged]
          refine ⟨registered, ?_⟩
          show g.packageName (m.root r) = _
          rw [names _ registered]
          exact named
      nilName := ⟨firm.nilName.1, (added.text catalog (firm.members .nilName (by decide))
        firm.nilName.1).trans firm.nilName.2⟩
      trueName := ⟨firm.trueName.1, (added.text catalog (firm.members .trueName (by decide))
        firm.trueName.1).trans firm.trueName.2⟩ }

theorem Machine.Firm.setKnown (firm : m.Firm entry) (k : Known) (x : Word) : (m.setKnown k x).Firm entry := by
  have same : ∀ r ∈ Wisp.members, (m.setKnown k x).root r = m.root r := by
    intro r held
    cases r with
    | known j => simp [Wisp.members] at held
    | _ => rfl
  exact
    { firm with
      members := fun r held => by
        rw [same r held]
        exact firm.members r held
      registry := by
        obtain ⟨ps, items, tags, nodup, current, canonical⟩ := firm.registry
        refine ⟨ps, items, tags, nodup, current, ?_⟩
        intro r held
        have member : r ∈ Wisp.members := by
          simp only [mem_cons, not_mem_nil, or_false] at held
          rcases held with rfl | rfl | rfl <;> decide
        rw [same r member]
        exact canonical r held }

end Firm

section Lookup
variable {h : Heap} {name : List UInt8} {package x : Word}

theorem find_some (catalog : h.Catalog) (fit : h.Fit package) (tag : tagOf package = .pkg)
    (found : h.find name package = .ok (some x)) : h.Fit x ∧ tagOf x = .sym ∧ h.symbolName x = name := by
  obtain ⟨xs, -, syms, search⟩ := catalog.find fit tag
  have here := Except.ok.inj ((search name).symm.trans found)
  have held := mem_of_find?_eq_some here
  have named := find?_some here
  exact ⟨(syms x held).2, (syms x held).1, of_decide_eq_true named⟩

theorem findUsed_some (catalog : h.Catalog) {fuel : Nat} {cur slow : Word} {moveSlow : Bool}
    (fit : h.Fit cur) (found : h.findUsed name fuel cur slow moveSlow = .ok (some x)) :
    h.Fit x ∧ tagOf x = .sym ∧ h.symbolName x = name := by
  induction fuel generalizing cur slow moveSlow with
  | zero => cases found
  | succ fuel ih =>
    rw [Heap.findUsed] at found
    split at found
    · cases found
    · split at found
      · cases found
      · rename_i cell
        have tag : tagOf cur = .duo := not_not.mp cell
        by_cases usedTag : tagOf (h.get .duo .car cur) = .pkg
        · have usedFit := fit_get (k := .duo) catalog.fitting fit tag
            (show columnIndex .duo .car ∈ Tidy.valueColumns .duo by decide)
          simp only [usedTag, ne_eq, not_true, if_false] at found
          obtain ⟨own, search, found⟩ := bind_ok found
          cases own with
          | some y =>
            cases found
            exact find_some catalog usedFit usedTag search
          | none =>
            have rest (s : Word) (next : (if h.get .duo .cdr cur ≠ nil ∧ h.get .duo .cdr cur = s then
                .error (.invalidArgument "cyclic package uses list")
                else h.findUsed name fuel (h.get .duo .cdr cur) s (!moveSlow)) = .ok (some x)) :
                h.Fit x ∧ tagOf x = .sym ∧ h.symbolName x = name := by
              split at next
              · cases next
              · exact ih (fit_tail catalog.fitting fit tag) next
            exact rest _ found
        · simp only [usedTag, ne_eq, not_false_eq_true, if_true] at found
          cases found

theorem lookup_some (catalog : h.Catalog) (fit : h.Fit package) (tag : tagOf package = .pkg)
    (found : h.lookup name package = .ok (some x)) : h.Fit x ∧ tagOf x = .sym ∧ h.symbolName x = name := by
  obtain ⟨own, search, found⟩ := bind_ok found
  cases own with
  | some y =>
    cases found
    exact find_some catalog fit tag search
  | none =>
    have uses := fit_get (k := .pkg) catalog.fitting fit tag
      (show columnIndex .pkg .use ∈ Tidy.valueColumns .pkg by decide)
    exact findUsed_some catalog uses found

theorem lookup_own {own : Word} (search : h.find name package = .ok (some own)) :
    h.lookup name package = .ok (some own) := by
  rw [Heap.lookup, search]
  rfl

end Lookup

theorem known_plain : ∀ k ∈ Known.all, (k.bytes ≠ ascii "NIL" ∧ k.bytes ≠ ascii "T") ∧
    k.bytes.length ≤ 32 ∧ k.bytes ≠ [] := by
  simp only [Known.bytes_eq]
  decide +kernel

theorem resolve_known (m : Machine) (k : Known) : m.resolve k.bytes m.base = m.heap.lookup k.bytes m.base := by
  obtain ⟨⟨notNil, notT⟩, -⟩ := known_plain k (Known.mem_all k)
  rw [Machine.resolve, if_neg (fun both => notNil both.2), if_neg (fun both => notT both.2)]

def Machine.lacks (m : Machine) (k : Known) : Bool :=
  match m.resolve k.bytes m.base with
  | .ok none => true
  | _ => false

theorem lacks_iff {m : Machine} {k : Known} : m.lacks k = true ↔ m.heap.lookup k.bytes m.base = .ok none := by
  rw [Machine.lacks, resolve_known]
  split
  · rename_i missing
    simp [missing]
  · rename_i found
    simp only [Bool.false_eq_true, false_iff]
    exact found

/-- The bytes of the names that are not found. -/
def Machine.lacking (m : Machine) (ks : List Known) : Nat :=
  ((ks.filter m.lacks).map fun k => k.bytes.length).sum

structure Installed (m : Machine) (entry : Word) (names : List Known) (n : Machine) : Prop where
  rest : n = { m with heap := n.heap, known := n.known }
  heap : n.heap = { m.heap with vat := n.heap.vat, bytes := n.heap.bytes }
  firm : n.Firm entry
  below : m.heap.Below n.heap
  tables : ∀ k, k ∉ [Kind.v08, .sym, .duo, .pkg] → n.heap.table k = m.heap.table k
  pending : ∀ k ∉ names, n.known k = m.known k ∧
    n.heap.lookup k.bytes n.base = m.heap.lookup k.bytes m.base
  found : ∀ k ∈ names, n.heap.lookup k.bytes n.base = .ok (some (n.known k))
  kept : ∀ k ∈ names, ∀ x, m.heap.lookup k.bytes m.base = .ok (some x) → n.known k = x
  looked : ∀ k ∈ names, ∃ o, m.heap.lookup k.bytes m.base = .ok o
  fresh : ∀ k ∈ names, m.lacks k = true →
    (m.heap.table .sym).length ≤ indexOf (n.known k) ∧ n.heap.Homed n.base k (n.known k)
  size : (n.heap.table .sym).length = (m.heap.table .sym).length + (names.filter m.lacks).length
  total : (lengths n.heap .v08).sum = (lengths m.heap .v08).sum + m.lacking names
  symbols : ∀ x, m.heap.Fit x → tagOf x = .sym →
    n.heap.get .sym .pkg x = m.heap.get .sym .pkg x ∧ n.heap.symbolName x = m.heap.symbolName x
  texts : m.heap.bytes.length ≤ maxWord → n.heap.bytes.length ≤ maxWord

theorem installed_start {m : Machine} {entry : Word} (firm : m.Firm entry) :
    Installed m entry [] m where
  rest := rfl
  heap := rfl
  firm := firm
  below := ⟨rfl, fun _ => le_rfl⟩
  tables _ _ := rfl
  pending _ _ := ⟨rfl, rfl⟩
  found _ held := by cases held
  kept _ held := by cases held
  looked _ held := by cases held
  fresh _ held := by cases held
  size := rfl
  total := rfl
  symbols _ _ _ := ⟨rfl, rfl⟩
  texts bound := bound

section Step
variable {m n : Machine} {entry x : Word} {names : List Known} {k : Known}

theorem setKnown_known (n : Machine) (k : Known) (x : Word) (j : Known) :
    (n.setKnown k x).known j = if j = k then x else n.known j := by
  simp only [Machine.setKnown, Function.update_apply]

theorem Installed.step_found (inst : Installed m entry names n) (new : k ∉ names)
    (found : n.heap.lookup k.bytes n.base = .ok (some x)) : Installed m entry (names ++ [k]) (n.setKnown k x) := by
  have before := (inst.pending k new).2
  rw [found] at before
  have present : m.lacks k = false := by
    rw [Bool.eq_false_iff]
    intro missing
    rw [lacks_iff.mp missing] at before
    cases before
  have same : (names ++ [k]).filter m.lacks = names.filter m.lacks := by
    simp [filter_append, present]
  have fresh_ne : ∀ j ∈ names, j ≠ k := by
    rintro j held rfl
    exact new held
  exact
    { rest := by rw [Machine.setKnown, inst.rest]
      heap := inst.heap
      firm := inst.firm.setKnown k x
      below := inst.below
      tables := inst.tables
      pending := by
        intro j other
        rw [mem_append, mem_singleton, not_or] at other
        rw [setKnown_known, if_neg other.2]
        exact inst.pending j other.1
      found := by
        intro j held
        show n.heap.lookup j.bytes n.base = _
        rcases mem_append.mp held with old | last
        · rw [setKnown_known, if_neg (fresh_ne j old)]
          exact inst.found j old
        · rw [mem_singleton.mp last, setKnown_known, if_pos rfl]
          exact found
      kept := by
        intro j held y already
        rcases mem_append.mp held with old | last
        · rw [setKnown_known, if_neg (fresh_ne j old)]
          exact inst.kept j old y already
        · rw [mem_singleton.mp last] at already ⊢
          rw [setKnown_known, if_pos rfl]
          exact Option.some.inj (Except.ok.inj (before.trans already))
      looked := by
        intro j held
        rcases mem_append.mp held with old | last
        · exact inst.looked j old
        · rw [mem_singleton.mp last]
          exact ⟨_, before.symm⟩
      fresh := by
        intro j held missing
        rcases mem_append.mp held with old | last
        · rw [setKnown_known, if_neg (fresh_ne j old)]
          exact inst.fresh j old missing
        · rw [mem_singleton.mp last, present] at missing
          cases missing
      size := by
        rw [same]
        exact inst.size
      total := by
        rw [Machine.lacking, same]
        exact inst.total
      symbols := inst.symbols
      texts := inst.texts }

theorem added_total {h g : Heap} {name : List UInt8} {package : Word} (added : h.Added name package g x)
    (small : name.length ≤ maxWord) : (lengths g .v08).sum = (lengths h .v08).sum + name.length := by
  have length : (UInt32.ofNat name.length).toNat = name.length := toNat_ofNat_of_le small
  rw [lengths_eq (k := .v08) rfl, lengths_eq (k := .v08) rfl, added.tables]
  simp only [addedTable, map_append, map_cons, map_nil, sum_append,
    sum_cons, sum_nil, getD_cons_succ, getD_cons_zero]
  rw [length]
  rfl

theorem Installed.step_new {g : Heap} (inst : Installed m entry names n) (new : k ∉ names)
    (missing : n.heap.lookup k.bytes n.base = .ok none)
    (added : n.heap.Added k.bytes n.base g x) :
    Installed m entry (names ++ [k]) (({ n with heap := g } : Machine).setKnown k x) := by
  have catalog := inst.firm.catalog
  have baseFit := inst.firm.base_fit
  have baseTag := inst.firm.base_tag
  have before := (inst.pending k new).2
  rw [missing] at before
  have lacking : m.lacks k = true := lacks_iff.mpr before.symm
  have absentees : (names ++ [k]).filter m.lacks = names.filter m.lacks ++ [k] := by
    simp [filter_append, lacking]
  have fresh_ne : ∀ j ∈ names, j ≠ k := by
    rintro j held rfl
    exact new held
  have others {j : Known} (other : j ≠ k) :
      g.lookup j.bytes n.base = n.heap.lookup j.bytes n.base :=
    added.lookup_other catalog baseFit baseTag
      (fun same => other (Known.bytes_injective same)) baseFit baseTag
  have homed : g.Homed n.base k x := by
    refine ⟨added.symbol_tag, ?_, added.named⟩
    rw [Heap.get, added.symbol_row]
    rfl
  have oldSymbol (y : Word) (fit : n.heap.Fit y) (tag : tagOf y = .sym) :
      g.get .sym .pkg y = n.heap.get .sym .pkg y ∧ g.symbolName y = n.heap.symbolName y :=
    ⟨added.get (k := .sym) (by decide) fit tag .pkg, added.symbolName catalog fit tag⟩
  exact
    { rest := by rw [Machine.setKnown, inst.rest]
      heap := by
        show g = { m.heap with vat := g.vat, bytes := g.bytes }
        rw [added.rest, inst.heap]
      firm := (inst.firm.added added).setKnown k x
      below := ⟨added.era.trans inst.below.era, fun l => (inst.below.size l).trans (added.below.size l)⟩
      tables := by
        intro l other
        show g.table l = m.heap.table l
        rw [added.tables, ← inst.tables l other]
        cases l <;> first | rfl | (exfalso; revert other; decide)
      pending := by
        intro j other
        rw [mem_append, mem_singleton, not_or] at other
        rw [setKnown_known, if_neg other.2]
        obtain ⟨same, unchanged⟩ := inst.pending j other.1
        exact ⟨same, (others other.2).trans unchanged⟩
      found := by
        intro j held
        show g.lookup j.bytes n.base = _
        rcases mem_append.mp held with old | last
        · rw [setKnown_known, if_neg (fresh_ne j old), others (fresh_ne j old)]
          exact inst.found j old
        · rw [mem_singleton.mp last, setKnown_known, if_pos rfl]
          exact lookup_own (added.find_new catalog baseFit baseTag)
      kept := by
        intro j held y already
        rcases mem_append.mp held with old | last
        · rw [setKnown_known, if_neg (fresh_ne j old)]
          exact inst.kept j old y already
        · rw [mem_singleton.mp last, ← before] at already
          cases already
      looked := by
        intro j held
        rcases mem_append.mp held with old | last
        · exact inst.looked j old
        · rw [mem_singleton.mp last]
          exact ⟨_, before.symm⟩
      fresh := by
        intro j held absent
        show _ ∧ g.Homed n.base j _
        rcases mem_append.mp held with old | last
        · rw [setKnown_known, if_neg (fresh_ne j old)]
          obtain ⟨later, tag, home, named⟩ := inst.fresh j old absent
          have fit := (lookup_some catalog baseFit baseTag (inst.found j old)).1
          obtain ⟨sameHome, sameName⟩ := oldSymbol _ fit tag
          exact ⟨later, tag, sameHome.trans home, sameName.trans named⟩
        · rw [mem_singleton.mp last, setKnown_known, if_pos rfl]
          refine ⟨?_, homed⟩
          rw [added.symbol_index]
          exact inst.below.size .sym
      size := by
        show (g.table .sym).length = _
        rw [added.tables, absentees]
        simp only [addedTable, length_append, length_singleton, inst.size]
        omega
      total := by
        show (lengths g .v08).sum = _
        have small := (known_plain k (Known.mem_all k)).2.1
        have bound : 32 ≤ maxWord := by decide
        rw [added_total added (by omega), inst.total, Machine.lacking, Machine.lacking, absentees]
        simp only [map_append, map_cons, map_nil, sum_append, sum_cons,
          sum_nil]
        omega
      symbols := by
        intro y fit tag
        obtain ⟨home, named⟩ := inst.symbols y fit tag
        have later : n.heap.Fit y := fit_mono inst.below (by rw [inst.heap]) fit
        obtain ⟨sameHome, sameName⟩ := oldSymbol y later tag
        exact ⟨sameHome.trans home, sameName.trans named⟩
      texts := by
        intro bound
        show g.bytes.length ≤ maxWord
        have old := inst.texts bound
        rw [added.bytes, length_append]
        rcases added.room with empty | fits
        · omega
        · exact fits }

theorem intern_cases {m n : Machine} {name : List UInt8} {package : Word}
    (done : m.intern name package = .ok (x, n)) :
    (m.resolve name package = .ok (some x) ∧ n = m) ∨
      (m.resolve name package = .ok none ∧ ∃ g, m.heap.Added name package g x ∧ n = { m with heap := g }) := by
  obtain ⟨found, search, done⟩ := bind_ok done
  cases found with
  | some y =>
    have same := Prod.mk.inj (Except.ok.inj done)
    left
    rw [← same.1]
    exact ⟨search, same.2.symm⟩
  | none =>
    obtain ⟨⟨sym, heap⟩, added, done⟩ := bind_ok done
    have same := Prod.mk.inj (Except.ok.inj done)
    right
    rw [← same.1]
    exact ⟨search, heap, addSymbol_ok added, same.2.symm⟩

theorem Installed.run {done rest : List Known} (inst : Installed m entry done n) (nodup : (done ++ rest).Nodup)
    {last : Machine} (ran : Machine.installNames rest n = .ok last) : Installed m entry (done ++ rest) last := by
  induction rest generalizing done n with
  | nil =>
    cases ran
    rw [append_nil]
    exact inst
  | cons k rest ih =>
    obtain ⟨⟨y, next⟩, interned, later⟩ := bind_ok ran
    have new : k ∉ done := by
      intro held
      exact disjoint_of_nodup_append nodup held mem_cons_self
    have shift : done ++ k :: rest = (done ++ [k]) ++ rest := by simp
    rw [shift] at nodup ⊢
    have resolved := resolve_known n k
    rcases intern_cases interned with ⟨found, rfl⟩ | ⟨missing, g, added, rfl⟩
    · rw [resolved] at found
      exact ih (inst.step_found new found) nodup later
    · rw [resolved] at missing
      exact ih (inst.step_new new missing added) nodup later

theorem known_nodup : Known.all.Nodup := List.Nodup.of_map _ Known.nodup_bytes

theorem installKnown_spec (firm : m.Firm entry) (ran : m.installKnown = .ok n) : Installed m entry Known.all n :=
  (installed_start firm).run known_nodup ran

end Step

theorem installNames_found {m : Machine} (found : Known → Word)
    (all : ∀ k, m.heap.lookup k.bytes m.base = .ok (some (found k))) (names : List Known) :
    Machine.installNames names m =
      .ok { m with known := fun k => if k ∈ names then found k else m.known k } := by
  induction names generalizing m with
  | nil => rfl
  | cons k rest ih =>
    have interned : m.intern k.bytes m.base = .ok (found k, m) := by
      rw [Machine.intern, resolve_known, all k]
      rfl
    rw [Machine.installNames, interned]
    have later := ih (m := m.setKnown k (found k)) all
    show Machine.installNames rest (m.setKnown k (found k)) = _
    rw [later]
    congr 1
    simp only [Machine.setKnown]
    congr 1
    funext j
    rw [Function.update_apply]
    by_cases held : j ∈ rest
    · simp [held]
    · by_cases here : j = k
      · simp [here]
      · simp [held, here]

end Nxt.Wisp
