import Nxt.Wisp.Install

/- From bytes to a machine: what the decoder can read at all, what it makes of the encoder's
   bytes, and when the machine it restores is the one that was saved. -/
namespace Nxt.Wisp
open Nxt.Lib Nxt.Crypto List

def markers : List Known := [.prompt, .binding, .resume, .continuation]

theorem markers_saved : ∀ k ∈ markers, k ∈ savedKnown := by decide

section Control
variable {h g : Heap} {is js : Known → Word → Bool}

/-- The control check reads continuations, evaluators, closures and vectors only, and asks about
names only for the callees of continuations. -/
theorem checkControl_congr (era : g.era = h.era) (words : g.words = h.words)
    (tables : ∀ k ∈ [Kind.ktx, .v32, .run, .func, .mac], g.table k = h.table k)
    (same : ∀ k ∈ markers, ∀ x, js k (h.get .ktx .func x) = is k (h.get .ktx .func x)) :
    checkControl g js = checkControl h is := by
  have ktx := tables .ktx (by decide)
  have run := tables .run (by decide)
  have func := tables .func (by decide)
  have mac := tables .mac (by decide)
  have v32 := tables .v32 (by decide)
  have get : ∀ f x, g.get .ktx f x = h.get .ktx f x := by
    intro f x
    simp only [Heap.get, Heap.read, Heap.row, ktx]
  have slice : ∀ x, g.v32slice x = h.v32slice x := by
    intro x
    simp only [Heap.v32slice, Heap.slice, Heap.get, Heap.read, Heap.row, v32, words]
  have wrapper := same .continuation (by decide)
  have boundary : ∀ x, boundaryKind js (h.get .ktx .func x) = boundaryKind is (h.get .ktx .func x) := by
    intro x
    simp only [boundaryKind, same .prompt (by decide), same .binding (by decide), same .resume (by decide)]
  have segment : ∀ x, checkSegment g js x = checkSegment h is x := by
    intro x
    simp only [checkSegment, get, boundary, wrapper]
  have chain : ∀ x, checkMeta g js x = checkMeta h is x := by
    intro x
    simp only [checkMeta, get, boundary]
  have edges : ∀ i, controlEdges g js i = controlEdges h is i := by
    intro i
    simp only [controlEdges, era, get, slice, segment, chain, boundary, wrapper]
  have all : ∀ rows, allEdges g js rows = allEdges h is rows := by
    intro rows
    induction rows with
    | nil => rfl
    | cons i rest ih => simp only [allEdges, edges, ih]
  simp only [checkControl, ktx, run, func, mac, era, all, segment, chain]

end Control

section Saved
variable (m : Machine) {entry : Word}

def Heap.stored (h : Heap) : Heap where
  vat := h.vat
  bytes := h.bytes
  words := h.words
  pins := h.pins
  nextPin := h.nextPin
  era := h.era

theorem saved_eq : m.saved =
    { heap := m.heap.stored, base := m.base, keywords := m.keywords, keys := m.keys
      packages := m.packages, current := m.current, nilName := m.nilName, trueName := m.trueName
      known := fun k => if k ∈ savedKnown then m.known k else nil
      collectRequested := m.collectRequested, nextKey := m.nextKey } := by
  have known : m.saved.known = fun k => if k ∈ savedKnown then m.known k else nil := by
    funext k
    cases k <;> rfl
  rw [← known]
  rfl

theorem saved_known {k : Known} (held : k ∈ savedKnown) : m.saved.known k = m.known k := by
  rw [saved_eq]
  exact if_pos held

theorem mem_roots {r : SavedRoot} (held : r ∈ roots) : r ∈ members ∨ ∃ k ∈ savedKnown, r = .known k := by
  rcases mem_append.mp held with member | known
  · exact Or.inl member
  · obtain ⟨k, saved, rfl⟩ := mem_map.mp known
    exact Or.inr ⟨k, saved, rfl⟩

theorem member_root (known : Known → Word) (heap : Heap) {r : SavedRoot} (held : r ∈ members) :
    ({ m with known, heap } : Machine).root r = m.root r := by
  cases r with
  | known k => simp [members] at held
  | _ => rfl

theorem saved_root {r : SavedRoot} (held : r ∈ roots) : m.saved.root r = m.root r := by
  rcases mem_roots held with member | ⟨k, saved, rfl⟩
  · cases r with
    | known k => simp [members] at member
    | _ => rw [saved_eq]; rfl
  · exact saved_known m saved

theorem saved_heap : m.saved.heap = m.heap.stored := by rw [saved_eq]

theorem lookup_congr {h g : Heap} (bytes : g.bytes = h.bytes)
    (tables : ∀ k ∈ [Kind.duo, .sym, .v08, .pkg], g.table k = h.table k) (name : List UInt8)
    (package : Word) : g.lookup name package = h.lookup name package := by
  have get : ∀ k ∈ [Kind.duo, .sym, .v08, .pkg], ∀ f x, g.get k f x = h.get k f x := by
    intro k held f x
    simp only [Heap.get, Heap.read, Heap.row, tables k held]
  have cell := get .duo (by decide)
  have symbolName : ∀ x, g.symbolName x = h.symbolName x := by
    intro x
    simp only [Heap.symbolName, Heap.v08slice, get .sym (by decide), get .v08 (by decide), bytes]
  have fromCell : ∀ fuel cur, g.findFrom name fuel cur = h.findFrom name fuel cur := by
    intro fuel
    induction fuel with
    | zero => exact fun _ => rfl
    | succ fuel ih =>
      intro cur
      simp only [Heap.findFrom, cell, symbolName, ih]
  have find : ∀ pkg, g.find name pkg = h.find name pkg := by
    intro pkg
    simp only [Heap.find, get .pkg (by decide), fromCell]
  have used : ∀ fuel cur slow moveSlow,
      g.findUsed name fuel cur slow moveSlow = h.findUsed name fuel cur slow moveSlow := by
    intro fuel
    induction fuel with
    | zero => exact fun _ _ _ => rfl
    | succ fuel ih =>
      intro cur slow moveSlow
      simp only [Heap.findUsed, cell, find, ih]
  simp only [Heap.lookup, find, used, get .pkg (by decide)]

theorem lookup_stored (h : Heap) (name : List UInt8) (package : Word) :
    h.stored.lookup name package = h.lookup name package := by
  have bytes : h.stored.bytes = h.bytes := rfl
  have tables : ∀ k ∈ [Kind.duo, .sym, .v08, .pkg], h.stored.table k = h.table k := fun _ _ => rfl
  exact lookup_congr bytes tables name package

theorem stored_shaped {h : Heap} (shaped : h.Shaped) : h.stored.Shaped :=
  ⟨shaped.width, shaped.rows, shaped.pins⟩

theorem saved_sound : m.saved.Sound entry ↔ m.Sound entry := by
  have control : checkControl m.saved.heap (fun k x => x = m.saved.known k) =
      checkControl m.heap (fun k x => x = m.known k) := by
    apply checkControl_congr
    · rw [saved_heap]
      rfl
    · rw [saved_heap]
      rfl
    · intro k _
      rw [saved_heap]
      rfl
    · intro k marker x
      rw [saved_known m (markers_saved k marker)]
  have fit : ∀ r ∈ roots, (m.saved.heap.Fit (m.saved.root r) ↔ m.heap.Fit (m.root r)) := by
    intro r held
    rw [saved_root m held, saved_heap]
    rfl
  have homed : ∀ k ∈ savedKnown,
      (m.saved.heap.Homed m.saved.base k (m.saved.known k) ↔ m.heap.Homed m.base k (m.known k)) := by
    intro k held
    rw [saved_known m held, saved_eq]
    rfl
  rw [saved_eq] at control fit homed ⊢
  constructor
  all_goals
    intro sound
    obtain ⟨ps, items, tags, nodup, rooted⟩ := sound.registry
    have canonical := rooted.canonical
    exact
      { portable := sound.portable
        nextPin := sound.nextPin
        nextKey := sound.nextKey
        entry := sound.entry
        roots := fun r held => by simpa only [fit r held] using sound.roots r held
        pins := sound.pins
        words := sound.words
        unmarked := sound.unmarked
        fitting := sound.fitting
        slices := sound.slices
        totals := sound.totals
        symbols := sound.symbols
        code := sound.code
        packages := sound.packages
        registry := ⟨ps, items, tags, nodup,
          { current := rooted.current
            canonical := by
              intro r held
              have old := canonical r held
              simp only [mem_cons, not_mem_nil, or_false] at held
              rcases held with rfl | rfl | rfl <;> exact old
            nilName := rooted.nilName
            trueName := rooted.trueName
            cached := fun k held => by simpa only [homed k held] using rooted.cached k held }⟩
        control := by simpa only [control] using sound.control }

end Saved

section Remap
variable {h : Heap} {m : Machine} {entry : Word}

/-- The encoder's own order of builtins. -/
def jetOrder : List Nat := range Builtin.all.length

theorem remap_fit {x : Word} (fit : h.Fit x) : remap jetOrder x = .ok x := by
  unfold remap
  split
  · rfl
  · rename_i jet
    have tag : tagOf x = .jet := not_not.mp jet
    have bound : payloadOf x < Builtin.all.length := by
      unfold Heap.Fit checkValue at fit
      simp only [tag, Tag.kind?] at fit
      exact demand_iff.mp fit
    have here : jetOrder[payloadOf x]? = some (payloadOf x) := getElem?_range bound
    rw [here]
    exact congrArg Except.ok (immediate_eta tag)

theorem remapTable_fit {k : Kind} {rows : Table} (shape : ∀ data ∈ rows, data.length = width k)
    (fits : ∀ data ∈ rows, ∀ c ∈ Tidy.valueColumns k, h.Fit (data.getD c 0)) :
    remapTable jetOrder k rows = .ok rows := by
  have row : ∀ data ∈ rows,
      mapEach (remapCell jetOrder) (((schema k).map (·.kind)).zip data) = .ok data := by
    intro data held
    have cells : ∀ cell ∈ ((schema k).map (·.kind)).zip data,
        remapCell jetOrder cell = .ok cell.2 := by
      intro cell member
      unfold remapCell
      split
      · rename_i value
        obtain ⟨c, inside, rfl⟩ := mem_iff_getElem.mp member
        rw [getElem_zip] at value ⊢
        rw [length_zip] at inside
        have kind : columnKind k c = some .value := by
          rw [columnKind, getElem?_eq_getElem (by omega)]
          exact congrArg some value
        have column := fits data held c (mem_valueColumns.mpr kind)
        rw [getD_eq_getElem?_getD, getElem?_eq_getElem (by omega)] at column
        exact remap_fit column
      · rfl
    rw [mapEach_ok cells, map_snd_zip]
    rw [length_map, shape data held]
    rfl
  rw [remapTable, mapEach_ok row, map_id']

theorem remapTables_fit {kinds : List Kind} {v : Vat}
    (same : ∀ k, remapTable jetOrder k (v.get k) = .ok (v.get k)) : remapTables jetOrder kinds v = .ok v := by
  induction kinds with
  | nil => rfl
  | cons k rest ih =>
    have back : v.set k (v.get k) = v := by
      apply Vat.ext_get
      intro l
      rw [Vat.get_set]
      split
      · rename_i here
        rw [here]
      · rfl
    rw [remapTables, same k]
    show remapTables jetOrder rest (v.set k (v.get k)) = .ok v
    rw [back]
    exact ih

theorem setRoot_root (m : Machine) (r : SavedRoot) : m.setRoot (m.root r) r = m := by
  cases r with
  | known k => simp [Machine.setRoot, Machine.root, Machine.setKnown]
  | _ => rfl

theorem remapRoots_fit {rs : List SavedRoot} (fits : ∀ r ∈ rs, m.heap.Fit (m.root r)) :
    remapRoots jetOrder rs m = .ok m := by
  induction rs with
  | nil => rfl
  | cons r rest ih =>
    rw [remapRoots, remap_fit (fits r mem_cons_self)]
    show remapRoots jetOrder rest (m.setRoot (m.root r) r) = .ok m
    rw [setRoot_root]
    exact ih fun s held => fits s (mem_cons_of_mem _ held)

theorem remapImage_sound (sound : m.Sound entry) (shaped : m.heap.Shaped) :
    remapImage jetOrder { machine := m, entry } = .ok { machine := m, entry } := by
  have pins : mapEach (remapPin jetOrder) m.heap.pins = .ok m.heap.pins := by
    have each : ∀ pin ∈ m.heap.pins, remapPin jetOrder pin = .ok pin := by
      intro pin held
      rw [remapPin, remap_fit (sound.pins pin held).2]
      rfl
    rw [mapEach_ok each, map_id']
  have words : mapEach (remap jetOrder) m.heap.words = .ok m.heap.words := by
    rw [mapEach_ok fun w held => remap_fit (sound.words w held), map_id']
  have vat : remapTables jetOrder Kind.all m.heap.vat = .ok m.heap.vat :=
    remapTables_fit fun k => remapTable_fit (shaped.width k) (sound.fitting k)
  rw [remapImage, remap_fit sound.entry]
  simp only [Bind.bind, Except.bind, remapRoots_fit sound.roots, pins, words, vat]

end Remap

section Encoded
variable {m : Machine} {entry : Word} {data : Bytes}

theorem sound_counted (sound : m.Sound entry) : m.Counted where
  nextPin := by
    have bound := sound.nextPin.2
    have small : maxImmediate + 1 < 2 ^ 32 := by decide
    omega
  nextKey := Nat.lt_trans sound.nextKey (by decide)
  pins pin held := by
    have inside := (sound.pins pin held).1.2
    have bound := sound.nextPin.2
    have small : maxImmediate + 1 < 2 ^ 32 := by decide
    omega

theorem encode_ok (encoded : Codec.encode m entry = .ok data) :
    validate m entry = .ok () ∧ ∃ body, writeBody m entry = .ok body ∧ data = body ++ sha256 body := by
  obtain ⟨_, valid, rest⟩ := bind_ok encoded
  obtain ⟨body, written, rest⟩ := bind_ok rest
  exact ⟨valid, body, written, (Except.ok.inj rest).symm⟩

theorem writeBody_starts {body : Bytes} (written : writeBody m entry = .ok body) :
    ∃ rest, body = magic ++ rest ∧ 4 ≤ rest.length := by
  obtain ⟨header, first, tail⟩ := bind_ok written
  obtain ⟨others, -, done⟩ := bind_ok tail
  obtain ⟨start, isMagic, tail⟩ := bind_ok first
  obtain ⟨after, follows, joins⟩ := bind_ok tail
  obtain ⟨number, isVersion, tail⟩ := bind_ok follows
  obtain ⟨later, -, ends⟩ := bind_ok tail
  cases isMagic
  cases isVersion
  cases ends
  cases joins
  cases done
  refine ⟨u32le version ++ later ++ others, by simp, ?_⟩
  simp only [u32le, length_append, length_cons, length_nil]
  omega

/-- The decoder reads the encoder's bytes back as what was saved. -/
theorem parse_encode (shaped : m.heap.Shaped) (encoded : Codec.encode m entry = .ok data)
    {limit : Nat} (fits : data.length ≤ limit) : Codec.parse data limit = .ok { machine := m.saved, entry } := by
  obtain ⟨valid, body, written, rfl⟩ := encode_ok encoded
  have sound := (validate_ok (shaped.rows .duo)).mp valid
  obtain ⟨rest, start, more⟩ := writeBody_starts written
  have digest := sha256_length body
  have size : (body ++ sha256 body).length - sha256Len = body.length := by
    rw [length_append, digest]
    omega
  have long : magic.length + 4 + sha256Len ≤ (body ++ sha256 body).length := by
    rw [length_append, digest, start, length_append]
    omega
  have read := readBody_writeBody shaped (sound_counted sound) sound.portable written
  have savedShaped : m.saved.heap.Shaped := by
    rw [saved_heap]
    exact stored_shaped shaped
  have limited : demand (decide ((body ++ sha256 body).length ≤ limit)) "tape exceeds input limit" =
      .ok () := demand_iff.mpr fits
  have complete : demand (decide (magic.length + 4 + sha256Len ≤ (body ++ sha256 body).length))
      "truncated tape" = .ok () := demand_iff.mpr long
  rw [Codec.parse]
  simp only [size, take_left, drop_left, limited, complete, read, Bind.bind, Except.bind]
  exact remapImage_sound ((saved_sound m).mpr sound) savedShaped

end Encoded
section Yields
variable {k : Kind}

theorem yields_expect {β : Type} {good : Bool} {message : String} {f : Unit → Reader TapeError β}
    {Q : β → Prop} (next : good = true → Yields (f ()) Q) : Yields (expect good message >>= f) Q := by
  constructor
  intro s b s' done
  have step : (expect good message s >>= fun p => f p.1 p.2) = .ok (b, s') := done
  obtain ⟨p, read, rest⟩ := bind_ok step
  unfold expect at read
  split at read
  · rename_i holds
    cases read
    exact (next holds).holds s b s' rest
  · cases read

theorem yields_reject {β : Type} {message : String} {Q : β → Prop} :
    Yields (reject message : Reader TapeError β) Q := by
  constructor
  intro s b s' done
  cases done

theorem yields_take (n : Nat) : Yields (take n) fun data => data.length = n := by
  constructor
  intro s data s' done
  unfold take at done
  split at done
  · rename_i enough
    cases done
    rw [length_take]
    omega
  · cases done

theorem yields_words (n : Nat) : Yields (loop readWord n []) fun xs => xs.length = n := by
  have counted := yields_loop readWord (fun i (xs : List Word) => xs.length = i) (by
    intro i xs size
    apply yields_bind yields_any
    intro x _
    apply yields_pure
    rw [length_append, size]
    rfl) n (i := 0) (s := []) rfl
  rwa [Nat.zero_add] at counted

theorem yields_cells {columns : List Nat} {rows : Table} (shape : ∀ data ∈ rows, data.length = width k) : Yields
    (readCells columns rows) fun filled => filled.length = rows.length ∧ ∀ data ∈ filled, data.length = width k := by
  induction columns generalizing rows with
  | nil => exact yields_pure ⟨rfl, shape⟩
  | cons c rest ih =>
    apply yields_bind (yields_words rows.length)
    intro cells size
    have length : (setCells rows c cells).length = rows.length := by
      rw [setCells, length_zipWith, size, Nat.min_self]
    have wide : ∀ data ∈ setCells rows c cells, data.length = width k := by
      intro data held
      obtain ⟨i, inside, rfl⟩ := mem_iff_getElem.mp held
      simp only [setCells, getElem_zipWith, length_set]
      exact shape _ (getElem_mem _)
    apply yields_mono (ih wide)
    intro filled both
    exact ⟨both.1.trans length, both.2⟩

def Shapely (k : Kind) (rows : Table) : Prop :=
  rows.length ≤ maxIndex + 1 ∧ ∀ data ∈ rows, data.length = width k

theorem yields_table (k : Kind) : Yields (readTable k) (Shapely k) := by
  apply yields_bind yields_any
  intro n _
  apply yields_expect
  intro bound
  apply yields_expect
  intro _
  apply yields_bind yields_any
  intro w _
  apply yields_expect
  intro _
  apply yields_bind yields_any
  intro columns _
  apply yields_bind yields_any
  intro left _
  apply yields_expect
  intro _
  have blank : ∀ data ∈ replicate n.toNat (replicate (width k) (0 : Word)),
      data.length = width k := by
    intro data held
    rw [eq_of_mem_replicate held, length_replicate]
  apply yields_mono (yields_cells blank)
  intro filled both
  refine ⟨?_, both.2⟩
  rw [both.1, length_replicate]
  exact of_decide_eq_true bound

theorem yields_tables (h : Heap) (blank : ∀ k, Shapely k (h.table k)) :
    Yields (readTables h) fun g => g = { h with vat := g.vat } ∧ ∀ k, Shapely k (g.table k) := by
  apply yields_bind yields_any
  intro n _
  apply yields_expect
  intro _
  have all := yields_loop readOneTable (fun _ (state : List Word × Vat) => ∀ k, Shapely k (state.2.get k))
    (by
      intro i state shapes
      apply yields_bind yields_any
      intro type _
      apply yields_expect
      intro _
      split
      · exact yields_reject
      · rename_i l _
        apply yields_bind (yields_table l)
        intro rows shape
        apply yields_pure
        intro k
        rw [Vat.get_set]
        split
        · rename_i same
          rw [same]
          exact shape
        · exact shapes k) Kind.all.length (i := 0) (s := ([], h.vat)) blank
  apply yields_bind all
  intro state shapes
  exact yields_pure ⟨rfl, shapes⟩

theorem emplacePin_ascending {n : Nat} {x : Word} {pins : List (Nat × Word)}
    (ascending : (pins.map Prod.fst).Pairwise (· < ·)) : ((emplacePin n x pins).map Prod.fst).Pairwise (· < ·) ∧
      ∀ pin ∈ emplacePin n x pins, pin.1 = n ∨ pin.1 ∈ pins.map Prod.fst := by
  induction pins with
  | nil => simp [emplacePin]
  | cons pin rest ih =>
    rw [map_cons, pairwise_cons] at ascending
    obtain ⟨later, members⟩ := ih ascending.2
    rw [emplacePin]
    split
    · rename_i lower
      constructor
      · rw [map_cons, map_cons, pairwise_cons, pairwise_cons]
        refine ⟨?_, ascending⟩
        intro i held
        rcases mem_cons.mp held with rfl | further
        · exact lower
        · exact Nat.lt_trans lower (ascending.1 i further)
      · intro other held
        rcases mem_cons.mp held with rfl | old
        · exact Or.inl rfl
        · exact Or.inr (mem_map_of_mem old)
    · split
      · constructor
        · rw [map_cons, pairwise_cons]
          exact ascending
        · exact fun other held => Or.inr (mem_map_of_mem held)
      · rename_i notLower notSame
        constructor
        · rw [map_cons, pairwise_cons]
          refine ⟨?_, later⟩
          intro i held
          obtain ⟨other, member, rfl⟩ := mem_map.mp held
          rcases members other member with here | old
          · rw [here]
            show pin.1 < n
            omega
          · exact ascending.1 _ old
        · intro other held
          rcases mem_cons.mp held with rfl | member
          · exact Or.inr mem_cons_self
          · rcases members other member with here | old
            · exact Or.inl here
            · exact Or.inr (mem_cons_of_mem _ old)

theorem yields_pins (h : Heap) :
    Yields (readPins h) fun g => g = { h with pins := g.pins } ∧
      (g.pins.map Prod.fst).Pairwise (· < ·) := by
  apply yields_bind yields_any
  intro n _
  apply yields_bind yields_any
  intro left _
  apply yields_expect
  intro _
  have all := yields_loop readPin (fun _ (pins : List (Nat × Word)) => (pins.map Prod.fst).Pairwise (· < ·))
    (by
      intro i pins ascending
      apply yields_bind yields_any
      intro id _
      apply yields_bind yields_any
      intro x _
      apply yields_expect
      intro _
      exact yields_pure (emplacePin_ascending ascending).1) n.toNat (i := 0) (s := []) .nil
  apply yields_bind all
  intro pins ascending
  exact yields_pure ⟨rfl, ascending⟩

theorem yields_pools (h : Heap) :
    Yields (readPools h) fun g => g = { h with bytes := g.bytes, words := g.words } ∧
      g.bytes.length ≤ maxWord ∧ g.words.length ≤ maxWord := by
  have small (x : Word) : x.toNat ≤ maxWord := Nat.le_of_lt_succ x.toNat_lt
  apply yields_bind yields_any
  intro n _
  apply yields_bind (yields_take n.toNat)
  intro bytes size
  apply yields_bind yields_any
  intro count _
  apply yields_bind yields_any
  intro left _
  apply yields_expect
  intro _
  apply yields_bind (yields_words count.toNat)
  intro words length
  apply yields_pure
  refine ⟨rfl, ?_, ?_⟩
  · show bytes.length ≤ maxWord
    rw [size]
    exact small n
  · show words.length ≤ maxWord
    rw [length]
    exact small count

theorem setRoot_heap (m : Machine) (x : Word) (r : SavedRoot) : (m.setRoot x r).heap = m.heap := by
  cases r <;> rfl

theorem yields_roots (m : Machine) : Yields (readRoots m) fun n => n.heap = m.heap := by
  apply yields_bind yields_any
  intro n _
  apply yields_expect
  intro _
  have all := yields_loop readRoot (fun _ (state : List SavedRoot × Machine) => state.2.heap = m.heap)
    (by
      intro i state same
      apply yields_bind yields_any
      intro name _
      split
      · exact yields_reject
      · rename_i r _
        apply yields_expect
        intro _
        apply yields_bind yields_any
        intro x _
        apply yields_pure
        rw [setRoot_heap]
        exact same) roots.length (i := 0) (s := ([], m)) rfl
  apply yields_bind all
  intro state same
  exact yields_pure same

theorem yields_header : Yields readHeader fun img => ∃ era nextPin, img.machine.heap = { era, nextPin } := by
  apply yields_bind yields_any
  intro found _
  apply yields_expect
  intro _
  apply yields_bind yields_any
  intro number _
  apply yields_expect
  intro _
  apply yields_bind yields_any
  intro era _
  apply yields_bind yields_any
  intro nextPin _
  apply yields_bind yields_any
  intro low _
  apply yields_bind yields_any
  intro high _
  apply yields_bind yields_any
  intro requested _
  apply yields_bind yields_any
  intro entry _
  exact yields_pure ⟨era, nextPin.toNat, rfl⟩

structure Image.Parsed (p : Image) : Prop where
  shaped : p.machine.heap.Shaped
  bytes : p.machine.heap.bytes.length ≤ maxWord
  words : p.machine.heap.words.length ≤ maxWord
  stored : p.machine.heap.stored = p.machine.heap

theorem yields_parts : Yields readParts fun parts => parts.2.Parsed := by
  apply yields_bind yields_header
  rintro img ⟨era, nextPin, blank⟩
  apply yields_bind (yields_roots img.machine)
  intro m sameHeap
  apply yields_bind yields_any
  intro jetMap _
  apply yields_bind yields_any
  intro _ _
  apply yields_bind (yields_pools m.heap)
  rintro pools ⟨onlyPools, bytes, words⟩
  have empty : ∀ k, Shapely k (pools.table k) := by
    intro k
    have none : pools.table k = [] := by
      rw [onlyPools, sameHeap, blank]
      cases k <;> rfl
    rw [none]
    exact ⟨Nat.zero_le _, by simp⟩
  apply yields_bind (yields_tables pools empty)
  rintro tables ⟨onlyTables, shapes⟩
  apply yields_bind (yields_pins tables)
  rintro heap ⟨onlyPins, ascending⟩
  apply yields_pure
  have same : ∀ k, heap.table k = tables.table k := by
    intro k
    rw [onlyPins]
    rfl
  have poolsSame : heap.bytes = pools.bytes ∧ heap.words = pools.words := by
    rw [onlyPins, onlyTables]
    exact ⟨rfl, rfl⟩
  exact
    { shaped :=
        { width := fun k => by rw [same]; exact (shapes k).2
          rows := fun k => by rw [same]; exact (shapes k).1
          pins := ascending }
      bytes := by rw [poolsSame.1]; exact bytes
      words := by rw [poolsSame.2]; exact words
      stored := by
        show heap.stored = heap
        rw [onlyPins, onlyTables, onlyPools, sameHeap, blank]
        rfl }

end Yields
section Parsed
variable {jetMap : List Nat}

theorem remapTable_shape {k : Kind} {rows new : Table} (shape : Shapely k rows)
    (done : remapTable jetMap k rows = .ok new) : Shapely k new := by
  have images := mapEach_forall₂ done
  refine ⟨images.length_eq ▸ shape.1, ?_⟩
  intro data held
  obtain ⟨i, inside, rfl⟩ := mem_iff_getElem.mp held
  have before : i < rows.length := by
    rw [images.length_eq]
    exact inside
  have cells := mapEach_forall₂ (images.get before inside)
  have old : (rows.get ⟨i, before⟩).length = width k := shape.2 _ (getElem_mem before)
  have size := cells.length_eq
  rw [length_zip, length_map, old] at size
  exact size.symm.trans (Nat.min_self _)

theorem remapTables_shape {kinds : List Kind} {v w : Vat} (shapes : ∀ k, Shapely k (v.get k))
    (done : remapTables jetMap kinds v = .ok w) : ∀ k, Shapely k (w.get k) := by
  induction kinds generalizing v with
  | nil =>
    cases done
    exact shapes
  | cons k rest ih =>
    obtain ⟨rows, first, done⟩ := bind_ok done
    apply ih _ done
    intro l
    rw [Vat.get_set]
    split
    · rename_i same
      rw [same]
      exact remapTable_shape (shapes k) first
    · exact shapes l

theorem remapRoots_heap {rs : List SavedRoot} {m n : Machine}
    (done : remapRoots jetMap rs m = .ok n) : n.heap = m.heap := by
  induction rs generalizing m with
  | nil =>
    cases done
    rfl
  | cons r rest ih =>
    obtain ⟨x, -, done⟩ := bind_ok done
    rw [ih done, setRoot_heap]

theorem remapPins_ids {pins new : List (Nat × Word)}
    (done : mapEach (remapPin jetMap) pins = .ok new) : new.map Prod.fst = pins.map Prod.fst := by
  induction pins generalizing new with
  | nil =>
    cases done
    rfl
  | cons pin rest ih =>
    obtain ⟨renumbered, first, done⟩ := bind_ok done
    obtain ⟨later, tail, done⟩ := bind_ok done
    obtain ⟨x, -, same⟩ := bind_ok first
    cases same
    cases done
    rw [map_cons, map_cons, ih tail]

theorem remapImage_parsed {img p : Image} (parsed : img.Parsed) (done : remapImage jetMap img = .ok p) : p.Parsed := by
  obtain ⟨entry, -, done⟩ := bind_ok done
  obtain ⟨m, rootsDone, done⟩ := bind_ok done
  obtain ⟨pins, pinsDone, done⟩ := bind_ok done
  obtain ⟨words, wordsDone, done⟩ := bind_ok done
  obtain ⟨vat, tablesDone, done⟩ := bind_ok done
  cases done
  have heap := remapRoots_heap rootsDone
  rw [heap] at pinsDone wordsDone tablesDone
  have shapes := remapTables_shape
    (fun k => ⟨parsed.shaped.rows k, parsed.shaped.width k⟩) tablesDone
  exact
    { shaped :=
        { width := fun k => (shapes k).2
          rows := fun k => (shapes k).1
          pins := by
            show (pins.map Prod.fst).Pairwise (· < ·)
            rw [remapPins_ids pinsDone]
            exact parsed.shaped.pins }
      bytes := by
        show m.heap.bytes.length ≤ maxWord
        rw [heap]
        exact parsed.bytes
      words := by
        show words.length ≤ maxWord
        rw [← (mapEach_forall₂ wordsDone).length_eq]
        exact parsed.words
      stored := by
        have old := parsed.stored
        rw [← heap] at old
        show ({ m.heap with pins, words, vat } : Heap).stored = { m.heap with pins, words, vat }
        rw [← old]
        rfl }

theorem parse_parsed {data : Bytes} {limit : Nat} {p : Image} (done : Codec.parse data limit = .ok p) : p.Parsed := by
  obtain ⟨_, -, done⟩ := bind_ok done
  obtain ⟨_, -, done⟩ := bind_ok done
  obtain ⟨_, -, done⟩ := bind_ok done
  obtain ⟨⟨⟨jetMap, img⟩, left⟩, read, done⟩ := bind_ok done
  have step : (readParts _ >>= fun p => (leftover >>= fun left =>
      expect (left = 0) "trailing tape bytes" >>= fun _ => pure p.1 :
        Reader TapeError (List Nat × Image)) p.2) = .ok ((jetMap, img), left) := read
  obtain ⟨⟨parts, rest⟩, sections, step⟩ := bind_ok step
  obtain ⟨⟨_, _⟩, -, step⟩ := bind_ok step
  cases step
  exact remapImage_parsed (yields_parts.holds _ _ _ sections) done

end Parsed
end Nxt.Wisp
