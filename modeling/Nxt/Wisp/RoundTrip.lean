import Nxt.Wisp.TapeSize

/- Encoding and decoding a tape. What the decoder restores is what was saved, except that it
   interns every known name anew after validation: a name that is not found adds a symbol, and a
   saved name may be found as another symbol than the one that was saved. -/
namespace Nxt.Wisp
open Nxt.Lib Nxt.Crypto List

section Wrapped
variable {z : Zlib} {m : Machine} {entry : Word} {format : Compression} {b data : Bytes} {limit : Nat}

theorem magic_apart : ∀ rest : Bytes, (magic ++ rest).take compressedMagic.length ≠ compressedMagic := by
  intro rest
  have apart : compressedMagic.length = magic.length ∧ magic ≠ compressedMagic := by decide +kernel
  rw [apart.1, take_left]
  exact apart.2

theorem unwrap_raw (encoded : Codec.encode m entry = .ok data) : Tape.unwrap z data limit = .ok data := by
  obtain ⟨-, body, written, rfl⟩ := encode_ok encoded
  obtain ⟨rest, rfl, -⟩ := writeBody_starts written
  rw [Tape.unwrap, if_neg]
  rintro ⟨-, start⟩
  rw [append_assoc] at start
  exact magic_apart _ start

theorem tape_encode_ok (encoded : Tape.encode z m entry format = .ok b) :
    ∃ data, Codec.encode m entry = .ok data ∧ (b = data ∨ ∃ packed, data.length ≤ maxWord ∧
      z.compress data = .ok packed ∧ b = compressedMagic ++ u32le (UInt32.ofNat data.length) ++ packed) := by
  obtain ⟨data, raw, rest⟩ := bind_ok encoded
  refine ⟨data, raw, ?_⟩
  cases format with
  | none => exact Or.inl (Except.ok.inj rest).symm
  | zlib =>
    obtain ⟨size, counted, rest⟩ := bind_ok rest
    obtain ⟨packed, compressed, rest⟩ := bind_ok rest
    obtain ⟨fits, rfl⟩ := count_ok counted
    refine Or.inr ⟨packed, fits, ?_, (Except.ok.inj rest).symm⟩
    unfold liftZlib at compressed
    split at compressed
    · rename_i found
      rw [found, Except.ok.inj compressed]
    · cases compressed
    · cases compressed

theorem unwrap_packed {packed : Bytes} (small : data.length ≤ maxWord)
    (compressed : z.compress data = .ok packed) :
    Tape.unwrap z (compressedMagic ++ u32le (UInt32.ofNat data.length) ++ packed) limit =
      (do
        demand ((compressedMagic ++ u32le (UInt32.ofNat data.length) ++ packed).length ≤ limit)
          "tape exceeds input limit"
        demand (data.length ≤ limit) "tape exceeds decoded limit"
        .ok data) := by
  have start : (compressedMagic ++ u32le (UInt32.ofNat data.length) ++ packed).take
      compressedMagic.length = compressedMagic := by
    rw [append_assoc, take_left]
  have later : (compressedMagic ++ u32le (UInt32.ofNat data.length) ++ packed).drop
      compressedMagic.length = u32le (UInt32.ofNat data.length) ++ packed := by
    rw [append_assoc, drop_left]
  have long : compressedMagic.length ≤
      (compressedMagic ++ u32le (UInt32.ofNat data.length) ++ packed).length := by
    rw [append_assoc, length_append]
    omega
  have read : readU32 (u32le (UInt32.ofNat data.length) ++ packed) =
      .ok (UInt32.ofNat data.length, packed) := codes_u32 _ _ rfl packed
  rw [Tape.unwrap, if_pos ⟨long, start⟩, later, read]
  simp only [Bind.bind, Except.bind, toNat_count small, z.inverse _ _ compressed, liftZlib]
  rfl

theorem decode_within (shaped : m.heap.Shaped) (encoded : Tape.encode z m entry format = .ok b)
    (raw : Codec.encode m entry = .ok data) (outer : b.length ≤ limit) (inner : data.length ≤ limit) :
    Tape.decode z b limit = restore { machine := m.saved, entry } := by
  have unwrapped : Tape.unwrap z b limit = .ok data := by
    obtain ⟨other, same, shape⟩ := tape_encode_ok encoded
    rw [raw] at same
    cases same
    rcases shape with rfl | ⟨packed, small, compressed, rfl⟩
    · exact unwrap_raw raw
    · rw [unwrap_packed small compressed, demand_iff.mpr outer, demand_iff.mpr inner]
      rfl
  rw [Tape.decode, unwrapped]
  show Codec.decode data limit = _
  rw [Codec.decode, parse_encode shaped raw inner]
  rfl

theorem parse_limit {p : Image} (parsed : Codec.parse data limit = .ok p) : data.length ≤ limit := by
  obtain ⟨_, bound, -⟩ := bind_ok parsed
  exact demand_iff.mp bound

theorem decode_limit {img : Image} (encoded : Tape.encode z m entry format = .ok b)
    (raw : Codec.encode m entry = .ok data) (decoded : Tape.decode z b limit = .ok img) :
    b.length ≤ limit ∧ data.length ≤ limit := by
  obtain ⟨other, same, shape⟩ := tape_encode_ok encoded
  rw [raw] at same
  cases same
  obtain ⟨found, unwrapped, decoded⟩ := bind_ok decoded
  obtain ⟨p, parsed, -⟩ := bind_ok decoded
  rcases shape with rfl | ⟨packed, small, compressed, rfl⟩
  · rw [unwrap_raw raw] at unwrapped
    cases unwrapped
    exact ⟨parse_limit parsed, parse_limit parsed⟩
  · rw [unwrap_packed small compressed] at unwrapped
    obtain ⟨_, outer, unwrapped⟩ := bind_ok unwrapped
    obtain ⟨_, inner, -⟩ := bind_ok unwrapped
    exact ⟨demand_iff.mp outer, demand_iff.mp inner⟩

end Wrapped

section Saved
variable {m n : Machine} {entry : Word}

theorem writeBody_saved (m : Machine) (entry : Word) : writeBody m.saved entry = writeBody m entry := by
  have header : writeHeader m.saved entry = writeHeader m entry := by
    rw [saved_eq]
    rfl
  have directory : writeRoots m.saved = writeRoots m := by
    have each : roots.map (writeRoot m.saved) = roots.map (writeRoot m) := by
      apply map_congr_left
      intro r held
      rw [writeRoot, writeRoot, saved_root m held]
    rw [writeRoots, writeRoots, each]
  rw [writeBody, writeBody, header, directory, saved_heap]
  rfl

theorem sound_congr (same : n.saved = m.saved) (sound : m.Sound entry) : n.Sound entry := by
  apply (saved_sound n).mp
  rw [same]
  exact (saved_sound m).mpr sound

theorem encode_congr {data : Bytes} (same : n.saved = m.saved) (shaped : m.heap.Shaped)
    (other : n.heap.Shaped) (encoded : Codec.encode m entry = .ok data) : Codec.encode n entry = .ok data := by
  obtain ⟨valid, body, written, rfl⟩ := encode_ok encoded
  have sound := (validate_ok (shaped.rows .duo)).mp valid
  have again := (validate_ok (other.rows .duo)).mpr (sound_congr same sound)
  rw [← writeBody_saved, ← same, writeBody_saved] at written
  rw [Codec.encode, again, written]
  rfl

end Saved

/-- Every known name is found, and a saved one is found as the symbol that was saved. -/
def Machine.Recalls (m : Machine) : Prop :=
  ∀ k, ∃ x, m.heap.lookup k.bytes m.base = .ok (some x) ∧ (k ∈ savedKnown → x = m.known k)

structure Image.Restores (img : Image) (m : Machine) (entry : Word) : Prop where
  tables : ∀ k, img.machine.heap.table k = m.heap.table k
  bytes : img.machine.heap.bytes = m.heap.bytes
  words : img.machine.heap.words = m.heap.words
  pins : img.machine.heap.pins = m.heap.pins
  nextPin : img.machine.heap.nextPin = m.heap.nextPin
  era : img.machine.heap.era = m.heap.era
  nextKey : img.machine.nextKey = m.nextKey
  collectRequested : img.machine.collectRequested = m.collectRequested
  roots : ∀ r ∈ roots, img.machine.root r = m.root r
  entry : img.entry = entry

section Restored
variable {m : Machine} {entry : Word} {img : Image}

theorem Image.Restores.saved (restores : img.Restores m entry) : img.machine.saved = m.saved := by
  have vat : img.machine.heap.vat = m.heap.vat := Vat.ext_get restores.tables
  have heap : img.machine.heap.stored = m.heap.stored := by
    simp only [Heap.stored, vat, restores.bytes, restores.words, restores.pins, restores.nextPin,
      restores.era]
  have known : (fun k => if k ∈ savedKnown then img.machine.known k else nil) =
      fun k => if k ∈ savedKnown then m.known k else nil := by
    funext k
    split
    · rename_i held
      exact restores.roots (.known k) (mem_append_right _ (mem_map_of_mem held))
    · rfl
  have member : ∀ r ∈ members, img.machine.root r = m.root r := fun r held =>
    restores.roots r (mem_append_left _ held)
  have base : img.machine.base = m.base := member .base (by decide)
  have keywords : img.machine.keywords = m.keywords := member .keywords (by decide)
  have keys : img.machine.keys = m.keys := member .keys (by decide)
  have packages : img.machine.packages = m.packages := member .packages (by decide)
  have current : img.machine.current = m.current := member .current (by decide)
  have nilName : img.machine.nilName = m.nilName := member .nilName (by decide)
  have trueName : img.machine.trueName = m.trueName := member .trueName (by decide)
  rw [saved_eq, saved_eq, heap, known, base, keywords, keys, packages, current, nilName, trueName,
    restores.nextKey, restores.collectRequested]

theorem restore_ok {p : Image} (restored : restore p = .ok img) :
    validate p.machine p.entry = .ok () ∧ ∃ n, p.machine.installKnown = .ok n ∧
      img = { machine := { n with heap := n.heap.freezeContinuations }, entry := p.entry } := by
  obtain ⟨_, valid, restored⟩ := bind_ok restored
  obtain ⟨n, installed, restored⟩ := bind_ok restored
  refine ⟨valid, n, ?_, (Except.ok.inj restored).symm⟩
  unfold liftHost at installed
  split at installed
  · rename_i found
    rw [found, Except.ok.inj installed]
  · cases installed

theorem saved_firm (shaped : m.heap.Shaped) (sound : m.Sound entry) : m.saved.Firm entry := by
  have stored : m.saved.heap.Shaped := by
    rw [saved_heap]
    exact stored_shaped shaped
  exact ((sound_iff stored).mp ((saved_sound m).mpr sound)).1

theorem saved_lookup (name : List UInt8) : m.saved.heap.lookup name m.saved.base = m.heap.lookup name m.base := by
  rw [saved_heap, lookup_stored, saved_eq]

theorem restore_found (shaped : m.heap.Shaped) (sound : m.Sound entry) {found : Known → Word}
    (looked : ∀ k, m.heap.lookup k.bytes m.base = .ok (some (found k))) :
    restore { machine := m.saved, entry } = .ok
      { machine := { m.saved with known := found
                                  heap := m.saved.heap.freezeContinuations }, entry } := by
  have valid : validate m.saved entry = .ok () := by
    apply (validate_ok _).mpr ((saved_sound m).mpr sound)
    rw [saved_heap]
    exact shaped.rows .duo
  have installed : m.saved.installKnown = .ok { m.saved with known := found } := by
    rw [Machine.installKnown, installNames_found found]
    · simp only [Known.mem_all, if_true]
    · intro k
      rw [saved_lookup]
      exact looked k
  rw [restore]
  simp only [valid, installed, liftHost, Bind.bind, Except.bind]

theorem recalls_restores (shaped : m.heap.Shaped) (sound : m.Sound entry) (recalls : m.Recalls) :
    ∃ img, restore { machine := m.saved, entry } = .ok img ∧ img.Restores m entry := by
  choose found looked kept using recalls
  refine ⟨_, restore_found shaped sound looked, ?_⟩
  exact
    { tables := fun k => by rw [saved_heap]; rfl
      bytes := by rw [saved_heap]; rfl
      words := by rw [saved_heap]; rfl
      pins := by rw [saved_heap]; rfl
      nextPin := by rw [saved_heap]; rfl
      era := by rw [saved_heap]; rfl
      nextKey := by rw [saved_eq]
      collectRequested := by rw [saved_eq]
      roots := by
        intro r held
        rcases mem_roots held with member | ⟨k, saved, rfl⟩
        · exact (member_root m.saved _ _ member).trans (saved_root m held)
        · exact kept k saved
      entry := rfl }

theorem restores_recalls (shaped : m.heap.Shaped) (sound : m.Sound entry)
    (restored : restore { machine := m.saved, entry } = .ok img) (restores : img.Restores m entry) :
    m.Recalls := by
  obtain ⟨-, n, installed, rfl⟩ := restore_ok restored
  have inst := installKnown_spec (saved_firm shaped sound) installed
  intro k
  -- No name is added, for an added one is a new row of the symbol table.
  have size := inst.size
  have same : (n.heap.table .sym).length = (m.saved.heap.table .sym).length := by
    have rows := restores.tables .sym
    rw [saved_heap]
    exact congrArg List.length rows
  have nothing : Known.all.filter m.saved.lacks = [] := length_eq_zero_iff.mp (by omega)
  have present : m.saved.lacks k = false := by
    have absent := filter_eq_nil_iff.mp nothing k (Known.mem_all k)
    simpa using absent
  obtain ⟨o, looked⟩ := inst.looked k (Known.mem_all k)
  cases o with
  | none =>
    rw [lacks_iff.mpr looked] at present
    cases present
  | some x =>
    have kept := inst.kept k (Known.mem_all k) x looked
    rw [saved_lookup] at looked
    refine ⟨x, looked, ?_⟩
    intro held
    have root := restores.roots (.known k) (mem_append_right _ (mem_map_of_mem held))
    exact kept.symm.trans root

end Restored

namespace Tape

def parse (z : Zlib) (data : Bytes) (limit : Nat) : Except TapeError Image := do
  Codec.parse (← unwrap z data limit) limit

end Tape

/-- What the names found in the tape's own packages must be for the restored machine to be
encoded again: within the index range of texts with the missing names added, homed in WISP, and
marking the same continuations as boundaries and wrappers. -/
structure Image.Recastable (p : Image) : Prop where
  texts : (lengths p.machine.heap .v08).sum + p.machine.lacking Known.all ≤ maxWord
  homed : ∀ k ∈ savedKnown, ∀ x, p.machine.heap.lookup k.bytes p.machine.base = .ok (some x) →
    p.machine.heap.get .sym .pkg x = p.machine.base
  control : checkControl p.machine.heap
    (fun k x => p.machine.heap.lookup k.bytes p.machine.base = .ok (some x)) = .ok ()

section Decoded
variable {z : Zlib} {b : Bytes} {limit : Nat} {p img : Image}

structure Decoded (p : Image) (n : Machine) (img : Image) : Prop where
  parsed : p.Parsed
  sound : p.machine.Sound p.entry
  installed : Installed p.machine p.entry Known.all n
  image : img = { machine := { n with heap := n.heap.freezeContinuations }, entry := p.entry }

theorem decode_spec (parsed : Tape.parse z b limit = .ok p) (decoded : Tape.decode z b limit = .ok img) :
    ∃ n, Decoded p n img := by
  obtain ⟨data, unwrapped, parsed⟩ := bind_ok parsed
  obtain ⟨other, same, decoded⟩ := bind_ok decoded
  rw [unwrapped] at same
  cases same
  obtain ⟨q, again, restored⟩ := bind_ok decoded
  rw [parsed] at again
  cases again
  have shape := parse_parsed parsed
  obtain ⟨valid, n, installed, image⟩ := restore_ok restored
  have sound := (validate_ok (shape.shaped.rows .duo)).mp valid
  have firm := ((sound_iff shape.shaped).mp sound).1
  exact ⟨n, shape, sound, installKnown_spec firm installed, image⟩

variable {n : Machine}

section
variable (done : Decoded p n img)
include done

theorem Decoded.firm : p.machine.Firm p.entry :=
  ((sound_iff done.parsed.shaped).mp done.sound).1

theorem Decoded.known_iff (k : Known) {x : Word} (fit : p.machine.heap.Fit x) :
    x = n.known k ↔ p.machine.heap.lookup k.bytes p.machine.base = .ok (some x) := by
  have inst := done.installed
  obtain ⟨o, looked⟩ := inst.looked k (Known.mem_all k)
  have firm := inst.firm
  have here := lookup_some firm.catalog firm.base_fit firm.base_tag (inst.found k (Known.mem_all k))
  rw [looked]
  cases o with
  | some y =>
    have kept := inst.kept k (Known.mem_all k) y looked
    rw [kept]
    constructor
    · rintro rfl
      rfl
    · intro same
      exact (Option.some.inj (Except.ok.inj same)).symm
  | none =>
    constructor
    · intro same
      have later := (inst.fresh k (Known.mem_all k) (lacks_iff.mpr looked)).1
      have tag : tagOf x = .sym := same ▸ here.2.1
      have inside := (fit_pointer (k := .sym) fit tag).2
      rw [← same] at later
      omega
    · intro never
      cases never

theorem Decoded.control : checkControl n.heap (fun k x => x = n.known k) = checkControl p.machine.heap
      (fun k x => p.machine.heap.lookup k.bytes p.machine.base = .ok (some x)) := by
  have inst := done.installed
  apply checkControl_congr
  · exact inst.below.era
  · rw [inst.heap]
  · intro k held
    apply inst.tables
    simp only [mem_cons, not_mem_nil, or_false] at held ⊢
    rcases held with rfl | rfl | rfl | rfl | rfl <;> decide
  · intro k _ x
    have fit : p.machine.heap.Fit (p.machine.heap.get .ktx .func x) := by
      rw [Heap.get, Heap.read, Heap.row]
      by_cases inside : indexOf x < (p.machine.heap.table .ktx).length
      · rw [getD_eq_getElem _ _ inside]
        exact done.sound.fitting .ktx _ (getElem_mem inside) _ (by decide)
      · rw [getD_eq_default (p.machine.heap.table .ktx) _ (by omega)]
        rfl
    exact decide_eq_decide.mpr (done.known_iff k fit)

theorem Decoded.homed_iff : (∀ k ∈ savedKnown, n.heap.Fit (n.known k) ∧ n.heap.Homed n.base k (n.known k)) ↔
      ∀ k ∈ savedKnown, ∀ x, p.machine.heap.lookup k.bytes p.machine.base = .ok (some x) →
        p.machine.heap.get .sym .pkg x = p.machine.base := by
  have inst := done.installed
  have firm := inst.firm
  have catalog := done.firm.catalog
  have base : n.base = p.machine.base := by rw [inst.rest]
  have kept {k : Known} {x : Word}
      (looked : p.machine.heap.lookup k.bytes p.machine.base = .ok (some x)) :
      n.known k = x ∧ n.heap.get .sym .pkg x = p.machine.heap.get .sym .pkg x := by
    have old := lookup_some catalog done.firm.base_fit done.firm.base_tag looked
    exact ⟨inst.kept k (Known.mem_all k) x looked, (inst.symbols x old.1 old.2.1).1⟩
  constructor
  · intro homed k held x looked
    obtain ⟨-, -, home, -⟩ := homed k held
    obtain ⟨same, unchanged⟩ := kept looked
    rw [same, unchanged, base] at home
    exact home
  · intro homed k held
    have here := lookup_some firm.catalog firm.base_fit firm.base_tag (inst.found k (Known.mem_all k))
    refine ⟨here.1, ?_⟩
    obtain ⟨o, looked⟩ := inst.looked k (Known.mem_all k)
    cases o with
    | none => exact (inst.fresh k (Known.mem_all k) (lacks_iff.mpr looked)).2
    | some x =>
      obtain ⟨same, unchanged⟩ := kept looked
      refine ⟨here.2.1, ?_, here.2.2⟩
      rw [same, unchanged, base]
      exact homed k held x looked

theorem Decoded.saved : img.machine.saved = n.saved := by
  rw [done.image, saved_eq, saved_eq]
  rfl

theorem Decoded.shaped : img.machine.heap.Shaped := by
  have shaped := done.installed.firm.catalog.shaped
  rw [done.image]
  exact ⟨shaped.width, shaped.rows, shaped.pins⟩

theorem Decoded.sound_iff : img.machine.Sound img.entry ↔ p.Recastable := by
  have inst := done.installed
  have shaped := inst.firm.catalog.shaped
  have entry : img.entry = p.entry := by rw [done.image]
  have same : img.machine.Sound img.entry ↔ n.Sound p.entry := by
    rw [entry]
    exact ⟨sound_congr done.saved.symm, sound_congr done.saved⟩
  rw [same, Wisp.sound_iff shaped, inst.total]
  constructor
  · rintro ⟨-, texts, cached⟩
    exact ⟨texts, done.homed_iff.mp cached.homed, done.control ▸ cached.control⟩
  · intro recast
    exact ⟨inst.firm, recast.texts, done.homed_iff.mpr recast.homed, done.control ▸ recast.control⟩

theorem Decoded.encode_iff : (∃ data, Codec.encode img.machine img.entry = .ok data) ↔ p.Recastable := by
  rw [← done.sound_iff]
  constructor
  · rintro ⟨data, encoded⟩
    exact (validate_ok (done.shaped.rows .duo)).mp (encode_ok encoded).1
  · intro sound
    have inst := done.installed
    have bytes : img.machine.heap.bytes.length ≤ maxWord := by
      rw [done.image]
      exact inst.texts done.parsed.bytes
    have words : img.machine.heap.words.length ≤ maxWord := by
      rw [done.image]
      show n.heap.words.length ≤ maxWord
      rw [inst.heap]
      exact done.parsed.words
    obtain ⟨data, encoded, -⟩ := encode_sized done.shaped bytes words sound
    exact ⟨data, encoded⟩

theorem Decoded.lookup (k : Known) :
    img.machine.heap.lookup k.bytes img.machine.base = .ok (some (img.machine.known k)) := by
  have found := done.installed.found k (Known.mem_all k)
  rw [← lookup_stored] at found ⊢
  rw [done.image]
  exact found

theorem Decoded.again (sound : img.machine.Sound img.entry) :
    restore { machine := img.machine.saved, entry := img.entry } = .ok img := by
  rw [restore_found done.shaped sound done.lookup]
  have inst := done.installed
  have stored : n.heap.stored = n.heap := by
    rw [inst.heap, ← done.parsed.stored]
    rfl
  rw [saved_eq, done.image]
  show Except.ok ({ machine := { n with heap := n.heap.stored.freezeContinuations }, entry := _ } : Image) = _
  rw [stored]

end

end Decoded

/-- A tape that was encoded decodes to the machine it was made from just when it is within the
limit and the machine recalls its names; a machine that was decoded can be encoded, and comes back
as itself from what that gives, just when the tape's names are recastable. -/
theorem tape_round_trip (z : Zlib) (limit : Nat) :
    (∀ m entry format b data, m.heap.Shaped → Tape.encode z m entry format = .ok b →
      Codec.encode m entry = .ok data → ((∃ img, Tape.decode z b limit = .ok img ∧ img.Restores m entry ∧
          Tape.encode z img.machine img.entry format = .ok b) ↔ b.length ≤ limit ∧ data.length ≤ limit ∧ m.Recalls)) ∧
    ∀ b p img, Tape.parse z b limit = .ok p → Tape.decode z b limit = .ok img →
      ((∃ data, Codec.encode img.machine img.entry = .ok data ∧
          ∀ format c admitted, Tape.encode z img.machine img.entry format = .ok c →
            c.length ≤ admitted → data.length ≤ admitted → Tape.decode z c admitted = .ok img) ↔ p.Recastable) := by
  constructor
  · intro m entry format b data shaped encoded raw
    have sound := (validate_ok (shaped.rows .duo)).mp (encode_ok raw).1
    constructor
    · rintro ⟨img, decoded, restores, -⟩
      obtain ⟨outer, inner⟩ := decode_limit encoded raw decoded
      rw [decode_within shaped encoded raw outer inner] at decoded
      exact ⟨outer, inner, restores_recalls shaped sound decoded restores⟩
    · rintro ⟨outer, inner, recalls⟩
      obtain ⟨img, restored, restores⟩ := recalls_restores shaped sound recalls
      refine ⟨img, ?_, restores, ?_⟩
      · rw [decode_within shaped encoded raw outer inner]
        exact restored
      · have other : img.machine.heap.Shaped :=
          ⟨fun k => by rw [restores.tables]; exact shaped.width k,
            fun k => by rw [restores.tables]; exact shaped.rows k,
            by rw [restores.pins]; exact shaped.pins⟩
        have same := encode_congr restores.saved shaped other raw
        rw [Tape.encode, raw] at encoded
        rw [restores.entry, Tape.encode, same]
        exact encoded
  · intro b p img parsed decoded
    obtain ⟨n, done⟩ := decode_spec parsed decoded
    constructor
    · rintro ⟨data, encoded, -⟩
      exact done.encode_iff.mp ⟨data, encoded⟩
    · intro recast
      obtain ⟨data, raw⟩ := done.encode_iff.mpr recast
      refine ⟨data, raw, ?_⟩
      intro format c admitted encoded outer inner
      rw [decode_within done.shaped encoded raw outer inner]
      exact done.again (done.sound_iff.mpr recast)

section Plain

def textRows : Nat → List Bytes → Table
  | _, [] => []
  | start, data :: rest =>
      [UInt32.ofNat start, UInt32.ofNat data.length] :: textRows (start + data.length) rest

def plainTexts : List Bytes :=
  [ascii "WISP", ascii "KEYWORD", ascii "KEY", ascii "NIL", ascii "T"] ++ Known.all.map Known.bytes

/-- The three packages, with a symbol in WISP for every known name. -/
def plainVat : Vat where
  v08 := textRows 0 plainTexts
  pkg := [[pointer .v08 0 false, pointer .duo 3 false, nil], [pointer .v08 1 false, nil, nil],
    [pointer .v08 2 false, nil, nil]]
  duo := [[pointer .pkg 2 false, pointer .duo 1 false], [pointer .pkg 1 false, pointer .duo 2 false],
    [pointer .pkg 0 false, nil]] ++
    (List.range Known.all.length).map fun i =>
      [pointer .sym i false, if i + 1 = Known.all.length then nil else pointer .duo (i + 4) false]
  sym := (List.range Known.all.length).map fun i =>
    [pointer .v08 (i + 5) false, pointer .pkg 0 false, nah, nil, nil]

def plain : Machine where
  heap := { vat := plainVat, bytes := plainTexts.flatten }
  base := pointer .pkg 0 false
  keywords := pointer .pkg 1 false
  keys := pointer .pkg 2 false
  packages := pointer .duo 0 false
  current := pointer .pkg 0 false
  nilName := pointer .v08 3 false
  trueName := pointer .v08 4 false
  known k := pointer .sym (Known.all.idxOf k) false

/-- WISP lists, before the symbol kept as DO, another one of that name that has no home. -/
def shadowed : Machine :=
  { plain with
    heap := { plain.heap with vat := { plainVat with
      pkg := [[pointer .v08 0 false, pointer .duo 76 false, nil], [pointer .v08 1 false, nil, nil],
        [pointer .v08 2 false, nil, nil]]
      duo := plainVat.duo ++ [[pointer .sym 73 false, pointer .duo 3 false]]
      sym := plainVat.sym ++ [[pointer .v08 (Known.all.idxOf .doForm + 5) false, nil, nah, nil, nil]] } } }

def noZlib : Zlib where
  compress _ := .error .memory
  uncompress _ _ := .error .memory
  inverse _ _ never := by cases never

/-- What a heap of fixed tables says about its shape and size. -/
def Heap.Small (h : Heap) : Prop :=
  (∀ k ∈ Kind.all, (h.table k).length ≤ maxIndex + 1 ∧ ∀ data ∈ h.table k, data.length = width k) ∧
    h.bytes.length ≤ maxWord ∧ tapeSize h + sha256Len ≤ 2 ^ 20

theorem Heap.small_tables {h : Heap}
    (tables : (∀ k ∈ Kind.all, (h.table k).length ≤ maxIndex + 1 ∧ ∀ data ∈ h.table k, data.length = width k) ∧
      h.bytes.length + 4 * h.words.length +
        (Kind.all.map fun k => 4 * width k * (h.table k).length).sum + 8 * h.pins.length ≤ 2 ^ 16) : h.Small := by
  have fixed := fixedSize_le
  have range : maxWord = 2 ^ 32 - 1 := rfl
  have length : sha256Len = 32 := rfl
  refine ⟨tables.1, ?_, ?_⟩
  · omega
  · rw [tapeSize]
    omega

theorem plainTexts_eq : plainTexts =
    ["WISP", "KEYWORD", "KEY", "NIL", "T"].map encoded ++ Known.all.map fun k => encoded k.name := by
  have low : ∀ s ∈ ["WISP", "KEYWORD", "KEY", "NIL", "T"], ascii s = encoded s := by
    have all : ∀ s ∈ ["WISP", "KEYWORD", "KEY", "NIL", "T"], lowOnly s = true := by decide +kernel
    exact fun s held => ascii_eq (all s held)
  rw [← map_congr_left low, ← map_congr_left fun k _ => Known.bytes_eq k]
  rfl

theorem plain_facts : validate plain nil = .ok () ∧ plain.heap.Small ∧ ∀ k ∈ Known.all,
    plain.heap.lookup k.bytes plain.base = .ok (some (plain.known k)) := by
  refine ⟨?_, Heap.small_tables ?_, ?_⟩
  all_goals
    simp only [plain, plainVat, plainTexts_eq, Known.bytes_eq]
    decide +kernel

theorem Heap.Small.shaped {h : Heap} (small : h.Small) (none : h.pins = []) : h.Shaped where
  width k := (small.1 k (Kind.mem_all k)).2
  rows k := (small.1 k (Kind.mem_all k)).1
  pins := by
    rw [none]
    exact .nil

theorem Heap.Small.limit {h : Heap} (small : h.Small) :
    tapeSize h + sha256Len ≤ Tape.defaultLimit := small.2.2.trans (by decide)

theorem plain_shaped : plain.heap.Shaped := plain_facts.2.1.shaped rfl

theorem plain_sound : plain.Sound nil := (validate_ok (plain_shaped.rows .duo)).mp plain_facts.1

theorem plain_lookup (k : Known) : plain.heap.lookup k.bytes plain.base = .ok (some (plain.known k)) :=
  plain_facts.2.2 k (Known.mem_all k)

theorem plain_recalls : plain.Recalls := fun k => ⟨_, plain_lookup k, fun _ => rfl⟩

theorem raw_encode {z : Zlib} {m : Machine} {entry : Word} {data : Bytes}
    (raw : Codec.encode m entry = .ok data) : Tape.encode z m entry .none = .ok data := by
  rw [Tape.encode, raw]
  rfl

def shadowedKnown (k : Known) : Word := if k = .doForm then pointer .sym 73 false else plain.known k

def shadowedImage : Image where
  machine := { shadowed with
    known := shadowedKnown
    heap := shadowed.heap.stored.freezeContinuations }
  entry := nil

theorem shadowed_facts : validate shadowed nil = .ok () ∧ shadowed.heap.Small ∧ (∀ k ∈ Known.all,
      shadowed.heap.lookup k.bytes shadowed.base = .ok (some (shadowedKnown k))) ∧
    validate shadowedImage.machine shadowedImage.entry = .error (.bad "invalid cached symbol") ∧
    shadowedImage.machine.known .doForm ≠ shadowed.known .doForm := by
  refine ⟨?_, Heap.small_tables ?_, ?_, ?_, by decide +kernel⟩
  all_goals
    simp only [shadowedImage, shadowed, plain, plainVat, plainTexts_eq, Known.bytes_eq]
    decide +kernel

theorem shadowed_decodes : ∃ b, Tape.encode noZlib shadowed nil .none = .ok b ∧
    Tape.decode noZlib b Tape.defaultLimit = .ok shadowedImage := by
  obtain ⟨valid, small, looked, -⟩ := shadowed_facts
  have shaped := small.shaped rfl
  have sound := (validate_ok (shaped.rows .duo)).mp valid
  obtain ⟨b, raw, size⟩ := encode_sized shaped small.2.1 (Nat.zero_le _) sound
  have encoded := raw_encode (z := noZlib) raw
  have fits : b.length ≤ Tape.defaultLimit := size.trans_le small.limit
  refine ⟨b, encoded, ?_⟩
  rw [decode_within shaped encoded raw fits fits,
    restore_found shaped sound fun k => looked k (Known.mem_all k), saved_eq]
  rfl

/-- The validator accepts the tape, but not the machine that the decoder makes of it. -/
theorem shadowed_name_lost : ∃ b, Tape.encode noZlib shadowed nil .none = .ok b ∧
    Tape.decode noZlib b Tape.defaultLimit = .ok shadowedImage ∧
    shadowedImage.machine.known .doForm ≠ shadowed.known .doForm ∧
    Codec.encode shadowedImage.machine shadowedImage.entry = .error (.bad "invalid cached symbol") := by
  obtain ⟨b, encoded, decoded⟩ := shadowed_decodes
  obtain ⟨-, -, -, invalid, other⟩ := shadowed_facts
  refine ⟨b, encoded, decoded, other, ?_⟩
  rw [Codec.encode, invalid]
  rfl

/-- `plain` comes back from its tape, and what comes back is its own copy. -/
theorem tape_round_trip_plain : ∃ b img, Tape.encode noZlib plain nil .none = .ok b ∧
    Tape.decode noZlib b Tape.defaultLimit = .ok img ∧ img.Restores plain nil ∧
    ∃ data, Codec.encode img.machine img.entry = .ok data ∧
      (data.length ≤ Tape.defaultLimit → Tape.decode noZlib data Tape.defaultLimit = .ok img) := by
  have small := plain_facts.2.1
  obtain ⟨b, raw, size⟩ := encode_sized plain_shaped small.2.1 (Nat.zero_le _) plain_sound
  have encoded := raw_encode (z := noZlib) raw
  have inner : b.length ≤ Tape.defaultLimit := size.trans_le small.limit
  obtain ⟨first, second⟩ := tape_round_trip noZlib Tape.defaultLimit
  obtain ⟨img, decoded, restores, -⟩ :=
    (first plain nil .none b b plain_shaped encoded raw).mpr ⟨inner, inner, plain_recalls⟩
  have parsed : Tape.parse noZlib b Tape.defaultLimit = .ok { machine := plain.saved, entry := nil } := by
    rw [Tape.parse, unwrap_raw raw]
    exact parse_encode plain_shaped raw inner
  obtain ⟨n, done⟩ := decode_spec parsed decoded
  have same := encode_congr restores.saved plain_shaped done.shaped raw
  rw [← restores.entry] at same
  have recast := done.encode_iff.mp ⟨b, same⟩
  obtain ⟨data, again, copies⟩ := (second b _ img parsed decoded).mpr recast
  exact ⟨b, img, encoded, decoded, restores, data, again, fun fits =>
    copies .none data _ (raw_encode again) fits fits⟩

end Plain
end Nxt.Wisp
