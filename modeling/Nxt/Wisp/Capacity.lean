import Nxt.Wisp.Collect
import Nxt.Wisp.RoundTrip

/- Whether a decoded image can be collected. The validator bounds the lengths of vectors, of
   records and of texts apart; the collector copies vectors and records into one pool, and the
   decoder adds the texts of missing names after it has validated. -/
namespace Nxt.Wisp
open Nxt.Lib Nxt.Crypto List

/-- The exceptions that are `std::length_error`. -/
def HostError.ofLength : HostError → Bool
  | .payloadOverflow | .tableOverflow | .tableFull | .pinsExhausted => true
  | _ => false

section Reserve
variable {grant : Reservation → Bool} {h : Heap}

theorem sumLengths_fails (ls : List Nat) (total : Nat) : Fails (sumLengths ls total) fun e => e = .payloadOverflow := by
  induction ls generalizing total with
  | nil => exact fails_ok total
  | cons len rest ih =>
    apply fails_bind
    · unfold poolSize
      split
      · exact fails_error rfl
      · exact fails_ok _
    · intro sum _
      exact ih sum

theorem request_fails (r : Reservation) : Fails (request grant r) fun e => e = .badAlloc ∧ grant r = false := by
  unfold request
  split
  · exact fails_ok ()
  · rename_i refused
    exact fails_error ⟨rfl, by simpa using refused⟩

theorem reserveTables_fails (kinds : List Kind) : Fails (reserveTables grant h kinds) fun e =>
      (e = .tableOverflow ∧ ∃ k, maxIndex + 1 < (h.table k).length) ∨ (e = .badAlloc ∧ ∃ r, grant r = false) := by
  induction kinds with
  | nil => exact fails_ok ()
  | cons k rest ih =>
    apply fails_bind
    · unfold reserveTable
      split
      · rename_i many
        exact fails_error (Or.inl ⟨rfl, k, many⟩)
      · split
        · exact fails_ok ()
        · intro e failed
          obtain ⟨same, refused⟩ := request_fails _ e failed
          exact Or.inr ⟨same, _, refused⟩
    · intro _ _
      exact ih

theorem tidy_fails (rows : ∀ k, (h.table k).length ≤ maxIndex + 1) :
    Fails (tidy grant h) fun e => (e = .payloadOverflow ∧ ¬ Reserved h) ∨ (e = .badAlloc ∧ ∃ r, grant r = false) := by
  apply fails_bind
  · intro e failed
    rcases reserveTables_fails Kind.all e failed with ⟨-, k, many⟩ | refused
    · have bound := rows k
      omega
    · exact Or.inr refused
  intro _ _
  apply fails_bind
  · intro e failed
    refine Or.inl ⟨sumLengths_fails _ _ e failed, ?_⟩
    intro reserved
    have words := reserved.words
    rw [sumLengths_of_le (by omega)] at failed
    cases failed
  intro vectors first
  apply fails_bind
  · intro e failed
    refine Or.inl ⟨sumLengths_fails _ _ e failed, ?_⟩
    intro reserved
    have words := reserved.words
    have total := (sumLengths_ok first (Nat.zero_le _)).1
    rw [sumLengths_of_le (by omega)] at failed
    cases failed
  intro total _
  apply fails_bind
  · intro e failed
    obtain ⟨same, refused⟩ := request_fails _ e failed
    exact Or.inr ⟨same, _, refused⟩
  intro _ _
  apply fails_bind
  · intro e failed
    refine Or.inl ⟨sumLengths_fails _ _ e failed, ?_⟩
    intro reserved
    have bytes := reserved.bytes
    rw [sumLengths_of_le (by omega)] at failed
    cases failed
  intro texts _
  apply fails_bind
  · intro e failed
    obtain ⟨same, refused⟩ := request_fails _ e failed
    exact Or.inr ⟨same, _, refused⟩
  intro _ _
  exact fails_ok _

/-- Collection throws a length error, with some allocator, just when the totals are out of
range. -/
theorem collect_fits_iff (rows : ∀ k, (h.table k).length ≤ maxIndex + 1) :
    (∀ grant e, (h.collect grant).1 = .error e → e.ofLength = false) ↔ Reserved h := by
  constructor
  · intro fine
    cases run : tidy (fun _ => true) h with
    | ok s => exact (tidy_ok run).2
    | error e =>
      have thrown : (h.collect fun _ => true).1 = .error e := by rw [Heap.collect, run]
      have short := fine _ e thrown
      rcases tidy_fails rows e run with ⟨rfl, -⟩ | ⟨-, r, refused⟩
      · cases short
      · cases refused
  · intro reserved grant e thrown
    cases run : tidy grant h with
    | ok s =>
      rw [Heap.collect, run] at thrown
      cases thrown
    | error other =>
      rw [Heap.collect, run] at thrown
      cases thrown
      rcases tidy_fails rows e run with ⟨-, out⟩ | ⟨rfl, -⟩
      · exact absurd reserved out
      · rfl

end Reserve

/-- A decoded image is collected without a length error just when its vectors and records
together, and its texts with the missing known names, are within the index range of their pools. -/
theorem decoded_collects (z : Zlib) (b : Bytes) (limit : Nat) (p img : Image)
    (parsed : Tape.parse z b limit = .ok p) (decoded : Tape.decode z b limit = .ok img) :
    (∀ grant e, (img.storage.collect grant).1 = .error e → e.ofLength = false) ↔
      (lengths p.machine.heap .v32).sum + (lengths p.machine.heap .record).sum ≤ maxWord ∧
        (lengths p.machine.heap .v08).sum + p.machine.lacking Known.all ≤ maxWord := by
  obtain ⟨n, done⟩ := decode_spec parsed decoded
  have inst := done.installed
  have same : ∀ k, img.storage.table k = n.heap.table k := by
    intro k
    rw [done.image]
    rfl
  have rows : ∀ k, (img.storage.table k).length ≤ maxIndex + 1 := by
    intro k
    rw [same]
    exact inst.firm.catalog.shaped.rows k
  have total : ∀ k, lengths img.storage k = lengths n.heap k := by
    intro k
    rw [lengths, same, lengths]
  have old : ∀ k, wordPayload k = true → lengths n.heap k = lengths p.machine.heap k := by
    intro k payload
    rw [lengths, lengths, inst.tables k (by cases k <;> first | decide | cases payload)]
  rw [collect_fits_iff rows, ← inst.total, ← old .v32 rfl, ← old .record rfl, ← total, ← total, ← total]
  constructor
  · intro reserved
    exact ⟨reserved.words, reserved.bytes⟩
  · rintro ⟨words, bytes⟩
    exact ⟨rows, words, bytes⟩

section Crowded
variable {size vectors records : Nat}

def wholePool (size : Nat) : Row := [0, UInt32.ofNat size]

/-- `plain` with vectors and records that all share one slice. -/
def crowded (size vectors records : Nat) : Machine :=
  { plain with
    heap := { plain.heap with
      words := replicate size nil
      vat := { plainVat with v32 := replicate vectors (wholePool size)
                             record := replicate records (wholePool size) } } }

/-- How many rows `crowded` adds. -/
def extraRows (vectors records : Nat) : Kind → Nat
  | .v32 => vectors
  | .record => records
  | _ => 0

theorem crowded_table (k : Kind) : (crowded size vectors records).heap.table k =
    plain.heap.table k ++ replicate (extraRows vectors records k) (wholePool size) := by
  cases k <;> rfl

theorem plain_payload {k : Kind} (payload : wordPayload k = true) : plain.heap.table k = [] := by
  cases k <;> first | rfl | cases payload

theorem extraRows_none {k : Kind} (other : wordPayload k = false) : extraRows vectors records k = 0 := by
  cases k <;> first | rfl | cases other

theorem crowded_row {k : Kind} {data : Row} (held : data ∈ (crowded size vectors records).heap.table k) :
    data ∈ plain.heap.table k ∨ (wordPayload k = true ∧ data = wholePool size) := by
  rw [crowded_table] at held
  rcases mem_append.mp held with old | new
  · exact Or.inl old
  · cases payload : wordPayload k with
    | false =>
      rw [extraRows_none payload] at new
      cases new
    | true => exact Or.inr ⟨rfl, eq_of_mem_replicate new⟩

theorem crowded_below : plain.heap.Below (crowded size vectors records).heap where
  era := rfl
  size k := by
    rw [crowded_table, length_append]
    omega

theorem crowded_fit {x : Word} (fit : plain.heap.Fit x) : (crowded size vectors records).heap.Fit x :=
  fit_mono crowded_below le_rfl fit

theorem crowded_lengths {k : Kind} (payload : wordPayload k = true) (small : size ≤ maxWord) :
    (lengths (crowded size vectors records).heap k).sum = extraRows vectors records k * size := by
  have slice : sliced k = true := by simp [sliced, payload]
  have length : ((wholePool size).getD 1 0).toNat = size := toNat_ofNat_of_le small
  rw [lengths_eq slice, crowded_table, plain_payload payload, nil_append, map_replicate,
    sum_replicate, length, smul_eq_mul]

theorem crowded_shaped (size : Nat) (fewVectors : vectors ≤ maxIndex + 1) (fewRecords : records ≤ maxIndex + 1) :
    (crowded size vectors records).heap.Shaped where
  width k data held := by
    rcases crowded_row held with old | ⟨payload, rfl⟩
    · exact plain_shaped.width k data old
    · cases k <;> first | rfl | cases payload
  rows k := by
    rw [crowded_table, length_append, length_replicate]
    cases payload : wordPayload k with
    | false =>
      rw [extraRows_none payload]
      exact plain_shaped.rows k
    | true =>
      rw [plain_payload payload, length_nil, Nat.zero_add]
      cases k with
      | v32 => exact fewVectors
      | record => exact fewRecords
      | _ => cases payload
  pins := .nil

theorem crowded_code (small : size ≤ maxWord) (fewRecords : records ≤ maxIndex + 1) (i : Nat)
    (inside : i < ((crowded size vectors records).heap.table .record).length) :
    checkCode (crowded size vectors records).heap i = .ok () := by
  have bound : i < records := by
    rw [crowded_table, length_append, length_replicate] at inside
    exact inside.trans_eq (Nat.zero_add _)
  have index : indexOf (pointer .record i false) = i :=
    indexOf_pointer .record false (by
      have limit : maxIndex + 1 = 2 ^ 26 := rfl
      omega)
  have here : (crowded size vectors records).heap.read .record (pointer .record i false) =
      wholePool size := by
    rw [Heap.read, index, Heap.row]
    show (replicate records (wholePool size)).getD i [] = _
    rw [getD_eq_getElem _ _ (by rw [length_replicate]; exact bound), getElem_replicate]
  have words : (crowded size vectors records).heap.slice .record (pointer .record i false) =
      replicate size nil := by
    have length : (UInt32.ofNat size).toNat = size := toNat_ofNat_of_le small
    rw [Heap.slice, Heap.get, Heap.get, here]
    show ((replicate size nil).drop 0).take (UInt32.ofNat size).toNat = _
    rw [length, drop_zero, take_replicate, Nat.min_self]
  have other : codeRecordOp (crowded size vectors records).heap (pointer .record i false) = none := by
    unfold codeRecordOp
    rw [words]
    split
    · rfl
    · cases size with
      | zero => rfl
      | succ n => rfl
  have era : (crowded size vectors records).heap.era = false := rfl
  rw [checkCode, era]
  simp only [other]

theorem crowded_sound (small : size ≤ maxWord) (fewVectors : vectors * size ≤ maxWord)
    (fewRecords : records * size ≤ maxWord) (bound : records ≤ maxIndex + 1) :
    (crowded size vectors records).Sound nil := by
  have plainSound := plain_sound
  exact
    { portable := plainSound.portable
      nextPin := plainSound.nextPin
      nextKey := plainSound.nextKey
      entry := rfl
      roots := fun r held => crowded_fit (plainSound.roots r held)
      pins := fun pin held => by cases held
      words := fun w held => by
        rw [eq_of_mem_replicate held]
        rfl
      unmarked := fun k data held => by
        rcases crowded_row held with old | ⟨-, rfl⟩
        · exact plainSound.unmarked k data old
        · show (0 : Word) ≠ zap
          decide
      fitting := fun k data held c column => by
        rcases crowded_row held with old | ⟨payload, rfl⟩
        · exact crowded_fit (plainSound.fitting k data old c column)
        · have none : Tidy.valueColumns k = [] := by
            cases k with
            | v32 => decide
            | record => decide
            | _ => cases payload
          rw [none] at column
          cases column
      slices := fun k slice data held => by
        rcases crowded_row held with old | ⟨payload, rfl⟩
        · cases payload : wordPayload k with
          | false =>
            have text : k = .v08 := by simpa [sliced, payload] using slice
            subst text
            exact plainSound.slices .v08 slice data old
          | true =>
            rw [plain_payload payload] at old
            cases old
        · have length : (UInt32.ofNat size).toNat = size := toNat_ofNat_of_le small
          rw [Heap.pool, if_neg (by rintro rfl; cases payload)]
          show (0 : Word).toNat + (UInt32.ofNat size).toNat ≤ (replicate size nil).length
          rw [length, length_replicate]
          exact Nat.le_of_eq (Nat.zero_add size)
      totals := fun k slice => by
        cases payload : wordPayload k with
        | false =>
          have text : k = .v08 := by simpa [sliced, payload] using slice
          subst text
          exact plainSound.totals .v08 slice
        | true =>
          rw [crowded_lengths payload small]
          cases k with
          | v32 => exact fewVectors
          | record => exact fewRecords
          | _ => cases payload
      symbols := plainSound.symbols
      code := crowded_code small bound
      packages := plainSound.packages
      registry := by
        obtain ⟨ps, items, tags, nodup, rooted⟩ := plainSound.registry
        exact ⟨ps, items, tags, nodup,
          { current := rooted.current
            canonical := rooted.canonical
            nilName := rooted.nilName
            trueName := rooted.trueName
            cached := rooted.cached }⟩
      control := rfl }

theorem crowded_size : tapeSize (crowded size vectors records).heap =
    tapeSize plain.heap + 4 * size + 8 * vectors + 8 * records := by
  have rows : ∀ k, ((crowded size vectors records).heap.table k).length =
      (plain.heap.table k).length + extraRows vectors records k := by
    intro k
    rw [crowded_table, length_append, length_replicate]
  have more : (Kind.all.map fun k => 4 * width k * extraRows vectors records k).sum =
      8 * vectors + 8 * records := by
    have vector : width .v32 = 2 := rfl
    have record : width .record = 2 := rfl
    simp [Kind.all, extraRows, vector, record]
  have words : (crowded size vectors records).heap.words.length = size := length_replicate
  have bytes : (crowded size vectors records).heap.bytes = plain.heap.bytes := rfl
  have pins : (crowded size vectors records).heap.pins = plain.heap.pins := rfl
  have none : plain.heap.words.length = 0 := rfl
  rw [tapeSize, tapeSize, words, bytes, pins, none]
  simp only [rows, Nat.mul_add, sum_map_add, more]
  omega

theorem crowded_lookup (k : Known) : (crowded size vectors records).heap.lookup k.bytes
    (crowded size vectors records).base = .ok (some ((crowded size vectors records).known k)) := by
  have same : (crowded size vectors records).heap.lookup k.bytes plain.base =
      plain.heap.lookup k.bytes plain.base := by
    have bytes : (crowded size vectors records).heap.bytes = plain.heap.bytes := rfl
    apply lookup_congr bytes
    intro l held
    have other : wordPayload l = false := by
      simp only [mem_cons, not_mem_nil, or_false] at held
      rcases held with rfl | rfl | rfl | rfl <;> rfl
    rw [crowded_table, extraRows_none other, replicate_zero, append_nil]
  exact same.trans (plain_lookup k)

theorem crowded_decodes (size vectors records limit : Nat) (small : size ≤ maxWord) (fewVectors : vectors * size ≤ maxWord)
    (fewRecords : records * size ≤ maxWord) (vectorRows : vectors ≤ maxIndex + 1)
    (recordRows : records ≤ maxIndex + 1)
    (fits : 2 ^ 20 + 4 * size + 8 * vectors + 8 * records ≤ limit) :
    ∃ b img, Tape.encode noZlib (crowded size vectors records) nil .none = .ok b ∧
      Tape.parse noZlib b limit = .ok { machine := (crowded size vectors records).saved, entry := nil } ∧
      Tape.decode noZlib b limit = .ok img ∧ img.Restores (crowded size vectors records) nil := by
  have shaped := crowded_shaped size vectorRows recordRows
  have sound := crowded_sound small fewVectors fewRecords recordRows
  have bytes : (crowded size vectors records).heap.bytes.length ≤ maxWord := plain_facts.2.1.2.1
  have words : (crowded size vectors records).heap.words.length ≤ maxWord := by
    have length : (crowded size vectors records).heap.words.length = size := length_replicate
    rw [length]
    exact small
  obtain ⟨b, raw, length⟩ := encode_sized shaped bytes words sound
  rw [crowded_size] at length
  have admitted : b.length ≤ limit := by
    rw [length]
    have own := plain_facts.2.1.2.2
    generalize tapeSize plain.heap = fixed at own ⊢
    omega
  have encoded := raw_encode (z := noZlib) raw
  have recalls : (crowded size vectors records).Recalls := fun k =>
    ⟨_, crowded_lookup k, fun _ => rfl⟩
  obtain ⟨img, restored, restores⟩ := recalls_restores shaped sound recalls
  refine ⟨b, img, encoded, ?_, ?_, restores⟩
  · rw [Tape.parse, unwrap_raw raw]
    exact parse_encode shaped raw admitted
  · rw [decode_within shaped encoded raw admitted admitted]
    exact restored

theorem crowded_throws {img : Image} (restores : img.Restores (crowded size vectors records) nil)
    (small : size ≤ maxWord) (vectorRows : vectors ≤ maxIndex + 1) (recordRows : records ≤ maxIndex + 1)
    (many : maxWord < vectors * size + records * size) :
    (img.storage.collect fun _ => true).1 = .error .payloadOverflow := by
  have tables : ∀ k, img.storage.table k = (crowded size vectors records).heap.table k := restores.tables
  have total : ∀ k, lengths img.storage k = lengths (crowded size vectors records).heap k := by
    intro k
    rw [lengths, lengths, tables]
  have rows : ∀ k, (img.storage.table k).length ≤ maxIndex + 1 := by
    intro k
    rw [tables]
    exact (crowded_shaped size vectorRows recordRows).rows k
  cases run : tidy (fun _ => true) img.storage with
  | ok s =>
    have words := (tidy_ok run).2.words
    rw [total, total, crowded_lengths (k := .v32) rfl small, crowded_lengths (k := .record) rfl small]
      at words
    exact absurd words (Nat.not_le.mpr many)
  | error e =>
    rw [Heap.collect, run]
    rcases tidy_fails rows e run with ⟨rfl, -⟩ | ⟨-, r, refused⟩
    · rfl
    · cases refused

/-- 4095 vectors and two records over one pool of 2^20 words: the tape is accepted, and its image
cannot be collected though the allocator grants every request. -/
theorem crowded_overflows : ∃ b img, Tape.encode noZlib (crowded (2 ^ 20) 4095 2) nil .none = .ok b ∧
    Tape.decode noZlib b Tape.defaultLimit = .ok img ∧
    (img.storage.collect fun _ => true).1 = .error .payloadOverflow := by
  have limit : Tape.defaultLimit = 2 ^ 26 := rfl
  have range : maxWord = 2 ^ 32 - 1 := rfl
  have index : maxIndex = 2 ^ 26 - 1 := rfl
  obtain ⟨b, img, encoded, -, decoded, restores⟩ :=
    crowded_decodes (2 ^ 20) 4095 2 Tape.defaultLimit
      (by omega) (by omega) (by omega) (by omega) (by omega) (by omega)
  exact ⟨b, img, encoded, decoded, crowded_throws restores (by omega) (by omega) (by omega) (by omega)⟩

/-- One vector and one record over three words are within range. -/
theorem decoded_collects_small : ∃ b img, Tape.decode noZlib b Tape.defaultLimit = .ok img ∧
    ∀ grant e, (img.storage.collect grant).1 = .error e → e.ofLength = false := by
  have limit : Tape.defaultLimit = 2 ^ 26 := rfl
  have range : maxWord = 2 ^ 32 - 1 := rfl
  have index : maxIndex = 2 ^ 26 - 1 := rfl
  -- The numbers stay variables, or each comparison of closed sums is carried out.
  obtain ⟨size, three⟩ : ∃ size, size = 3 := ⟨3, rfl⟩
  obtain ⟨rows, one⟩ : ∃ rows, rows = 1 := ⟨1, rfl⟩
  have product : rows * size = 3 := by rw [one, three]
  obtain ⟨b, img, -, parsed, decoded, -⟩ :=
    crowded_decodes size rows rows Tape.defaultLimit
      (by omega) (by omega) (by omega) (by omega) (by omega) (by omega)
  refine ⟨b, img, decoded, ?_⟩
  have none : (crowded size rows rows).saved.lacking Known.all = 0 := by
    have present : ∀ k ∈ Known.all, ¬ (crowded size rows rows).saved.lacks k = true := by
      intro k held
      rw [lacks_iff, saved_lookup, crowded_lookup]
      simp
    rw [Machine.lacking, filter_eq_nil_iff.mpr present]
    rfl
  apply (decoded_collects noZlib b Tape.defaultLimit _ img parsed decoded).mpr
  have total : ∀ k, lengths (crowded size rows rows).saved.heap k = lengths (crowded size rows rows).heap k := by
    intro k
    rw [saved_heap]
    rfl
  dsimp only
  rw [none, total, total, total, crowded_lengths (k := .v32) rfl (by omega),
    crowded_lengths (k := .record) rfl (by omega), Nat.add_zero]
  have texts : lengths (crowded size rows rows).heap .v08 = lengths plain.heap .v08 := by
    rw [lengths, lengths, crowded_table, extraRows_none rfl, replicate_zero, append_nil]
  rw [texts]
  refine ⟨?_, plain_sound.totals .v08 rfl⟩
  show rows * size + rows * size ≤ maxWord
  omega

end Crowded
end Nxt.Wisp
