import Nxt.Crypto.Sha256
import Nxt.Wisp.Validate

/- The tape format (tape.cpp): a machine as bytes and back. The encoder writes roots, builtins,
   tables and columns in one order; the decoder takes them by name in any order and renumbers
   builtin words. -/
namespace Nxt.Wisp
open Nxt.Lib Nxt.Crypto

def magic : Bytes := ascii "NXWISP\r\n"
def compressedMagic : Bytes := ascii "NXWISPZ\n"
def version : Word := 5

def FieldKind.text : FieldKind → String
  | .value => "value"
  | .offset => "offset"
  | .length => "length"
  | .count => "count"
  | .external => "external"

section Writer

def raw (data : Bytes) : Writer TapeError := .ok data

def u32 (x : Word) : Writer TapeError := .ok (u32le x)

def count (n : Nat) : Except TapeError Bytes := do
  demand (n ≤ maxWord) "tape count overflow"
  .ok (u32le (UInt32.ofNat n))

def text (value : Bytes) : Writer TapeError := joined [count value.length, raw value]

def flag (b : Bool) : Writer TapeError := u32 (UInt32.ofNat b.toNat)

def writeHeader (m : Machine) (entry : Word) : Writer TapeError :=
  joined [raw magic, u32 version, flag m.heap.era, u32 (UInt32.ofNat m.heap.nextPin),
    u32 (UInt32.ofNat m.nextKey), u32 (UInt32.ofNat (m.nextKey / 2 ^ 32)), flag m.collectRequested, u32 entry]

def writeRoot (m : Machine) (r : SavedRoot) : Writer TapeError :=
  joined [text (ascii r.name), u32 (m.root r)]

def writeRoots (m : Machine) : Writer TapeError :=
  joined [count roots.length, joined (roots.map (writeRoot m))]

def writeJet (b : Builtin) : Writer TapeError := joined [text b.bytes, flag b.control]

def writeJets : Writer TapeError :=
  joined [count Builtin.all.length, joined (Builtin.all.map writeJet)]

def writeOperation (operation : CodeOperation) : Writer TapeError :=
  joined [text (ascii operation.name), u32 (codeOpcode operation.op), count operation.operands.length,
    joined (operation.operands.map fun kind => text (ascii kind.text))]

def writeCode : Writer TapeError :=
  joined [u32 (UInt32.ofNat codeVersion), count codeOperations.length,
    joined (codeOperations.map writeOperation)]

def writePools (h : Heap) : Writer TapeError :=
  joined [count h.bytes.length, raw h.bytes, count h.words.length, joined (h.words.map u32)]

def writeColumn (col : Column) : Writer TapeError :=
  joined [text (ascii col.name), text (ascii col.kind.text)]

def writeCells (rows : Table) (c : Nat) : Writer TapeError :=
  joined (rows.map fun data => u32 (data.getD c 0))

def writeTable (h : Heap) (k : Kind) : Writer TapeError :=
  joined [u32 (UInt32.ofNat k.tag.code), count (h.table k).length, count (width k),
    joined ((schema k).map writeColumn), joined ((List.range (width k)).map (writeCells (h.table k)))]

def writeTables (h : Heap) : Writer TapeError :=
  joined [count Kind.all.length, joined (Kind.all.map (writeTable h))]

def writePin (pin : Nat × Word) : Writer TapeError := joined [u32 (UInt32.ofNat pin.1), u32 pin.2]

def writePins (h : Heap) : Writer TapeError :=
  joined [count h.pins.length, joined (h.pins.map writePin)]

def writeBody (m : Machine) (entry : Word) : Writer TapeError :=
  joined [writeHeader m entry, writeRoots m, writeJets, writeCode, writePools m.heap,
    writeTables m.heap, writePins m.heap]

end Writer

section Reader

def expect (good : Bool) (message : String) : Reader TapeError Unit :=
  fun bytes => if good then .ok ((), bytes) else .error (.bad message)

def reject {α : Type} (message : String) : Reader TapeError α := fun _ => .error (.bad message)

def take (n : Nat) : Reader TapeError Bytes := fun bytes =>
  if n ≤ bytes.length then .ok (bytes.take n, bytes.drop n) else .error (.bad "truncated tape")

def readU32 : Reader TapeError Word := do return ofU32le (← take 4)

def readText : Reader TapeError Bytes := do take (← readU32).toNat

def readFlag : Reader TapeError Bool := do
  let x ← readU32
  expect (x.toNat ≤ 1) "invalid tape flag"
  return x ≠ 0

def readHeader : Reader TapeError Image := do
  let found ← take magic.length
  expect (found = magic) "unknown tape magic"
  expect ((← readU32) = version) "unsupported tape version"
  let era ← readFlag
  let nextPin ← readU32
  let low ← readU32
  let high ← readU32
  let collectRequested ← readFlag
  let entry ← readU32
  return {
    machine := {
      heap := { era, nextPin := nextPin.toNat }
      nextKey := low.toNat + high.toNat * 2 ^ 32
      collectRequested }
    entry }

def readRoot (state : List SavedRoot × Machine) : Reader TapeError (List SavedRoot × Machine) := do
  let name ← readText
  match roots.find? fun r => ascii r.name = name with
  | none => reject "unknown root"
  | some r => do
      expect (r ∉ state.1) "duplicate root"
      let x ← readU32
      return (r :: state.1, state.2.setRoot x r)

def readRoots (m : Machine) : Reader TapeError Machine := do
  expect ((← readU32).toNat = roots.length) "wrong root directory"
  let state ← loop readRoot roots.length ([], m)
  return state.2

/-- The state is the map from the tape's builtin ids to the machine's. -/
def readJet (jetMap : List Nat) : Reader TapeError (List Nat) := do
  let name ← readText
  let control ← readFlag
  match Builtin.all.findIdx? fun b => b.bytes = name with
  | none => reject "unsupported builtin"
  | some id => do
      expect ((Builtin.all[id]?).map Builtin.control = some control) "unsupported builtin"
      expect (id ∉ jetMap) "duplicate builtin"
      return jetMap ++ [id]

def readJets : Reader TapeError (List Nat) := do
  let n ← readU32
  expect (n.toNat ≤ Builtin.all.length) "unsupported builtin manifest"
  loop readJet n.toNat []

def readOperation (operation : CodeOperation) : Reader TapeError Unit := do
  expect ((← readText) = ascii operation.name) "unsupported code operation"
  expect ((← readU32) = codeOpcode operation.op) "unsupported code opcode"
  expect ((← readU32).toNat = operation.operands.length) "unsupported code layout"
  readEach (fun kind => do expect ((← readText) = ascii kind.text) "unsupported code operand")
    operation.operands

def readCode : Reader TapeError Unit := do
  expect ((← readU32).toNat = codeVersion) "unsupported code version"
  expect ((← readU32).toNat = codeOperations.length) "unsupported code manifest"
  readEach readOperation codeOperations

def readWord (words : List Word) : Reader TapeError (List Word) := do
  return words ++ [← readU32]

def readPools (h : Heap) : Reader TapeError Heap := do
  let bytes ← take (← readU32).toNat
  let n ← readU32
  let left ← leftover
  expect (n.toNat ≤ left / 4) "truncated word pool"
  let words ← loop readWord n.toNat []
  return { h with bytes, words }

/-- The state is the places, in the schema, of the columns read so far. -/
def readColumn (k : Kind) (columns : List Nat) : Reader TapeError (List Nat) := do
  let name ← readText
  let kind ← readText
  match (schema k).findIdx? fun col => ascii col.name = name with
  | none => reject "unsupported column schema"
  | some c => do
      expect (((schema k)[c]?).map (fun col => ascii col.kind.text) = some kind)
        "unsupported column schema"
      expect (c ∉ columns) "duplicate column"
      return columns ++ [c]

/-- Fill one column of every row. -/
def setCells (rows : Table) (c : Nat) (cells : List Word) : Table :=
  rows.zipWith (fun data x => data.set c x) cells

def readCells : List Nat → Table → Reader TapeError Table
  | [], rows => pure rows
  | c :: rest, rows => do
      let cells ← loop readWord rows.length []
      readCells rest (setCells rows c cells)

def readTable (k : Kind) : Reader TapeError Table := do
  let rows ← readU32
  expect (rows.toNat ≤ maxIndex + 1) "table count overflow"
  expect (k = .ext → rows.toNat = 0) "external resources are not portable"
  expect ((← readU32).toNat = width k) "wrong column count"
  let columns ← loop (readColumn k) (width k) []
  let left ← leftover
  expect (rows.toNat ≤ left / (4 * width k)) "truncated table"
  readCells columns (List.replicate rows.toNat (List.replicate (width k) 0))

def readOneTable (state : List Word × Vat) : Reader TapeError (List Word × Vat) := do
  let type ← readU32
  expect (type ∉ state.1) "duplicate table"
  match Kind.all.find? fun k => k.tag.code = type.toNat with
  | none => reject "unknown table tag"
  | some k => do
      let rows ← readTable k
      return (type :: state.1, state.2.set k rows)

def readTables (h : Heap) : Reader TapeError Heap := do
  expect ((← readU32).toNat = Kind.all.length) "wrong table directory"
  let state ← loop readOneTable Kind.all.length ([], h.vat)
  return { h with vat := state.2 }

def readPin (pins : List (Nat × Word)) : Reader TapeError (List (Nat × Word)) := do
  let id ← readU32
  let x ← readU32
  expect (id.toNat ∉ pins.map Prod.fst) "duplicate pin ID"
  return emplacePin id.toNat x pins

def readPins (h : Heap) : Reader TapeError Heap := do
  let n ← readU32
  let left ← leftover
  expect (n.toNat ≤ left / 8) "truncated pin map"
  let pins ← loop readPin n.toNat []
  return { h with pins }

/-- Everything a tape says, before builtin words are renumbered. -/
def readParts : Reader TapeError (List Nat × Image) := do
  let img ← readHeader
  let m ← readRoots img.machine
  let jetMap ← readJets
  readCode
  let heap ← readPools m.heap
  let heap ← readTables heap
  let heap ← readPins heap
  return (jetMap, { img with machine := { m with heap } })

def readBody : Reader TapeError (List Nat × Image) := do
  let parts ← readParts
  let left ← leftover
  expect (left = 0) "trailing tape bytes"
  return parts

end Reader

section Remap
variable (jetMap : List Nat)

def remap (x : Word) : Except TapeError Word :=
  if tagOf x ≠ .jet then .ok x
  else
    match jetMap[payloadOf x]? with
    | none => .error (.bad "invalid saved builtin ID")
    | some id => .ok (immediate .jet id)

def remapCell (cell : FieldKind × Word) : Except TapeError Word :=
  if cell.1 = .value then remap jetMap cell.2 else .ok cell.2

def remapTable (k : Kind) (rows : Table) : Except TapeError Table :=
  mapEach (fun data => mapEach (remapCell jetMap) (((schema k).map (·.kind)).zip data)) rows

def remapTables : List Kind → Vat → Except TapeError Vat
  | [], v => .ok v
  | k :: rest, v => do
      let rows ← remapTable jetMap k (v.get k)
      remapTables rest (v.set k rows)

def remapRoots : List SavedRoot → Machine → Except TapeError Machine
  | [], m => .ok m
  | r :: rest, m => do
      let x ← remap jetMap (m.root r)
      remapRoots rest (m.setRoot x r)

def remapPin (pin : Nat × Word) : Except TapeError (Nat × Word) := do
  let x ← remap jetMap pin.2
  .ok (pin.1, x)

def remapImage (img : Image) : Except TapeError Image := do
  let entry ← remap jetMap img.entry
  let m ← remapRoots jetMap roots img.machine
  let pins ← mapEach (remapPin jetMap) m.heap.pins
  let words ← mapEach (remap jetMap) m.heap.words
  let vat ← remapTables jetMap Kind.all m.heap.vat
  .ok { machine := { m with heap := { m.heap with pins, words, vat } }, entry }

end Remap

def liftHost {α : Type} : Except HostError α → Except TapeError α
  | .ok a => .ok a
  | .error e => .error (.host e)

/-- Saved names are checked; then every known name is interned anew. -/
def restore (img : Image) : Except TapeError Image := do
  validate img.machine img.entry
  let m ← liftHost img.machine.installKnown
  .ok { img with machine := { m with heap := m.heap.freezeContinuations } }

namespace Codec

def encode (m : Machine) (entry : Word) : Except TapeError Bytes := do
  validate m entry
  let body ← writeBody m entry
  .ok (body ++ sha256 body)

def parse (data : Bytes) (limit : Nat) : Except TapeError Image := do
  demand (data.length ≤ limit) "tape exceeds input limit"
  demand (magic.length + 4 + sha256Len ≤ data.length) "truncated tape"
  let body := data.take (data.length - sha256Len)
  demand (sha256 body = data.drop (data.length - sha256Len)) "tape checksum mismatch"
  let ((jetMap, img), _) ← readBody body
  remapImage jetMap img

def decode (data : Bytes) (limit : Nat) : Except TapeError Image := do
  restore (← parse data limit)

end Codec

inductive ZError where
  | memory
  | other
  deriving DecidableEq

/-- What is used of zlib: `compress2` into a buffer of `compressBound` bytes, and `uncompress2`,
which returns the decoded bytes and how much of the source it used. -/
structure Zlib where
  compress : Bytes → Except ZError Bytes
  uncompress : Bytes → Nat → Except ZError (Bytes × Nat)
  inverse : ∀ data packed, compress data = .ok packed →
    uncompress packed data.length = .ok (data, packed.length)

def liftZlib {α : Type} (message : String) : Except ZError α → Except TapeError α
  | .ok a => .ok a
  | .error .memory => .error (.host .badAlloc)
  | .error .other => .error (.bad message)

inductive Compression where
  | none
  | zlib
  deriving DecidableEq

namespace Tape
variable (z : Zlib)

def defaultLimit : Nat := 64 * 1024 * 1024

def encode (m : Machine) (entry : Word) (format : Compression) : Except TapeError Bytes := do
  let data ← Codec.encode m entry
  match format with
  | .none => .ok data
  | .zlib =>
      let size ← count data.length
      let packed ← liftZlib "tape compression failed" (z.compress data)
      .ok (compressedMagic ++ size ++ packed)

def unwrap (data : Bytes) (limit : Nat) : Except TapeError Bytes :=
  if compressedMagic.length ≤ data.length ∧ data.take compressedMagic.length = compressedMagic then do
    demand (data.length ≤ limit) "tape exceeds input limit"
    let (decodedSize, source) ← readU32 (data.drop compressedMagic.length)
    demand (decodedSize.toNat ≤ limit) "tape exceeds decoded limit"
    let (decoded, used) ← liftZlib "invalid compressed tape" (z.uncompress source decodedSize.toNat)
    demand (decoded.length = decodedSize.toNat) "wrong decoded tape size"
    demand (used = source.length) "trailing compressed tape data"
    .ok decoded
  else .ok data

def decode (data : Bytes) (limit : Nat) : Except TapeError Image := do
  Codec.decode (← unwrap z data limit) limit

end Tape

end Nxt.Wisp
