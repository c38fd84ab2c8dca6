import Nxt.Wisp.Word

/- Wisp's guest storage (heap.hpp, heap.cpp): eleven tables of rows, a byte pool and a word
   pool, pins, and the values of the registered host roots. A table is kept by rows; the
   columns of the source are read off it. Allocation either succeeds or leaves the heap as it
   was: the source undoes a pool append whose row cannot be pushed. -/
namespace Nxt.Wisp

abbrev Row := List Word
abbrev Table := List Row

structure Vat where
  duo : Table := []
  sym : Table := []
  func : Table := []
  mac : Table := []
  v32 : Table := []
  v08 : Table := []
  pkg : Table := []
  run : Table := []
  ktx : Table := []
  ext : Table := []
  record : Table := []
  deriving DecidableEq

def Vat.get (v : Vat) : Kind → Table
  | .duo => v.duo
  | .sym => v.sym
  | .func => v.func
  | .mac => v.mac
  | .v32 => v.v32
  | .v08 => v.v08
  | .pkg => v.pkg
  | .run => v.run
  | .ktx => v.ktx
  | .ext => v.ext
  | .record => v.record

def Vat.set (v : Vat) (k : Kind) (rows : Table) : Vat :=
  match k with
  | .duo => { v with duo := rows }
  | .sym => { v with sym := rows }
  | .func => { v with func := rows }
  | .mac => { v with mac := rows }
  | .v32 => { v with v32 := rows }
  | .v08 => { v with v08 := rows }
  | .pkg => { v with pkg := rows }
  | .run => { v with run := rows }
  | .ktx => { v with ktx := rows }
  | .ext => { v with ext := rows }
  | .record => { v with record := rows }

@[simp] theorem Vat.get_set_same (v : Vat) (k : Kind) (rows : Table) :
    (v.set k rows).get k = rows := by cases k <;> rfl

theorem Vat.get_set_ne (v : Vat) {k l : Kind} (rows : Table) (h : l ≠ k) :
    (v.set k rows).get l = v.get l := by cases k <;> cases l <;> first | rfl | exact absurd rfl h

theorem Vat.get_set (v : Vat) (k l : Kind) (rows : Table) : (v.set k rows).get l = if l = k then rows else v.get l := by
  split
  · rename_i same
    subst same
    exact v.get_set_same l rows
  · rename_i other
    exact v.get_set_ne rows other

theorem Vat.ext_get {v w : Vat} (h : ∀ k, v.get k = w.get k) : v = w := by
  cases v
  cases w
  simp only [Vat.mk.injEq]
  exact ⟨h .duo, h .sym, h .func, h .mac, h .v32, h .v08, h .pkg, h .run, h .ktx, h .ext, h .record⟩

inductive HostError where
  | payloadOverflow
  | tableOverflow
  | tableFull
  | pinsExhausted
  | badAlloc
  | assertion
  | invalidArgument (message : String)
  /-- A loop of the source that would not end. -/
  | diverged
  deriving DecidableEq

def HostError.message : HostError → String
  | .payloadOverflow => "Wisp payload exceeds 32-bit offsets"
  | .tableOverflow => "Wisp table exceeds 26-bit indices"
  | .tableFull => "Wisp table is full"
  | .pinsExhausted => "Wisp pin IDs exhausted"
  | .badAlloc => "std::bad_alloc"
  | .assertion => "assertion failed"
  | .invalidArgument message => message
  | .diverged => "diverged"

structure Heap where
  vat : Vat := {}
  bytes : List UInt8 := []
  words : List Word := []
  /-- A `std::map`: ascending in its keys. -/
  pins : List (Nat × Word) := []
  nextPin : Nat := 1
  /-- The values of the registered roots, the latest registration first. -/
  roots : List Word := []
  era : Bool := false
  frozenKtx : Nat := 0
  /-- Whether the host supplied a release callback. -/
  hosted : Bool := false
  /-- The ids the callback has been given, in order. -/
  released : List Word := []
  deriving DecidableEq

def poolSize (size extra : Nat) : Except HostError Nat :=
  if extra > maxWord - size then .error .payloadOverflow else .ok (size + extra)

def emplacePin (id : Nat) (x : Word) : List (Nat × Word) → List (Nat × Word)
  | [] => [(id, x)]
  | (j, y) :: rest =>
      if id < j then (id, x) :: (j, y) :: rest
      else if id = j then (j, y) :: rest
      else (j, y) :: emplacePin id x rest

namespace Heap

def table (h : Heap) (k : Kind) : Table := h.vat.get k

def setTable (h : Heap) (k : Kind) (rows : Table) : Heap := { h with vat := h.vat.set k rows }

/-- `tab::read`: no row outside the table has columns. -/
def row (h : Heap) (k : Kind) (i : Nat) : Row := (h.table k).getD i []

def read (h : Heap) (k : Kind) (x : Word) : Row := h.row k (indexOf x)

def get (h : Heap) (k : Kind) (f : Field) (x : Word) : Word :=
  (h.read k x).getD (columnIndex k f) 0

def setColumn (h : Heap) (k : Kind) (i c : Nat) (value : Word) : Heap :=
  h.setTable k ((h.table k).set i ((h.row k i).set c value))

def set (h : Heap) (k : Kind) (f : Field) (x value : Word) : Heap :=
  h.setColumn k (indexOf x) (columnIndex k f) value

def put (h : Heap) (k : Kind) (x : Word) (data : Row) : Heap :=
  h.setTable k ((h.table k).set (indexOf x) data)

/-- `zap` is reserved for the collector: the source asserts that no made row starts with it. -/
def make (h : Heap) (k : Kind) (data : Row) : Except HostError (Word × Heap) :=
  let size := (h.table k).length
  if data.getD 0 0 = zap then .error .assertion
  else if size > maxIndex then .error .tableFull
  else .ok (pointer k size h.era, h.setTable k (h.table k ++ [data]))

/-- Shallow copy of a row. -/
def copy (h : Heap) (k : Kind) (x : Word) : Except HostError (Word × Heap) :=
  h.make k (h.read k x)

def cons (h : Heap) (car cdr : Word) : Except HostError (Word × Heap) := h.make .duo [car, cdr]

def newv08 (h : Heap) (data : List UInt8) : Except HostError (Word × Heap) := do
  let start := h.bytes.length
  let _ ← if data = [] then pure start else poolSize start data.length
  { h with bytes := h.bytes ++ data }.make .v08
    [UInt32.ofNat start, UInt32.ofNat data.length]

/-- `new_words<T>` for the kinds whose payload is in the word pool. -/
def newWords (h : Heap) (k : Kind) (data : List Word) : Except HostError (Word × Heap) := do
  let start := h.words.length
  let _ ← if data = [] then pure start else poolSize start data.length
  { h with words := h.words ++ data }.make k
    [UInt32.ofNat start, UInt32.ofNat data.length]

def newv32 (h : Heap) (data : List Word) : Except HostError (Word × Heap) := h.newWords .v32 data

def filledv32 (h : Heap) (length : Nat) (value : Word) : Except HostError (Word × Heap) := do
  let start := h.words.length
  let _ ← poolSize start length
  { h with words := h.words ++ List.replicate length value }.make .v32
    [UInt32.ofNat start, UInt32.ofNat length]

def v08slice (h : Heap) (x : Word) : List UInt8 :=
  (h.bytes.drop (h.get .v08 .idx x).toNat).take (h.get .v08 .len x).toNat

def slice (h : Heap) (k : Kind) (x : Word) : List Word :=
  (h.words.drop (h.get k .idx x).toNat).take (h.get k .len x).toNat

def setWord (h : Heap) (k : Kind) (x : Word) (i : Nat) (value : Word) : Heap :=
  { h with words := h.words.set ((h.get k .idx x).toNat + i) value }

def v32slice (h : Heap) (x : Word) : List Word := h.slice .v32 x

def v32set (h : Heap) (x : Word) (i : Nat) (value : Word) : Heap := h.setWord .v32 x i value

def clonev32 (h : Heap) (x : Word) : Except HostError (Word × Heap) := h.newv32 (h.v32slice x)

def freezeContinuations (h : Heap) : Heap := { h with frozenKtx := (h.table .ktx).length }

def continuationFrozen (h : Heap) (x : Word) : Bool := indexOf x < h.frozenKtx

def makePin (h : Heap) (value : Word) : Except HostError (Word × Heap) :=
  if h.nextPin > maxImmediate then .error .pinsExhausted
  else .ok (immediate .pin h.nextPin,
    { h with pins := emplacePin h.nextPin value h.pins, nextPin := h.nextPin + 1 })

def freePin (h : Heap) (pin : Word) : Heap :=
  { h with pins := h.pins.filter fun entry => entry.1 ≠ payloadOf pin }

/-- One call of the callback for every row of the external table not marked as forwarded. -/
def releaseExternals (h : Heap) : Heap :=
  if h.hosted then
    { h with released := h.released ++
        ((h.table .ext).map fun data => data.getD 0 0).filter fun id => id ≠ zap }
  else h

end Heap
end Nxt.Wisp
