import Nxt.Wisp.Heap

/- The era-flipping copying collector (heap.cpp, `struct tidy`). Forwarding is written into the
   old rows: `zap` in the first column and the new pointer in the second. The loops of `run`
   are bounded by one fuel, counted from what the constructor reserves. -/
namespace Nxt.Wisp

structure Tidy where
  old : Heap
  next : Vat := {}
  bytes : List UInt8 := []
  words : List Word := []
  scan : Kind → Nat := fun _ => 0
  wordScan : Nat := 0

/-- What the constructor asks the allocator for. -/
inductive Reservation where
  | table (k : Kind) (rows : Nat)
  | words (n : Nat)
  | bytes (n : Nat)
  deriving DecidableEq

def lengths (h : Heap) (k : Kind) : List Nat :=
  (h.table k).map fun data => (data.getD (columnIndex k .len) 0).toNat

def sumLengths : List Nat → Nat → Except HostError Nat
  | [], total => .ok total
  | len :: rest, total => do sumLengths rest (← poolSize total len)

section Reserve
variable (grant : Reservation → Bool)

def request (r : Reservation) : Except HostError Unit :=
  if grant r then .ok () else .error .badAlloc

def reserveTable (k : Kind) (rows : Nat) : Except HostError Unit :=
  if rows > maxIndex + 1 then .error .tableOverflow
  else if rows = 0 then .ok ()
  else request grant (.table k rows)

def reserveTables (h : Heap) : List Kind → Except HostError Unit
  | [] => .ok ()
  | k :: rest => do
      reserveTable grant k (h.table k).length
      reserveTables h rest

/-- The constructor: reserve an upper bound before any old row is overwritten. -/
def tidy (h : Heap) : Except HostError Tidy := do
  reserveTables grant h Kind.all
  let total ← sumLengths (lengths h .v32) 0
  let total ← sumLengths (lengths h .record) total
  request grant (.words total)
  let total ← sumLengths (lengths h .v08) 0
  request grant (.bytes total)
  pure { old := h }

end Reserve

namespace Tidy

def push (k : Kind) (x : Word) (s : Tidy) : Word × Tidy :=
  if eraOf x ≠ s.old.era then (x, s)
  else
    let i := indexOf x
    let data := s.old.row k i
    if data.getD 0 0 = zap then (data.getD 1 0, s)
    else
      let y := pointer k (s.next.get k).length (!s.old.era)
      let old := (s.old.setColumn k i 0 zap).setColumn k i 1 y
      if wordPayload k then
        let data := data.set (columnIndex k .idx) (UInt32.ofNat s.words.length)
        (y, { s with old, next := s.next.set k (s.next.get k ++ [data]),
                     words := s.words ++ s.old.slice k x })
      else if k = .v08 then
        let data := data.set (columnIndex k .idx) (UInt32.ofNat s.bytes.length)
        (y, { s with old, next := s.next.set k (s.next.get k ++ [data]),
                     bytes := s.bytes ++ s.old.v08slice x })
      else
        (y, { s with old, next := s.next.set k (s.next.get k ++ [data]) })

def copy (x : Word) (s : Tidy) : Word × Tidy :=
  match (tagOf x).kind? with
  | some k => push k x s
  | none => (x, s)

def setNext (s : Tidy) (k : Kind) (i c : Nat) (value : Word) : Tidy :=
  let rows := s.next.get k
  { s with next := s.next.set k (rows.set i ((rows.getD i []).set c value)) }

/-- The columns of a kind that hold guest values. -/
def valueColumns (k : Kind) : List Nat :=
  (List.range (width k)).filter fun c => ((schema k).map (·.kind))[c]? = some .value

def pullColumns (k : Kind) (i : Nat) : List Nat → Tidy → Tidy
  | [], s => s
  | c :: rest, s =>
      let (value, s) := copy (((s.next.get k).getD i []).getD c 0) s
      pullColumns k i rest (s.setNext k i c value)

def pullRow (k : Kind) (s : Tidy) : Tidy :=
  let s := pullColumns k (s.scan k) (valueColumns k) s
  { s with scan := fun l => if l = k then s.scan k + 1 else s.scan l }

def pullLoop (k : Kind) : Nat → Tidy → Tidy
  | 0, s => s
  | fuel + 1, s =>
      if s.scan k < (s.next.get k).length then pullLoop k fuel (pullRow k s) else s

def pull (fuel : Nat) (k : Kind) (s : Tidy) : Bool × Tidy :=
  (s.scan k < (s.next.get k).length, pullLoop k fuel s)

def pullAll (fuel : Nat) : List Kind → Bool → Tidy → Bool × Tidy
  | [], changed, s => (changed, s)
  | k :: rest, changed, s =>
      let (more, s) := pull fuel k s
      pullAll fuel rest (more || changed) s

def pullWord (s : Tidy) : Tidy :=
  let (value, s) := copy (s.words.getD s.wordScan 0) s
  { s with words := s.words.set s.wordScan value, wordScan := s.wordScan + 1 }

def pullWords : Nat → Bool → Tidy → Bool × Tidy
  | 0, changed, s => (changed, s)
  | fuel + 1, changed, s =>
      if s.wordScan < s.words.length then pullWords fuel true (pullWord s) else (changed, s)

def round (fuel : Nat) (s : Tidy) : Bool × Tidy :=
  let (changed, s) := pullAll fuel Kind.all false s
  pullWords fuel changed s

def rounds (fuel : Nat) : Nat → Tidy → Tidy
  | 0, s => s
  | n + 1, s =>
      let (changed, s) := round fuel s
      if changed then rounds fuel n s else s

def copyValues : List Word → Tidy → List Word × Tidy
  | [], s => ([], s)
  | x :: rest, s =>
      let (y, s) := copy x s
      let (ys, s) := copyValues rest s
      (y :: ys, s)

def copyPins (s : Tidy) : Tidy :=
  let (values, s) := copyValues (s.old.pins.map Prod.snd) s
  { s with old := { s.old with pins := (s.old.pins.map Prod.fst).zip values } }

def copyRoots (s : Tidy) : Tidy :=
  let (values, s) := copyValues s.old.roots s
  { s with old := { s.old with roots := values } }

def finish (s : Tidy) : Heap :=
  let h := s.old.releaseExternals
  { h with vat := s.next, bytes := s.bytes, words := s.words, era := !h.era }.freezeContinuations

/-- `run` up to the point where the dead handles are released. -/
def copied (fuel : Nat) (s : Tidy) : Tidy := rounds fuel fuel s.copyPins.copyRoots

def run (fuel : Nat) (s : Tidy) : Heap := (s.copied fuel).finish

end Tidy

/-- Rows and payload words of the old heap: no loop of `run` goes round more often. -/
def collectFuel (h : Heap) : Nat :=
  (Kind.all.map fun k => (h.table k).length).sum +
    ((lengths h .v32).sum + (lengths h .record).sum) + 1

def Heap.collect (grant : Reservation → Bool) (h : Heap) : Except HostError Unit × Heap :=
  match tidy grant h with
  | .error e => (.error e, h)
  | .ok s => (.ok (), s.run (collectFuel h))

end Nxt.Wisp
