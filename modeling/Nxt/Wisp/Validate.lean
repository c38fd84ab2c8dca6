import Nxt.Lib.Wire
import Nxt.Wisp.Code
import Nxt.Wisp.Machine

/- What a tape may hold (tape.cpp, `tape_codec::validate`). Every check ends in the message of the
   exception it throws. The loops over lists and continuations are bounded by the number of rows
   they can colour. -/
namespace Nxt.Wisp
open Nxt.Lib

inductive TapeError where
  /-- `tape::error`. -/
  | bad (message : String)
  /-- An exception of the storage or the machine. -/
  | host (e : HostError)
  deriving DecidableEq

def demand (good : Bool) (message : String) : Except TapeError Unit :=
  if good then .ok () else .error (.bad message)

/-- A tape root is an evaluator member or an entry in its known table. -/
inductive SavedRoot where
  | base | keywords | keys | packages | current | nilName | trueName
  | known (k : Known)
  deriving DecidableEq

def SavedRoot.name : SavedRoot → String
  | .base => "WISP"
  | .keywords => "KEYWORD"
  | .keys => "KEY"
  | .packages => "packages"
  | .current => "current"
  | .nilName => "NIL-name"
  | .trueName => "T-name"
  | .known k => k.name

def savedKnown : List Known :=
  [.doForm, .ifForm, .evalForm, .letForm, .prompt, .binding, .continuation, .resume, .ampOptional,
   .ampRest, .ampBody]

def roots : List SavedRoot :=
  [.base, .keywords, .keys, .packages, .current, .nilName, .trueName] ++
    savedKnown.map .known

def Machine.root (m : Machine) : SavedRoot → Word
  | .base => m.base
  | .keywords => m.keywords
  | .keys => m.keys
  | .packages => m.packages
  | .current => m.current
  | .nilName => m.nilName
  | .trueName => m.trueName
  | .known k => m.known k

def Machine.setRoot (m : Machine) (x : Word) : SavedRoot → Machine
  | .base => { m with base := x }
  | .keywords => { m with keywords := x }
  | .keys => { m with keys := x }
  | .packages => { m with packages := x }
  | .current => { m with current := x }
  | .nilName => { m with nilName := x }
  | .trueName => { m with trueName := x }
  | .known k => m.setKnown k x

section Values
variable (h : Heap)

def checkValue (x : Word) : Except TapeError Unit :=
  match (tagOf x).kind? with
  | some k =>
      demand (eraOf x = h.era ∧ indexOf x < (h.table k).length) "invalid tape pointer"
  | none =>
      match tagOf x with
      | .integer => .ok ()
      | .sys => demand (x = nil ∨ x = t ∨ x = nah ∨ x = top) "invalid system word"
      | .chr =>
          demand (payloadOf x ≤ 0x10ffff ∧ ¬ (0xd800 ≤ payloadOf x ∧ payloadOf x ≤ 0xdfff))
            "invalid character"
      | .jet => demand (payloadOf x < Builtin.all.length) "invalid builtin ID"
      -- Released handles may remain in guest data.
      | .pin => demand (0 < payloadOf x ∧ payloadOf x < h.nextPin) "invalid pin handle"
      | _ => .error (.bad "unknown word tag")

def checkPin (pin : Nat × Word) : Except TapeError Unit := do
  demand (0 < pin.1 ∧ pin.1 < h.nextPin) "invalid pin ID"
  checkValue h pin.2

def checkSlices (size : Nat) (rows : Table) : Except TapeError Unit := do
  each (fun data => demand ((data.getD 0 0).toNat ≤ size ∧ (data.getD 1 0).toNat ≤ size - (data.getD 0 0).toNat)
    "invalid pool slice") rows
  demand ((rows.map fun data => (data.getD 1 0).toNat).sum ≤ maxWord)
    "collected payload pool would overflow"

def checkTable (k : Kind) : Except TapeError Unit := do
  each (fun data => demand (data.getD 0 0 ≠ zap) "collector forwarding marker in tape") (h.table k)
  each (fun c => each (fun data => checkValue h (data.getD c 0)) (h.table k)) (Tidy.valueColumns k)
  if k = .v08 then checkSlices h.bytes.length (h.table k)
  else if wordPayload k then checkSlices h.words.length (h.table k)
  else .ok ()

def typed (x : Word) (type : Tag) : Except TapeError Unit :=
  demand (tagOf x = type) "invalid machine field type"

def checkSymbol (data : Row) : Except TapeError Unit := do
  typed (data.getD (columnIndex .sym .str) 0) .v08
  let pkg := data.getD (columnIndex .sym .pkg) 0
  if pkg ≠ nil then typed pkg .pkg

/-- A restored code record must be as MAKE-CODE would have made it. -/
def checkCode (i : Nat) : Except TapeError Unit :=
  let x := pointer .record i h.era
  match codeRecordOp h x with
  | some op =>
      demand (codeOperandsValid h op ((h.slice .record x).drop 1)) "invalid code record"
  | none => .ok ()

end Values

section Lists
variable (h : Heap)

/-- Walk a list, colouring its cells 1, until its end or a cell known to be proper. -/
def properWalk (element : Tag) : Nat → Word → List Nat → Except TapeError (List Nat)
  | 0, _, _ => .error (.host .diverged)
  | fuel + 1, cur, colors =>
      if cur = nil then .ok colors
      else do
        typed cur .duo
        let color := colors.getD (indexOf cur) 0
        demand (color ≠ 1) "cyclic machine list"
        if color = 2 then .ok colors
        else
          let colors := colors.set (indexOf cur) 1
          typed (h.get .duo .car cur) element
          properWalk element fuel (h.get .duo .cdr cur) colors

/-- Colour the cells of the walk 2. -/
def properMark : Nat → Word → List Nat → List Nat
  | 0, _, colors => colors
  | fuel + 1, cur, colors =>
      if cur ≠ nil ∧ colors.getD (indexOf cur) 0 = 1 then
        properMark fuel (h.get .duo .cdr cur) (colors.set (indexOf cur) 2)
      else colors

def proper (head : Word) (element : Tag) (colors : List Nat) : Except TapeError (List Nat) := do
  let colors ← properWalk h element listFuel head colors
  .ok (properMark h listFuel head colors)

def checkPackageRows : List Row → List Nat → Except TapeError (List Nat)
  | [], colors => .ok colors
  | data :: rest, colors => do
      typed (data.getD (columnIndex .pkg .nam) 0) .v08
      let colors ← proper h (data.getD (columnIndex .pkg .sym) 0) .sym colors
      checkPackageRows rest colors

/-- The registered packages, no two of which are the same or have the same name. -/
def registered : Nat → Word → List Word → Except TapeError (List Word)
  | 0, _, _ => .error (.host .diverged)
  | fuel + 1, cur, seen =>
      if cur = nil then .ok seen
      else do
        let pkg := h.get .duo .car cur
        demand (pkg ∉ seen ∧ h.packageName pkg ∉ seen.map h.packageName) "duplicate package"
        registered fuel (h.get .duo .cdr cur) (pkg :: seen)

/-- The two kinds of lists are coloured apart. -/
def checkLists (packages : Word) : Except TapeError (List Word) := do
  let colors := List.replicate (h.table .duo).length 0
  let _ ← checkPackageRows h (h.table .pkg) colors
  let _ ← proper h packages .pkg colors
  registered h listFuel packages []

end Lists

def checkRoot (m : Machine) (packages : List Word) (r : SavedRoot) : Except TapeError Unit :=
  let h := m.heap
  let x := m.root r
  match r with
  | .base | .keywords | .keys => do
      demand (x ∈ packages) "canonical package missing"
      demand (h.packageName x = ascii r.name) "wrong canonical package"
  | .packages | .current => .ok ()
  | .nilName => do
      typed x .v08
      demand (h.v08slice x = ascii "NIL") "invalid immediate name"
  | .trueName => do
      typed x .v08
      demand (h.v08slice x = ascii "T") "invalid immediate name"
  | .known k => do
      typed x .sym
      demand (h.get .sym .pkg x = m.base ∧ h.symbolName x = k.bytes) "invalid cached symbol"

section Control
variable (h : Heap) (is : Known → Word → Bool)

def boundaryKind (kind : Word) : Bool := is .prompt kind || is .binding kind || is .resume kind

def checkContinuation (x : Word) : Except TapeError Unit := if x ≠ top then typed x .ktx else .ok ()

def checkSegment (x : Word) : Except TapeError Unit := do
  checkContinuation x
  if x ≠ top then
    let kind := h.get .ktx .func x
    demand (!boundaryKind is kind && !is .continuation kind) "invalid continuation segment"

def checkMeta (x : Word) : Except TapeError Unit := do
  checkContinuation x
  if x ≠ top then
    demand (boundaryKind is (h.get .ktx .func x)) "invalid continuation meta chain"

def controlEdges (i : Nat) : Except TapeError (Word × Word) := do
  let x := pointer .ktx i h.era
  let hop := h.get .ktx .hop x
  let kind := h.get .ktx .func x
  let acc := h.get .ktx .acc x
  let arg := h.get .ktx .arg x
  if is .continuation kind then
    demand (hop = top) "invalid continuation wrapper"
    checkSegment h is acc
    checkMeta h is arg
    .ok (acc, arg)
  else if boundaryKind is kind then
    checkMeta h is hop
    typed arg .v32
    let xs := h.v32slice arg
    demand (xs.length = 2) "invalid continuation boundary"
    checkSegment h is (xs.getD 1 0)
    .ok (hop, xs.getD 1 0)
  else
    checkSegment h is hop
    .ok (hop, top)

def allEdges : List Nat → Except TapeError (List (Word × Word))
  | [] => .ok []
  | i :: rest => do
      let edge ← controlEdges h is i
      .ok (edge :: (← allEdges rest))

end Control

/-- Depth-first search along the control edges; the pending entries, the latest first, say
whether the row is being left. -/
def searchCycles (edges : List (Word × Word)) :
    Nat → List (Word × Bool) → List Nat → Except TapeError (List Nat)
  | 0, _, _ => .error (.host .diverged)
  | _ + 1, [], colors => .ok colors
  | fuel + 1, (cur, leaving) :: pending, colors =>
      if cur = top then searchCycles edges fuel pending colors
      else if leaving then searchCycles edges fuel pending (colors.set (indexOf cur) 2)
      else do
        let color := colors.getD (indexOf cur) 0
        demand (color ≠ 1) "cyclic continuation"
        if color = 2 then searchCycles edges fuel pending colors
        else
          let edge := edges.getD (indexOf cur) (top, top)
          searchCycles edges fuel
            ((edge.2, false) :: (edge.1, false) :: (cur, true) :: pending)
            (colors.set (indexOf cur) 1)

def checkCycles (edges : List (Word × Word)) (era : Bool) :
    List Nat → List Nat → Except TapeError (List Nat)
  | [], colors => .ok colors
  | i :: rest, colors => do
      let colors ← searchCycles edges (4 * edges.length + 4) [(pointer .ktx i era, false)] colors
      checkCycles edges era rest colors

def checkClosureNames (rows : Table) : Except TapeError Unit :=
  each (fun data =>
    let name := data.getD (columnIndex .func .sym) 0
    if name ≠ nil then typed name .sym else .ok ()) rows

/-- Continuations and evaluators: shapes and acyclicity. -/
def checkControl (h : Heap) (is : Known → Word → Bool) : Except TapeError Unit := do
  let rows := List.range (h.table .ktx).length
  let edges ← allEdges h is rows
  let _ ← checkCycles edges h.era rows (List.replicate edges.length 0)
  checkClosureNames (h.table .func)
  checkClosureNames (h.table .mac)
  each (fun data => checkSegment h is (data.getD (columnIndex .run .way) 0)) (h.table .run)
  each (fun data => checkMeta h is (data.getD (columnIndex .run .mta) 0)) (h.table .run)

def checkCounters (m : Machine) : Except TapeError Unit := do
  demand ((m.heap.table .ext).length = 0) "external resources are not portable"
  demand (1 ≤ m.heap.nextPin ∧ m.heap.nextPin ≤ maxImmediate + 1) "invalid next pin ID"
  demand (m.nextKey < 2 ^ 48) "invalid fresh key sequence"

def validate (m : Machine) (entry : Word) : Except TapeError Unit := do
  let h := m.heap
  checkCounters m
  checkValue h entry
  each (fun r => checkValue h (m.root r)) roots
  each (checkPin h) h.pins
  each (checkValue h) h.words
  each (checkTable h) Kind.all
  each checkSymbol (h.table .sym)
  each (checkCode h) (List.range (h.table .record).length)
  let packages ← checkLists h m.packages
  demand (m.current ∈ packages) "current package missing"
  each (checkRoot m packages) roots
  checkControl h fun k x => x = m.known k

end Nxt.Wisp
