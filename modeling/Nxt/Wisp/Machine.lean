import Nxt.Wisp.Names
import Nxt.Wisp.Tidy

/- The language machine between calls (eval.hpp, the first part of eval.cpp): the packages and
   names it keeps as roots, interning, and collection. Suspended execution is in heap rows. -/
namespace Nxt.Wisp

structure Machine where
  /-- Its `roots` are those the host registered after the machine's own. -/
  heap : Heap := {}
  base : Word := nil
  keywords : Word := nil
  keys : Word := nil
  packages : Word := nil
  current : Word := nil
  nilName : Word := nil
  trueName : Word := nil
  known : Known → Word := fun _ => nil
  collectRequested : Bool := false
  nextKey : Nat := 0

/-- More cells than a list without a cycle can have. -/
def listFuel : Nat := maxIndex + 2

namespace Heap

def symbolName (h : Heap) (sym : Word) : List UInt8 := h.v08slice (h.get .sym .str sym)

def packageName (h : Heap) (pkg : Word) : List UInt8 := h.v08slice (h.get .pkg .nam pkg)

def findFrom (h : Heap) (name : List UInt8) : Nat → Word → Except HostError (Option Word)
  | 0, _ => .error .diverged
  | fuel + 1, cur =>
      if cur = nil then .ok none
      else
        let sym := h.get .duo .car cur
        if h.symbolName sym = name then .ok (some sym)
        else h.findFrom name fuel (h.get .duo .cdr cur)

/-- A symbol of a package's own list. -/
def find (h : Heap) (name : List UInt8) (pkg : Word) : Except HostError (Option Word) :=
  h.findFrom name listFuel (h.get .pkg .sym pkg)

/-- The walk along a uses list, with the slow cursor that detects a cycle. -/
def findUsed (h : Heap) (name : List UInt8) :
    Nat → Word → Word → Bool → Except HostError (Option Word)
  | 0, _, _, _ => .error .diverged
  | fuel + 1, cur, slow, moveSlow =>
      if cur = nil then .ok none
      else if tagOf cur ≠ .duo then .error (.invalidArgument "malformed package uses list")
      else
        let used := h.get .duo .car cur
        let next := h.get .duo .cdr cur
        if tagOf used ≠ .pkg then .error (.invalidArgument "non-package in uses list")
        else do
          match ← h.find name used with
          | some inherited => .ok (some inherited)
          | none =>
              let slow := if moveSlow then h.get .duo .cdr slow else slow
              if next ≠ nil ∧ next = slow then
                .error (.invalidArgument "cyclic package uses list")
              else h.findUsed name fuel next slow (!moveSlow)

/-- Own symbols, then those of the packages used, in list order. -/
def lookup (h : Heap) (name : List UInt8) (package : Word) : Except HostError (Option Word) := do
  match ← h.find name package with
  | some own => .ok (some own)
  | none =>
      let uses := h.get .pkg .use package
      h.findUsed name (4 * listFuel) uses uses false

def addSymbol (h : Heap) (name : List UInt8) (package : Word) :
    Except HostError (Word × Heap) := do
  let symbols := h.get .pkg .sym package
  let (str, h) ← h.newv08 name
  let (sym, h) ← h.make .sym [str, package, nah, nil, nil]
  let (cell, h) ← h.cons sym symbols
  .ok (sym, h.set .pkg .sym package cell)

def listOf (h : Heap) : List Word → Except HostError (Word × Heap)
  | [] => .ok (nil, h)
  | x :: rest => do
      let (tail, h) ← h.listOf rest
      h.cons x tail

def newPackage (h : Heap) (name : List UInt8) : Except HostError (Word × Heap) := do
  let (nam, h) ← h.newv08 name
  h.make .pkg [nam, nil, nil]

end Heap

namespace Machine

/-- What `intern` returns without creating anything. -/
def resolve (m : Machine) (name : List UInt8) (package : Word) : Except HostError (Option Word) :=
  if package = m.base ∧ name = ascii "NIL" then .ok (some nil)
  else if package = m.base ∧ name = ascii "T" then .ok (some t)
  else m.heap.lookup name package

def intern (m : Machine) (name : List UInt8) (package : Word) :
    Except HostError (Word × Machine) := do
  match ← m.resolve name package with
  | some found => .ok (found, m)
  | none =>
      let (sym, heap) ← m.heap.addSymbol name package
      .ok (sym, { m with heap })

def keyword (m : Machine) (name : List UInt8) : Except HostError (Word × Machine) :=
  m.intern name m.keywords

def setKnown (m : Machine) (k : Known) (x : Word) : Machine :=
  { m with known := Function.update m.known k x }

def installNames : List Known → Machine → Except HostError Machine
  | [], m => .ok m
  | k :: rest, m => do
      let (x, m) ← m.intern k.bytes m.base
      installNames rest (m.setKnown k x)

def installKnown (m : Machine) : Except HostError Machine := installNames Known.all m

def installJets : List Builtin → Nat → Machine → Except HostError Machine
  | [], _, m => .ok m
  | b :: rest, i, m => do
      let (sym, m) ← m.intern b.bytes m.base
      installJets rest (i + 1) { m with heap := m.heap.set .sym .func sym (immediate .jet i) }

def fresh (storage : Heap) : Except HostError Machine := do
  let (base, heap) ← storage.newPackage (ascii "WISP")
  let (keywords, heap) ← heap.newPackage (ascii "KEYWORD")
  let (keys, heap) ← heap.newPackage (ascii "KEY")
  let (packages, heap) ← heap.listOf [keys, keywords, base]
  let (nilName, heap) ← heap.newv08 (ascii "NIL")
  let (trueName, heap) ← heap.newv08 (ascii "T")
  let m ← installKnown
    { heap, base, keywords, keys, packages, current := base, nilName, trueName }
  installJets Builtin.all 0 m

def ownRoots (m : Machine) : List Word :=
  (Known.all.map m.known).reverse ++
    [m.trueName, m.nilName, m.current, m.packages, m.keys, m.keywords, m.base]

def storage (m : Machine) : Heap := { m.heap with roots := m.heap.roots ++ m.ownRoots }

def withStorage (m : Machine) (h : Heap) : Machine :=
  let own := h.roots.drop m.heap.roots.length
  let member := own.drop Known.all.length
  { m with
    heap := { h with roots := h.roots.take m.heap.roots.length }
    known := fun k => (own.take Known.all.length).reverse.getD (Known.all.idxOf k) nil
    trueName := member.getD 0 nil
    nilName := member.getD 1 nil
    current := member.getD 2 nil
    packages := member.getD 3 nil
    keys := member.getD 4 nil
    keywords := member.getD 5 nil
    base := member.getD 6 nil }

/-- The request is cleared only after success. -/
def collect (grant : Reservation → Bool) (m : Machine) : Except HostError Unit × Machine :=
  match m.storage.collect grant with
  | (.error e, h) => (.error e, m.withStorage h)
  | (.ok (), h) => (.ok (), { m.withStorage h with collectRequested := false })

end Machine

structure Image where
  machine : Machine
  entry : Word

def Image.storage (img : Image) : Heap :=
  { img.machine.storage with roots := img.entry :: img.machine.storage.roots }

end Nxt.Wisp
