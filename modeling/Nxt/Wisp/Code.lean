import Nxt.Wisp.Heap

/- Lowered code records (code.hpp): the operations, the kinds of their operands, and the check a
   record has to pass before dispatch trusts it. -/
namespace Nxt.Wisp

inductive CodeOp where
  | constant | lexicalLoad | globalLoad | functionCell | lexicalStore | globalStore | branch
  | sequence | letForm | call | closure | source | function
  deriving DecidableEq

inductive OperandKind where
  | value | address | symbol | name | node | nodes | names
  deriving DecidableEq

def OperandKind.text : OperandKind → String
  | .value => "VALUE"
  | .address => "ADDRESS"
  | .symbol => "SYMBOL"
  | .name => "NAME"
  | .node => "NODE"
  | .nodes => "NODES"
  | .names => "NAMES"

structure CodeOperation where
  op : CodeOp
  name : String
  operands : List OperandKind
  deriving DecidableEq

/-- In the order of `CodeOp`. -/
def codeOperations : List CodeOperation :=
  [⟨.constant, "CONSTANT", [.value]⟩, ⟨.lexicalLoad, "LEXICAL-LOAD", [.address, .address]⟩,
   ⟨.globalLoad, "GLOBAL-LOAD", [.symbol]⟩, ⟨.functionCell, "FUNCTION-CELL", [.symbol]⟩,
   ⟨.lexicalStore, "LEXICAL-STORE", [.address, .address, .node]⟩,
   ⟨.globalStore, "GLOBAL-STORE", [.symbol, .node]⟩, ⟨.branch, "BRANCH", [.node, .node, .node]⟩,
   ⟨.sequence, "SEQUENCE", [.nodes]⟩, ⟨.letForm, "LET", [.names, .nodes, .node]⟩,
   ⟨.call, "CALL", [.symbol, .nodes]⟩, ⟨.closure, "CLOSURE", [.node]⟩, ⟨.source, "SOURCE", [.value]⟩,
   ⟨.function, "FUNCTION", [.name, .value, .node, .value]⟩]

def codeVersion : Nat := 1

def CodeOp.index (op : CodeOp) : Nat := codeOperations.findIdx (·.op = op)

def CodeOp.operands (op : CodeOp) : List OperandKind :=
  (codeOperations.getD op.index ⟨op, "", []⟩).operands

def codeOpcode (op : CodeOp) : Word := fixnum (codeVersion * 2 ^ 8 + op.index)

def codeOperationOf (opcode : Word) : Option CodeOp :=
  if tagOf opcode ≠ .integer then none
  else
    let index := integer opcode - (codeVersion * 2 ^ 8 : Nat)
    if index < 0 then none else (codeOperations[index.toNat]?).map (·.op)

def codeRecordOp (h : Heap) (x : Word) : Option CodeOp :=
  if tagOf x ≠ .record then none
  else
    match h.slice .record x with
    | [] => none
    | opcode :: _ => codeOperationOf opcode

def operandValid (h : Heap) (x : Word) : OperandKind → Bool
  | .value => true
  | .address => tagOf x = .integer ∧ 0 ≤ integer x
  | .symbol => tagOf x = .sym
  | .name => x = nil ∨ tagOf x = .sym
  | .node => (codeRecordOp h x).isSome
  | .nodes | .names => tagOf x = .v32

/-- A NODE operand need only be a code record: every code record was checked when it was made
or restored. -/
def codeOperandsValid (h : Heap) (op : CodeOp) (operands : List Word) : Bool :=
  operands.length = op.operands.length ∧
    (operands.zip op.operands).all fun (x, kind) => operandValid h x kind

end Nxt.Wisp
