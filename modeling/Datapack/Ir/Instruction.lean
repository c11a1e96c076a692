import Datapack.Ir.Hierarchy
import Datapack.Ir.Opcode
import Datapack.Ir.Operator
import Datapack.Ir.ScopeKind
import Datapack.Location

/-!
# Instructions

An instruction is an opcode with a list of operands of mixed kinds. Nothing forces the operands to
fit the opcode: the typed accessors give `none` or a default where an operand is missing or of
another kind, and every analysis reads an instruction through them.
-/

namespace Datapack.Ir

/-- The value bound to one parameter name at a call. -/
structure Argument where
  name : String
  value : Option Reference
  deriving DecidableEq, Inhabited

/-- An operand. An `absent` operand has no kind at all, while `reference none` is a reference slot
that is left empty. -/
inductive Operand where
  | absent
  | reference (r : Option Reference)
  | text (s : String)
  | binaryOperator (op : BinaryOperator)
  | compareOperator (op : CompareOperator)
  | unaryOperator (op : UnaryOperator)
  | scopeKind (k : ScopeKind)
  | dataType (d : DataType)
  | function (f : Function)
  | classSymbol (c : ClassRef)
  | arguments (args : List Argument)
  | list (items : List Operand)
  | map (entries : List (String × Operand))
  deriving Inhabited

/-- One operation of the stream. -/
structure Instruction where
  op : Opcode
  operands : List Operand
  loc : Option Location := none
  deriving Inhabited

namespace Instruction

def located (ins : Instruction) (loc : Option Location) : Instruction := { ins with loc }

/-! ## Constructors -/

/-- Run the region of a given name. -/
def jump (target : String) : Instruction := ⟨.jump, [.text target], none⟩

/-- Run one of two regions; an empty name stands for no region. -/
def condJump (cond : Option Reference) (onTrue onFalse : String) : Instruction :=
  ⟨.condJump, [.reference cond, .text onTrue, .text onFalse], none⟩

/-- Define a function; its body is the region that follows. -/
def function (f : Function) : Instruction := ⟨.function, [.function f], none⟩

def call (result : Option Reference) (f : Function) (args : List Argument) : Instruction :=
  ⟨.call, [.reference result, .function f, .arguments args], none⟩

def ret (value : Option Reference) : Instruction := ⟨.ret, [.reference value], none⟩

/-- Open a region. -/
def scopeBegin (name : String) (kind : ScopeKind) : Instruction :=
  ⟨.scopeBegin, [.text name, .scopeKind kind], none⟩

/-- Close a region. -/
def scopeEnd (name : String) (kind : ScopeKind) : Instruction :=
  ⟨.scopeEnd, [.text name, .scopeKind kind], none⟩

def breakLoop (loop : String) : Instruction := ⟨.breakLoop, [.text loop], none⟩

def continueLoop (loop : String) : Instruction := ⟨.continueLoop, [.text loop], none⟩

def declare (v : Option Reference) : Instruction := ⟨.declare, [.reference v], none⟩

def assign (target source : Option Reference) : Instruction :=
  ⟨.assign, [.reference target, .reference source], none⟩

def unaryOp (result : Option Reference) (op : UnaryOperator) (x : Option Reference) : Instruction :=
  ⟨.unaryOp, [.reference result, .unaryOperator op, .reference x], none⟩

def binaryOp (result : Option Reference) (op : BinaryOperator) (left right : Option Reference) :
    Instruction :=
  ⟨.binaryOp, [.reference result, .binaryOperator op, .reference left, .reference right], none⟩

def compare (result : Option Reference) (op : CompareOperator) (left right : Option Reference) :
    Instruction :=
  ⟨.compare, [.reference result, .compareOperator op, .reference left, .reference right], none⟩

def cast (result : Option Reference) (target : DataType) (source : Option Reference) : Instruction :=
  ⟨.cast, [.reference result, .dataType target, .reference source], none⟩

def classDef (c : ClassRef) : Instruction := ⟨.classDef, [.classSymbol c], none⟩

def newObject (result : Option Reference) (c : ClassRef) : Instruction :=
  ⟨.newObject, [.reference result, .classSymbol c], none⟩

def getProperty (result obj : Option Reference) (name : String) : Instruction :=
  ⟨.getProperty, [.reference result, .reference obj, .text name], none⟩

def setProperty (obj : Option Reference) (name : String) (value : Option Reference) : Instruction :=
  ⟨.setProperty, [.reference obj, .text name, .reference value], none⟩

def callMethod (result : Option Reference) (c : ClassRef) (method : Function)
    (args : List Argument) : Instruction :=
  ⟨.callMethod, [.reference result, .classSymbol c, .function method, .arguments args], none⟩

/-! ## Operand access -/

/-- Operand `i`, absent when there are not that many. -/
def operand (ins : Instruction) (i : Nat) : Operand := ins.operands[i]?.getD .absent

def refAt (ins : Instruction) (i : Nat) : Option Reference :=
  match ins.operand i with
  | .reference r => r
  | _ => none

/-- Operand `i` as a text, empty when it is none. -/
def textAt (ins : Instruction) (i : Nat) : String :=
  match ins.operand i with
  | .text s => s
  | _ => ""

/-- Replace operand `i`; slots missing before it become absent. -/
def setOperand (ins : Instruction) (i : Nat) (v : Operand) : Instruction :=
  { ins with
    operands :=
      (ins.operands ++ List.replicate (i + 1 - ins.operands.length) Operand.absent).set i v }

def truncate (ins : Instruction) (n : Nat) : Instruction :=
  { ins with operands := ins.operands.take n }

def scopeName (ins : Instruction) : String := ins.textAt 0

def scopeKind (ins : Instruction) : ScopeKind :=
  match ins.operand 1 with
  | .scopeKind k => k
  | _ => .global

/-- The region named by a jump, or the loop named by an exit. -/
def jumpTarget (ins : Instruction) : String := ins.textAt 0

def condition (ins : Instruction) : Option Reference := ins.refAt 0

/-- The region run when the condition holds. -/
def onTrue (ins : Instruction) : String := ins.textAt 1

/-- The region run when the condition fails. -/
def onFalse (ins : Instruction) : String := ins.textAt 2

def jumpTargets (ins : Instruction) : List String :=
  match ins.op with
  | .jump => [ins.jumpTarget]
  | .condJump => [ins.onTrue, ins.onFalse].filter (· ≠ "")
  | _ => []

def functionAt (ins : Instruction) (i : Nat) : Option Function :=
  match ins.operand i with
  | .function f => some f
  | _ => none

def classAt (ins : Instruction) (i : Nat) : Option ClassRef :=
  match ins.operand i with
  | .classSymbol c => some c
  | _ => none

def function? (ins : Instruction) : Option Function :=
  match ins.op with
  | .function => ins.functionAt 0
  | .call => ins.functionAt 1
  | .callMethod => ins.functionAt 2
  | _ => none

/-- The class an instruction defines, instantiates or calls a method of. -/
def class? (ins : Instruction) : Option ClassRef :=
  match ins.op with
  | .classDef => ins.classAt 0
  | .newObject => ins.classAt 1
  | .callMethod => ins.classAt 1
  | _ => none

def argumentSlot (ins : Instruction) : Nat :=
  match ins.op with
  | .callMethod => 3
  | _ => 2

def arguments (ins : Instruction) : List Argument :=
  match ins.operand ins.argumentSlot with
  | .arguments args => args
  | _ => []

def binaryOperator (ins : Instruction) : BinaryOperator :=
  match ins.operand 1 with
  | .binaryOperator op => op
  | _ => .add

def compareOperator (ins : Instruction) : CompareOperator :=
  match ins.operand 1 with
  | .compareOperator op => op
  | _ => .eq

def unaryOperator (ins : Instruction) : UnaryOperator :=
  match ins.operand 1 with
  | .unaryOperator op => op
  | _ => .neg

def castTarget (ins : Instruction) : DataType :=
  match ins.operand 1 with
  | .dataType d => d
  | _ => .int

def propertyObject (ins : Instruction) : Option Reference :=
  match ins.op with
  | .getProperty => ins.refAt 1
  | _ => ins.refAt 0

def propertyName (ins : Instruction) : String :=
  match ins.op with
  | .getProperty => ins.textAt 2
  | _ => ins.textAt 1

/-- The result of reading a property, or the value written to one. -/
def propertyOther (ins : Instruction) : Option Reference :=
  match ins.op with
  | .getProperty => ins.refAt 0
  | _ => ins.refAt 2

def result (ins : Instruction) : Option Reference :=
  match ins.op with
  | .assign | .unaryOp | .binaryOp | .compare | .cast | .newObject | .getProperty | .call
  | .callMethod => ins.refAt 0
  | _ => none

def readSlots (ins : Instruction) : List Nat :=
  match ins.op with
  | .condJump | .ret => [0]
  | .assign => [1]
  | .unaryOp | .cast => [2]
  | .binaryOp | .compare => [2, 3]
  | .getProperty => [1]
  | .setProperty => [0, 2]
  | _ => []

def isCall (ins : Instruction) : Bool :=
  match ins.op with
  | .call | .callMethod => true
  | _ => false

/-- The references an instruction reads, call arguments included. -/
def reads (ins : Instruction) : List Reference :=
  ins.readSlots.filterMap ins.refAt
    ++ if ins.isCall then ins.arguments.filterMap (·.value) else []

/-- Every reference of an instruction: what it declares, then what it writes, then what it reads. -/
def refs (ins : Instruction) : List Reference :=
  (if ins.op = .declare then (ins.refAt 0).toList else [])
    ++ ins.result.toList ++ ins.reads

def literals (ins : Instruction) : List Literal := ins.refs.filterMap Reference.literal?

def readVars (ins : Instruction) : List Variable := ins.reads.filterMap Reference.var?

def vars (ins : Instruction) : List Variable := ins.refs.filterMap Reference.var?

end Instruction

abbrev Stream := List Instruction

/-- A stream with the classes its operands refer to. -/
structure Program where
  classes : Hierarchy := []
  code : Stream := []
  deriving Inhabited

end Datapack.Ir
