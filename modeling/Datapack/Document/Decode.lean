import Datapack.Document.Symbols
import Datapack.Ir.Instruction
import Datapack.Json.Reader

/-!
# Decoding documents

`Document.decode` turns the text of a document into a program: the declared symbols are resolved, and
every instruction gets exactly the operands its opcode calls for.
-/

namespace Datapack.Document

open Ir

inductive InstructionError where
  | unknownOpcode (name : String)
  | returnArity (got : Nat)
  | arity (op : Opcode) (want got : Nat)
  | operand (op : Opcode) (cause : OperandError)

def InstructionError.message : InstructionError → String
  | unknownOpcode name => "unknown opcode " ++ Text.quoted name
  | returnArity got => "RETURN takes at most 1 operand, got " ++ toString got
  | arity op want got =>
    op.name ++ " takes " ++ toString want ++ " operands, got " ++ toString got
  | operand op cause => op.name ++ ": " ++ cause.message

inductive DecodeError where
  /-- The text is no JSON, or a part of it has the wrong form. -/
  | unreadable
  | symbols (cause : SymbolError)
  | instruction (index : Nat) (cause : InstructionError)

/-- The wording of a refused document. What makes a text unreadable is worded by the reader of JSON. -/
def DecodeError.message (e : DecodeError) (reason : String := "<json>") : String :=
  "malformed IR document: " ++
    match e with
    | unreadable => reason
    | symbols cause => cause.message
    | instruction i cause => "instruction " ++ toString i ++ ": " ++ cause.message

/-- The number of operands an opcode takes; a return takes one or none. -/
def arity : Opcode → Nat
  | .jump | .function | .breakLoop | .continueLoop | .declare | .classDef => 1
  | .scopeBegin | .scopeEnd | .assign | .newObject => 2
  | .condJump | .call | .unaryOp | .cast | .getProperty | .setProperty => 3
  | .binaryOp | .compare | .callMethod => 4
  | .ret | .undefined _ => 0

/-- A text operand; null is the empty text. -/
def textOperand (j : Json) : Except OperandError String :=
  match Shape.text "" j with
  | some s => .ok s
  | none => .error (.notText j.source)

/-- The fields of an object whose values are texts or null. -/
def textFields? : List (String × Json) → Option (List (String × String))
  | [] => some []
  | (k, j) :: rest => do
    let v ← Shape.text "" j
    let vs ← textFields? rest
    return (k, v) :: vs

/-- The id of a symbol: a bare text, or the text an object has under `key`. The last field of that
name counts. -/
def symbolId (key : String) (j : Json) : Except OperandError String :=
  match textOperand j with
  | .ok id => .ok id
  | .error _ =>
    let id :=
      match j with
      | .object fields _ => ((textFields? fields).bind fun fs => fs.reverse.lookup key).getD ""
      | _ => ""
    if id = "" then .error (.notSymbol key j.source) else .ok id

namespace Symbols

def functionOperand (s : Symbols) (j : Json) : Except OperandError Function := do
  let id ← symbolId "fn" j
  match s.functions.lookup id with
  | some f => .ok f
  | none => .error (.unknownFunction id)

def classOperand (s : Symbols) (j : Json) : Except OperandError ClassRef := do
  let id ← symbolId "class" j
  match s.class? id with
  | some c => .ok c
  | none => .error (.unknownClass id)

def required (s : Symbols) (slot : Nat) (j : Json) : Except OperandError (Option Reference) := do
  match ← s.reference j with
  | some r => return some r
  | none => throw (.missing slot)

/-- The arguments of a call; null is no arguments. -/
def argumentOperand (s : Symbols) (j : Json) : Except OperandError (List Argument) :=
  match Shape.list {} BindingEntry.shape {} j with
  | none => .error (.notArguments j.source)
  | some bs => bs.shown.mapM fun b =>
    match s.reference (b.value.getD .null) with
    | .ok value => .ok ⟨b.name, value⟩
    | .error cause => .error (.argument b.name cause)

/-- The instruction of an opcode with its operands resolved. The number of operands has been
checked; a combination that does not occur then is given as an instruction without operands. -/
def instructionOf (s : Symbols) (op : Opcode) (args : List Json) :
    Except OperandError Instruction :=
  match op, args with
  | .jump, [name] => do return .jump (← textOperand name)
  | .breakLoop, [name] => do return .breakLoop (← textOperand name)
  | .continueLoop, [name] => do return .continueLoop (← textOperand name)
  | .condJump, [cond, onTrue, onFalse] => do
    let cond ← s.reference cond
    let onTrue ← textOperand onTrue
    let onFalse ← textOperand onFalse
    return .condJump cond onTrue onFalse
  | .function, [f] => do return .function (← s.functionOperand f)
  | .classDef, [c] => do return .classDef (← s.classOperand c)
  | .call, [result, f, bindings] => do
    let result ← s.reference result
    let f ← s.functionOperand f
    let bindings ← s.argumentOperand bindings
    return .call result f bindings
  | .callMethod, [result, c, f, bindings] => do
    let result ← s.reference result
    let c ← s.classOperand c
    let f ← s.functionOperand f
    let bindings ← s.argumentOperand bindings
    return .callMethod result c f bindings
  | .ret, [] => .ok (.ret none)
  | .ret, [value] => do return .ret (← s.reference value)
  | .scopeBegin, [name, kind] => do
    let name ← textOperand name
    let kind ← scopeKindOperand kind
    return .scopeBegin name kind
  | .scopeEnd, [name, kind] => do
    let name ← textOperand name
    let kind ← scopeKindOperand kind
    return .scopeEnd name kind
  | .declare, [v] => do return .declare (← s.required 0 v)
  | .assign, [target, source] => do
    let target ← s.required 0 target
    let source ← s.required 1 source
    return .assign target source
  | .unaryOp, [result, operator, x] => do
    let name ← textOperand operator
    let some operator := UnaryOperator.ofName? name | throw (.unknownUnary name)
    let result ← s.required 0 result
    let x ← s.required 2 x
    return .unaryOp result operator x
  | .binaryOp, [result, operator, left, right] => do
    let name ← textOperand operator
    let result ← s.required 0 result
    let left ← s.required 2 left
    let right ← s.required 3 right
    let some operator := BinaryOperator.ofName? name | throw (.unknownBinary name)
    return .binaryOp result operator left right
  | .compare, [result, operator, left, right] => do
    let name ← textOperand operator
    let result ← s.required 0 result
    let left ← s.required 2 left
    let right ← s.required 3 right
    let some operator := CompareOperator.ofName? name | throw (.unknownComparison name)
    return .compare result operator left right
  | .cast, [result, target, source] => do
    let name ← textOperand target
    let some target := DataType.ofName? name | throw (.unknownCast name)
    let result ← s.required 0 result
    let source ← s.required 2 source
    return .cast result target source
  | .newObject, [result, c] => do
    let result ← s.required 0 result
    let c ← s.classOperand c
    return .newObject result c
  | .getProperty, [result, obj, name] => do
    let result ← s.required 0 result
    let obj ← s.required 1 obj
    let name ← textOperand name
    return .getProperty result obj name
  | .setProperty, [obj, name, value] => do
    let obj ← s.required 0 obj
    let name ← textOperand name
    let value ← s.required 2 value
    return .setProperty obj name value
  | op, _ => .ok ⟨op, [], none⟩
where
  scopeKindOperand (j : Json) : Except OperandError ScopeKind := do
    let name ← textOperand j
    match ScopeKind.ofName? name with
    | some k => return k
    | none => throw (.unknownScopeKind name)

def instruction (s : Symbols) (e : InstructionEntry) : Except InstructionError Instruction := do
  let some op := Opcode.ofName? e.op | throw (.unknownOpcode e.op)
  let got := e.args.shown.length
  if op = .ret then
    if 1 < got then throw (.returnArity got)
  else if got ≠ arity op then throw (.arity op (arity op) got)
  match s.instructionOf op e.args.shown with
  | .ok ins => return ins.located (e.loc.map fun l => .point l.file l.line l.column)
  | .error cause => throw (.operand op cause)

def instructionsFrom (s : Symbols) : Nat → List InstructionEntry → Except DecodeError Stream
  | _, [] => .ok []
  | i, e :: es =>
    match s.instruction e with
    | .error cause => .error (.instruction i cause)
    | .ok ins => do
      let rest ← instructionsFrom s (i + 1) es
      return ins :: rest

end Symbols

def entries? (text : String) : Option Entries := do
  Entries.shape {} (← Json.first? text)

def decode (text : String) : Except DecodeError Program :=
  match entries? text with
  | none => .error .unreadable
  | some e =>
    match Symbols.ofEntries e.symbols with
    | .error cause => .error (.symbols cause)
    | .ok s => do
      let code ← s.instructionsFrom 0 e.instructions.shown
      return { classes := s.classes, code }

end Datapack.Document
