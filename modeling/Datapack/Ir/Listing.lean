import Datapack.Ir.Instruction

/-!
# Listings

The readable form of a stream: one numbered line per instruction, indented by the number of regions
open around it. A dump spells out the operands of every instruction instead. An empty reference slot has
nothing to spell out, so a program that has one cannot be dumped.
-/

namespace Datapack.Ir

mutual

/-- The plain form of an operand, used for opcodes without a form of their own. -/
def Operand.plain : Operand → String
  | .absent => "<nil>"
  | .reference r => textOf r
  | .text s => s
  | .binaryOperator op => op.name
  | .compareOperator op => op.name
  | .unaryOperator op => op.name
  | .scopeKind k => k.name
  | .dataType d => d.name
  | .function f => f.name
  | .classSymbol c => c.name
  | .arguments args =>
    "[" ++ " ".intercalate (args.map fun a => "\x7b" ++ a.name ++ " " ++ textOf a.value ++ "\x7d") ++ "]"
  | .list items => "[" ++ " ".intercalate (plainItems items) ++ "]"
  | .map entries => "map[" ++ " ".intercalate (plainEntries entries) ++ "]"

def plainItems : List Operand → List String
  | [] => []
  | a :: as => a.plain :: plainItems as

/-- The plain forms of the entries of a map, in the order of the entries. -/
def plainEntries : List (String × Operand) → List String
  | [] => []
  | (k, v) :: rest => (k ++ ":" ++ v.plain) :: plainEntries rest

end

/-- The form of a branch name; no branch is an underscore. -/
def branchText (name : String) : String := if name = "" then "_" else name

def argumentsText (args : List Argument) : String :=
  ", ".intercalate (args.map fun a => a.name ++ "=" ++ textOf a.value)

def Parameter.text (p : Parameter) : String :=
  p.name ++ ": " ++ p.type.name ++ if p.optional then " = " ++ textOf p.default else ""

/-- The form of a function where it is defined; the annotation written last comes first. -/
def Function.signature (f : Function) : String :=
  f.annotations.foldl (fun sig a => "@" ++ a ++ " " ++ sig)
    (f.name ++ "(" ++ ", ".intercalate (f.params.map Parameter.text) ++ ") -> " ++ f.returnType.name)

/-- The form of an instruction that produces a value: its result, if it has one, in front. -/
def resultText (result : Option Reference) (rhs : String) : String :=
  match result with
  | none => rhs
  | some r => r.text ++ " = " ++ rhs

def functionName (f : Option Function) : String := (f.map Function.name).getD "?"

def className (c : Option ClassRef) : String := (c.map ClassRef.name).getD "?"

def Instruction.text (classes : Hierarchy) (ins : Instruction) : String :=
  match ins.op with
  | .jump => "jump " ++ ins.jumpTarget
  | .condJump =>
    "cond_jump " ++ textOf ins.condition ++ " ? " ++ branchText ins.onTrue ++ " : "
      ++ branchText ins.onFalse
  | .function => "function " ++ (ins.function?.map Function.signature).getD "?"
  | .call =>
    resultText ins.result
      ("call " ++ functionName ins.function? ++ "(" ++ argumentsText ins.arguments ++ ")")
  | .callMethod =>
    resultText ins.result
      ("call_method " ++ className ins.class? ++ "." ++ functionName ins.function? ++ "("
        ++ argumentsText ins.arguments ++ ")")
  | .ret =>
    match ins.refAt 0 with
    | some v => "return " ++ v.text
    | none => "return"
  | .scopeBegin => "scope " ++ ins.scopeKind.name ++ " " ++ ins.scopeName ++ " \x7b"
  | .scopeEnd => "\x7d // " ++ ins.scopeName
  | .breakLoop => "break " ++ ins.jumpTarget
  | .continueLoop => "continue " ++ ins.jumpTarget
  | .declare => "declare " ++ textOf (ins.refAt 0) ++ ": " ++ (typeOf (ins.refAt 0)).name
  | .assign => textOf (ins.refAt 0) ++ " = " ++ textOf (ins.refAt 1)
  | .unaryOp => resultText ins.result (ins.unaryOperator.name ++ " " ++ textOf (ins.refAt 2))
  | .binaryOp =>
    resultText ins.result
      (ins.binaryOperator.name ++ " " ++ textOf (ins.refAt 2) ++ ", " ++ textOf (ins.refAt 3))
  | .compare =>
    resultText ins.result
      ("cmp " ++ ins.compareOperator.name ++ " " ++ textOf (ins.refAt 2) ++ ", "
        ++ textOf (ins.refAt 3))
  | .cast => resultText ins.result ("cast " ++ ins.castTarget.name ++ " " ++ textOf (ins.refAt 2))
  | .classDef =>
    match ins.class? with
    | none => "class ?"
    | some c =>
      match (classes.find? c).bind ClassDecl.parent with
      | some p => "class " ++ c.name ++ " extends " ++ p.name
      | none => "class " ++ c.name
  | .newObject => resultText ins.result ("new " ++ className ins.class?)
  | .getProperty =>
    resultText ins.propertyOther (textOf ins.propertyObject ++ "." ++ ins.propertyName)
  | .setProperty =>
    textOf ins.propertyObject ++ "." ++ ins.propertyName ++ " = " ++ textOf ins.propertyOther
  | .undefined _ => ins.op.name ++ " " ++ (Operand.list ins.operands).plain

def lineNumber (n : Nat) : String :=
  let ds := toString n
  "".pushn ' ' (4 - ds.length) ++ ds

/-- The lines of a listing from line `i` on, inside `depth` regions. -/
def listingFrom (classes : Hierarchy) : Nat → Nat → Stream → String
  | _, _, [] => ""
  | i, depth, ins :: rest =>
    let depth := if ins.op = .scopeEnd then depth - 1 else depth
    let line := lineNumber i ++ "  " ++ "".pushn ' ' (2 * depth) ++ ins.text classes ++ "\n"
    let inner := if ins.op = .scopeBegin then depth + 1 else depth
    line ++ listingFrom classes (i + 1) inner rest

def Program.listing (p : Program) : String := listingFrom p.classes 0 0 p.code

mutual

/-- Whether an operand can be spelled out, looking into lists and maps. -/
def Operand.isDumpable : Operand → Bool
  | .reference none => false
  | .list items => dumpableItems items
  | .map entries => dumpableEntries entries
  | _ => true

def dumpableItems : List Operand → Bool
  | [] => true
  | a :: as => a.isDumpable && dumpableItems as

def dumpableEntries : List (String × Operand) → Bool
  | [] => true
  | (_, v) :: rest => v.isDumpable && dumpableEntries rest

end

/-- Whether a program can be dumped. -/
def Program.isDumpable (p : Program) : Bool := p.code.all fun ins => dumpableItems ins.operands

end Datapack.Ir
