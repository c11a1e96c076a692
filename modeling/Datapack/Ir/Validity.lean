import Datapack.Diagnostic.Catalogue
import Datapack.Ir.ScopeTree

/-!
# Validity of programs

`Program.problems` lists every defect of a program in the order of its instructions. Declarations and
assignments of constants are tracked along the way, everything else is checked instruction by
instruction against the scope tree and the class hierarchy. A program is valid when nothing is listed.
-/

namespace Datapack.Ir

/-- What can be wrong with an instruction. -/
inductive Defect where
  | unbalanced (fault : ScopeFault)
  | declaresNoVariable (operand : String)
  | redeclared (name scope : String)
  | assignsNoVariable (operand : String)
  | assignsNothing (name : String)
  | undeclared (name : String)
  | constantReassigned (name : String)
  | assignsType (name : String) (want got : Ty)
  | noBranch
  | noCondition
  | unknownTarget (name : String)
  | outsideLoop (op : Opcode) (name : String)
  | noCallee (op : Opcode)
  | noMethod
  | unknownMethod (owner method : String)
  | missingArgument (function param : String)
  | argumentType (function param : String) (want got : Ty)
  | unknownArgument (function param : String)
  | noResult (function : String)
  | resultType (function : String) (want got : Ty)
  | returnsOutside
  | returnsValue (function : String)
  | returnsNothing (function : String) (want : Ty)
  | returnsType (function : String) (want got : Ty)
  | noObject (op : Opcode) (operand : String)
  | unknownProperty (owner property : String)
  | propertyType (owner property : String) (want got : Ty)
  | cyclicClass (c : ClassRef)

namespace Defect

open Text

def code : Defect → String
  | unbalanced _ => Code.unbalancedScopes
  | undeclared _ => Code.undeclaredVariable
  | assignsType .. | argumentType .. | noResult _ | resultType .. | returnsType ..
  | propertyType .. => Code.typeMismatch
  | redeclared .. => Code.redeclaredSymbol
  | missingArgument .. => Code.missingArgument
  | noBranch | noCondition => Code.invalidCondJump
  | declaresNoVariable _ | assignsNoVariable _ | assignsNothing _ | unknownTarget _
  | outsideLoop .. | noCallee _ | noMethod | noObject .. => Code.invalidReference
  | returnsOutside | returnsValue _ | returnsNothing .. => Code.invalidReturn
  | constantReassigned _ => Code.constantReassigned
  | unknownMethod .. | unknownProperty .. => Code.unknownProperty
  | cyclicClass _ => Code.cyclicClass
  | unknownArgument .. => Code.unknownArgument

def message : Defect → String
  | unbalanced fault => fault.message
  | declaresNoVariable operand => "DECLARE operand is not a variable: " ++ operand
  | redeclared name scope => quoted name ++ " is already declared in scope " ++ quoted scope
  | assignsNoVariable operand => "ASSIGN target is not a variable: " ++ operand
  | assignsNothing name => "ASSIGN to " ++ quoted name ++ " has no source"
  | undeclared name => "assignment to undeclared variable " ++ quoted name
  | constantReassigned name => "constant " ++ quoted name ++ " is assigned more than once"
  | assignsType name want got =>
    "cannot assign " ++ got.name ++ " to " ++ quoted name ++ " of type " ++ want.name
  | noBranch => "COND_JUMP without a branch target"
  | noCondition => "COND_JUMP without a condition"
  | unknownTarget name => "jump to unknown scope " ++ quoted name
  | outsideLoop op name => op.name ++ " outside of loop " ++ quoted name
  | noCallee op => op.name ++ " without a callee"
  | noMethod => "CALL_METHOD without class or method"
  | unknownMethod owner method => "class " ++ owner ++ " has no method " ++ quoted method
  | missingArgument f p => "call to " ++ f ++ " is missing required argument " ++ quoted p
  | argumentType f p want got =>
    "argument " ++ quoted p ++ " of " ++ f ++ " is " ++ want.name ++ ", got " ++ got.name
  | unknownArgument f p => f ++ " has no parameter " ++ quoted p
  | noResult f => f ++ " returns no value"
  | resultType f want got => "cannot store " ++ got.name ++ " result of " ++ f ++ " in " ++ want.name
  | returnsOutside => "RETURN outside of a function"
  | returnsValue f => "function " ++ f ++ " returns no value"
  | returnsNothing f want => "function " ++ f ++ " must return a " ++ want.name
  | returnsType f want got => "function " ++ f ++ " returns " ++ want.name ++ ", got " ++ got.name
  | noObject op operand => op.name ++ " on non-object " ++ operand
  | unknownProperty owner p => "class " ++ owner ++ " has no property " ++ quoted p
  | propertyType owner p want got =>
    "property " ++ owner ++ "." ++ p ++ " is " ++ want.name ++ ", got " ++ got.name
  | cyclicClass c => Hierarchy.cycleMessage c

end Defect

structure Problem where
  /-- The index of the instruction, `-1` for the stream as a whole. -/
  index : Int
  op : Opcode
  loc : Option Location
  defect : Defect

namespace Problem

def text (p : Problem) : String :=
  let line := "#" ++ toString p.index ++ " " ++ p.op.name ++ ": " ++ p.defect.message
  match p.loc.filter Location.isValid with
  | some l => l.text ++ ": " ++ line
  | none => line

def diagnostic (p : Problem) : Diagnostic :=
  { severity := .error, message := p.defect.message, category := .input, code := p.defect.code
    notes := ["instruction #" ++ toString p.index ++ " (" ++ p.op.name ++ ")"] : Diagnostic }.located
    p.loc

end Problem

/-- What validation knows when it reaches an instruction. -/
structure Progress where
  /-- The variables declared so far, with the scope that declares them; names are unique in a scope. -/
  declared : List (Nat × Variable) := []
  /-- The constants assigned so far. -/
  assigned : List Variable := []

structure Surroundings where
  classes : Hierarchy
  tree : ScopeTree
  functions : List (Nat × Option Function)

namespace Progress

def declares (p : Progress) (scope : Nat) (name : String) : Bool :=
  p.declared.any fun d => d.1 = scope && d.2.name = name

/-- Whether a variable may be assigned in a scope: parameters and return slots always, other variables
once the scope or one around it has declared them. -/
def isDeclared (p : Progress) (t : ScopeTree) (scope : Nat) (v : Variable) : Bool :=
  v.kind = .parameter || v.kind = .ret
    || (t.ancestors scope).any fun s => p.declared.contains (s, v)

/-- The knowledge after an instruction in a scope. -/
def advance (p : Progress) (scope : Nat) (ins : Instruction) : Progress :=
  match ins.op with
  | .declare =>
    match varOf (ins.refAt 0) with
    | some v => if p.declares scope v.name then p else { p with declared := (scope, v) :: p.declared }
    | none => p
  | .assign =>
    match varOf (ins.refAt 0), ins.refAt 1 with
    | some v, some _ =>
      if isConstantRef (ins.refAt 0) then { p with assigned := v :: p.assigned } else p
    | _, _ => p
  | _ => p

end Progress

namespace Surroundings

variable (e : Surroundings)

/-- A target that resolves to no region. -/
def targetDefects (scope : Nat) (name : String) : List Defect :=
  if (e.tree.resolve scope name).isSome then [] else [.unknownTarget name]

def declareDefects (p : Progress) (scope : Nat) (ins : Instruction) : List Defect :=
  match varOf (ins.refAt 0) with
  | none => [.declaresNoVariable (textOf (ins.refAt 0))]
  | some v =>
    if p.declares scope v.name then [.redeclared v.name (e.tree.node scope).name] else []

/-- An assignment has a declared target and a source its target accepts, and constants are assigned
once. -/
def assignDefects (p : Progress) (scope : Nat) (ins : Instruction) : List Defect :=
  let target := ins.refAt 0
  match varOf target, ins.refAt 1 with
  | none, _ => [.assignsNoVariable (textOf target)]
  | some v, none => [.assignsNothing v.name]
  | some v, some source =>
    (if p.isDeclared e.tree scope v then [] else [.undeclared v.name])
      ++ (if isConstantRef target && p.assigned.contains v then [.constantReassigned v.name] else [])
      ++ if e.classes.accepts (typeOf target) source.type then []
        else [.assignsType v.name (typeOf target) source.type]

/-- A conditional jump has a condition and a branch, and its branches resolve. -/
def condJumpDefects (scope : Nat) (ins : Instruction) : List Defect :=
  (if ins.onTrue = "" && ins.onFalse = "" then [.noBranch] else [])
    ++ (if ins.condition.isNone then [.noCondition] else [])
    ++ ([ins.onTrue, ins.onFalse].filter (· ≠ "")).flatMap (e.targetDefects scope)

/-- An exit names a loop around it. -/
def exitDefects (scope : Nat) (ins : Instruction) : List Defect :=
  let name := ins.jumpTarget
  let inside := (e.tree.ancestors scope).any fun n =>
    (e.tree.node n).name = name && (e.tree.node n).kind.isLoop
  if inside then [] else [.outsideLoop ins.op name]

/-- A parameter is bound to an acceptable value or may be left out. -/
def paramDefects (f : Function) (args : List Argument) (p : Parameter) : List Defect :=
  match args.find? (·.name = p.name) with
  | none => if p.optional then [] else [.missingArgument f.name p.name]
  | some a =>
    match a.value with
    | none => []
    | some v =>
      if e.classes.accepts p.type v.type then [] else [.argumentType f.name p.name p.type v.type]

/-- An argument binds a parameter; methods also take the object itself. -/
def argumentDefects (f : Function) (ins : Instruction) (a : Argument) : List Defect :=
  if (f.param? a.name).isSome || (ins.op = .callMethod && a.name = "self") then []
  else [.unknownArgument f.name a.name]

/-- The result of a call can hold what the function returns. -/
def resultDefects (f : Function) (ins : Instruction) : List Defect :=
  match ins.result with
  | none => []
  | some r =>
    if f.returnType = Ty.null then [.noResult f.name]
    else if e.classes.accepts r.type f.returnType then []
    else [.resultType f.name r.type f.returnType]

def callDefects (ins : Instruction) (callee : Option Function) : List Defect :=
  match callee with
  | none => [.noCallee ins.op]
  | some f =>
    f.params.flatMap (e.paramDefects f ins.arguments)
      ++ ins.arguments.flatMap (argumentDefects f ins)
      ++ e.resultDefects f ins

def callMethodDefects (ins : Instruction) : List Defect :=
  match ins.class?, ins.function? with
  | some c, some f =>
    if e.classes.method? c f.name = some f then e.callDefects ins (some f)
    else [.unknownMethod c.name f.name]
  | _, _ => [.noMethod]

/-- A return stands in a function and fits its return type. -/
def returnDefects (scope : Nat) (ins : Instruction) : List Defect :=
  match e.tree.enclosing scope [.function] with
  | none => [.returnsOutside]
  | some n =>
    match (e.functions.lookup n).join with
    | none => []
    | some f =>
      match ins.refAt 0 with
      | some v =>
        if f.returnType = Ty.null then [.returnsValue f.name]
        else if e.classes.accepts f.returnType v.type then []
        else [.returnsType f.name f.returnType v.type]
      | none => if f.returnType = Ty.null then [] else [.returnsNothing f.name f.returnType]

def propertyDefects (ins : Instruction) : List Defect :=
  match typeOf ins.propertyObject with
  | .data _ => [.noObject ins.op (textOf ins.propertyObject)]
  | .object c =>
    match e.classes.property? c ins.propertyName with
    | none => [.unknownProperty c.name ins.propertyName]
    | some p =>
      match ins.op, ins.propertyOther with
      | .setProperty, some v =>
        if e.classes.accepts p.type v.type then []
        else [.propertyType c.name ins.propertyName p.type v.type]
      | _, _ => []

def classDefects (ins : Instruction) : List Defect :=
  match ins.class? with
  | none => []
  | some c =>
    match e.classes.acyclic c with
    | .ok _ => []
    | .error k => [.cyclicClass k]

def defects (p : Progress) (scope : Nat) (ins : Instruction) : List Defect :=
  match ins.op with
  | .declare => e.declareDefects p scope ins
  | .assign => e.assignDefects p scope ins
  | .condJump => e.condJumpDefects scope ins
  | .jump => e.targetDefects scope ins.jumpTarget
  | .breakLoop | .continueLoop => e.exitDefects scope ins
  | .call => e.callDefects ins ins.function?
  | .callMethod => e.callMethodDefects ins
  | .ret => e.returnDefects scope ins
  | .getProperty | .setProperty => e.propertyDefects ins
  | .classDef => e.classDefects ins
  | _ => []

/-- The problems of the rest of a stream from index `i` on. -/
def problemsFrom : Nat → Progress → Stream → List Problem
  | _, _, [] => []
  | i, p, ins :: rest =>
    let scope := e.tree.enclosingAt i
    (e.defects p scope ins).map (⟨i, ins.op, ins.loc, ·⟩)
      ++ problemsFrom (i + 1) (p.advance scope ins) rest

end Surroundings

namespace Program

/-- Every problem of a program. A stream whose delimiters do not match has that problem only. -/
def problems (p : Program) : List Problem :=
  match ScopeTree.ofStream p.code with
  | .error fault => [⟨-1, .scopeEnd, none, .unbalanced fault⟩]
  | .ok tree =>
    Surroundings.problemsFrom ⟨p.classes, tree, functionScopes p.code tree⟩ 0 {} p.code

def isValid (p : Program) : Bool := p.problems.isEmpty

def problemText (problems : List Problem) : String :=
  "\n".intercalate (problems.map Problem.text)

end Program

end Datapack.Ir
