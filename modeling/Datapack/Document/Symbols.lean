import Datapack.Document.Entry
import Datapack.Ir.Hierarchy

/-!
# Declared symbols

`Symbols.ofEntries` resolves the declarations of a document into symbols, each identified by its id.
Classes come first so that every type name resolves, then variables, functions with their parameters,
and methods last. Operands are resolved against the result.
-/

namespace Datapack.Document

open Ir

inductive OperandError where
  | notText (source : String)
  | notOperand (source : String)
  | namesNothing (source : String)
  | unknownVariable (id : String)
  | unknownFunction (id : String)
  | unknownClass (id : String)
  | notInteger (text : String)
  | unsupportedLiteral (source : String)
  | notSymbol (key source : String)
  | notArguments (source : String)
  | argument (name : String) (cause : OperandError)
  | missing (slot : Nat)
  | unknownScopeKind (name : String)
  | unknownUnary (name : String)
  | unknownBinary (name : String)
  | unknownComparison (name : String)
  | unknownCast (name : String)

def OperandError.message : OperandError → String
  | notText source => "expected a string, got " ++ source
  | notOperand source => "expected an operand object, got " ++ source
  | namesNothing source => "operand " ++ source ++ " names no symbol or literal"
  | unknownVariable id => "unknown variable " ++ Text.quoted id
  | unknownFunction id => "unknown function " ++ Text.quoted id
  | unknownClass id => "unknown class " ++ Text.quoted id
  | notInteger text => "literal " ++ text ++ " is not a 64-bit integer"
  | unsupportedLiteral source => "unsupported literal " ++ source
  | notSymbol key source => "expected a " ++ key ++ " id, got " ++ source
  | notArguments source => "expected an argument list, got " ++ source
  | argument name cause => "argument " ++ Text.quoted name ++ ": " ++ cause.message
  | missing slot => "operand " ++ toString slot ++ " must not be null"
  | unknownScopeKind name => "unknown scope kind " ++ Text.quoted name
  | unknownUnary name => "unknown unary operator " ++ Text.quoted name
  | unknownBinary name => "unknown binary operator " ++ Text.quoted name
  | unknownComparison name => "unknown comparison " ++ Text.quoted name
  | unknownCast name => "unknown cast target " ++ Text.quoted name

inductive SymbolError where
  | classWithoutId
  | duplicateClass (id : String)
  | unknownParent (id parent : String)
  | unknownInterface (id interface : String)
  | classType (id type : String)
  | unknownMethod (id method : String)
  | cycle (c : ClassRef)
  | variableWithoutId
  | duplicateVariable (id : String)
  | variableType (id type : String)
  | variableKind (id kind : String)
  | functionWithoutId
  | duplicateFunction (id : String)
  | functionType (id type : String)
  | functionKind (id kind : String)
  | defaultOf (id param : String) (cause : OperandError)
  | signature (cause : SignatureError)

def SymbolError.message : SymbolError → String
  | classWithoutId => "class without id"
  | duplicateClass id => "duplicate class id " ++ Text.quoted id
  | unknownParent id p => "class " ++ id ++ ": unknown parent " ++ Text.quoted p
  | unknownInterface id i => "class " ++ id ++ ": unknown interface " ++ Text.quoted i
  | classType id t => "class " ++ id ++ ": unknown type " ++ Text.quoted t
  | unknownMethod id m => "class " ++ id ++ ": unknown method " ++ Text.quoted m
  | cycle c => Hierarchy.cycleMessage c
  | variableWithoutId => "variable without id"
  | duplicateVariable id => "duplicate variable id " ++ Text.quoted id
  | variableType id t => "variable " ++ id ++ ": unknown type " ++ Text.quoted t
  | variableKind id k => "variable " ++ id ++ ": unknown kind " ++ Text.quoted k
  | functionWithoutId => "function without id"
  | duplicateFunction id => "duplicate function id " ++ Text.quoted id
  | functionType id t => "function " ++ id ++ ": unknown type " ++ Text.quoted t
  | functionKind id k => "function " ++ id ++ ": unknown function kind " ++ Text.quoted k
  | defaultOf id p cause => "function " ++ id ++ ": default of " ++ p ++ ": " ++ cause.message
  | signature cause => cause.message

/-- The symbols of a document by their ids. Variables are kept as the references that read them. -/
structure Symbols where
  classes : Hierarchy := []
  vars : List (String × Reference) := []
  functions : List (String × Function) := []

namespace Symbols

def class? (s : Symbols) (id : String) : Option ClassRef :=
  (List.find? (fun k => k.ref.id = id) s.classes).map ClassDecl.ref

/-- The type a document spells: nothing is null, then the primitive types, then classes by id. -/
def type? (s : Symbols) (name : String) : Option Ty :=
  if name = "" then some Ty.null
  else
    match DataType.ofName? name with
    | some d => some (.data d)
    | none => (s.class? name).map .object

def literal (type : String) : Json → Except OperandError Literal
  | .null => .ok .null
  | .bool b => .ok (.bool b)
  | .string s _ => .ok (.str s)
  | .number t =>
    match integer64? t with
    | none => .error (.notInteger t)
    | some n =>
      if type = "bool" || type = "boolean" then .ok (.bool (n != 0)) else .ok (.int (Int64.ofInt n))
  | j => .error (.unsupportedLiteral j.source)

/-- A reference operand; null gives none. A variable is preferred to a literal, a literal to a
function and a function to a class. -/
def reference (s : Symbols) (j : Json) : Except OperandError (Option Reference) :=
  if j.isNull then .ok none
  else
    match OperandEntry.shape {} j with
    | none => .error (.notOperand j.source)
    | some o =>
      match o.var, o.lit, o.fn, o.classId with
      | some id, _, _, _ =>
        match s.vars.lookup id with
        | some r => .ok (some r)
        | none => .error (.unknownVariable id)
      | none, some lit, _, _ => (literal o.type lit).map fun l => some (.literal l)
      | none, none, some id, _ =>
        match s.functions.lookup id with
        | some f => .ok (some (.function f.toRef))
        | none => .error (.unknownFunction id)
      | none, none, none, some id =>
        match s.class? id with
        | some c => .ok (some (.classSymbol c))
        | none => .error (.unknownClass id)
      | none, none, none, none => .error (.namesNothing j.source)

/-- The name to show for a symbol: its own, or its id when it has none. -/
def nameOr (name id : String) : String := if name = "" then id else name

def declareClass (s : Symbols) (e : ClassEntry) : Except SymbolError Symbols :=
  if e.id = "" then .error .classWithoutId
  else if (s.class? e.id).isSome then .error (.duplicateClass e.id)
  else
    .ok { s with
      classes := s.classes ++
        [{ ref := ⟨e.id, nameOr e.name e.id⟩, isInterface := e.kind = "interface" }] }

def modifyClass (s : Symbols) (id : String) (f : ClassDecl → ClassDecl) : Symbols :=
  { s with classes := s.classes.map fun k => if k.ref.id = id then f k else k }

def linkClass (s : Symbols) (e : ClassEntry) : Except SymbolError Symbols := do
  let parent ←
    if e.parent = "" then pure none
    else
      match s.class? e.parent with
      | some p => pure (some p)
      | none => .error (.unknownParent e.id e.parent)
  let interfaces ← e.interfaces.shown.mapM fun id =>
    match s.class? id with
    | some c => .ok c
    | none => .error (.unknownInterface e.id id)
  let properties ← e.properties.shown.mapM fun p =>
    match s.type? p.type with
    | some t => .ok { name := p.name, type := t : Property }
    | none => .error (.classType e.id p.type)
  return s.modifyClass e.id fun k => { k with parent, interfaces, properties }

/-- Add a variable. Constants have no kind of their own. -/
def declareVariable (s : Symbols) (e : VariableEntry) : Except SymbolError Symbols := do
  if e.id = "" then throw .variableWithoutId
  if (s.vars.lookup e.id).isSome then throw (.duplicateVariable e.id)
  let some type := s.type? e.type | throw (.variableType e.id e.type)
  let v : Variable := { id := e.id, name := nameOr e.name e.id, type, retain := e.retain }
  let r ←
    if e.constant then pure (Reference.const v)
    else if e.kind = "" || e.kind = "common" then pure (.var v)
    else if e.kind = "return" then pure (.var { v with kind := .ret })
    else throw (.variableKind e.id e.kind)
  return { s with vars := s.vars ++ [(e.id, r)] }

/-- Resolve one parameter of a function and declare the variable it is bound to. -/
def declareParam (s : Symbols) (f : FunctionEntry) (p : ParamEntry) :
    Except SymbolError (Symbols × Parameter) := do
  let some type := s.type? p.type | throw (.functionType f.id p.type)
  let default ←
    match p.default with
    | none => pure none
    | some j =>
      match s.reference j with
      | .ok r => pure r
      | .error cause => throw (.defaultOf f.id p.name cause)
  let id := if p.id = "" then f.id ++ "." ++ p.name else p.id
  if (s.vars.lookup id).isSome then throw (.duplicateVariable id)
  let param := Parameter.ofDefault id p.name type default
  return ({ s with vars := s.vars ++ [(id, .var param.var)] }, param)

/-- Resolve the parameters of a function from left to right. -/
def declareParams (s : Symbols) (f : FunctionEntry) :
    List ParamEntry → Except SymbolError (Symbols × List Parameter)
  | [] => .ok (s, [])
  | p :: ps => do
    let (s, param) ← s.declareParam f p
    let (s, params) ← declareParams s f ps
    return (s, param :: params)

def declareFunction (s : Symbols) (e : FunctionEntry) : Except SymbolError Symbols := do
  if e.id = "" then throw .functionWithoutId
  if (s.functions.lookup e.id).isSome then throw (.duplicateFunction e.id)
  let some returnType := s.type? e.returnType | throw (.functionType e.id e.returnType)
  let some kind := FunctionKind.ofName? e.kind | throw (.functionKind e.id e.kind)
  let (s, params) ← s.declareParams e e.params.shown
  let f : Function :=
    { id := e.id, name := nameOr e.name e.id, params, returnType, kind
      annotations := e.annotations.shown }
  match f.checked with
  | .ok f => return { s with functions := s.functions ++ [(e.id, f)] }
  | .error cause => throw (.signature cause)

def bindMethods (s : Symbols) (e : ClassEntry) : Except SymbolError Symbols := do
  let methods ← e.methods.shown.mapM fun id =>
    match s.functions.lookup id with
    | some f => .ok f
    | none => .error (SymbolError.unknownMethod e.id id)
  return s.modifyClass e.id fun k => { k with methods }

/-- Fails when the links of the classes form a cycle. -/
def checkAcyclic (s : Symbols) : Except SymbolError Unit :=
  s.classes.forM fun k =>
    match s.classes.acyclic k.ref with
    | .ok _ => .ok ()
    | .error c => .error (.cycle c)

def ofEntries (e : SymbolEntries) : Except SymbolError Symbols := do
  let s ← e.classes.shown.foldlM declareClass {}
  let s ← e.classes.shown.foldlM linkClass s
  let s ← e.vars.shown.foldlM declareVariable s
  let s ← e.functions.shown.foldlM declareFunction s
  let s ← e.classes.shown.foldlM bindMethods s
  s.checkAcyclic
  return s

end Symbols

end Datapack.Document
