import Datapack.Ir.Literal

/-!
# Symbols

Variables, functions and classes are symbols with an identity of their own: two symbols are the same
exactly when their identifiers and all their attributes agree, so distinct symbols may share a name.
A `Reference` is the handle through which instructions name a value.
-/

namespace Datapack.Ir

/-- A class as types and operands see it. Its members are kept in a `Hierarchy`. -/
structure ClassRef where
  id : String
  name : String
  deriving DecidableEq, Inhabited

inductive Ty where
  | data (d : DataType)
  | object (c : ClassRef)
  deriving DecidableEq

namespace Ty

instance : Inhabited Ty := ⟨data .null⟩

def name : Ty → String
  | data d => d.name
  | object c => c.name

/-- The type of values of primitive type null, also used where nothing is returned. -/
abbrev null : Ty := data .null

def isPrimitive : Ty → Bool
  | data _ => true
  | object _ => false

end Ty

/-- What kind of storage slot a variable is. -/
inductive VarKind where
  | common | parameter | ret
  deriving DecidableEq, Repr, Inhabited

def VarKind.name : VarKind → String
  | common => "common"
  | parameter => "parameter"
  | ret => "return"

structure Variable where
  id : String
  name : String
  type : Ty
  kind : VarKind := .common
  /-- Kept by cleanup passes even when nothing refers to it. -/
  retain : Bool := false
  deriving DecidableEq, Inhabited

/-- A variable whose value can be observed from outside the stream. -/
def Variable.isRoot (v : Variable) : Bool :=
  v.kind = .parameter || v.kind = .ret || v.retain

/-- A function as a value: what reading it shows. -/
structure FunctionRef where
  id : String
  name : String
  returnType : Ty
  deriving DecidableEq, Inhabited

/-- What a reference points at. -/
inductive ValueKind where
  | literal | var | const | function | classSymbol
  deriving DecidableEq, Repr

def ValueKind.name : ValueKind → String
  | literal => "literal"
  | var => "variable"
  | const => "constant"
  | function => "function"
  | classSymbol => "class"

def ValueKind.all : List ValueKind := [literal, var, const, function, classSymbol]

def ValueKind.code (k : ValueKind) : Nat := all.idxOf k

/-- The handle instructions use to name a value. A constant is a slot that may be assigned once; it
shares its identity with the variable behind it. -/
inductive Reference where
  | literal (l : Literal)
  | var (v : Variable)
  | const (v : Variable)
  | function (f : FunctionRef)
  | classSymbol (c : ClassRef)
  deriving DecidableEq, Inhabited

namespace Reference

def kind : Reference → ValueKind
  | literal _ => .literal
  | var _ => .var
  | const _ => .const
  | function _ => .function
  | classSymbol _ => .classSymbol

def literal? : Reference → Option Literal
  | literal l => some l
  | _ => none

def var? : Reference → Option Variable
  | var v => some v
  | const v => some v
  | _ => none

def isConstant : Reference → Bool
  | const _ => true
  | _ => false

/-- The type a read of the reference produces. -/
def type : Reference → Ty
  | literal l => .data l.type
  | var v => v.type
  | const v => v.type
  | function f => f.returnType
  | classSymbol c => .object c

def text : Reference → String
  | literal l => l.text
  | var v => v.name
  | const v => "const " ++ v.name
  | function f => f.name
  | classSymbol c => c.name

/-- Why a value cannot be wrapped as a reference of a kind. -/
inductive Mismatch where
  | missing (kind : ValueKind)
  | different (kind target : ValueKind)

def Mismatch.message : Mismatch → String
  | missing kind => "reference to nil " ++ kind.name
  | different kind target =>
    "reference kind " ++ kind.name ++ " does not match " ++ target.name ++ " target"

def ofKind (kind : ValueKind) : Option Reference → Except Mismatch Reference
  | none => .error (.missing kind)
  | some r => if r.kind = kind then .ok r else .error (.different kind r.kind)

end Reference

def literalOf (r : Option Reference) : Option Literal := r.bind Reference.literal?

/-- The storage slot behind a reference that may be missing. -/
def varOf (r : Option Reference) : Option Variable := r.bind Reference.var?

/-- The type of a reference that may be missing; a missing one reads as null. -/
def typeOf (r : Option Reference) : Ty := (r.map Reference.type).getD Ty.null

def textOf (r : Option Reference) : String := (r.map Reference.text).getD "_"

def isConstantRef (r : Option Reference) : Bool := (r.map Reference.isConstant).getD false

/-- A parameter of a function: the variable it is bound to and its default. -/
structure Parameter where
  var : Variable
  optional : Bool
  default : Option Reference
  deriving DecidableEq, Inhabited

def Parameter.name (p : Parameter) : String := p.var.name

def Parameter.type (p : Parameter) : Ty := p.var.type

def Parameter.ofDefault (id name : String) (type : Ty) (default : Option Reference) : Parameter :=
  { var := { id, name, type, kind := .parameter }
    optional := default.isSome
    default }

/-- Who provides the body of a function. -/
inductive FunctionKind where
  | function | library | builtin | method
  deriving DecidableEq, Repr, Inhabited

def FunctionKind.name : FunctionKind → String
  | function => "function"
  | library => "library"
  | builtin => "builtin"
  | method => "method"

/-- The kind of function a document spells; nothing spells an ordinary function. -/
def FunctionKind.ofName? (s : String) : Option FunctionKind :=
  if s = "" then some function else [function, library, builtin, method].find? (·.name = s)

/-- A callable symbol. -/
structure Function where
  id : String
  name : String
  params : List Parameter
  returnType : Ty
  kind : FunctionKind
  annotations : List String := []
  deriving DecidableEq, Inhabited

inductive SignatureError where
  | duplicate (function param : String)
  | noDefault (function param : String)
  | requiredAfterOptional (function param : String)

def SignatureError.message : SignatureError → String
  | duplicate f p => "function " ++ f ++ ": duplicate parameter " ++ Text.quoted p
  | noDefault f p => "function " ++ f ++ ": optional parameter " ++ Text.quoted p ++ " has no default"
  | requiredAfterOptional f p =>
    "function " ++ f ++ ": required parameter " ++ Text.quoted p ++ " follows an optional one"

namespace Function

/-- Check parameters from left to right: `seen` are the names before, `optional` says whether one of
them was optional. -/
def checkParams (name : String) : List String → Bool → List Parameter → Except SignatureError Unit
  | _, _, [] => .ok ()
  | seen, optional, p :: ps =>
    if p.name ∈ seen then .error (.duplicate name p.name)
    else if p.optional && p.default.isNone then .error (.noDefault name p.name)
    else if optional && !p.optional then .error (.requiredAfterOptional name p.name)
    else checkParams name (p.name :: seen) (optional || p.optional) ps

/-- The function itself, if its parameter names are distinct, every optional parameter has a default
and no required parameter follows an optional one. -/
def checked (f : Function) : Except SignatureError Function :=
  (checkParams f.name [] false f.params).map fun _ => f

def param? (f : Function) (name : String) : Option Parameter :=
  f.params.find? (·.name = name)

def hasAnnotation (f : Function) (name : String) : Bool := f.annotations.contains name

def toRef (f : Function) : FunctionRef := ⟨f.id, f.name, f.returnType⟩

end Function

end Datapack.Ir
