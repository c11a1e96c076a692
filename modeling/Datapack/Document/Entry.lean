import Datapack.Document.Shape

/-!
# Entries of a document

The records a document is made of, before any name is resolved: symbol declarations, instructions and
their locations. Fields a document does not give are empty.
-/

namespace Datapack.Document

open Shape

structure VariableEntry where
  id : String := ""
  name : String := ""
  type : String := ""
  kind : String := ""
  constant : Bool := false
  retain : Bool := false
  deriving Inhabited

structure ParamEntry where
  id : String := ""
  name : String := ""
  type : String := ""
  default : Option Json := none
  deriving Inhabited

structure FunctionEntry where
  id : String := ""
  name : String := ""
  kind : String := ""
  returnType : String := ""
  params : Slots ParamEntry := {}
  annotations : Slots String := {}
  deriving Inhabited

structure PropertyEntry where
  name : String := ""
  type : String := ""
  deriving Inhabited

structure ClassEntry where
  id : String := ""
  name : String := ""
  kind : String := ""
  parent : String := ""
  interfaces : Slots String := {}
  properties : Slots PropertyEntry := {}
  methods : Slots String := {}
  deriving Inhabited

structure LocationEntry where
  file : String := ""
  line : Int := 0
  column : Int := 0
  deriving Inhabited

/-- An instruction whose operands are not resolved yet. -/
structure InstructionEntry where
  op : String := ""
  args : Slots Json := {}
  loc : Option LocationEntry := none
  deriving Inhabited

structure SymbolEntries where
  vars : Slots VariableEntry := {}
  functions : Slots FunctionEntry := {}
  classes : Slots ClassEntry := {}
  deriving Inhabited

structure Entries where
  symbols : SymbolEntries := {}
  instructions : Slots InstructionEntry := {}
  deriving Inhabited

def VariableEntry.shape : Shape VariableEntry :=
  record true [
    ("id", field (·.id) (fun e v => { e with id := v }) text),
    ("name", field (·.name) (fun e v => { e with name := v }) text),
    ("type", field (·.type) (fun e v => { e with type := v }) text),
    ("kind", field (·.kind) (fun e v => { e with kind := v }) text),
    ("constant", field (·.constant) (fun e v => { e with constant := v }) flag),
    ("retain", field (·.retain) (fun e v => { e with retain := v }) flag)]

def ParamEntry.shape : Shape ParamEntry :=
  record true [
    ("id", field (·.id) (fun e v => { e with id := v }) text),
    ("name", field (·.name) (fun e v => { e with name := v }) text),
    ("type", field (·.type) (fun e v => { e with type := v }) text),
    ("default", field (·.default) (fun e v => { e with default := v }) any)]

def FunctionEntry.shape : Shape FunctionEntry :=
  record true [
    ("id", field (·.id) (fun e v => { e with id := v }) text),
    ("name", field (·.name) (fun e v => { e with name := v }) text),
    ("kind", field (·.kind) (fun e v => { e with kind := v }) text),
    ("return", field (·.returnType) (fun e v => { e with returnType := v }) text),
    ("params", field (·.params) (fun e v => { e with params := v }) (list {} ParamEntry.shape)),
    ("annotations", field (·.annotations) (fun e v => { e with annotations := v }) (list "" text))]

def PropertyEntry.shape : Shape PropertyEntry :=
  record true [
    ("name", field (·.name) (fun e v => { e with name := v }) text),
    ("type", field (·.type) (fun e v => { e with type := v }) text)]

def ClassEntry.shape : Shape ClassEntry :=
  record true [
    ("id", field (·.id) (fun e v => { e with id := v }) text),
    ("name", field (·.name) (fun e v => { e with name := v }) text),
    ("kind", field (·.kind) (fun e v => { e with kind := v }) text),
    ("parent", field (·.parent) (fun e v => { e with parent := v }) text),
    ("interfaces", field (·.interfaces) (fun e v => { e with interfaces := v }) (list "" text)),
    ("properties",
      field (·.properties) (fun e v => { e with properties := v }) (list {} PropertyEntry.shape)),
    ("methods", field (·.methods) (fun e v => { e with methods := v }) (list "" text))]

def LocationEntry.shape : Shape LocationEntry :=
  record true [
    ("file", field (·.file) (fun e v => { e with file := v }) text),
    ("line", field (·.line) (fun e v => { e with line := v }) integer),
    ("column", field (·.column) (fun e v => { e with column := v }) integer)]

def InstructionEntry.shape : Shape InstructionEntry :=
  record true [
    ("op", field (·.op) (fun e v => { e with op := v }) text),
    ("args", field (·.args) (fun e v => { e with args := v }) (list .null fun _ j => some j)),
    ("loc", field (·.loc) (fun e v => { e with loc := v }) (optional {} LocationEntry.shape))]

def SymbolEntries.shape : Shape SymbolEntries :=
  record true [
    ("variables",
      field (·.vars) (fun e v => { e with vars := v }) (list {} VariableEntry.shape)),
    ("functions",
      field (·.functions) (fun e v => { e with functions := v }) (list {} FunctionEntry.shape)),
    ("classes", field (·.classes) (fun e v => { e with classes := v }) (list {} ClassEntry.shape))]

def Entries.shape : Shape Entries :=
  record true [
    ("symbols", field (·.symbols) (fun e v => { e with symbols := v }) SymbolEntries.shape),
    ("instructions",
      field (·.instructions) (fun e v => { e with instructions := v })
        (list {} InstructionEntry.shape))]

/-- An operand object: it names a variable, a literal, a function or a class. -/
structure OperandEntry where
  var : Option String := none
  lit : Option Json := none
  type : String := ""
  fn : Option String := none
  classId : Option String := none

/-- Shape of an operand object. Fields it does not know are skipped. -/
def OperandEntry.shape : Shape OperandEntry :=
  record false [
    ("var", field (·.var) (fun e v => { e with var := v }) (optional "" text)),
    ("lit", field (·.lit) (fun e v => { e with lit := v }) any),
    ("type", field (·.type) (fun e v => { e with type := v }) text),
    ("fn", field (·.fn) (fun e v => { e with fn := v }) (optional "" text)),
    ("class", field (·.classId) (fun e v => { e with classId := v }) (optional "" text))]

/-- An argument of a call. -/
structure BindingEntry where
  name : String := ""
  value : Option Json := none

/-- Shape of an argument. Fields it does not know are skipped. -/
def BindingEntry.shape : Shape BindingEntry :=
  record false [
    ("name", field (·.name) (fun e v => { e with name := v }) text),
    ("value", field (·.value) (fun e v => { e with value := v }) any)]

end Datapack.Document
