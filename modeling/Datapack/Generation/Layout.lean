import Datapack.Generation.Processing

/-!
# Storage layout

Where the values of a pack live. Scores belong to the objective named after the pack, texts and objects
to its storage of variables; a variable is placed under the path of the region that declares its name.
-/

namespace Datapack.Generation

open Ir Command

/-- The character that stands for a character of a symbol path in holders and data paths. -/
def holderChar (c : Char) : Char :=
  if c.isAlphanum || c = '.' || c = '_' || c = '-' || c = '+' then c
  else if c = '$' then '-' else '_'

def holder (path : String) : String := path.map holderChar

def varsStorage (ns : String) : String := ns ++ ":vars"

/-- The slot of a symbol path for values of a type. -/
def place (ns path : String) (t : Ty) : Slot :=
  match Space.ofType t with
  | .score => .score (holder path) ns
  | .storage => .storage (varsStorage ns) (holder path)

/-- The compound through which library functions take arguments and give results. -/
def libraryIo (ns : String) : Slot := .storage (ns ++ ":lib") "io"

namespace Layout

def registers (g : Generation) : Registers :=
  { constant := g.pool.constant?
    scratch := .score "$r0" g.ns
    buffer := .storage (varsStorage g.ns) "_mcfc.buffer" }

/-- The slot of an exit flag. Its holder starts with a sign that no symbol path has. -/
def flag (g : Generation) (name : String) : Slot := .score name g.ns

def returnSlot (g : Generation) (body : Nat) (t : Ty) : Slot :=
  place g.ns (g.regions.absolutePath body ++ ".return") t

/-- The slot in which the body of a function finds a parameter. -/
def paramSlot (g : Generation) (body : Nat) (p : Parameter) : Slot :=
  place g.ns (g.regions.absolutePath body ++ "." ++ p.name) p.type

/-- The slot of a variable, seen from the innermost region. -/
def slot (g : Generation) (v : Variable) : Slot :=
  let here := place g.ns (g.regions.symbolPath g.current v.name) v.type
  if v.kind = .ret then
    match g.regions.enclosing g.current [.function] with
    | some body => returnSlot g body v.type
    | none => here
  else here

end Layout

def operand (r : Option Reference) : Gen Command.Operand :=
  match r with
  | none => throw (.failed "missing operand")
  | some (.literal l) => pure (.literal l)
  | some r =>
    match r.var? with
    | some v => do return .slot (Layout.slot (← get) v)
    | none => throw (.failed ("cannot read " ++ r.text))

def destination (r : Option Reference) : Gen Slot :=
  match r with
  | none => throw (.failed "missing result")
  | some r =>
    match r.var? with
    | some v => do return Layout.slot (← get) v
    | none => throw (.failed ("cannot write " ++ r.text))

end Datapack.Generation
