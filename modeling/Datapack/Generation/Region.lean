import Datapack.Command.Basic
import Datapack.Ir.ScopeKind
import Datapack.Text.Resource

/-!
# Generated regions

Every lexical region of a program becomes one function of the pack. A region is named by its place in a
list; it carries the places of the regions around it, the commands emitted for it, the variables
declared in it and the exit flags that may be set when it returns.
-/

namespace Datapack.Generation

open Ir

/-- A lexical region with what was generated for it. -/
structure Region where
  name : String
  kind : ScopeKind
  /-- The regions around this one, innermost first. -/
  outer : List Nat := []
  /-- How many earlier siblings have the same name. -/
  occurrence : Nat := 0
  commands : List Command := []
  /-- The declared variables, each name once. -/
  symbols : List (String × Variable) := []
  /-- The exit flags this region may leave set. -/
  flags : List String := []
  deriving Inhabited

namespace Region

/-- The name among the siblings: a repeated name carries a number. -/
def segment (r : Region) : String :=
  if r.occurrence = 0 then r.name else r.name ++ "$" ++ toString r.occurrence

/-- Declare a variable, in place of an earlier one of its name. -/
def declare (r : Region) (v : Variable) : Region :=
  { r with symbols := r.symbols.filter (·.1 ≠ v.name) ++ [(v.name, v)] }

/-- Add commands behind those emitted so far. -/
def emit (r : Region) (cs : List Command) : Region := { r with commands := r.commands ++ cs }

def prepend (r : Region) (cs : List Command) : Region := { r with commands := cs ++ r.commands }

/-- Record that an exit flag may be left set. -/
def mark (r : Region) (flag : String) : Region :=
  if flag ∈ r.flags then r else { r with flags := r.flags ++ [flag] }

end Region

def functionExtension : String := ".mcfunction"

/-- The regions of a program in the order in which they were made; the first is the global one. -/
abbrev Regions := List Region

namespace Regions

def ofRoot (name : String) : Regions := [{ name, kind := .global }]

def at? (rs : Regions) (n : Nat) : Region := rs[n]?.getD default

def parent? (rs : Regions) (n : Nat) : Option Nat := (rs.at? n).outer.head?

/-- The regions directly inside a region, in the order in which they were made. -/
def children (rs : Regions) (n : Nat) : List Nat :=
  (List.range rs.length).filter fun m => rs.parent? m = some n

def addChild (rs : Regions) (parent : Nat) (name : String) (kind : ScopeKind) : Regions :=
  let same := (rs.children parent).countP fun m => (rs.at? m).name = name
  rs ++ [{ name, kind, outer := parent :: (rs.at? parent).outer, occurrence := same }]

def ancestors (rs : Regions) (n : Nat) : List Nat := n :: (rs.at? n).outer

def isAncestor (rs : Regions) (n m : Nat) : Bool := (rs.ancestors m).contains n

/-- The nearest region of one of the given kinds, the region itself included. -/
def enclosing (rs : Regions) (n : Nat) (kinds : List ScopeKind) : Option Nat :=
  (rs.ancestors n).find? fun m => kinds.contains (rs.at? m).kind

/-- The names that lead from the global region to a region. -/
def segments (rs : Regions) (n : Nat) : List String :=
  ((rs.ancestors n).map fun m => (rs.at? m).segment).reverse

/-- The path of a region with dots between its names. -/
def absolutePath (rs : Regions) (n : Nat) : String := ".".intercalate (rs.segments n)

/-- A name as part of a resource path; the sign before a repetition number becomes a hyphen. -/
def resourceSegment (segment : String) : String :=
  Text.resourceName (segment.map fun c => if c = '$' then '-' else c)

def functionPath (rs : Regions) (n : Nat) : String :=
  "/".intercalate ((rs.segments n).map resourceSegment)

def filePath (rs : Regions) (n : Nat) : String := rs.functionPath n ++ functionExtension

def functionRef (rs : Regions) (ns : String) (n : Nat) : String := ns ++ ":" ++ rs.functionPath n

def update (rs : Regions) (n : Nat) (f : Region → Region) : Regions := rs.modify n f

/-- The nearest region around `n` that declares a name, and the variable. -/
def lookup (rs : Regions) (n : Nat) (name : String) : Option (Nat × Variable) :=
  (rs.ancestors n).findSome? fun m => ((rs.at? m).symbols.lookup name).map (m, ·)

/-- The path of a variable: the path of the region that declares its name and the name, or the name
alone. -/
def symbolPath (rs : Regions) (n : Nat) (name : String) : String :=
  match rs.lookup n name with
  | some (m, _) => rs.absolutePath m ++ "." ++ name
  | none => name

/-- A region and the regions inside it, each before what it contains, at most `fuel` levels deep. -/
def walkFrom (rs : Regions) : Nat → Nat → List Nat
  | 0, _ => []
  | fuel + 1, n => n :: (rs.children n).flatMap (walkFrom rs fuel)

/-- A region and the regions inside it, each before what it contains. -/
def walk (rs : Regions) (n : Nat) : List Nat := rs.walkFrom rs.length n

def nonEmpty (rs : Regions) : List Nat := (rs.walk 0).filter fun n => !(rs.at? n).commands.isEmpty

end Regions

end Datapack.Generation
