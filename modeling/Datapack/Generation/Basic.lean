import Datapack.Command.Pool
import Datapack.Command.Template
import Datapack.Config.Basic
import Datapack.Diagnostic.Catalogue
import Datapack.Generation.Region
import Datapack.Ir.Listing
import Datapack.Ir.ScopeTree
import Datapack.Pack.Manifest

/-!
# Generations

The state a generator works on: the regions of the program with the commands emitted so far, the stack
of open regions, and what the pack needs besides them. Every operation is a function on this state;
`Gen` threads it through computations that may fail, and a failure keeps what was emitted before.
-/

namespace Datapack

open Ir Command

namespace Generation

/-- What an exit does to the frames between where it is raised and the region that consumes it. -/
inductive ExitKind where
  | breakLoop | continueLoop | returnFunction
  deriving DecidableEq, Repr

/-- An exit signalled by a flag. -/
structure Exit where
  kind : ExitKind
  /-- The region at which the exit ends. -/
  consumer : Nat
  deriving DecidableEq, Repr

/-- The directory of the functions the compiler writes for itself. -/
def engineDirectory : String := "_mcfc"

end Generation

open Generation

structure Generation where
  config : Config
  program : Program
  tree : ScopeTree
  regions : Regions
  manifest : Pack.Manifest
  pool : Pool
  /-- The bodies of functions. -/
  functions : List (Nat × Function)
  diagnostics : Bag := []
  /-- Function names per lifecycle hook. -/
  tags : List (String × List String) := []
  /-- Functions of the compiler's own, by path. -/
  helpers : List (String × List Command) := []
  /-- The innermost open region. -/
  current : Nat := 0
  /-- The open regions around it, inside out. -/
  stack : List Nat := []
  /-- The index of the instruction at work. -/
  index : Nat := 0
  /-- The number of fresh names given out. -/
  fresh : Nat := 0
  /-- Names of argument compounds. -/
  newId : Nat → String
  /-- The number of argument compounds named. -/
  ids : Nat := 0
  /-- The exits raised so far, by flag. -/
  exits : List (String × Exit) := []
  /-- Regions that clear a flag at their start. -/
  resets : List Nat := []
  /-- Functions to run when the pack is loaded. -/
  onLoad : List String := []
  /-- Functions to run on every tick. -/
  onTick : List String := []

namespace Generation

inductive StartError where
  | unbalanced (fault : ScopeFault)
  /-- A function region follows a definition without a function. -/
  | undefinedFunction

def StartError.message : StartError → String
  | unbalanced fault => fault.message
  | undefinedFunction => "function region without a function"

/-- The regions of a scope tree, below a global region named after the pack. -/
def regionsOf (ns : String) (t : ScopeTree) : Regions :=
  t.inner.foldl
    (fun rs n =>
      let node := t.node n
      rs.addChild (node.parent?.getD 0) node.name node.kind)
    (Regions.ofRoot ns)

def declareParams (rs : Regions) (body : Nat × Function) : Regions :=
  body.2.params.foldl (fun rs p => rs.update body.1 (·.declare p.var)) rs

/-- The bodies of all functions, if every one has its function. -/
def bodies : List (Nat × Option Function) → Option (List (Nat × Function))
  | [] => some []
  | (n, some f) :: rest => (bodies rest).map ((n, f) :: ·)
  | (_, none) :: _ => none

def start (config : Config) (program : Program) (diagnostics : Bag) (newId : Nat → String) :
    Except StartError Generation :=
  match ScopeTree.ofStream program.code with
  | .error fault => .error (.unbalanced fault)
  | .ok tree =>
    match bodies (functionScopes program.code tree) with
    | none => .error .undefinedFunction
    | some functions =>
      let ns := config.ns
      let pool : Pool := { objective := ns ++ ".const", storage := ns ++ ":literals" }
      .ok
        { config, program, tree, functions, diagnostics, newId
          regions := functions.foldl declareParams (regionsOf ns tree)
          manifest := ⟨config.description, config.version, []⟩
          pool := pool.collect program.code }

def ns (g : Generation) : String := g.config.ns

/-- The directory of the pack. -/
def target (g : Generation) : String := g.config.packRoot

/-- Open a region. -/
def push (g : Generation) (n : Nat) : Generation :=
  { g with current := n, stack := g.current :: g.stack }

/-- Close the innermost region; the global one stays open. -/
def pop? (g : Generation) : Option Generation :=
  match g.stack with
  | [] => none
  | n :: stack => some { g with current := n, stack }

def emitAt (g : Generation) (n : Nat) (cs : List Command) : Generation :=
  { g with regions := g.regions.update n (·.emit cs) }

def emit (g : Generation) (cs : List Command) : Generation := g.emitAt g.current cs

def regionAt (g : Generation) (i : Int) : Nat := g.tree.nodeAt i

/-- The region a jump of the instruction at work leads to: the one its name stands for there, or the
only region of that name. -/
def resolve (g : Generation) (name : String) : Option Nat :=
  match g.tree.resolve (g.tree.nodeAt g.index) name with
  | some n => some n
  | none =>
    match g.tree.inner.filter fun n => (g.tree.node n).name = name with
    | [n] => some n
    | _ => none

def bodyOf? (g : Generation) (f : Function) : Option Nat :=
  (g.functions.find? (·.2 = f)).map Prod.fst

def ownerOf? (g : Generation) (n : Nat) : Option Function := g.functions.lookup n

def freshName (g : Generation) (stem : String) : String × Generation :=
  (stem ++ toString (g.fresh + 1), { g with fresh := g.fresh + 1 })

def helperRef (g : Generation) (path : String) : String := g.ns ++ ":" ++ path

/-- Add a function of the compiler's own; the first body of a path stays. -/
def addHelper (g : Generation) (path : String) (body : List Command) : Generation :=
  if g.helpers.any (·.1 = path) then g else { g with helpers := g.helpers ++ [(path, body)] }

def textLe (a b : String) : Bool := !(b < a)

/-- The compiler's own functions in the order of their paths. -/
def sortedHelpers (g : Generation) : List (String × List Command) :=
  g.helpers.mergeSort fun a b => textLe a.1 b.1

def tagged (g : Generation) (hook : String) : List String := (g.tags.lookup hook).getD []

def tag (g : Generation) (hook ref : String) : Generation :=
  if ref ∈ g.tagged hook then g
  else
    { g with tags := g.tags.filter (·.1 ≠ hook) ++ [(hook, g.tagged hook ++ [ref])] }

def sortedTags (g : Generation) : List (String × List String) :=
  g.tags.mergeSort fun a b => textLe a.1 b.1

def report (g : Generation) (d : Diagnostic) : Generation :=
  { g with diagnostics := g.diagnostics ++ [d] }

def text (g : Generation) : String :=
  "GenerationContext\x7bns=" ++ g.ns ++ " scopes=" ++ toString g.regions.length ++ " helpers="
    ++ toString g.helpers.length ++ "\x7d"

end Generation

inductive GenError where
  | unsupported (u : Unsupported)
  | template (e : TemplateError)
  | emptyStack
  | failed (message : String)
  /-- The generator broke down. -/
  | crashed (message : String)

def GenError.message : GenError → String
  | unsupported u => u.message
  | template e => e.message
  | emptyStack => "scope stack is empty"
  | failed message => message
  | crashed message => "processor panicked: " ++ message

/-- Computations on the state of a generation that may fail. -/
abbrev Gen := ExceptT GenError (StateM Generation)

namespace Gen

def view {α : Type} (f : Generation → α) : Gen α := do return f (← get)

def change (f : Generation → Generation) : Gen Unit := modify f

def emit (cs : List Command) : Gen Unit := change (·.emit cs)

/-- Emit the commands of an operation, if it can be expressed. -/
def emitLowered (cs : Lowered) : Gen Unit :=
  match cs with
  | .ok cs => emit cs
  | .error u => throw (.unsupported u)

def orFail {α : Type} (message : String) : Option α → Gen α
  | some a => pure a
  | none => throw (.failed message)

def freshName (stem : String) : Gen String := do
  let (name, g) := (← get).freshName stem
  set g
  return name

def pop : Gen Unit := do
  match (← get).pop? with
  | some g => set g
  | none => throw .emptyStack

end Gen

end Datapack
