import Datapack.Generation.Call
import Datapack.Generation.Processing

/-!
# Generating a pack

The generator for Java edition packs. It needs macro functions and the return command, and since the
slots of a function exist once it does not support recursion.
-/

namespace Datapack.Generation

open Ir Command Config

def processors : Processors :=
  { handlers :=
      [(.scopeBegin, scopeBegin), (.scopeEnd, scopeEnd), (.jump, jump), (.condJump, condJump),
        (.breakLoop, breakLoop), (.continueLoop, continueLoop), (.ret, ret),
        (.function, functionDef), (.classDef, fun _ => pure ()), (.declare, declare),
        (.assign, assignment), (.binaryOp, binary), (.compare, comparison), (.unaryOp, unary),
        (.cast, conversion), (.newObject, newObject), (.getProperty, getProperty),
        (.setProperty, setProperty), (.call, call), (.callMethod, callMethod)] }

/-- The path of the function that fills the literal pool. -/
def initPath : String := engineDirectory ++ "/init"

/-- Add the compiler's own functions and fill the hooks: the pool is filled first, then the global
code runs, then the functions that asked for it. -/
def finish (g : Generation) : Generation :=
  let g := g.addHelper initPath (.addObjective g.ns :: g.pool.initCommands)
  let g := g.tag "load" (g.helperRef initPath)
  let g :=
    if (g.regions.at? 0).commands.isEmpty then g
    else g.tag "load" (g.regions.functionRef g.ns 0)
  let g := g.onLoad.foldl (fun g ref => g.tag "load" ref) g
  g.onTick.foldl (fun g ref => g.tag "tick" ref) g

def lower (g : Generation) : Generation × Option ProcessingError :=
  match process processors g with
  | (g, none) => (finish g, none)
  | (g, some e) => (g, some e)

structure Generator where
  name : String
  supports : Config → Bool
  generate : Generation → Generation × Option ProcessingError

/-- The oldest version with macro functions and the return command. -/
def oldestJava : Version := ⟨1, 20, 3, .java⟩

def javaEdition : Generator :=
  { name := "java"
    supports := fun c =>
      c.version.edition = .java && c.version.atLeast oldestJava && !c.recursion
    generate := lower }

def generators : List Generator := [javaEdition]

inductive SelectError where
  | unknownName (name : String)
  | unsupportedVersion (v : Version)

def SelectError.message (e : SelectError) : String :=
  "no back end supports this configuration: " ++
    match e with
    | unknownName name => "unknown back end " ++ Text.quoted name
    | unsupportedVersion v => "minecraft " ++ v.text

/-- The generator a configuration names, or the first that supports it. -/
def select (c : Config) : Except SelectError Generator :=
  if c.backend ≠ "" then
    match generators.find? (·.name = c.backend) with
    | some b => .ok b
    | none => .error (.unknownName c.backend)
  else
    match generators.find? (·.supports c) with
    | some b => .ok b
    | none => .error (.unsupportedVersion c.version)

end Datapack.Generation
