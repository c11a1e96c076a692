import Datapack.Generation.Control

/-!
# Library functions

Macro functions shipped with the pack. Their inputs are read from a compound, and the result is left in
it. A function is written only when some call uses it.
-/

namespace Datapack.Generation

open Ir Command

/-- A macro function shipped with the pack. -/
structure Library where
  name : String
  params : List String
  /-- The value of the result, with placeholders for the inputs. -/
  result : String

def libraries : List Library :=
  [⟨"concat", ["left", "right"], "$(left)$(right)"⟩, ⟨"int_to_string", ["value"], "$(value)"⟩]

def Library.body (l : Library) (io : Slot) : List Command :=
  [.template ("data modify storage " ++ io.target ++ " " ++ io.path ++ ".result set value \""
    ++ l.result ++ "\"")]

def libraryPath (name : String) : String := engineDirectory ++ "/lib/" ++ name

abbrev Arguments := List (String × Command.Operand)

/-- Put the inputs of a library function into its compound. -/
def stageInputs (l : Library) (io : Slot) (args : Arguments) : Gen (List Command) := do
  let staged ← l.params.mapM fun p => do
    let o ← Gen.orFail ("library " ++ l.name ++ " needs " ++ Text.quoted p) (args.lookup p)
    match assign (io.child p) o with
    | .ok cs => pure cs
    | .error u => throw (.unsupported u)
  return staged.flatten

/-- The commands that call a library function. Without a destination the result is left where it
is; a missing side of a concatenation with a destination is read from nowhere. -/
def callLibrary (name : String) (dst : Slot) (args : Arguments) : Gen (List Command) := do
  let l ← Gen.orFail ("unknown library function " ++ Text.quoted name)
    (libraries.find? (·.name = name))
  let g ← get
  let io := libraryIo g.ns
  let ref := g.helperRef (libraryPath name)
  let commands ←
    if name = "concat" && dst ≠ .nowhere then
      let side (p : String) := (args.lookup p).getD (.slot .nowhere)
      match concat dst (side "left") (side "right") io ref with
      | .ok cs => pure cs
      | .error u => throw (.unsupported u)
    else do
      let staged ← stageInputs l io args
      pure (staged ++ [.callWith ref io]
        ++ if dst = .nowhere then [] else copy dst (io.child "result"))
  Gen.change (·.addHelper (libraryPath name) (l.body io))
  return commands

end Datapack.Generation
