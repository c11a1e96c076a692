import Datapack.Compilation.Basic

/-!
# Summaries

The overview of a finished compilation: what ran and which functions the pack has.
-/

namespace Datapack.Compilation

open Text

variable {σ κ : Type} [Dependency.Bucket κ]

/-- The items of a list without repetitions, each at its first place. -/
def distinct (names : List String) : List String :=
  names.foldl (fun seen n => if n ∈ seen then seen else seen ++ [n]) []

def passLines (c : Compilation σ κ) : String :=
  match c.optimization with
  | none => ""
  | some o =>
    "Passes (" ++ c.config.level.text ++ ", " ++ toString o.iteration ++ " iterations): "
      ++ ", ".intercalate (distinct o.executed) ++ "\n"

def functionLine (g : Generation) (n : Nat) : String :=
  " - " ++ g.regions.functionRef g.ns n ++ " (" ++ toString (g.regions.at? n).commands.length
    ++ " commands)\n"

def hookLine (tag : String × List String) : String :=
  "#" ++ tag.1 ++ ": " ++ ", ".intercalate tag.2 ++ "\n"

def packLines (c : Compilation σ κ) : String :=
  match c.generation with
  | none => ""
  | some g =>
    let functions := g.regions.nonEmpty
    "\nFunctions: " ++ toString functions.length ++ "\n"
      ++ String.join (functions.map (functionLine g)) ++ String.join (g.sortedTags.map hookLine)

/-- The rule above and below the title. -/
def rule : String := String.ofList (List.replicate 39 '═')

def summary (colours : Bool) (c : Compilation σ κ) : String :=
  "\n" ++ String.join ([rule, "        COMPILATION SUMMARY", rule].map (Style.cyan.paintLine colours))
    ++ "Namespace: " ++ c.config.ns ++ "\nTarget: " ++ c.config.version.text ++ " (" ++ c.generator
    ++ ")\nStage: " ++ c.stage.name ++ "\nInstructions: " ++ toString c.program.code.length ++ "\n"
    ++ c.passLines ++ c.packLines

end Datapack.Compilation
