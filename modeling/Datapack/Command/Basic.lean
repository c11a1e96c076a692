import Datapack.Command.Slot
import Datapack.Json.Writer

/-!
# Commands

The commands a pack is made of, as far as the compiler builds them itself; any other command is carried
as its text. `Command.text` is the line that stands in a function file.
-/

namespace Datapack

namespace Command

open Ir

inductive ScoreOp where
  | assign | add | sub | mul | div | mod | min | max
  deriving DecidableEq, Repr

def ScoreOp.text : ScoreOp → String
  | assign => "="
  | add => "+="
  | sub => "-="
  | mul => "*="
  | div => "/="
  | mod => "%="
  | min => "<"
  | max => ">"

inductive Range where
  | exactly (n : Int64)
  | atMost (n : Int64)
  | atLeast (n : Int64)
  /-- A range given by its text. -/
  | spelled (text : String)
  deriving DecidableEq

def Range.text : Range → String
  | exactly n => toString n.toInt
  | atMost n => ".." ++ toString n.toInt
  | atLeast n => toString n.toInt ++ ".."
  | spelled text => text

/-- How two scores are compared. -/
inductive Relation where
  | eq | lt | le | gt | ge
  /-- A comparison without a meaning. -/
  | undefined
  deriving DecidableEq, Repr

def Relation.text : Relation → String
  | eq => "="
  | lt => "<"
  | le => "<="
  | gt => ">"
  | ge => ">="
  | undefined => ""

/-- A condition on scores. -/
inductive Test where
  | inRange (s : Slot) (r : Range)
  | related (s : Slot) (rel : Relation) (t : Slot)
  deriving DecidableEq

def Test.text : Test → String
  | inRange s r => "score " ++ s.path ++ " " ++ s.target ++ " matches " ++ r.text
  | related s rel t =>
    "score " ++ s.path ++ " " ++ s.target ++ " " ++ rel.text ++ " " ++ t.path ++ " " ++ t.target

/-- Whether a condition has to hold or to fail. -/
inductive Polarity where
  | holds | fails
  deriving DecidableEq, Repr

def Polarity.text : Polarity → String
  | holds => "if"
  | fails => "unless"

inductive Component where
  | text (s : String)
  | value (s : Slot)
  deriving DecidableEq

def Component.tree : Component → Json.Tree
  | text s => .record [("text", .text s)]
  | value s =>
    match s.space with
    | .score =>
      .record [("score", .record [("name", .text s.path), ("objective", .text s.target)])]
    | .storage => .record [("nbt", .text s.path), ("storage", .text s.target)]

end Command

open Command

inductive Command where
  /-- Give a score a number. -/
  | setScore (s : Slot) (n : Int64)
  /-- Add a number to a score. -/
  | addScore (s : Slot) (n : Int64)
  /-- Subtract a number from a score. -/
  | removeScore (s : Slot) (n : Int64)
  /-- Apply an operation to a score. -/
  | operate (dst : Slot) (op : ScoreOp) (src : Slot)
  /-- Copy data. -/
  | copyData (dst src : Slot)
  /-- Store a literal as data. -/
  | setData (dst : Slot) (l : Ir.Literal)
  /-- Store a score as data. -/
  | scoreToData (dst src : Slot)
  /-- Read data as a score. -/
  | dataToScore (dst src : Slot)
  /-- Store one or zero for the outcome of a condition. -/
  | storeTest (dst : Slot) (p : Polarity) (t : Test)
  /-- Overwrite data and store one if that changed it, else zero. -/
  | storeChange (dst buffer : Slot) (src : Command.Operand)
  /-- Run a command when the score lies in a range, or when it does not. -/
  | guarded (p : Polarity) (s : Slot) (r : Range) (c : Command)
  /-- Run a function. -/
  | call (function : String)
  /-- Run a macro function on a compound. -/
  | callWith (function : String) (args : Slot)
  /-- Leave the function with a number. -/
  | ret (n : Nat)
  /-- Leave the function with what a command gives. -/
  | returnRun (c : Command)
  /-- Remove data. -/
  | removeData (s : Slot)
  /-- Make an objective. -/
  | addObjective (name : String)
  /-- Show a message to players. -/
  | tell (selector : String) (parts : List Component)
  /-- A line that does nothing. -/
  | comment (text : String)
  /-- A line whose placeholders are filled when it runs. -/
  | template (line : String)
  /-- Any other command. -/
  | line (text : String)
  deriving DecidableEq

namespace Command

def text : Command → String
  | setScore s n => "scoreboard players set " ++ s.path ++ " " ++ s.target ++ " " ++ toString n.toInt
  | addScore s n => "scoreboard players add " ++ s.path ++ " " ++ s.target ++ " " ++ toString n.toInt
  | removeScore s n =>
    "scoreboard players remove " ++ s.path ++ " " ++ s.target ++ " " ++ toString n.toInt
  | operate dst op src =>
    "scoreboard players operation " ++ dst.path ++ " " ++ dst.target ++ " " ++ op.text ++ " "
      ++ src.path ++ " " ++ src.target
  | copyData dst src =>
    "data modify storage " ++ dst.target ++ " " ++ dst.path ++ " set from storage " ++ src.target
      ++ " " ++ src.path
  | setData dst l =>
    "data modify storage " ++ dst.target ++ " " ++ dst.path ++ " set value " ++ dataForm l
  | scoreToData dst src =>
    "execute store result storage " ++ dst.target ++ " " ++ dst.path
      ++ " int 1 run scoreboard players get " ++ src.path ++ " " ++ src.target
  | dataToScore dst src =>
    "execute store result score " ++ dst.path ++ " " ++ dst.target ++ " run data get storage "
      ++ src.target ++ " " ++ src.path
  | storeTest dst p t =>
    "execute store success score " ++ dst.path ++ " " ++ dst.target ++ " " ++ p.text ++ " " ++ t.text
  | storeChange dst buffer src =>
    "execute store success score " ++ dst.path ++ " " ++ dst.target ++ " run data modify storage "
      ++ buffer.target ++ " " ++ buffer.path ++ " set "
      ++ match src with
        | .literal l => "value " ++ dataForm l
        | .slot s => "from " ++ s.text
  | guarded p s r c =>
    "execute " ++ p.text ++ " score " ++ s.path ++ " " ++ s.target ++ " matches " ++ r.text ++ " run "
      ++ c.text
  | call function => "function " ++ function
  | callWith function args =>
    "function " ++ function ++ " with storage " ++ args.target ++ " " ++ args.path
  | ret n => "return " ++ toString n
  | returnRun c => "return run " ++ c.text
  | removeData s => "data remove storage " ++ s.target ++ " " ++ s.path
  | addObjective name => "scoreboard objectives add " ++ name ++ " dummy"
  | tell selector parts =>
    let parts := if parts.isEmpty then [.text ""] else parts
    "tellraw " ++ selector ++ " " ++ (Json.Tree.list (parts.map Component.tree)).compact
  | comment content => "# " ++ content
  | template macroLine => "$" ++ macroLine
  | line content => content

end Command

end Datapack
