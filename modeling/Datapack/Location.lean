/-!
# Source locations

The span of a source file an instruction was lowered from. Locations are only reported: they play
no part in what an instruction means.
-/

namespace Datapack

/-- A line and a column, both counted from one. -/
structure Position where
  line : Int
  column : Int
  deriving DecidableEq, Repr, Inhabited

/-- A span of a source file. -/
structure Location where
  file : String
  start : Position
  stop : Position
  deriving DecidableEq, Repr, Inhabited

namespace Location

def point (file : String) (line column : Int) : Location :=
  ⟨file, ⟨line, column⟩, ⟨line, column⟩⟩

/-- A location is usable when its first line is positive. -/
def isValid (l : Location) : Bool :=
  0 < l.start.line

/-- Whether a position lies in the span, both ends included. -/
def contains (l : Location) (p : Position) : Bool :=
  l.isValid
    && !(p.line < l.start.line || (l.start.line = p.line && p.column < l.start.column))
    && !(l.stop.line < p.line || (l.stop.line = p.line && l.stop.column < p.column))

/-- `file:line:column`, without the file when it has no name. -/
def text (l : Location) : String :=
  if l.isValid then
    let point := toString l.start.line ++ ":" ++ toString l.start.column
    if l.file = "" then point else l.file ++ ":" ++ point
  else "location(unknown)"

def describe : Option Location → String
  | some l => l.text
  | none => "location(unknown)"

end Location

end Datapack
