import Datapack.Text.Quote

/-!
# Optimization levels
-/

namespace Datapack.Config

/-- How much a program is optimized. The levels from zero to three are defined. -/
structure OptLevel where
  rank : Int
  deriving DecidableEq, Repr, Inhabited

namespace OptLevel

/-- No optimization. -/
abbrev o0 : OptLevel := ⟨0⟩

/-- One round of the safe passes. -/
abbrev o1 : OptLevel := ⟨1⟩

/-- One round of all passes. -/
abbrev o2 : OptLevel := ⟨2⟩

/-- All passes until nothing changes. -/
abbrev o3 : OptLevel := ⟨3⟩

def text (l : OptLevel) : String := "O" ++ toString l.rank

/-- A text without one leading character. -/
def dropLeading (c : Char) : List Char → List Char
  | d :: ds => if d = c then ds else d :: ds
  | [] => []

/-- The level a text spells: a digit, behind an optional hyphen and letter. A text that spells none is
given back without them. -/
def ofString (s : String) : Except String OptLevel :=
  let s := String.ofList (dropLeading 'o' (dropLeading 'O' (dropLeading '-' s.toList)))
  match s with
  | "0" => .ok o0
  | "1" => .ok o1
  | "2" => .ok o2
  | "3" => .ok o3
  | _ => .error s

def unknownMessage (s : String) : String := "unknown optimization level " ++ Text.quoted s

/-- How often the passes may be repeated. -/
def maxIterations (l : OptLevel) : Nat :=
  if l = o0 then 0 else if l = o3 then 10 else 1

end OptLevel

end Datapack.Config
