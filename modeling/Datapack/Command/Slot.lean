import Datapack.Ir.Symbol

/-!
# Slots

Where values live at run time. Integers and booleans are scores, named by a holder and an objective;
everything else is data, named by a storage and a path of keys in it.
-/

namespace Datapack.Command

open Ir

/-- The space a value lives in. -/
inductive Space where
  | score | storage
  deriving DecidableEq, Repr, Inhabited

def Space.name : Space → String
  | score => "score"
  | storage => "storage"

def Space.ofType : Ty → Space
  | .data d => if d.isIntegral then score else storage
  | .object _ => storage

/-- The address of a value. -/
structure Slot where
  /-- The holder of a score, or the path of keys in a storage. -/
  path : String
  /-- The objective of a score, or the storage. -/
  target : String
  space : Space
  deriving DecidableEq, Repr, Inhabited

namespace Slot

def score (holder objective : String) : Slot := ⟨holder, objective, .score⟩

def storage (id path : String) : Slot := ⟨path, id, .storage⟩

/-- The score without a name stands for no slot at all. -/
def nowhere : Slot := score "" ""

def child (s : Slot) (key : String) : Slot := { s with path := s.path ++ "." ++ key }

def text (s : Slot) : String :=
  match s.space with
  | .score => s.path ++ " " ++ s.target
  | .storage => "storage " ++ s.target ++ " " ++ s.path

end Slot

/-- What an operation reads: a literal, or the value of a slot. -/
inductive Operand where
  | literal (l : Literal)
  | slot (s : Slot)
  deriving DecidableEq, Inhabited

namespace Operand

def literal? : Operand → Option Literal
  | literal l => some l
  | slot _ => none

def aliases (o : Operand) (s : Slot) : Bool := o = slot s

def text : Operand → String
  | literal l => l.text
  | slot s => s.text

end Operand

/-- A text between double quotes, in which quotes and backslashes are escaped. -/
def quoteChars : List Char → List Char
  | [] => []
  | c :: cs => if c = '"' || c = '\\' then '\\' :: c :: quoteChars cs else c :: quoteChars cs

def dataText (s : String) : String := String.ofList ('"' :: quoteChars s.toList ++ ['"'])

def dataForm : Literal → String
  | .str s => dataText s
  | .bool b => if b then "1b" else "0b"
  | .null => "\x7b\x7d"
  | .int n => toString n.toInt

def argumentForm : Literal → String
  | .str s => s
  | .bool b => Literal.boolText b
  | .null => ""
  | .int n => toString n.toInt

end Datapack.Command
