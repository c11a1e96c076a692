import Datapack.Text.Quote

/-!
# Primitive types and literals

A literal is an integer of 64 bits, a string, a boolean or null. Booleans have an integer view, and
integers and booleans have a truth value.
-/

namespace Datapack.Ir

inductive DataType where
  | int
  | string
  | boolean
  | null
  deriving DecidableEq, Repr, Inhabited

namespace DataType

/-- Every primitive type, in the order of its code. -/
def all : List DataType := [int, string, boolean, null]

/-- The code of a type, its place in `all`. -/
def code : DataType → Nat
  | int => 0
  | string => 1
  | boolean => 2
  | null => 3

def name : DataType → String
  | int => "int"
  | string => "string"
  | boolean => "boolean"
  | null => "null"

def ofCode? (n : Nat) : Option DataType := all[n]?

def spellings : DataType → List String
  | int => ["int", "INT"]
  | string => ["string", "STRING", "str"]
  | boolean => ["boolean", "BOOLEAN", "bool"]
  | null => ["null", "NULL", "void"]

def ofName? (s : String) : Option DataType :=
  all.find? fun d => s ∈ d.spellings

/-- Whether values of the type are held as scores. -/
def isIntegral : DataType → Bool
  | int => true
  | boolean => true
  | _ => false

end DataType

/-- An immutable primitive value. -/
inductive Literal where
  | int (n : Int64)
  | str (s : String)
  | bool (b : Bool)
  | null
  deriving DecidableEq, Inhabited

namespace Literal

def type : Literal → DataType
  | int _ => .int
  | str _ => .string
  | bool _ => .boolean
  | null => .null

/-- The integer view of integers and booleans. -/
def int? : Literal → Option Int64
  | int n => some n
  | bool b => some (if b then 1 else 0)
  | _ => none

def str? : Literal → Option String
  | str s => some s
  | _ => none

/-- The truth value a conditional jump sees. -/
def truthy? : Literal → Option Bool
  | bool b => some b
  | int n => some (n != 0)
  | _ => none

def boolText (b : Bool) : String := if b then "true" else "false"

def text : Literal → String
  | int n => toString n.toInt
  | str s => Text.quoted s
  | bool b => boolText b
  | null => "null"

end Literal

end Datapack.Ir
