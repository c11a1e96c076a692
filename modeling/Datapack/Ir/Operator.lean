/-!
# Operators

The operators of unary, binary and comparison instructions. Each family has one member standing for
operator codes without a meaning, so that a malformed instruction can still be described.
-/

namespace Datapack.Ir

inductive BinaryOperator where
  | add | sub | mul | div | mod | min | max | bitAnd | bitOr | bitXor | shl | shr
  | undefined
  deriving DecidableEq, Repr

namespace BinaryOperator

instance : Inhabited BinaryOperator := ⟨add⟩

def all : List BinaryOperator :=
  [add, sub, mul, div, mod, min, max, bitAnd, bitOr, bitXor, shl, shr]

def name : BinaryOperator → String
  | add => "ADD"
  | sub => "SUB"
  | mul => "MUL"
  | div => "DIV"
  | mod => "MOD"
  | min => "MIN"
  | max => "MAX"
  | bitAnd => "BIT_AND"
  | bitOr => "BIT_OR"
  | bitXor => "BIT_XOR"
  | shl => "SHL"
  | shr => "SHR"
  | undefined => "BINARY(?)"

def ofName? (s : String) : Option BinaryOperator := all.find? (·.name = s)

def ofCode (n : Nat) : BinaryOperator := all[n]?.getD undefined

def code (op : BinaryOperator) : Nat := all.idxOf op

/-- Whether the operands may be exchanged. -/
def isCommutative : BinaryOperator → Bool
  | add => true
  | mul => true
  | min => true
  | max => true
  | _ => false

end BinaryOperator

inductive CompareOperator where
  | eq | ne | lt | le | gt | ge
  | undefined
  deriving DecidableEq, Repr

namespace CompareOperator

instance : Inhabited CompareOperator := ⟨eq⟩

/-- The defined comparisons, in the order of their codes. -/
def all : List CompareOperator := [eq, ne, lt, le, gt, ge]

def name : CompareOperator → String
  | eq => "EQ"
  | ne => "NE"
  | lt => "LT"
  | le => "LE"
  | gt => "GT"
  | ge => "GE"
  | undefined => "COMPARE(?)"

def ofName? (s : String) : Option CompareOperator := all.find? (·.name = s)

def ofCode (n : Nat) : CompareOperator := all[n]?.getD undefined

def code (op : CompareOperator) : Nat := all.idxOf op

def negate : CompareOperator → CompareOperator
  | eq => ne
  | ne => eq
  | lt => ge
  | le => gt
  | gt => le
  | ge => lt
  | undefined => lt

def swap : CompareOperator → CompareOperator
  | eq => eq
  | ne => ne
  | lt => gt
  | le => ge
  | gt => lt
  | ge => le
  | undefined => eq

/-- Whether a comparison only asks for equality. -/
def isEquality : CompareOperator → Bool
  | eq => true
  | ne => true
  | _ => false

end CompareOperator

inductive UnaryOperator where
  | neg | not | bitNot
  | undefined
  deriving DecidableEq, Repr

namespace UnaryOperator

instance : Inhabited UnaryOperator := ⟨neg⟩

def all : List UnaryOperator := [neg, not, bitNot]

def name : UnaryOperator → String
  | neg => "NEG"
  | not => "NOT"
  | bitNot => "BIT_NOT"
  | undefined => "UNARY(?)"

def ofName? (s : String) : Option UnaryOperator := all.find? (·.name = s)

def ofCode (n : Nat) : UnaryOperator := all[n]?.getD undefined

def code (op : UnaryOperator) : Nat := all.idxOf op

end UnaryOperator

end Datapack.Ir
