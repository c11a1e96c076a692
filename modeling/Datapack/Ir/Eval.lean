import Datapack.Ir.Instruction

/-!
# Compile-time evaluation

The value of an operation over literals, where it has one. Integers are 64-bit words: sums,
differences and products wrap, division and remainder round toward negative infinity, and shifts take
distances below 64.
-/

namespace Datapack.Ir

/-- The quotient rounded toward negative infinity. -/
def floorDiv (a b : Int64) : Int64 :=
  let q := a / b
  if a % b ≠ 0 ∧ (decide (a < 0) ≠ decide (b < 0)) then q - 1 else q

/-- The remainder that has the sign of the divisor. -/
def floorMod (a b : Int64) : Int64 :=
  let m := a % b
  if m ≠ 0 ∧ (decide (m < 0) ≠ decide (b < 0)) then m + b else m

/-- A shift distance must be below the width of a word. -/
def shiftDistance? (b : Int64) : Option Int64 :=
  if b < 0 ∨ 64 ≤ b then none else some b

def evalInt (op : BinaryOperator) (a b : Int64) : Option Int64 :=
  match op with
  | .add => some (a + b)
  | .sub => some (a - b)
  | .mul => some (a * b)
  | .div => if b = 0 then none else some (floorDiv a b)
  | .mod => if b = 0 then none else some (floorMod a b)
  | .min => some (if a ≤ b then a else b)
  | .max => some (if a ≤ b then b else a)
  | .bitAnd => some (a &&& b)
  | .bitOr => some (a ||| b)
  | .bitXor => some (a ^^^ b)
  | .shl => (shiftDistance? b).map fun k => a <<< k
  | .shr => (shiftDistance? b).map fun k => a >>> k
  | .undefined => none

/-- The value of a binary operator on literals for a result of the given type. Strings can only be
added to strings; a boolean result is the truth value of the integer. -/
def evalBinary (op : BinaryOperator) (l r : Literal) (result : Ty) : Option Literal :=
  match l.str? with
  | some a =>
    match r.str? with
    | some b => if op = .add then some (.str (a ++ b)) else none
    | none => none
  | none => do
    let a ← l.int?
    let b ← r.int?
    let n ← evalInt op a b
    return if result = .data .boolean then .bool (n != 0) else .int n

/-- Whether a comparison holds, given how its left side stands to its right side. -/
def holds (op : CompareOperator) (o : Ordering) : Option Bool :=
  match op with
  | .eq => some (o = .eq)
  | .ne => some (o ≠ .eq)
  | .lt => some (o = .lt)
  | .le => some (o ≠ .gt)
  | .gt => some (o = .gt)
  | .ge => some (o ≠ .lt)
  | .undefined => none

def orderInt (a b : Int64) : Ordering :=
  if a < b then .lt else if b < a then .gt else .eq

/-- The value of a comparison of literals. Null and strings can only be compared for equality, and
null equals only null. -/
def evalCompare (op : CompareOperator) (l r : Literal) : Option Literal :=
  let order : Option Ordering :=
    if l.type = .null ∨ r.type = .null then
      if op.isEquality then some (if l.type = r.type then .eq else .gt) else none
    else if l.type = .string ∨ r.type = .string then
      match l.str?, r.str? with
      | some a, some b => if op.isEquality then some (if a = b then .eq else .gt) else none
      | _, _ => none
    else
      match l.int?, r.int? with
      | some a, some b => some (orderInt a b)
      | _, _ => none
  (order.bind (holds op)).map .bool

def evalUnary (op : UnaryOperator) (x : Literal) : Option Literal :=
  match op with
  | .neg =>
    match x with
    | .int n => some (.int (-n))
    | _ => none
  | .not => x.truthy?.map fun t => .bool !t
  | .bitNot => x.int?.map fun n => .int (~~~n)
  | .undefined => none

/-- The value of a cast of a literal: to its own type, from a boolean to an integer, or from an integer
to its decimal text. -/
def evalCast (target : DataType) (x : Literal) : Option Literal :=
  if x.type = target then some x
  else
    match target, x with
    | .int, .bool b => some (.int (if b then 1 else 0))
    | .string, .int n => some (.str (toString n.toInt))
    | _, _ => none

/-- The value of an instruction all of whose operands are literals. -/
def evaluate (ins : Instruction) : Option Literal :=
  match ins.op with
  | .binaryOp => do
    let l ← literalOf (ins.refAt 2)
    let r ← literalOf (ins.refAt 3)
    evalBinary ins.binaryOperator l r (typeOf (ins.refAt 0))
  | .compare => do
    let l ← literalOf (ins.refAt 2)
    let r ← literalOf (ins.refAt 3)
    evalCompare ins.compareOperator l r
  | .unaryOp => do
    let x ← literalOf (ins.refAt 2)
    evalUnary ins.unaryOperator x
  | .cast => do
    let x ← literalOf (ins.refAt 2)
    evalCast ins.castTarget x
  | _ => none

end Datapack.Ir
