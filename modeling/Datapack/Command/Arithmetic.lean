import Datapack.Command.Basic
import Datapack.Ir.Eval

/-!
# Copying and computing

The commands that copy a value between slots, store a literal and compute an operation. Operations over
two literals are evaluated here and become a single store. Scores are computed in place; an operand
that is no score is brought into a scratch register first.
-/

namespace Datapack.Command

open Ir

/-- What the target cannot express. -/
inductive Unsupported where
  | binaryLiterals (l : Operand) (op : BinaryOperator) (r : Operand)
  | compareLiterals (l : Operand) (op : CompareOperator) (r : Operand)
  | unaryLiteral (op : UnaryOperator) (x : Operand)
  | binaryIntoStorage (op : BinaryOperator)
  | unaryIntoStorage (op : UnaryOperator)
  | distance (op : BinaryOperator)
  | onScores (op : BinaryOperator)
  | onStored (op : CompareOperator)
  | operand (type : DataType)
  | literalInScore (type : DataType)
  | castLiteral (l : Literal) (target : DataType)
  | castString (target : DataType)
  /-- Any other, given by its wording. -/
  | other (text : String)

def Unsupported.message (u : Unsupported) : String :=
  "unsupported operation: " ++
    match u with
    | binaryLiterals l op r => l.text ++ " " ++ op.name ++ " " ++ r.text
    | compareLiterals l op r => l.text ++ " " ++ op.name ++ " " ++ r.text
    | unaryLiteral op x => op.name ++ " " ++ x.text
    | binaryIntoStorage op => op.name ++ " into storage"
    | unaryIntoStorage op => op.name ++ " into storage"
    | distance op => op.name ++ " by a non-constant distance"
    | onScores op => op.name ++ " on scores"
    | onStored op => op.name ++ " on stored values"
    | operand type => type.name ++ " operand"
    | literalInScore type => type.name ++ " literal in a score"
    | castLiteral l target => "cast " ++ l.text ++ " to " ++ target.name
    | castString target => "cast STRING to " ++ target.name ++ " at run time"
    | other text => text

/-- What computing needs besides its operands. -/
structure Registers where
  /-- The score that holds a constant, if there is one. -/
  constant : Int64 → Option Slot
  /-- A score free for use. -/
  scratch : Slot
  /-- Data free for use. -/
  buffer : Slot

/-- The commands of an operation, or why there are none. -/
abbrev Lowered := Except Unsupported (List Command)

def copy (dst src : Slot) : List Command :=
  if dst = src then []
  else
    match dst.space, src.space with
    | .score, .score => [.operate dst .assign src]
    | .storage, .storage => [.copyData dst src]
    | .storage, .score => [.scoreToData dst src]
    | .score, .storage => [.dataToScore dst src]

def store (dst : Slot) (l : Literal) : Lowered :=
  match dst.space with
  | .storage => .ok [.setData dst l]
  | .score =>
    match l.int? with
    | some n => .ok [.setScore dst n]
    | none => .error (.literalInScore l.type)

def assign (dst : Slot) : Operand → Lowered
  | .literal l => store dst l
  | .slot s => .ok (copy dst s)

/-- A score that holds an operand, and the commands that bring it there. -/
def asScore (env : Registers) : Operand → Except Unsupported (Slot × List Command)
  | .literal l =>
    match l.int? with
    | none => .error (.operand l.type)
    | some n =>
      match env.constant n with
      | some s => .ok (s, [])
      | none => .ok (env.scratch, [.setScore env.scratch n])
  | .slot s =>
    match s.space with
    | .score => .ok (s, [])
    | .storage => .ok (env.scratch, copy env.scratch s)

/-- The distance of a shift that can be expressed: a literal below 31. -/
def distance? (r : Operand) : Option Int64 :=
  (r.literal?.bind Literal.int?).filter fun k => 0 ≤ k && k < 31

/-- A shift as a product or a quotient with a power of two; other operations are left as they are. -/
def unshift (op : BinaryOperator) (r : Operand) :
    Except Unsupported (BinaryOperator × Operand) :=
  let shifted (as : BinaryOperator) :=
    match distance? r with
    | some k => .ok (as, .literal (.int ((1 : Int64) <<< k)))
    | none => .error (.distance op)
  match op with
  | .shl => shifted .mul
  | .shr => shifted .div
  | _ => .ok (op, r)

/-- The operation on scores behind an operator. -/
def scoreOp? : BinaryOperator → Option ScoreOp
  | .add => some .add
  | .sub => some .sub
  | .mul => some .mul
  | .div => some .div
  | .mod => some .mod
  | .min => some .min
  | .max => some .max
  | _ => none

/-- Operands such that the right one is not the destination, unless both are: a commutative operation
exchanges its operands, another one saves the right operand first. -/
def untangle (env : Registers) (dst : Slot) (op : BinaryOperator) (l r : Operand) :
    List Command × Operand × Operand :=
  if r.aliases dst && !l.aliases dst then
    if op.isCommutative then ([], r, l)
    else (copy env.scratch dst, l, .slot env.scratch)
  else ([], l, r)

def addNumber (dst : Slot) (n : Int64) : Command :=
  if n < 0 then .removeScore dst (-n) else .addScore dst n

def applyTo (env : Registers) (dst : Slot) (op : BinaryOperator) (sop : ScoreOp) (r : Operand) :
    Lowered :=
  match r, op with
  | .literal l, .add =>
    match l.int? with
    | some n => .ok [addNumber dst n]
    | none => .error (.operand l.type)
  | .literal l, .sub =>
    match l.int? with
    | some n => .ok [addNumber dst (-n)]
    | none => .error (.operand l.type)
  | r, _ => do
    let (s, staging) ← asScore env r
    return staging ++ [.operate dst sop s]

def binaryOp (env : Registers) (dst : Slot) (op : BinaryOperator) (l r : Operand) : Lowered :=
  match l, r with
  | .literal a, .literal b =>
    match evalBinary op a b (.data .int) with
    | some v => store dst v
    | none => .error (.binaryLiterals l op r)
  | _, _ =>
    if dst.space = .storage then .error (.binaryIntoStorage op)
    else do
      let (op, r) ← unshift op r
      match scoreOp? op with
      | none => .error (.onScores op)
      | some sop =>
        let (saving, l, r) := untangle env dst op l r
        let first ← assign dst l
        let rest ← applyTo env dst op sop r
        return saving ++ first ++ rest

/-- Whether an operand cannot be a score. -/
def isStored : Operand → Bool
  | .literal l => l.type = .string || l.type = .null
  | .slot s => s.space = .storage

/-- Compare two values of which one is data: overwriting the buffer changes it exactly when the values
differ. -/
def compareStored (env : Registers) (dst : Slot) (op : CompareOperator) (l r : Operand) : Lowered :=
  if op.isEquality then do
    let first ← assign env.buffer l
    let negation : List Command :=
      if op = .eq then [.storeTest dst .holds (.inRange dst (.exactly 0))] else []
    return first ++ [.storeChange dst env.buffer r] ++ negation
  else .error (.onStored op)

def rangeOf (op : CompareOperator) (n : Int64) : Range :=
  match op with
  | .eq | .ne => .exactly n
  | .lt => .atMost (n - 1)
  | .le => .atMost n
  | .gt => .atLeast (n + 1)
  | .ge => .atLeast n
  | .undefined => .spelled ""

def relationOf : CompareOperator → Relation
  | .eq | .ne => .eq
  | .lt => .lt
  | .le => .le
  | .gt => .gt
  | .ge => .ge
  | .undefined => .undefined

/-- Compare a value with one that is not data. -/
def compareScore (env : Registers) (dst : Slot) (op : CompareOperator) (l r : Operand) : Lowered := do
  let (s, staging) ← asScore env l
  let polarity := if op = .ne then Polarity.fails else .holds
  let test :=
    match r with
    | .literal v => Test.inRange s (rangeOf op (v.int?.getD 0))
    | .slot t => .related s (relationOf op) t
  return staging ++ [.storeTest dst polarity test]

/-- Store one if a comparison holds and zero otherwise. -/
def compare (env : Registers) (dst : Slot) (op : CompareOperator) (l r : Operand) : Lowered :=
  match l, r with
  | .literal a, .literal b =>
    match evalCompare op a b with
    | some v => store dst v
    | none => .error (.compareLiterals l op r)
  | _, _ =>
    if isStored l || isStored r then compareStored env dst op l r
    else
      match l with
      | .literal _ => compareScore env dst op.swap r l
      | .slot _ => compareScore env dst op l r

/-- Compute a unary operation: negation is zero less the value, logical negation one less the value,
and the complement is the negation less one. -/
def unaryOp (env : Registers) (dst : Slot) (op : UnaryOperator) : Operand → Lowered
  | .literal l =>
    match evalUnary op l with
    | some v => store dst v
    | none => .error (.unaryLiteral op (.literal l))
  | .slot s =>
    if dst.space = .storage then .error (.unaryIntoStorage op)
    else
      let staged := s = dst || s.space = .storage
      let x := if staged then env.scratch else s
      .ok ((if staged then copy env.scratch s else [])
        ++ [.setScore dst (if op = .not then 1 else 0), .operate dst .sub x]
        ++ if op = .bitNot then [.removeScore dst 1] else [])

/-- Join two texts: both are put into the inputs of the library function, and its result is copied. -/
def concat (dst : Slot) (l r : Operand) (io : Slot) (function : String) : Lowered := do
  let left ← assign (io.child "left") l
  let right ← assign (io.child "right") r
  return left ++ right ++ [.callWith function io] ++ copy dst (io.child "result")

end Datapack.Command
