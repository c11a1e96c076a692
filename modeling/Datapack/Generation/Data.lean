import Datapack.Generation.Library

/-!
# Data instructions
-/

namespace Datapack.Generation

open Ir Command

def declare : Processor := fun ins =>
  match varOf (ins.refAt 0) with
  | some v => Gen.change fun g => { g with regions := g.regions.update g.current (·.declare v) }
  | none => throw (.failed "DECLARE of a non-variable")

def assignment : Processor := fun ins => do
  let dst ← destination (ins.refAt 0)
  let src ← operand (ins.refAt 1)
  Gen.emitLowered (assign dst src)

/-- Compute a binary operation; texts are joined by the library. -/
def binary : Processor := fun ins => do
  let dst ← destination (ins.refAt 0)
  let l ← operand (ins.refAt 2)
  let r ← operand (ins.refAt 3)
  if ins.binaryOperator = .add && typeOf (ins.refAt 0) = .data .string then
    Gen.emit (← callLibrary "concat" dst [("left", l), ("right", r)])
  else Gen.emitLowered (binaryOp (Layout.registers (← get)) dst ins.binaryOperator l r)

def comparison : Processor := fun ins => do
  let dst ← destination (ins.refAt 0)
  let l ← operand (ins.refAt 2)
  let r ← operand (ins.refAt 3)
  Gen.emitLowered (compare (Layout.registers (← get)) dst ins.compareOperator l r)

def unary : Processor := fun ins => do
  let dst ← destination (ins.refAt 0)
  let x ← operand (ins.refAt 2)
  Gen.emitLowered (unaryOp (Layout.registers (← get)) dst ins.unaryOperator x)

/-- Store whether a score differs from zero. -/
def truthOf (env : Registers) (dst src : Slot) : List Command :=
  match src.space with
  | .score => [.storeTest dst .fails (.inRange src (.exactly 0))]
  | .storage =>
    copy env.scratch src ++ [.storeTest dst .fails (.inRange env.scratch (.exactly 0))]

def castSlot (dst : Slot) (target : DataType) (source : Ty) (src : Slot) : Gen Unit := do
  if target = .string && source ≠ .data .string then
    Gen.emit (← callLibrary "int_to_string" dst [("value", .slot src)])
  else if target = .boolean && source = .data .int then
    Gen.emit (truthOf (Layout.registers (← get)) dst src)
  else if target ≠ .string && source = .data .string then
    throw (.unsupported (.castString target))
  else Gen.emit (copy dst src)

def conversion : Processor := fun ins => do
  let dst ← destination (ins.refAt 0)
  match ← operand (ins.refAt 2) with
  | .literal l =>
    match evalCast ins.castTarget l with
    | some v => Gen.emitLowered (store dst v)
    | none => throw (.unsupported (.castLiteral l ins.castTarget))
  | .slot s => castSlot dst ins.castTarget (typeOf (ins.refAt 2)) s

def newObject : Processor := fun ins => do
  Gen.emit [.setData (← destination (ins.refAt 0)) .null]

def propertySlot (obj : Option Reference) (name : String) : Gen Slot := do
  match ← operand obj with
  | .slot s =>
    if s.space = .storage then return s.child (holder name)
    else throw (.failed (textOf obj ++ " is not an object"))
  | .literal _ => throw (.failed (textOf obj ++ " is not an object"))

def getProperty : Processor := fun ins => do
  let src ← propertySlot ins.propertyObject ins.propertyName
  let dst ← destination ins.propertyOther
  Gen.emit (copy dst src)

def setProperty : Processor := fun ins => do
  let dst ← propertySlot ins.propertyObject ins.propertyName
  let src ← operand ins.propertyOther
  Gen.emitLowered (assign dst src)

end Datapack.Generation
