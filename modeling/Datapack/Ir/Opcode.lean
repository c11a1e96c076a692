import Datapack.Text.Quote

/-!
# Opcodes

An opcode is one byte. Twenty codes are defined, in three ranges for control flow, data and
objects; every other byte is carried as `undefined`.
-/

namespace Datapack.Ir

/-- What an instruction does. -/
inductive Opcode where
  | jump | condJump | function | call | ret | scopeBegin | scopeEnd | breakLoop | continueLoop
  | declare | assign | unaryOp | binaryOp | compare | cast
  | classDef | newObject | getProperty | setProperty | callMethod
  | undefined (code : UInt8)
  deriving DecidableEq, Repr

inductive OpcodeRange where
  | control | data | object | unknown
  deriving DecidableEq, Repr

def OpcodeRange.code : OpcodeRange → Nat
  | control => 0
  | data => 1
  | object => 2
  | unknown => 3

namespace Opcode

instance : Inhabited Opcode := ⟨jump⟩

/-- The defined opcodes in the order of their codes. -/
def all : List Opcode :=
  [jump, condJump, function, call, ret, scopeBegin, scopeEnd, breakLoop, continueLoop,
    declare, assign, unaryOp, binaryOp, compare, cast,
    classDef, newObject, getProperty, setProperty, callMethod]

def code : Opcode → UInt8
  | jump => 0x00
  | condJump => 0x01
  | function => 0x02
  | call => 0x03
  | ret => 0x04
  | scopeBegin => 0x05
  | scopeEnd => 0x06
  | breakLoop => 0x07
  | continueLoop => 0x08
  | declare => 0x20
  | assign => 0x21
  | unaryOp => 0x22
  | binaryOp => 0x23
  | compare => 0x24
  | cast => 0x25
  | classDef => 0x40
  | newObject => 0x41
  | getProperty => 0x42
  | setProperty => 0x43
  | callMethod => 0x44
  | undefined code => code

def ofCode (b : UInt8) : Opcode :=
  (all.find? (·.code = b)).getD (undefined b)

/-- The name of an opcode; a byte without a meaning shows its hexadecimal digits. -/
def name : Opcode → String
  | jump => "JUMP"
  | condJump => "COND_JUMP"
  | function => "FUNCTION"
  | call => "CALL"
  | ret => "RETURN"
  | scopeBegin => "SCOPE_BEGIN"
  | scopeEnd => "SCOPE_END"
  | breakLoop => "BREAK"
  | continueLoop => "CONTINUE"
  | declare => "DECLARE"
  | assign => "ASSIGN"
  | unaryOp => "UNARY_OP"
  | binaryOp => "BINARY_OP"
  | compare => "COMPARE"
  | cast => "CAST"
  | classDef => "CLASS"
  | newObject => "NEW_OBJ"
  | getProperty => "GET_PROPERTY"
  | setProperty => "SET_PROPERTY"
  | callMethod => "CALL_METHOD"
  | undefined code => "OPCODE(0x" ++ String.ofList (Text.hexDigits 2 code.toNat) ++ ")"

def ofName? (s : String) : Option Opcode := all.find? (·.name = s)

/-- The range of an opcode, decided by its byte. -/
def range (op : Opcode) : OpcodeRange :=
  let b := op.code
  if b ≤ 0x1f then .control
  else if b ≤ 0x3f then .data
  else if b ≤ 0x5f then .object
  else .unknown

/-- Instructions whose only effect is their result. -/
def isPure : Opcode → Bool
  | assign => true
  | binaryOp => true
  | compare => true
  | unaryOp => true
  | cast => true
  | _ => false

end Opcode

end Datapack.Ir
