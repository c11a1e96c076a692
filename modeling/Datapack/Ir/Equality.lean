import Datapack.Ir.Instruction
import Datapack.Text.Hash

/-!
# Structural comparison and hashing of instructions

`Operand.same` compares operands structurally: literals by value, symbols by identity, lists element
by element and maps entry by entry. `Operand.digest` is the byte string an operand adds to the hash of
its instruction. Source locations take part in neither.
-/

namespace Datapack.Ir

mutual

def Operand.same : Operand → Operand → Bool
  | .absent, .absent => true
  | .reference a, .reference b => a = b
  | .text a, .text b => a = b
  | .binaryOperator a, .binaryOperator b => a = b
  | .compareOperator a, .compareOperator b => a = b
  | .unaryOperator a, .unaryOperator b => a = b
  | .scopeKind a, .scopeKind b => a = b
  | .dataType a, .dataType b => a = b
  | .function a, .function b => a = b
  | .classSymbol a, .classSymbol b => a = b
  | .arguments a, .arguments b => a = b
  | .list a, .list b => sameItems a b
  | .map a, .map b => a.length = b.length && sameEntries a b
  | _, _ => false

def sameItems : List Operand → List Operand → Bool
  | [], [] => true
  | a :: as, b :: bs => a.same b && sameItems as bs
  | _, _ => false

/-- Whether every entry agrees with the value `other` has for its key; a missing key reads as an
absent operand. -/
def sameEntries : List (String × Operand) → List (String × Operand) → Bool
  | [], _ => true
  | (k, v) :: rest, other => v.same ((other.lookup k).getD .absent) && sameEntries rest other

end

def lowBytes (width n : Nat) : List UInt8 :=
  (List.range width).map fun i => UInt8.ofNat (n >>> (8 * i))

/-- The value of a literal as it enters a digest. -/
def Literal.plain : Literal → String
  | .int n => toString n.toInt
  | .str s => s
  | .bool b => boolText b
  | .null => "<nil>"

/-- The bytes that stand for the identity of a symbol in a digest. They start and end with a byte that
no text holds, so that no name reads like an identity. -/
def identityBytes (kind : ValueKind) (id : String) : List UInt8 :=
  0xff :: UInt8.ofNat kind.code :: Text.bytes id ++ [0xff]

/-- What a symbol adds to a digest: its name and its identity. -/
def symbolDigest (mark : String) (kind : ValueKind) (name id : String) : List UInt8 :=
  Text.bytes (mark ++ name ++ "@") ++ identityBytes kind id ++ Text.bytes ";"

/-- What a reference to a function or class adds to a digest. -/
def targetDigest (kind : ValueKind) (id : String) : List UInt8 :=
  Text.bytes ("R" ++ toString kind.code ++ ":") ++ identityBytes kind id ++ Text.bytes ";"

/-- What a reference adds to a digest. Slots and symbols enter with their identity. -/
def Reference.digest : Reference → List UInt8
  | .literal l => Text.bytes ("L" ++ toString l.type.code ++ ":" ++ l.plain ++ ";")
  | .var v | .const v => symbolDigest "V" .var v.name v.id
  | .function f => targetDigest .function f.id
  | .classSymbol c => targetDigest .classSymbol c.id

/-- What a reference slot adds to a digest; an empty slot adds a zero byte. -/
def refDigest : Option Reference → List UInt8
  | none => [0]
  | some r => r.digest

mutual

/-- The bytes an operand adds to the hash of its instruction. -/
def Operand.digest : Operand → List UInt8
  | .absent => [0]
  | .reference r => refDigest r
  | .text s => Text.bytes ("string:" ++ s ++ ";")
  | .binaryOperator op => Text.bytes ("ir.BinaryOperator:" ++ op.name ++ ";")
  | .compareOperator op => Text.bytes ("ir.CompareOperator:" ++ op.name ++ ";")
  | .unaryOperator op => Text.bytes ("ir.UnaryOperator:" ++ op.name ++ ";")
  | .scopeKind k => Text.bytes ("ir.ScopeKind:" ++ k.name ++ ";")
  | .dataType d => Text.bytes ("ir.DataType:" ++ d.name ++ ";")
  | .function f => symbolDigest "F" .function f.name f.id
  | .classSymbol c => symbolDigest "C" .classSymbol c.name c.id
  | .arguments args =>
    args.flatMap fun a => Text.bytes ("A" ++ a.name ++ "=") ++ refDigest a.value
  | .list items => lowBytes 4 items.length ++ digestItems items
  | .map entries => lowBytes 8 (digestEntries entries).toNat

/-- The digests of a list of operands, one after the other. -/
def digestItems : List Operand → List UInt8
  | [] => []
  | a :: as => a.digest ++ digestItems as

/-- The hashes of the entries of a map combined so that their order does not matter. -/
def digestEntries : List (String × Operand) → UInt64
  | [] => 0
  | (k, v) :: rest => Text.fnv1a (Text.bytes k ++ v.digest) ^^^ digestEntries rest

end

namespace Instruction

/-- Structural equality: the same opcode and the same operands. -/
def same (a b : Instruction) : Bool := a.op = b.op && sameItems a.operands b.operands

/-- A hash of opcode and operands. -/
def hash (ins : Instruction) : UInt64 :=
  Text.fnv1a (ins.op.code :: digestItems ins.operands)

end Instruction

/-- Whether two streams hold structurally equal instructions. -/
def Stream.same : Stream → Stream → Bool
  | [], [] => true
  | a :: as, b :: bs => a.same b && Stream.same as bs
  | _, _ => false

mutual

/-- Whether an operand names no symbol, looking into lists and maps. -/
def Operand.isSymbolFree : Operand → Bool
  | .reference (some (.literal _)) => true
  | .reference (some _) => false
  | .function _ => false
  | .classSymbol _ => false
  | .arguments _ => false
  | .list items => symbolFreeItems items
  | .map entries => symbolFreeEntries entries
  | _ => true

def symbolFreeItems : List Operand → Bool
  | [] => true
  | a :: as => a.isSymbolFree && symbolFreeItems as

def symbolFreeEntries : List (String × Operand) → Bool
  | [] => true
  | (_, v) :: rest => v.isSymbolFree && symbolFreeEntries rest

end

end Datapack.Ir
