import Datapack.Text.Quote

/-!
# Text hashing

The 64-bit FNV-1a hash over a list of bytes, and bytes and numbers in hexadecimal.
-/

namespace Datapack.Text

/-- Initial state of the hash. -/
def fnvOffset : UInt64 := 0xcbf29ce484222325

/-- Multiplier applied after each byte. -/
def fnvPrime : UInt64 := 0x100000001b3

def fnvStep (h : UInt64) (b : UInt8) : UInt64 :=
  (h ^^^ b.toUInt64) * fnvPrime

def fnvContinue (h : UInt64) (bs : List UInt8) : UInt64 :=
  bs.foldl fnvStep h

def fnv1a (bs : List UInt8) : UInt64 :=
  fnvContinue fnvOffset bs

def hex (bs : List UInt8) : String := String.ofList (bs.flatMap fun b => hexDigits 2 b.toNat)

def hexValue? (c : Char) : Option Nat :=
  if c.isDigit then some (c.toNat - '0'.toNat)
  else if 'a' ≤ c ∧ c ≤ 'f' then some (c.toNat - 'a'.toNat + 10)
  else if 'A' ≤ c ∧ c ≤ 'F' then some (c.toNat - 'A'.toNat + 10)
  else none

def ofHex? : List Char → Option (List UInt8)
  | [] => some []
  | [_] => none
  | h :: l :: rest => return UInt8.ofNat ((← hexValue? h) * 16 + (← hexValue? l)) :: (← ofHex? rest)

def hex16 (n : UInt64) : String :=
  String.ofList (hexDigits 16 n.toNat)

end Datapack.Text
