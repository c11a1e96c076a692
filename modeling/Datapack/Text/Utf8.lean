/-!
# Bytes of text

The bytes of a text in UTF-8, and back. Any list of bytes falls into pieces: characters, and bytes that
belong to no character. A text has pieces of the first kind only.
-/

namespace Datapack.Text

def bytes (s : String) : List UInt8 :=
  s.toUTF8.toList

/-- A piece of a list of bytes. -/
inductive Piece where
  | char (c : Char)
  /-- A byte that belongs to no character. -/
  | stray (b : UInt8)
  deriving DecidableEq, Repr

/-- The six bits that a byte adds to a character started before it. -/
def continuation? (b : UInt8) : Option Nat :=
  if 0x80 ≤ b && b ≤ 0xbf then some (b.toNat - 0x80) else none

/-- The character of a code point that is written in its shortest form, from `least` on. -/
def charFrom? (least n : Nat) : Option Char :=
  if least ≤ n && n.isValidChar then some (Char.ofNat n) else none

/-- The character at the start of some bytes, and what follows it. -/
def firstChar? : List UInt8 → Option (Char × List UInt8)
  | [] => none
  | a :: rest =>
    if a < 0x80 then some (Char.ofNat a.toNat, rest)
    else if 0xc0 ≤ a && a < 0xe0 then
      match rest with
      | b :: rest => do
        let n := (a.toNat - 0xc0) * 0x40 + (← continuation? b)
        return (← charFrom? 0x80 n, rest)
      | _ => none
    else if 0xe0 ≤ a && a < 0xf0 then
      match rest with
      | b :: c :: rest => do
        let n := ((a.toNat - 0xe0) * 0x40 + (← continuation? b)) * 0x40 + (← continuation? c)
        return (← charFrom? 0x800 n, rest)
      | _ => none
    else if 0xf0 ≤ a && a < 0xf8 then
      match rest with
      | b :: c :: d :: rest => do
        let n := ((a.toNat - 0xf0) * 0x40 + (← continuation? b)) * 0x40 + (← continuation? c)
        return (← charFrom? 0x10000 (n * 0x40 + (← continuation? d)), rest)
      | _ => none
    else none

/-- The pieces of some bytes, at most `fuel` of them. -/
def piecesFrom : Nat → List UInt8 → List Piece
  | 0, _ => []
  | _, [] => []
  | fuel + 1, b :: bs =>
    match firstChar? (b :: bs) with
    | some (c, rest) => .char c :: piecesFrom fuel rest
    | none => .stray b :: piecesFrom fuel bs

/-- The pieces of some bytes; every piece takes at least one of them. -/
def pieces (bs : List UInt8) : List Piece := piecesFrom bs.length bs

/-- The character shown for a piece: a stray byte is shown as the replacement character. -/
def Piece.shown : Piece → Char
  | char c => c
  | stray _ => '\ufffd'

/-- The text of bytes in UTF-8, with a replacement character for every stray byte. -/
def ofBytes (bs : List UInt8) : String :=
  match String.fromUTF8? ⟨bs.toArray⟩ with
  | some s => s
  | none => String.ofList ((pieces bs).map Piece.shown)

end Datapack.Text
