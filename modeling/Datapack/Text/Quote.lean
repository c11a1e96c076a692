import Datapack.Text.Printable
import Datapack.Text.Utf8

/-!
# Quoted text

`quoted s` is the double-quoted form of `s` used in messages and listings: quotes, backslashes and
the usual control characters have short escapes, other unprintable characters are written by their
code point in hexadecimal, and every printable character stands for itself. `quotedBytes bs` does the
same for bytes that need not be a text; stray bytes are written by their value.
-/

namespace Datapack.Text

/-- The lower-case hexadecimal digits of `n`, padded with zeros to at least `width`. -/
def hexDigits (width n : Nat) : List Char :=
  let ds := Nat.toDigits 16 n
  List.replicate (width - ds.length) '0' ++ ds

def quotedChar (c : Char) : List Char :=
  let n := c.toNat
  if c = '"' then ['\\', '"']
  else if c = '\\' then ['\\', '\\']
  else if isPrintable c then [c]
  else if n = 0x07 then ['\\', 'a']
  else if n = 0x08 then ['\\', 'b']
  else if n = 0x0c then ['\\', 'f']
  else if n = 0x0a then ['\\', 'n']
  else if n = 0x0d then ['\\', 'r']
  else if n = 0x09 then ['\\', 't']
  else if n = 0x0b then ['\\', 'v']
  else if n < 0x20 || n = 0x7f then '\\' :: 'x' :: hexDigits 2 n
  else if n < 0x10000 then '\\' :: 'u' :: hexDigits 4 n
  else '\\' :: 'U' :: hexDigits 8 n

/-- The text between double quotes, with escapes where a character would not be shown as itself. -/
def quoted (s : String) : String :=
  String.ofList ('"' :: s.toList.flatMap quotedChar ++ ['"'])

/-- How one piece is written between double quotes. -/
def quotedPiece : Piece → List Char
  | .char c => quotedChar c
  | .stray b => '\\' :: 'x' :: hexDigits 2 b.toNat

/-- Bytes between double quotes, with escapes where something would not be shown as itself. -/
def quotedBytes (bs : List UInt8) : String :=
  String.ofList ('"' :: (pieces bs).flatMap quotedPiece ++ ['"'])

end Datapack.Text
