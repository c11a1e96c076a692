import Datapack.Text.Quote

/-!
# Writing JSON

A `Tree` is a JSON value to be written. Strings are escaped so that they can also stand in markup:
angle brackets, ampersands and the two line separators are written by their code points.
-/

namespace Datapack.Json

/-- A value to be written; the fields of a record keep their order. -/
inductive Tree where
  | text (s : String)
  | number (n : Int)
  | list (items : List Tree)
  | record (fields : List (String × Tree))

def writeChar (c : Char) : List Char :=
  let n := c.toNat
  if c = '"' then ['\\', '"']
  else if c = '\\' then ['\\', '\\']
  else if n = 0x08 then ['\\', 'b']
  else if n = 0x0c then ['\\', 'f']
  else if n = 0x0a then ['\\', 'n']
  else if n = 0x0d then ['\\', 'r']
  else if n = 0x09 then ['\\', 't']
  else if n < 0x20 || c = '<' || c = '>' || c = '&' || n = 0x2028 || n = 0x2029 then
    '\\' :: 'u' :: Text.hexDigits 4 n
  else [c]

def writeString (s : String) : String :=
  String.ofList ('"' :: s.toList.flatMap writeChar ++ ['"'])

mutual

def Tree.compact : Tree → String
  | .text s => writeString s
  | .number n => toString n
  | .list items => "[" ++ ",".intercalate (compactItems items) ++ "]"
  | .record fields => "\x7b" ++ ",".intercalate (compactFields fields) ++ "\x7d"

def compactItems : List Tree → List String
  | [] => []
  | t :: ts => t.compact :: compactItems ts

def compactFields : List (String × Tree) → List String
  | [] => []
  | (k, t) :: rest => (writeString k ++ ":" ++ t.compact) :: compactFields rest

end

/-- A container with each part on a line of its own, or on no line when it has no parts. -/
def block (indent : Nat) (opening closing : String) (parts : List String) : String :=
  if parts.isEmpty then opening ++ closing
  else
    let margin := "".pushn ' ' (2 * (indent + 1))
    opening ++ "\n" ++ ",\n".intercalate (parts.map (margin ++ ·)) ++ "\n"
      ++ "".pushn ' ' (2 * indent) ++ closing

mutual

/-- The form with two blanks of indentation per level, inside `indent` levels. -/
def Tree.indentedAt : Nat → Tree → String
  | _, .text s => writeString s
  | _, .number n => toString n
  | indent, .list items => block indent "[" "]" (indentedItems (indent + 1) items)
  | indent, .record fields => block indent "\x7b" "\x7d" (indentedFields (indent + 1) fields)

def indentedItems : Nat → List Tree → List String
  | _, [] => []
  | indent, t :: ts => t.indentedAt indent :: indentedItems indent ts

def indentedFields : Nat → List (String × Tree) → List String
  | _, [] => []
  | indent, (k, t) :: rest =>
    (writeString k ++ ": " ++ t.indentedAt indent) :: indentedFields indent rest

end

def Tree.indented (t : Tree) : String := t.indentedAt 0

end Datapack.Json
