import Datapack.Text.Hash

/-!
# Resource names and small wordings

Namespaces and path segments of a pack are resource names: lower-case letters, digits, underscores,
hyphens and dots.
-/

namespace Datapack.Text

def isResourceChar (c : Char) : Bool :=
  ('a'.toNat ≤ c.toNat && c.toNat ≤ 'z'.toNat) || ('0'.toNat ≤ c.toNat && c.toNat ≤ '9'.toNat)
    || c = '_' || c = '-' || c = '.'

/-- Whether a text is a namespace or a single path segment. -/
def isResourceName (s : String) : Bool :=
  s ≠ "" && s.toList.all isResourceChar

/-- The lower-case form of a character as far as resource names can tell: letters of the basic
alphabet, and the two letters outside it whose lower case lies in it. -/
def lowerResource (c : Char) : Char :=
  if c = Char.ofNat 0x130 then 'i'
  else if c = Char.ofNat 0x212a then 'k'
  else c.toLower

/-- The resource character that stands for a character; one that has none is an underscore. -/
def resourceChar (c : Char) : Char :=
  let c := lowerResource c
  if isResourceChar c then c else '_'

/-- The resource name that stands for a text; the empty text is an underscore. -/
def resourceName (s : String) : String :=
  if s = "" then "_" else String.ofList (s.toList.map resourceChar)

/-- The text with its first byte in upper case, as bytes. A first byte that is not a character of its
own is replaced by the replacement character, so the result may not be a text any more. -/
def sentenceCase (s : String) : List UInt8 :=
  match bytes s with
  | [] => []
  | b :: bs =>
    if b < 0x80 then
      (if 0x61 ≤ b && b ≤ 0x7a then b - 0x20 else b) :: bs
    else [0xef, 0xbf, 0xbd] ++ bs

/-- The singular for one, the plural for every other count. -/
def pluralize (singular plural : String) (count : Int) : String :=
  if count = 1 then singular else plural

end Datapack.Text
