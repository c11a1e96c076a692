/-!
# Texts in pieces

A text is taken apart at a character that separates its pieces.
-/

namespace Datapack.Text

def split (c : Char) (s : String) : List String := (s.toList.splitOn c).map String.ofList

/-- What stands before and behind the first separator, if there is one. -/
def cut (c : Char) (s : String) : Option (String × String) :=
  match s.toList.dropWhile (· ≠ c) with
  | [] => none
  | _ :: back => some (String.ofList (s.toList.takeWhile (· ≠ c)), String.ofList back)

end Datapack.Text
