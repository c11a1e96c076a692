/-!
# File paths

Paths are slash-separated texts. `clean` gives the shortest path that names the same place by text
alone: repeated slashes and single dots go, and a double dot removes the part before it.
-/

namespace Datapack.Path

def parts (p : String) : List String := (p.toList.splitOn '/').map String.ofList

/-- Add a part to the parts cleaned so far, which are kept in reverse. -/
def addPart (rooted : Bool) (acc : List String) (part : String) : List String :=
  if part = "" || part = "." then acc
  else if part = ".." then
    match acc with
    | [] => if rooted then [] else [".."]
    | last :: rest => if last = ".." then ".." :: acc else rest
  else part :: acc

def isRooted (p : String) : Bool := p.toList.head? = some '/'

/-- The parts of a path that `clean` keeps. -/
def cleanParts (p : String) : List String :=
  ((parts p).foldl (addPart (isRooted p)) []).reverse

/-- The shortest path that names the same place. -/
def clean (p : String) : String :=
  let text := "/".intercalate (cleanParts p)
  if isRooted p then "/" ++ text else if text = "" then "." else text

/-- The clean path of several elements one below the other; leading empty elements do not count. -/
def join (elements : List String) : String :=
  match elements.dropWhile (· = "") with
  | [] => ""
  | es => clean ("/".intercalate es)

/-- The part of a path before its last slash, cleaned. -/
def parent (p : String) : String :=
  match (parts p).reverse with
  | _ :: [] => "."
  | _ :: rest =>
    let front := "/".intercalate rest.reverse
    clean (if front = "" then "/" else front)
  | [] => "."

/-- A path seen from a directory: a rooted path stays where it is. -/
def absolute (directory p : String) : String :=
  if isRooted p then clean p else join [directory, p]

/-- The last part of a path without the slashes behind it. -/
def base (p : String) : String :=
  if p = "" then "."
  else
    match ((parts p).reverse.dropWhile (· = "")).head? with
    | some last => last
    | none => "/"

/-- The ending of a path: its last part from the last dot on. -/
def extension (p : String) : String :=
  let last := ((parts p).getLast?.getD "").toList
  if last.contains '.' then
    String.ofList ('.' :: (last.reverse.takeWhile (· ≠ '.')).reverse)
  else ""

end Datapack.Path
