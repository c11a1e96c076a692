import Datapack.Json.Reader

/-!
# Shapes of document parts

A `Shape α` reads a JSON value over an earlier value of type `α`. Reading over an earlier value is what
makes repeated fields meaningful: the later one wins, a null leaves things as they are, and an object
given twice is merged field by field. A list given twice is merged element by element; the elements a
shorter list leaves out keep their places behind it and come back when a longer list reaches them.
-/

namespace Datapack.Document

/-- A list that later lists are read over. -/
structure Slots (α : Type) where
  /-- The elements of the list. -/
  shown : List α := []
  /-- The elements behind its end that an earlier, longer list had there. -/
  kept : List α := []
  deriving Inhabited

/-- How to read a JSON value over an earlier value; `none` when it has the wrong form. -/
abbrev Shape (α : Type) := α → Json → Option α

/-- The decimal value of a JSON number spelled as an integer that fits in 64 bits. -/
def integer64? (text : String) : Option Int :=
  let (negative, digits) :=
    match text.toList with
    | '-' :: ds => (true, ds)
    | ds => (false, ds)
  if digits.isEmpty || !digits.all Char.isDigit then none
  else
    let n : Int := digits.foldl (fun n c => n * 10 + (c.toNat - '0'.toNat)) 0
    let v := if negative then -n else n
    if -0x8000000000000000 ≤ v ∧ v < 0x8000000000000000 then some v else none

/-- Letters of names are compared without regard to case. Two letters outside the basic alphabet fold
into it: the long s and the Kelvin sign. -/
def foldChar (c : Char) : Char :=
  if c = Char.ofNat 0x17f then 's'
  else if c = Char.ofNat 0x212a then 'k'
  else c.toLower

/-- Whether a key names a field, letters compared without regard to case. -/
def namesField (field key : String) : Bool :=
  key.toList.map foldChar = field.toList.map foldChar

/-- The entry whose name a key spells exactly, else the first whose name it spells up to case. -/
def lookupField {α : Type} (fields : List (String × α)) (key : String) : Option α :=
  match fields.lookup key with
  | some a => some a
  | none => (fields.find? fun f => namesField f.1 key).map (·.2)

namespace Shape

variable {α β : Type}

/-- A text; null leaves it unchanged. -/
def text : Shape String
  | old, .null => some old
  | _, .string s _ => some s
  | _, _ => none

/-- A truth value; null leaves it unchanged. -/
def flag : Shape Bool
  | old, .null => some old
  | _, .bool b => some b
  | _, _ => none

/-- An integer; null leaves it unchanged. -/
def integer : Shape Int
  | old, .null => some old
  | _, .number t => integer64? t
  | _, _ => none

/-- Any value at all, kept as it is. -/
def any : Shape (Option Json) := fun _ j => some (some j)

/-- A value that may be left out; null leaves it out again. -/
def optional (zero : α) (shape : Shape α) : Shape (Option α)
  | _, .null => some none
  | old, j => (shape (old.getD zero) j).map some

/-- Read the elements of an array over the elements that stood there before. Those that stood behind
the end of the array are kept. -/
def elements (zero : α) (shape : Shape α) : List α → List Json → Option (Slots α)
  | olds, [] => some { kept := olds }
  | [], j :: js => do
    let a ← shape zero j
    let as ← elements zero shape [] js
    return { as with shown := a :: as.shown }
  | old :: olds, j :: js => do
    let a ← shape old j
    let as ← elements zero shape olds js
    return { as with shown := a :: as.shown }

/-- A list; null and the empty array empty it, places behind its end included. -/
def list (zero : α) (shape : Shape α) : Shape (Slots α)
  | _, .null => some {}
  | _, .array [] _ => some {}
  | old, .array items _ => elements zero shape (old.shown ++ old.kept) items
  | _, _ => none

def field (get : α → β) (set : α → β → α) (shape : Shape β) : Shape α :=
  fun a j => (shape (get a) j).map (set a)

/-- Read the fields of an object one after the other; a key that names no field is refused when the
record is `closed` and skipped otherwise. -/
def readFields (closed : Bool) (fields : List (String × Shape α)) :
    α → List (String × Json) → Option α
  | a, [] => some a
  | a, (key, j) :: rest =>
    match lookupField fields key with
    | some shape => do
      let a ← shape a j
      readFields closed fields a rest
    | none => if closed then none else readFields closed fields a rest

/-- A record; null leaves it unchanged. -/
def record (closed : Bool) (fields : List (String × Shape α)) : Shape α
  | a, .null => some a
  | a, .object members _ => readFields closed fields a members
  | _, _ => none

end Shape

end Datapack.Document
