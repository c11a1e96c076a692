import Datapack.Ir.Instruction

/-!
# Cursors

A cursor walks a stream forwards or backwards and edits it on the way. Positions are counted in walk
order: `pos` is the boundary between what has been visited and what has not, and `cur` is the walk
index of the element last returned. The boundary is a 64-bit number, and moving it by hand can take it
out of the stream.

A cursor over `Option α` walks a stream of places, each holding an element or vacant. Placing an element
first makes a place at the end of the stream, so a refused placement leaves a vacant place there.
-/

namespace Datapack.Ir

inductive CursorError where
  | endOfStream
  | noCurrent
  /-- The boundary lies outside the stream; only moving it by hand leads there. -/
  | outOfRange
  deriving DecidableEq, Repr

def CursorError.message : CursorError → String
  | endOfStream => "cursor: end of instruction stream"
  | noCurrent => "cursor: no current instruction"
  | outOfRange => "cursor: boundary outside the instruction stream"

/-- A position in a stream together with the direction of the walk. -/
structure Cursor (α : Type) where
  stream : List α
  pos : Int := 0
  cur : Option Nat := none
  reversed : Bool := false
  deriving Repr

namespace Cursor

variable {α : Type}

/-- A cursor before the first element, walking forwards. -/
def forward (s : List α) : Cursor α := { stream := s }

/-- A cursor behind the last element, walking backwards. -/
def backward (s : List α) : Cursor α := { stream := s, reversed := true }

/-- The stream index of walk index `w`. -/
def physical (c : Cursor α) (w : Nat) : Nat :=
  if c.reversed then c.stream.length - 1 - w else w

/-- The stream index at which an element lands that is inserted in front of walk index `w`. -/
def physicalInsert (c : Cursor α) (w : Nat) : Nat :=
  if c.reversed then c.stream.length - w else w

def hasNext (c : Cursor α) : Bool := c.pos < c.stream.length

def inRange (c : Cursor α) : Bool := 0 ≤ c.pos && c.pos ≤ c.stream.length

/-- The element at walk index `w`. -/
def element? (c : Cursor α) (w : Nat) : Option α := c.stream[c.physical w]?

def peek (c : Cursor α) : Except CursorError α :=
  if c.hasNext then
    match c.pos with
    | .ofNat w =>
      match c.element? w with
      | some a => .ok a
      | none => .error .endOfStream
    | .negSucc _ => .error .outOfRange
  else .error .endOfStream

/-- The next element, and the cursor behind it. At the end of the stream the cursor stays. -/
def next (c : Cursor α) : Except CursorError α × Cursor α :=
  if c.hasNext then
    (c.peek, { c with pos := c.pos + 1, cur := if c.pos < 0 then none else some c.pos.toNat })
  else (.error .endOfStream, c)

/-- The element last returned by `next`. -/
def current (c : Cursor α) : Except CursorError α :=
  match c.cur.bind c.element? with
  | some a => .ok a
  | none => .error .noCurrent

/-- The stream index of the current element, if there is one. -/
def index? (c : Cursor α) : Option Nat := c.cur.map c.physical

def setCurrent (c : Cursor α) (a : α) : Except CursorError (Cursor α) :=
  match c.cur with
  | none => .error .noCurrent
  | some w => .ok { c with stream := c.stream.set (c.physical w) a }

/-- Delete the current element; `next` then returns what followed it. -/
def removeCurrent (c : Cursor α) : Except CursorError (Cursor α) :=
  match c.cur with
  | none => .error .noCurrent
  | some w =>
    .ok { c with
      stream := c.stream.eraseIdx (c.physical w)
      pos := if (w : Int) < c.pos then c.pos - 1 else c.pos
      cur := none }

/-- Insert at the boundary. The element counts as visited, so `next` still returns what it would have
returned. -/
def insertHere (c : Cursor α) (a : α) : Except CursorError (Cursor α) :=
  if c.inRange then
    .ok { c with
      stream := c.stream.insertIdx (c.physicalInsert c.pos.toNat) a
      pos := c.pos + 1
      cur := c.cur.map fun (w : Nat) => if c.pos ≤ (w : Int) then w + 1 else w }
  else .error .outOfRange

/-- Insert behind the current element, to be returned by a later `next`. -/
def insertAfterCurrent (c : Cursor α) (a : α) : Except CursorError (Cursor α) :=
  match c.cur with
  | none => .error .noCurrent
  | some w =>
    .ok { c with
      stream := c.stream.insertIdx (c.physicalInsert (w + 1)) a
      pos := if (w : Int) + 1 < c.pos then c.pos + 1 else c.pos }

/-- Move the boundary back by `n` elements but not before the first; no element is current any more.
A negative `n` moves it forwards, and past the largest number it is back at the first element. -/
def rollback (c : Cursor α) (n : Int) : Cursor α :=
  { c with pos := max (Int64.ofInt (c.pos - n)).toInt 0, cur := none }

/-- Insert at the boundary so that `next` returns the new element. -/
def insertAndContinueWith (c : Cursor α) (a : α) : Except CursorError (Cursor α) :=
  (c.insertHere a).map (·.rollback 1)

/-- The cursor that walks the other way from the same boundary. The current element stays current. -/
def reverse (c : Cursor α) : Cursor α :=
  { c with
    pos := (Int64.ofInt (c.stream.length - c.pos)).toInt
    cur := c.cur.map fun w => c.stream.length - 1 - w
    reversed := !c.reversed }

/-- Outcome of placing an element in a stream of places. When it is refused, the place made for it
stays vacant at the end of the stream. -/
def settle (c : Cursor (Option α)) (r : Except CursorError (Cursor (Option α))) :
    Except CursorError Unit × Cursor (Option α) :=
  match r with
  | .ok c => (.ok (), c)
  | .error e => (.error e, { c with stream := c.stream ++ [none] })

/-- Place an element at the boundary; it counts as visited. -/
def placeHere (c : Cursor (Option α)) (a : α) : Except CursorError Unit × Cursor (Option α) :=
  c.settle (c.insertHere (some a))

/-- Place an element at the boundary so that `next` returns it. -/
def placeAndContinueWith (c : Cursor (Option α)) (a : α) :
    Except CursorError Unit × Cursor (Option α) :=
  c.settle (c.insertAndContinueWith (some a))

/-- The elements of a stream of places, if none of them is vacant. -/
def elements? (c : Cursor (Option α)) : Option (List α) := c.stream.mapM id

end Cursor

end Datapack.Ir
