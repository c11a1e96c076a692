import Datapack.Optimize.Edits
import Datapack.Optimize.Saturation

/-!
# Empty regions

Removes blocks and conditional regions with nothing left to execute, and the jumps into them. A
conditional jump loses the branch that leads into an empty region, and goes when it has none left.
-/

namespace Datapack.Optimize.EmptyScopes

open Ir

def isRemovable : ScopeKind → Bool
  | .block | .conditional => true
  | _ => false

/-- Whether a jump from a region by a name does nothing: the name is empty or leads to an empty
region. -/
def leadsNowhere (t : ScopeTree) (empty : List Nat) (n : Nat) (name : String) : Bool :=
  name = "" ||
    match t.resolve n name with
    | some target => empty.contains target
    | none => false

/-- Whether an instruction of a region does nothing. -/
def isIdle (t : ScopeTree) (empty : List Nat) (n : Nat) (ins : Instruction) : Bool :=
  match ins.op with
  | .declare => true
  | .jump => leadsNowhere t empty n ins.jumpTarget
  | .condJump => leadsNowhere t empty n ins.onTrue && leadsNowhere t empty n ins.onFalse
  | _ => false

/-- Whether a region does nothing, given regions known to do nothing. -/
def isEmpty (s : Stream) (t : ScopeTree) (empty : List Nat) (n : Nat) : Bool :=
  (t.children n).all empty.contains
    && (t.directly n).all fun i => (s[i]?.map (isIdle t empty n)).getD true

def emptyNodes (s : Stream) (t : ScopeTree) : List Nat :=
  closure (isEmpty s t) [] (t.inner.filter fun n => isRemovable (t.node n).kind).reverse

/-- A branch name, blank when the branch leads to an empty region. -/
def branch (t : ScopeTree) (empty : List Nat) (n : Nat) (name : String) : String :=
  if leadsNowhere t empty n name then "" else name

/-- Whether a jump outside the removed regions is dropped. -/
def isDropped (t : ScopeTree) (empty : List Nat) (n : Nat) (ins : Instruction) : Bool :=
  match ins.op with
  | .jump => leadsNowhere t empty n ins.jumpTarget
  | .condJump => branch t empty n ins.onTrue = "" && branch t empty n ins.onFalse = ""
  | _ => false

/-- A conditional jump that loses one of its branches. -/
def narrowed (t : ScopeTree) (empty : List Nat) (n : Nat) (ins : Instruction) :
    Option Instruction :=
  if ins.op = .condJump then
    let onTrue := branch t empty n ins.onTrue
    let onFalse := branch t empty n ins.onFalse
    if onTrue ≠ ins.onTrue || onFalse ≠ ins.onFalse then
      some ((Instruction.condJump ins.condition onTrue onFalse).located ins.loc)
    else none
  else none

/-- The changes that remove the empty regions, if there are any. -/
def edits (s : Stream) (t : ScopeTree) (empty : List Nat) : Edits :=
  let regions := empty.map t.node
  { drop := fun i =>
      regions.any (inRegion · i) || (s[i]?.map (isDropped t empty (t.nodeAt i))).getD false
    replace := fun i => s[i]?.bind (narrowed t empty (t.nodeAt i)) }

def run (s : Stream) : Except ScopeFault Outcome :=
  withTree s fun t =>
    match emptyNodes s t with
    | [] => ⟨s, false⟩
    | empty => (edits s t empty).apply s

end Datapack.Optimize.EmptyScopes
