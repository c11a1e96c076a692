import Datapack.Ir.Cursor
import Datapack.Ir.ScopeTree

/-!
# Planned edits

A pass decides on a read-only scan which instructions to drop and which to replace, each named by its
index, and then makes the changes in one walk over the stream. Naming an instruction by its address instead
comes to the same on a stream that holds no instruction twice.
-/

namespace Datapack.Optimize

open Ir

structure Outcome where
  code : Stream
  changed : Bool

/-- The changes planned for the instructions of a stream. -/
structure Edits where
  drop : Nat → Bool
  replace : Nat → Option Instruction := fun _ => none

namespace Edits

/-- Make the changes with a cursor whose next element is the one that had index `i`, in at most `fuel`
steps. A dropped instruction is not replaced. -/
def walk (e : Edits) : Nat → Nat → Cursor Instruction → Bool → Outcome
  | 0, _, c, changed => ⟨c.stream, changed⟩
  | fuel + 1, i, c, changed =>
    match c.next with
    | (.error _, c) => ⟨c.stream, changed⟩
    | (.ok _, c) =>
      if e.drop i then
        match c.removeCurrent with
        | .ok c => e.walk fuel (i + 1) c true
        | .error _ => ⟨c.stream, changed⟩
      else
        match e.replace i with
        | none => e.walk fuel (i + 1) c changed
        | some ins =>
          match c.setCurrent ins with
          | .ok c => e.walk fuel (i + 1) c true
          | .error _ => ⟨c.stream, changed⟩

def apply (e : Edits) (s : Stream) : Outcome := e.walk (s.length + 1) 0 (.forward s) false

end Edits

/-- A stream whose delimiters match together with its tree. -/
def withTree (s : Stream) (f : ScopeTree → Outcome) : Except ScopeFault Outcome :=
  (ScopeTree.ofStream s).map f

/-- Whether instruction `i` is one of the delimiters of a region or lies between them. -/
def inRegion (n : ScopeNode) (i : Nat) : Bool := n.first ≤ (i : Int) && (i : Int) ≤ n.last

end Datapack.Optimize
