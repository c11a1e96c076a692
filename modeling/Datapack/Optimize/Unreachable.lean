import Datapack.Optimize.Edits

/-!
# Unreachable code

Removes what follows a return, break or continue up to the end of its region. The scan only counts how
many regions are open, so it needs no scope tree.
-/

namespace Datapack.Optimize.Unreachable

open Ir

/-- Whether an instruction leaves its region for good. -/
def isExit : Opcode → Bool
  | .ret => true
  | .breakLoop => true
  | .continueLoop => true
  | _ => false

/-- For each instruction whether it is unreachable. `depth` is the number of open regions and
`behind` the depth at which an exit was passed whose region is still open. -/
def marks : Int → Option Int → Stream → List Bool
  | _, _, [] => []
  | depth, behind, ins :: rest =>
    match ins.op with
    | .scopeBegin => behind.isSome :: marks (depth + 1) behind rest
    | .scopeEnd =>
      if behind = some depth then false :: marks (depth - 1) none rest
      else behind.isSome :: marks (depth - 1) behind rest
    | op =>
      match behind with
      | some _ => true :: marks depth behind rest
      | none => false :: marks depth (if isExit op then some depth else none) rest

def run (s : Stream) : Outcome :=
  let dead := marks 0 none s
  { drop := fun i => dead[i]?.getD false : Edits }.apply s

end Datapack.Optimize.Unreachable
