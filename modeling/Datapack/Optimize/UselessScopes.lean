import Datapack.Optimize.Edits
import Datapack.Optimize.Saturation

/-!
# Useless regions

Removes blocks, conditional regions and loops that no jump can enter. A jump counts when its own region
can be entered: the global region and the regions that belong to a definition or to a loop header
always can. A loop as a whole is entered by jumping to it.
-/

namespace Datapack.Optimize.UselessScopes

open Ir

/-- Regions that are entered without a jump. -/
def isStructural : ScopeKind → Bool
  | .function | .object | .interface | .loopCheck | .loopBody => true
  | _ => false

def isRemovable : ScopeKind → Bool
  | .block | .conditional | .loop => true
  | _ => false

/-- Regions that belong to a definition. -/
def isDefinition : ScopeKind → Bool
  | .function | .object | .interface => true
  | _ => false

/-- The regions the jumps directly inside a region lead to. -/
def successors (s : Stream) (t : ScopeTree) (n : Nat) : List Nat :=
  (t.directly n).flatMap fun i =>
    ((s[i]?.map Instruction.jumpTargets).getD []).filterMap (t.resolve n)

/-- The regions that can be entered. -/
def reached (s : Stream) (t : ScopeTree) : List Nat :=
  let nodes := ScopeTree.root :: t.inner
  let jumps := nodes.map fun n => (n, successors s t n)
  closure (fun found n => jumps.any fun (m, ns) => found.contains m && ns.contains n)
    (nodes.filter fun n => n = ScopeTree.root || isStructural (t.node n).kind) nodes

def holdsDefinition (t : ScopeTree) (n : Nat) : Bool :=
  t.inner.any fun m => (t.node m).outer.contains n && isDefinition (t.node m).kind

def useless (s : Stream) (t : ScopeTree) : List Nat :=
  let found := reached s t
  t.inner.filter fun n =>
    !found.contains n && isRemovable (t.node n).kind && !holdsDefinition t n

def run (s : Stream) : Except ScopeFault Outcome :=
  withTree s fun t =>
    let regions := (useless s t).map t.node
    { drop := fun i => regions.any (inRegion · i) : Edits }.apply s

end Datapack.Optimize.UselessScopes
