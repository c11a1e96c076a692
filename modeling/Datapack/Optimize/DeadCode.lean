import Datapack.Optimize.Edits
import Datapack.Optimize.Saturation

/-!
# Dead code

Removes pure instructions whose result can never be observed. Liveness starts at the variables that
can be observed from outside or are read by anything but a pure instruction, and flows from a live
result back to the variables it is computed from.

A second pass removes declarations of variables that no other instruction mentions. Variables that can
be observed from outside and variables of the global region stay.
-/

namespace Datapack.Optimize.DeadCode

open Ir

def pureTarget (ins : Instruction) : Option Variable :=
  if ins.op.isPure then varOf ins.result else none

/-- The variables that are live because of a single instruction. -/
def seeds (ins : Instruction) : List Variable :=
  ins.vars.filter Variable.isRoot
    ++ if ins.op.isPure || ins.op = .declare then [] else ins.readVars

def feedsLive (s : Stream) (live : List Variable) (v : Variable) : Bool :=
  s.any fun ins =>
    match pureTarget ins with
    | some r => live.contains r && ins.readVars.contains v
    | none => false

def live (s : Stream) : List Variable :=
  closure (feedsLive s) (s.flatMap seeds).eraseDups (s.flatMap Instruction.readVars).eraseDups

def declares? (ins : Instruction) : Option Variable :=
  if ins.op = .declare then varOf (ins.refAt 0) else none

def declaredIn (s : Stream) (t : ScopeTree) (v : Variable) : List Nat :=
  s.zipIdx.filterMap fun (ins, i) => if declares? ins = some v then some (t.nodeAt i) else none

/-- Whether a variable is observable from outside or declared by a node around `n`. -/
def isDeclared (s : Stream) (t : ScopeTree) (v : Variable) (n : Nat) : Bool :=
  v.isRoot || (declaredIn s t v).any fun m => t.isAncestor m n

/-- Whether instruction `i` is dropped: it writes a variable that is dead or not declared here. -/
def isDead (s : Stream) (t : ScopeTree) (live : List Variable) (i : Nat) : Bool :=
  match s[i]?.bind pureTarget with
  | some v => !live.contains v || !isDeclared s t v (t.nodeAt i)
  | none => false

def run (s : Stream) : Except ScopeFault Outcome :=
  withTree s fun t =>
    let live := live s
    { drop := isDead s t live : Edits }.apply s

end Datapack.Optimize.DeadCode

namespace Datapack.Optimize.Declarations

open Ir

/-- Whether something other than a declaration mentions a variable. -/
def isMentioned (s : Stream) (v : Variable) : Bool :=
  s.any fun ins => ins.op ≠ .declare && ins.vars.contains v

/-- Whether instruction `i` declares a variable in vain. -/
def isVain (s : Stream) (t : ScopeTree) (i : Nat) : Bool :=
  match s[i]?.bind DeadCode.declares? with
  | some v => !v.isRoot && !isMentioned s v && t.nodeAt i ≠ ScopeTree.root
  | none => false

def run (s : Stream) : Except ScopeFault Outcome :=
  withTree s fun t => { drop := isVain s t : Edits }.apply s

end Datapack.Optimize.Declarations
