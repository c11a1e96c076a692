import Datapack.Optimize.Edits

/-!
# Unused functions

Removes the definitions, with their bodies, of functions that nothing calls. Annotated functions are
entry points and stay, and so do functions whose bodies are provided elsewhere. A method counts as
called when some call names a method of its name.
-/

namespace Datapack.Optimize.UnusedFunctions

open Ir

def isCalled (s : Stream) (f : Function) : Bool :=
  if f.kind = .method then
    s.any fun ins => ins.op = .callMethod && (ins.function?.map Function.name) = some f.name
  else s.any fun ins => ins.op = .call && ins.function? = some f

/-- Whether a definition may be removed when nothing calls it. -/
def isRemovable (f : Function) : Bool :=
  f.annotations.isEmpty && f.kind ≠ .builtin && f.kind ≠ .library

/-- Whether instruction `i` defines a function in vain. -/
def isVain (s : Stream) (i : Nat) : Bool :=
  match s[i]? with
  | some ins =>
    match ins.op, ins.function? with
    | .function, some f => isRemovable f && !isCalled s f
    | _, _ => false
  | none => false

/-- The regions right behind the definitions that are removed. -/
def vainBodies (s : Stream) (t : ScopeTree) : List ScopeNode :=
  (List.range s.length).filterMap fun i =>
    match s[i + 1]? with
    | some ins =>
      if isVain s i && ins.op = .scopeBegin && ins.scopeKind = .function then
        some (t.node (t.nodeAt (i + 1 : Nat)))
      else none
    | none => none

def run (s : Stream) : Except ScopeFault Outcome :=
  withTree s fun t =>
    let bodies := vainBodies s t
    { drop := fun i => isVain s i || bodies.any (inRegion · i) : Edits }.apply s

end Datapack.Optimize.UnusedFunctions
