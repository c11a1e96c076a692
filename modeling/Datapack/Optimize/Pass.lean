import Datapack.Config.Level
import Datapack.Optimize.Context

/-!
# Passes

A pass describes itself to the scheduler and transforms a stream. Passes may keep a state of their own
of type `σ`, which is threaded through a run and survives a failure.
-/

namespace Datapack.Optimize

open Ir Config

/-- The group a pass belongs to; groups run in this order. -/
inductive Phase where
  | analyze | transform | cleanup
  /-- A group that never runs. -/
  | other
  deriving DecidableEq, Repr

namespace Phase

def name : Phase → String
  | analyze => "analyze"
  | transform => "transform"
  | cleanup => "cleanup"
  | other => "unknown"

def order : List Phase := [analyze, transform, cleanup]

end Phase

/-- What a pass tells the scheduler. -/
structure PassInfo where
  /-- The unique name. -/
  name : String
  /-- The title shown in traces; the name when empty. -/
  display : String := ""
  /-- The lowest level at which the pass runs. -/
  level : OptLevel
  phase : Phase
  /-- Passes that must come before. -/
  dependsOn : List String := []
  /-- Passes that must not have run. -/
  incompatibleWith : List String := []
  /-- Whether the pass may run again. -/
  repeatable : Bool := true
  requires : List String := []
  provides : List String := []

def PassInfo.title (i : PassInfo) : String := if i.display = "" then i.name else i.display

inductive Failure where
  | scopes (fault : ScopeFault)
  | failed (message : String)
  /-- The pass broke down. -/
  | crashed (message : String)

def Failure.message : Failure → String
  | scopes fault => "scope pre-scan: " ++ fault.message
  | failed message => message
  | crashed message => "panic: " ++ message

/-- A transformation of streams. -/
structure Pass (σ : Type) where
  info : PassInfo
  /-- A run condition of the pass's own, in place of the general one. -/
  gate : Option (Context → Bool) := none
  /-- An analysis whose findings the execution and later passes see. -/
  analyze : Option (σ → Stream → Context → σ × Except Failure (List (String × Finding))) := none
  /-- The transformation; it reports whether it changed the stream. A failing one may leave the
  stream half changed. -/
  execute : σ → Stream → Context → σ × Stream × Except Failure Bool

namespace Pass

variable {σ : Type}

def name (p : Pass σ) : String := p.info.name

/-- The general run condition: all required features are there, no incompatible pass has run, and a
pass that is not repeatable has not run. -/
def isReady (i : PassInfo) (c : Context) : Bool :=
  i.requires.all c.hasFeature && !i.incompatibleWith.any c.hasExecuted
    && (i.repeatable || !c.hasExecuted i.name)

def shouldRun (p : Pass σ) (c : Context) : Bool :=
  match p.gate with
  | some g => g c
  | none => isReady p.info c

/-- One invocation: the analysis, then the transformation in the context it extends. The stream is
what the invocation leaves, also when it fails. -/
def invoke (p : Pass σ) (w : σ) (s : Stream) (c : Context) :
    σ × Stream × Except Failure (Context × Bool) :=
  match p.analyze with
  | none =>
    let (w, s, r) := p.execute w s c
    (w, s, r.map fun changed => (c, changed))
  | some f =>
    match f w s c with
    | (w, .error e) => (w, s, .error e)
    | (w, .ok found) =>
      let c := c.withAnalysis found
      let (w, s, r) := p.execute w s c
      (w, s, r.map fun changed => (c, changed))

end Pass

end Datapack.Optimize
