import Datapack.Diagnostic.Catalogue
import Datapack.Optimize.Schedule
import Datapack.Text.Style

/-!
# Running a schedule

The passes of a schedule run in order, again and again until none of them reports a change or the
iteration cap is reached. A pass that fails leaves no trace in the stream; in debug mode its failure
ends the run instead.
-/

namespace Datapack.Optimize

open Ir Text

/-- What a debug run prints. -/
inductive TraceLine where
  | iteration (i cap : Nat)
  | skipped (pass : String)
  | ran (title : String) (changed : Bool)
  /-- The context as it is dumped, with its colours. -/
  | context (dump : String)

def TraceLine.text (colours : Bool) : TraceLine → String
  | iteration i cap =>
    Style.cyan.paint colours ("  iteration " ++ toString i ++ "/" ++ toString cap ++ "\n")
  | skipped pass => Style.grey.paint colours ("    - " ++ pass ++ " skipped\n")
  | ran title changed =>
    Style.green.paint colours ("    " ++ (if changed then "✓" else "·") ++ " " ++ title ++ "\n")
  | context dump => dump ++ "\n"

inductive RunError where
  | unbalanced (fault : ScopeFault)
  | cancelled
  | pass (name : String) (failure : Failure)

def RunError.message : RunError → String
  | unbalanced fault => fault.message
  | cancelled => "context canceled"
  | pass name failure => "pass " ++ name ++ ": " ++ failure.message

/-- Whether a run is cancelled, as its checks find out one after the other. -/
structure Cancellation where
  /-- What the `n`-th check finds out. -/
  seen : Nat → Bool

/-- A run is cancelled before its first check, or never. -/
instance : Coe Bool Cancellation := ⟨fun b => ⟨fun _ => b⟩⟩

/-- What the checks behind the first `n` find out. -/
def Cancellation.behind (c : Cancellation) (n : Nat) : Cancellation := ⟨fun k => c.seen (n + k)⟩

structure RunMode where
  debug : Bool := false
  /-- What the check before each turn of a pass finds out. -/
  cancelled : Cancellation := false
  /-- The pretty printer of contexts. -/
  dump : Context → String := fun _ => "<context dump>"

structure RunState (σ : Type) where
  world : σ
  code : Stream
  context : Context
  /-- The names of the passes that were invoked. -/
  ran : List String := []
  /-- Whether a pass reported a change in this iteration. -/
  dirty : Bool := false
  /-- The number of checks made so far. -/
  checks : Nat := 0
  diagnostics : Bag := []
  trace : List TraceLine := []

namespace RunState

variable {σ : Type}

def tell (st : RunState σ) (mode : RunMode) (line : TraceLine) : RunState σ :=
  if mode.debug then { st with trace := st.trace ++ [line] } else st

def checked (st : RunState σ) : RunState σ := { st with checks := st.checks + 1 }

def step (mode : RunMode) (st : RunState σ) (p : Pass σ) :
    Except (RunError × RunState σ) (RunState σ) :=
  if mode.cancelled.seen st.checks then .error (.cancelled, st)
  else if !p.shouldRun st.context then .ok (st.checked.tell mode (.skipped p.name))
  else
    let (world, code, result) := p.invoke st.world st.code st.context
    let st := { st.checked with world, ran := st.ran ++ [p.name] }
    match result with
    | .ok (context, changed) =>
      let st : RunState σ :=
        { st with
          code
          context := context.withExecuted p.name p.info.provides
          dirty := st.dirty || changed }
      .ok (st.tell mode (.ran p.info.title changed))
    | .error failure =>
      if mode.debug then .error (.pass p.name failure, { st with code })
      else
        .ok { st with
          diagnostics := st.diagnostics ++ [Diagnostic.passFailed p.name failure.message] }

/-- Make the iterations from `i` on, `left` of them at most. -/
def iterate (mode : RunMode) (s : Schedule σ) :
    Nat → Nat → RunState σ → Except (RunError × RunState σ) (RunState σ)
  | 0, _, st => .ok st
  | left + 1, i, st => do
    let st := { st with context := st.context.withIteration i, dirty := false }
    let st ← s.passes.foldlM (step mode) (st.tell mode (.iteration i s.maxIterations))
    let st := st.tell mode (.context (mode.dump st.context))
    if st.dirty then iterate mode s left (i + 1) st else return st

def reportSkipped (s : Schedule σ) (st : RunState σ) : RunState σ :=
  let skipped := s.names.filter (· ∉ st.ran)
  { st with diagnostics := st.diagnostics ++ skipped.map Diagnostic.passSkipped }

end RunState

namespace Schedule

variable {σ : Type}

/-- Run a schedule on a stream. An empty schedule leaves any stream alone; otherwise the delimiters of
the stream must match. -/
def run (s : Schedule σ) (mode : RunMode) (w : σ) (code : Stream) :
    RunState σ × Option RunError :=
  let st : RunState σ :=
    { world := w, code, context := { maxIterations := s.maxIterations, debug := mode.debug } }
  if s.passes.isEmpty || s.maxIterations = 0 then (st, none)
  else
    match ScopeTree.ofStream code with
    | .error fault => (st, some (.unbalanced fault))
    | .ok _ =>
      match st.iterate mode s s.maxIterations 1 with
      | .ok st => (st.reportSkipped s, none)
      | .error (e, st) => (st, some e)

end Schedule

end Datapack.Optimize
