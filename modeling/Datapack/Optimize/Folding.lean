import Datapack.Optimize.Edits
import Datapack.Optimize.Folding.State

/-!
# Constant folding

Evaluates operations over literals and carries known values into later reads. One walk over the
stream threads what is known and rewrites each instruction in place; only a conditional jump whose
condition is known and whose branch is missing is removed.
-/

namespace Datapack.Optimize.Folding

open Ir

/-- What becomes of an instruction. -/
inductive Replacement where
  | keep
  | replace (ins : Instruction)
  | remove

/-- What folding needs to know of the whole stream. -/
structure Surroundings where
  tree : ScopeTree
  bodies : List (Nat × Option Function)

/-- The operand slots in which a known value may stand for a variable. Objects are never replaced. -/
def valueSlots : Opcode → List Nat
  | .condJump | .ret => [0]
  | .assign => [1]
  | .unaryOp | .cast | .setProperty => [2]
  | .binaryOp | .compare => [2, 3]
  | _ => []

/-- Replace the operand of a slot by its known value. The flag says whether something was replaced. -/
def substituteSlot (acc : State × Instruction × Bool) (slot : Nat) : State × Instruction × Bool :=
  let (st, ins, changed) := acc
  match st.read (ins.refAt slot) with
  | (st, some l) => (st, ins.setOperand slot (.reference (some (.literal l))), true)
  | (st, none) => (st, ins, changed)

def substituteArgs : State → List Argument → State × List Argument × Bool
  | st, [] => (st, [], false)
  | st, a :: rest =>
    let (st, l) := st.read a.value
    let (st, rest, changed) := substituteArgs st rest
    match l with
    | some l => (st, { a with value := some (.literal l) } :: rest, true)
    | none => (st, a :: rest, changed)

/-- Replace the operands of an instruction by their known values. -/
def substitute (st : State) (ins : Instruction) : State × Instruction × Bool :=
  let (st, ins, changed) := (valueSlots ins.op).foldl substituteSlot (st, ins, false)
  if ins.isCall then
    match substituteArgs st ins.arguments with
    | (st, args, true) => (st, ins.setOperand ins.argumentSlot (.arguments args), true)
    | (st, _, false) => (st, ins, changed)
  else (st, ins, changed)

/-- What substitution alone makes of an instruction. -/
def replaceIf (changed : Bool) (ins : Instruction) : Replacement :=
  if changed then .replace ins else .keep

/-- The region a name stands for, seen from the innermost open one. -/
def target? (e : Surroundings) (st : State) (name : String) : Option Nat :=
  if name = "" then none else e.tree.resolve st.top.node name

/-- Fold a conditional jump: one with a known condition becomes a plain jump or goes. -/
def foldCondJump (e : Surroundings) (st : State) (ins : Instruction) : State × Replacement :=
  let (st, ins, changed) := substitute st ins
  let onTrue := target? e st ins.onTrue
  let onFalse := target? e st ins.onFalse
  match (literalOf ins.condition).bind Literal.truthy? with
  | some truth =>
    let name := if truth then ins.onTrue else ins.onFalse
    let st := (st.commit (if truth then onTrue else onFalse)).dropBase st.top.node
    (st, if name = "" then .remove else .replace ((Instruction.jump name).located ins.loc))
  | none => (st.merge onTrue onFalse, replaceIf changed ins)

/-- Fold an operation: one with a value becomes an assignment of it. -/
def foldOperation (st : State) (ins : Instruction) : State × Replacement :=
  let (st, ins, changed) := substitute st ins
  match evaluate ins with
  | some l =>
    (st.write ins.result (.known l),
      .replace ((Instruction.assign ins.result (some (.literal l))).located ins.loc))
  | none => (st.write ins.result .unknown, replaceIf changed ins)

def step (e : Surroundings) (st : State) (ins : Instruction) : State × Replacement :=
  match ins.op with
  | .scopeBegin =>
    let node := st.opened + 1
    (st.enter node (e.tree.node node).kind, .keep)
  | .scopeEnd => (st.leave, .keep)
  | .declare => (st.declare (ins.refAt 0), .keep)
  | .jump => (st.commit (target? e st ins.jumpTarget), .keep)
  | .condJump => foldCondJump e st ins
  | .call | .callMethod =>
    let (st, ins, changed) := substitute st ins
    ((st.clobber e.tree e.bodies ins.function?).write ins.result .unknown, replaceIf changed ins)
  | .assign =>
    let (st, ins, changed) := substitute st ins
    let value := (literalOf (ins.refAt 1)).elim .unknown Value.known
    (st.write (ins.refAt 0) value, replaceIf changed ins)
  | .binaryOp | .compare | .unaryOp | .cast => foldOperation st ins
  | .newObject | .getProperty => (st.write ins.result .unknown, .keep)
  | .ret | .setProperty =>
    let (st, ins, changed) := substitute st ins
    (st, replaceIf changed ins)
  | _ => (st, .keep)

def foldFrom (e : Surroundings) : State → Stream → Outcome
  | _, [] => ⟨[], false⟩
  | st, ins :: rest =>
    let (st, replacement) := step e st ins
    let tail := foldFrom e st rest
    match replacement with
    | .keep => ⟨ins :: tail.code, tail.changed⟩
    | .replace new => ⟨new :: tail.code, true⟩
    | .remove => ⟨tail.code, true⟩

def run (s : Stream) : Except ScopeFault Outcome :=
  withTree s fun t => foldFrom ⟨t, functionScopes s t⟩ .initial s

end Datapack.Optimize.Folding
