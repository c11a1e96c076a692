import Datapack.Generation.Basic

/-!
# Processing a program

A processor generates the commands of one instruction. The instructions of a program are processed in
order, each by the processor of its opcode; an opcode without one leaves a comment and a warning. A
processor that fails is reported and the rest still runs; in debug mode its failure ends the run.
-/

namespace Datapack.Generation

open Ir Command

/-- Generates the commands of an instruction. -/
abbrev Processor := Instruction → Gen Unit

structure Processors where
  handlers : List (Opcode × Processor) := []
  /-- Opcodes whose processor was replaced. -/
  replaced : List Opcode := []

namespace Processors

def register (ps : Processors) (op : Opcode) (p : Processor) : Processors :=
  if ps.handlers.any (·.1 = op) then
    { handlers := (op, p) :: ps.handlers.filter (·.1 ≠ op), replaced := ps.replaced ++ [op] }
  else { ps with handlers := (op, p) :: ps.handlers }

/-- Stands in for an opcode without a processor. -/
def fallback : Processor := fun ins => do
  let classes ← Gen.view (·.program.classes)
  Gen.emit [.comment ("unsupported: " ++ ins.text classes)]
  Gen.change (·.report (.unregisteredOpcode ins.op.name ins.loc))

def find (ps : Processors) (op : Opcode) : Processor := (ps.handlers.lookup op).getD fallback

end Processors

structure ProcessingError where
  index : Nat
  op : Opcode
  error : GenError

def ProcessingError.message (e : ProcessingError) : String :=
  "instruction " ++ toString e.index ++ " (" ++ e.op.name ++ "): " ++ e.error.message

def failureReport (ins : Instruction) : GenError → Diagnostic
  | .unsupported u => .unsupportedOperation ins.op.name ins.loc u.message
  | e => .processorFailed ins.op.name ins.loc e.message

def processFrom (ps : Processors) :
    Nat → Generation → Stream → Generation × Option ProcessingError
  | _, g, [] => (g, none)
  | i, g, ins :: rest =>
    match (ps.find ins.op ins).run { g with index := i } with
    | (.ok _, g) => processFrom ps (i + 1) g rest
    | (.error e, g) =>
      if g.config.debug then (g, some ⟨i, ins.op, e⟩)
      else processFrom ps (i + 1) (g.report (failureReport ins e)) rest

/-- Process a program. Replaced processors are reported first. -/
def process (ps : Processors) (g : Generation) : Generation × Option ProcessingError :=
  let g := ps.replaced.foldl (fun g op => g.report (.processorOverridden op.name)) g
  processFrom ps 0 g g.program.code

end Datapack.Generation
