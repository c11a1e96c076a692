import Datapack.Generation.Lower
import Datapack.Ir.Validity
import Datapack.Optimize.Builtin
import Datapack.Output.Standard

/-!
# Compilations

A compilation takes a program through four phases: it is validated, optimized, generated and written. Each
phase moves it to the next stage or fails; a failure keeps the stage reached before and everything that was
reported and written up to it. Stages follow one another in order and none is skipped.
-/

namespace Datapack.Compilation

/-- How far a compilation has come. -/
inductive Stage where
  /-- The program is loaded and nothing is checked. -/
  | notStarted
  /-- The program is valid. -/
  | validated
  /-- The passes ran and the program is still valid. -/
  | optimized
  /-- The commands are generated. -/
  | generated
  /-- The files of the pack are written. -/
  | written
  deriving DecidableEq, Repr, Inhabited

namespace Stage

def all : List Stage := [notStarted, validated, optimized, generated, written]

def name : Stage → String
  | notStarted => "NotStarted"
  | validated => "Validated"
  | optimized => "Optimized"
  | generated => "Generated"
  | written => "Written"

def ofCode? (n : Int) : Option Stage := if n < 0 then none else all[n.toNat]?

def nameOfCode (n : Int) : String := ((ofCode? n).map name).getD "Unknown"

/-- The stage that must come directly before. -/
def prerequisite? : Stage → Option Stage
  | notStarted => none
  | validated => some notStarted
  | optimized => some validated
  | generated => some optimized
  | written => some generated

/-- Whether a compilation may move from one stage to another. -/
def canAdvance (s t : Stage) : Bool := t.prerequisite? = some s

end Stage

end Datapack.Compilation

namespace Datapack

open Ir Compilation Output Dependency

/-- The state of a compilation whose passes keep a `σ`. -/
structure Compilation (σ : Type) (κ : Type := Shelf) [Bucket κ] where
  config : Config
  program : Program
  world : σ
  depot : Depot κ
  stage : Stage := .notStarted
  diagnostics : Bag := []
  /-- What the passes left behind, once they ran. -/
  optimization : Option Optimize.Context := none
  /-- The generated pack. -/
  generation : Option Generation := none
  /-- The name of the chosen generator. -/
  generator : String := ""
  progress : List ProgressLine := []
  /-- The number of checks for a cancellation made so far. -/
  checks : Nat := 0

namespace Compilation

structure Setup (σ : Type) (κ : Type := Shelf) [Bucket κ] where
  passes : Optimize.Registry σ
  writers : List (Writer κ)
  /-- Names of argument compounds. -/
  newId : Nat → String
  /-- What the checks before the turns of passes, before the writers and inside of them find out. -/
  cancelled : Optimize.Cancellation := false
  /-- The pretty printer of contexts. -/
  dump : Optimize.Context → String := ({} : Optimize.RunMode).dump

inductive Fault where
  /-- Errors were reported. -/
  | failed
  | optimize (e : Optimize.RunError)
  | noGenerator (e : Generation.SelectError)
  | start (e : Generation.StartError)
  | generate (e : Generation.ProcessingError)
  | output (e : OutputFault)
  | stage (reached next : Stage)

def Fault.message : Fault → String
  | failed => "compilation failed with errors"
  | optimize e => e.message
  | noGenerator e => e.message
  | start e => e.message
  | generate e => e.message
  | output e => e.message
  | stage reached next => "cannot advance pipeline from " ++ reached.name ++ " to " ++ next.name

/-- Whether an early end is an abort: nothing is reported then. -/
def Fault.isAbort : Fault → Bool
  | start .undefinedFunction => true
  | output (.writer _ .aborted) => true
  | _ => false

variable {σ κ : Type} [Bucket κ]

/-- A compilation after a phase, and why it ended there. -/
abbrev Result (σ : Type) (κ : Type := Shelf) [Bucket κ] := Compilation σ κ × Option Fault

def Result.andThen (r : Result σ κ) (next : Compilation σ κ → Result σ κ) : Result σ κ :=
  match r with
  | (c, none) => next c
  | failed => failed

def tell (c : Compilation σ κ) (line : ProgressLine) : Compilation σ κ :=
  if c.config.debug then { c with progress := c.progress ++ [line] } else c

def report (c : Compilation σ κ) (d : Diagnostic) : Compilation σ κ :=
  { c with diagnostics := c.diagnostics ++ [d] }

def fail (c : Compilation σ κ) (e : Fault) : Result σ κ := (c, some e)

def advance (c : Compilation σ κ) (next : Stage) : Result σ κ :=
  if c.stage.canAdvance next then ({ c with stage := next }, none)
  else c.fail (.stage c.stage next)

/-- Report the problems of the program; any of them ends the compilation. -/
def check (c : Compilation σ κ) : Result σ κ :=
  match c.program.problems with
  | [] => (c, none)
  | ps => { c with diagnostics := c.diagnostics ++ ps.map Problem.diagnostic }.fail .failed

/-- The first phase: the program must be valid. -/
def validate (c : Compilation σ κ) : Result σ κ :=
  Result.andThen (c.tell (.phase 1 "Validate IR")).check fun c =>
    (c.tell (.checked c.program.code.length)).advance .validated

def runPasses (s : Setup σ κ) (schedule : Optimize.Schedule σ) (c : Compilation σ κ) : Result σ κ :=
  let mode : Optimize.RunMode := ⟨c.config.debug, s.cancelled.behind c.checks, s.dump⟩
  let (st, e) := schedule.run mode c.world c.program.code
  ({ c with
      program := { c.program with code := st.code }
      world := st.world
      optimization := some st.context
      diagnostics := c.diagnostics ++ st.diagnostics
      progress := c.progress ++ st.trace.map .pass
      checks := c.checks + st.checks }, e.map .optimize)

def scheduleCode : Optimize.ScheduleError → String
  | .unknown .. => Code.unknownDependency
  | .circular _ => Code.circularDependency

/-- The second phase: the passes run, and the program must be valid again. -/
def optimize (s : Setup σ κ) (c : Compilation σ κ) : Result σ κ :=
  let before := c.program.code.length
  let c := c.tell (.phase 2 ("Optimize (" ++ c.config.level.text ++ ")"))
  match Optimize.Schedule.build s.passes c.config.level with
  | .error e => (c.report (.scheduleFailed (scheduleCode e) e.message)).fail .failed
  | .ok schedule =>
    Result.andThen (c.runPasses s schedule) fun c =>
      Result.andThen c.check fun c =>
        (c.tell (.optimized before c.program.code.length)).advance .optimized

/-- The report of a configuration that no generator supports. -/
def noGenerator (e : Generation.SelectError) : Diagnostic :=
  { severity := .error, category := .input, code := Code.noBackend, message := e.message }

/-- The third phase: a generator is chosen and generates the pack. -/
def generate (s : Setup σ κ) (c : Compilation σ κ) : Result σ κ :=
  let c := c.tell (.phase 3 "Generate")
  match Generation.select c.config with
  | .error e => (c.report (noGenerator e)).fail (.noGenerator e)
  | .ok generator =>
    let c := { c with generator := generator.name }
    match Generation.start c.config c.program c.diagnostics s.newId with
    | .error e => c.fail (.start e)
    | .ok g =>
      match generator.generate g with
      | (g, some e) => { c with diagnostics := g.diagnostics }.fail (.generate e)
      | (g, none) =>
        let line := ProgressLine.generated generator.name g.regions.nonEmpty.length g.helpers.length
        ({ c with diagnostics := g.diagnostics, generation := some g }.tell line).advance .generated

/-- What the writers of a generated pack begin with. -/
def site (s : Setup σ κ) (c : Compilation σ κ) (generation : Generation) : Site κ :=
  { generation, depot := c.depot, cancelled := s.cancelled.behind c.checks }

/-- The fourth phase: the writers put the generated pack on disk. -/
def write (s : Setup σ κ) (c : Compilation σ κ) : Result σ κ :=
  let c := c.tell (.phase 4 "Write pack")
  match c.generation with
  | none => c.fail (.stage c.stage .written)
  | some generation =>
    let (site, e) := runWriters s.writers (c.site s generation)
    let c : Compilation σ κ :=
      { c with
        generation := some site.generation
        depot := site.depot
        diagnostics := site.generation.diagnostics
        progress := c.progress ++ site.progress
        checks := c.checks + site.checks }
    match e with
    | some e => c.fail (.output e)
    | none => c.advance .written

/-- The end of a compilation: it succeeds if no error was reported. -/
def conclude (c : Compilation σ κ) : Result σ κ :=
  if c.diagnostics.hasErrors then c.fail .failed
  else (c.tell (.succeeded c.generator c.config.packRoot), none)

def run (s : Setup σ κ) (c : Compilation σ κ) : Result σ κ :=
  Result.andThen c.validate fun c =>
    Result.andThen (c.optimize s) fun c =>
      Result.andThen (c.generate s) fun c =>
        Result.andThen (c.write s) conclude

end Compilation

end Datapack
