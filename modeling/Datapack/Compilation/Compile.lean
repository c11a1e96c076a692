import Datapack.Compilation.Summary
import Datapack.Diagnostic.Report
import Datapack.Document.Decode

/-!
# Compiling

From an input to a pack on disk with a report: the input is loaded, the configuration checked, and the
compilation run. The verdict is a success exactly when no error was reported. A compilation that aborts
comes to no verdict.
-/

namespace Datapack.Compilation

open Ir Dependency

/-- Where the program comes from. -/
inductive Input where
  | none
  /-- A document on disk. -/
  | file (path : String)
  | program (p : Program)

structure Request where
  input : Input
  config : Config := {}
  /-- Report with one line per finding. -/
  compact : Bool := false
  /-- Print a summary of a successful compilation. -/
  summary : Bool := false
  colours : Bool := false

structure Verdict where
  success : Bool
  stage : Stage
  findings : Bag
  /-- The report of all findings. -/
  report : String

structure Outcome (κ : Type := Shelf) [Bucket κ] where
  /-- The verdict, unless the compilation aborts. -/
  verdict : Option Verdict
  /-- What was printed on the way. -/
  printed : String := ""
  depot : Depot κ

variable {κ : Type} [Bucket κ]

namespace Outcome

def aborted (o : Outcome κ) : Bool := o.verdict.isNone

def success (o : Outcome κ) : Bool := o.verdict.any (·.success)

def stage (o : Outcome κ) : Stage := (o.verdict.map (·.stage)).getD .notStarted

/-- The report of the verdict; an abort leaves none. -/
def report (o : Outcome κ) : String := (o.verdict.map (·.report)).getD ""

end Outcome

inductive LoadFault where
  | noInput
  | notFound (path : String)
  /-- The document cannot be opened. -/
  | unreachable (fault : DiskFault)
  | malformed (message : String)
  | config (problems : List Config.Problem)

def LoadFault.diagnostic : LoadFault → Diagnostic
  | noInput => invalid "no input given"
  | notFound path => invalid ("File not found: " ++ path)
  | unreachable fault => malformedDocument (Text.ofBytes fault.message)
  | malformed message => malformedDocument message
  | config problems => invalid (Config.problemText problems)
where
  invalid (message : String) : Diagnostic :=
    { severity := .error, code := Code.invalidConfig, message }
  malformedDocument (message : String) : Diagnostic :=
    { severity := .error, code := Code.malformedDocument, message }

def readDocument (text : String) : Except LoadFault Program :=
  (Document.decode text).mapError fun e => .malformed e.message

/-- Load the document at a path; a directory holds no document. -/
def loadFile (d : Disk) (path : String) : Except LoadFault Program :=
  let rooted := Path.absolute d.workDir path
  let place := d.resolve path
  match d.readProblem? place rooted.utf8ByteSize with
  | some .missing => .error (.notFound path)
  | some problem => .error (.unreachable ⟨.openFile, Text.bytes rooted, problem⟩)
  | none =>
    match d.find? place with
    | some (.file content) => readDocument (Text.ofBytes content)
    | _ => readDocument ""

def load (d : Disk) : Input → Except LoadFault Program
  | .none => .error .noInput
  | .program p => .ok p
  | .file path => if path = "" then .error .noInput else loadFile d path

def prepare (d : Disk) (r : Request) : Except LoadFault Program := do
  let p ← load d r.input
  match r.config.problems with
  | [] => return p
  | ps => throw (.config ps)

/-- The findings of a request in the form that was asked for. -/
def Request.reportText (r : Request) (b : Bag) : String :=
  if r.compact then b.compactReport r.colours else b.report r.colours

def Request.verdict (r : Request) (stage : Stage) (findings : Bag) : Verdict :=
  { success := !findings.hasErrors, stage, findings, report := r.reportText findings }

/-- The report of a failure that nothing else reports. -/
def unexplained (e : Fault) : Diagnostic :=
  { severity := .error, category := .internal, message := e.message }

/-- All findings of a compilation that was run. An early end is among them, but an abort leaves none. -/
def findings? {σ : Type} (c : Compilation σ κ) : Option Fault → Option Bag
  | none => some c.diagnostics
  | some e =>
    if e.isAbort then none
    else some (if c.diagnostics.hasErrors then c.diagnostics else c.diagnostics ++ [unexplained e])

def compile {σ : Type} (s : Setup σ κ) (world : σ) (depot : Depot κ) (r : Request) : Outcome κ :=
  match prepare depot.disk r with
  | .error e => { verdict := some (r.verdict .notStarted [e.diagnostic]), depot }
  | .ok program =>
    let (c, e) := run s { config := r.config, program, world, depot }
    { verdict := (findings? c e).map (r.verdict c.stage)
      printed :=
        Output.progressText r.colours c.progress
          ++ if e.isNone && r.summary then c.summary r.colours else ""
      depot := c.depot }

def standardSetup (time : String) (newId : Nat → String) : Setup Unit κ :=
  { passes := Optimize.builtins, writers := Output.standardWriters time true, newId }

end Datapack.Compilation
