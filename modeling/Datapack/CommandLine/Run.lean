import Datapack.CommandLine.Flag
import Datapack.Compilation.Compile

/-!
# Running the command

What the command prints and writes for its arguments, and the code with which it ends: 0 for a success, 1
for a failure and 2 for arguments that cannot be read or an abort.
-/

namespace Datapack.CommandLine

open Compilation Dependency

def toolVersion : String := "0.1.0"

structure Exit where
  code : Nat
  stdout : String := ""
  stderr : String := ""
  /-- Whether the run was aborted. -/
  aborted : Bool := false
  disk : Disk

def packName (input : String) : String :=
  let base := Path.base input
  let extension := Path.extension input
  Text.resourceName
    (if base.endsWith extension then
      String.ofList (base.toList.take (base.length - extension.length))
    else base)

def Options.config (o : Options) (input : String) : Except String Config := do
  let level ← (Config.OptLevel.ofString o.level).mapError Config.OptLevel.unknownMessage
  let version ← (Config.Version.ofString o.version).mapError (·.message)
  return {
    target := o.target
    ns := if o.ns = "" then packName input else o.ns
    level, version
    backend := o.backend
    debug := o.debug
    noCommands := o.noCommands
    keepIr := o.keepIr
    recursion := o.recursion
    dependencies := o.dependencies }

structure Surroundings (κ : Type := Shelf) [Bucket κ] where
  /-- The time that debug builds put into their files. -/
  time : String
  /-- Names of argument compounds. -/
  newId : Nat → String
  colours : Bool := false
  depot : Depot κ

variable {κ : Type} [Bucket κ]

def compileInput (s : Surroundings κ) (o : Options) (input : String) : Exit :=
  match o.config input with
  | .error message => { code := 1, stderr := message ++ "\n", disk := s.depot.disk }
  | .ok config =>
    let outcome := compile (standardSetup s.time s.newId) () s.depot
      { input := .file input, config, compact := o.compact, summary := o.summary
        colours := s.colours }
    { code := if outcome.aborted then 2 else if outcome.success then 0 else 1
      stdout := outcome.printed
      stderr := outcome.report
      aborted := outcome.aborted
      disk := outcome.depot.disk }

def run (s : Surroundings κ) (args : List String) : Exit :=
  let disk := s.depot.disk
  match parse args with
  | .error .help => { code := 0, stderr := "Usage of mcfc:\n" ++ overview, disk }
  | .error fault =>
    { code := 2, stderr := fault.message ++ "Usage of mcfc:\n" ++ overview, disk }
  | .ok (o, rest) =>
    if o.showVersion then { code := 0, stdout := "mcfc version " ++ toolVersion ++ "\n", disk }
    else
      match rest with
      | [] =>
        { code := 1, stderr := "Usage: mcfc [options] <ir.json>\n\nOptions:\n" ++ overview, disk }
      | input :: _ => compileInput s o input

def inputFile? (args : List String) : Option String :=
  match parse args with
  | .ok (_, input :: _) => some input
  | _ => none

end Datapack.CommandLine
