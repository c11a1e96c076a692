import Datapack.Dependency.Install
import Datapack.Generation.Basic
import Datapack.Optimize.Run

/-!
# Writers

A writer puts one group of files of a generated pack on disk. Writers run one after the other, each behind
a check for a cancellation; one that fails is reported and the others still run, except in debug mode, where
the first failure ends the run. A writer that aborts ends the run in any mode.
-/

namespace Datapack.Output

open Dependency

/-! ## Progress -/

section

open Text Config

/-- What a compilation in debug mode prints while it runs. -/
inductive ProgressLine where
  | phase (number : Nat) (title : String)
  /-- The program is valid. -/
  | checked (instructions : Nat)
  | pass (line : Optimize.TraceLine)
  | optimized (before after : Nat)
  | generated (generator : String) (functions helpers : Nat)
  | overlay (name : String) (versions : VersionRange)
  | wrote (writer : String)
  | succeeded (generator root : String)

def ProgressLine.text (colours : Bool) : ProgressLine → String
  | phase number title =>
    Style.cyan.paint colours ("\n[Phase " ++ toString number ++ "] " ++ title ++ "\n")
  | checked n => Style.purple.paint colours ("  ✓ " ++ toString n ++ " instructions\n")
  | pass line => line.text colours
  | optimized before after =>
    Style.purple.paint colours
      ("  ✓ " ++ toString before ++ " -> " ++ toString after ++ " instructions\n")
  | generated generator functions helpers =>
    Style.purple.paint colours
      ("  ✓ " ++ generator ++ ": " ++ toString functions ++ " functions, " ++ toString helpers
        ++ " helpers\n")
  | overlay name versions =>
    Style.cyan.paint colours
      ("  overlay " ++ name ++ " (" ++ versions.min.text ++ ".." ++ versions.max.text ++ ")\n")
  | wrote writer => Style.green.paint colours ("  ✓ " ++ writer ++ "\n")
  | succeeded generator root =>
    Style.green.paint colours
      ("\n✓ Compilation successful! (" ++ generator ++ " -> " ++ root ++ ")\n")

def progressText (colours : Bool) (lines : List ProgressLine) : String :=
  String.join (lines.map (ProgressLine.text colours))

end

/-! ## Sites and writers -/

/-- What writers work on. -/
structure Site (κ : Type := Shelf) [Bucket κ] where
  generation : Generation
  depot : Depot κ
  progress : List ProgressLine := []
  /-- What the checks before the writers and inside of them find out. -/
  cancelled : Optimize.Cancellation := false
  /-- The number of checks made so far. -/
  checks : Nat := 0

inductive WriteFault where
  | disk (fault : DiskFault)
  | install (fault : InstallFault)
  | noInstaller
  | failed (message : String)
  | cancelled
  /-- The program cannot be dumped. No other writer runs then, and nothing is reported. -/
  | aborted

/-- The wording of a failure, as bytes because the names of files need not be texts. -/
def WriteFault.messageBytes : WriteFault → List UInt8
  | disk fault => fault.message
  | install fault => fault.messageBytes
  | noInstaller => Text.bytes "no installer configured"
  | failed message => Text.bytes message
  | cancelled => Text.bytes "context canceled"
  | aborted => Text.bytes "aborted"

def WriteFault.message (f : WriteFault) : String := Text.ofBytes f.messageBytes

structure Writer (κ : Type := Shelf) [Bucket κ] where
  name : String
  write : Site κ → Site κ × Option WriteFault

variable {κ : Type} [Bucket κ]

namespace Site

/-- Whether failures end the run. -/
def debug (s : Site κ) : Bool := s.generation.config.debug

def tell (s : Site κ) (line : ProgressLine) : Site κ :=
  if s.debug then { s with progress := s.progress ++ [line] } else s

def report (s : Site κ) (d : Diagnostic) : Site κ := { s with generation := s.generation.report d }

def isCancelled (s : Site κ) : Bool := s.cancelled.seen s.checks

def checked (s : Site κ) : Site κ := { s with checks := s.checks + 1 }

/-- Write files one after the other up to the first that cannot be written. -/
def writeFiles : Site κ → List (String × String) → Site κ × Option WriteFault
  | s, [] => (s, none)
  | s, (path, text) :: files =>
    let (disk, fault) := s.depot.disk.writeText path text
    let s := { s with depot := { s.depot with disk } }
    match fault with
    | some fault => (s, some (.disk fault))
    | none => s.writeFiles files

/-- Write files like `writeFiles`, with a check before each. -/
def writeChecked : Site κ → List (String × String) → Site κ × Option WriteFault
  | s, [] => (s, none)
  | s, file :: files =>
    if s.isCancelled then (s, some .cancelled)
    else
      match s.checked.writeFiles [file] with
      | (s, none) => s.writeChecked files
      | failed => failed

end Site

def Writer.ofFiles (name : String) (files : Generation → List (String × String)) : Writer κ :=
  ⟨name, fun s => s.writeFiles (files s.generation)⟩

inductive OutputFault where
  | cancelled
  | writer (name : String) (fault : WriteFault)

/-- The wording of an early end, as bytes because the names of files need not be texts. -/
def OutputFault.messageBytes : OutputFault → List UInt8
  | cancelled => Text.bytes "context canceled"
  | writer name fault => Text.bytes ("writer " ++ name ++ ": ") ++ fault.messageBytes

def OutputFault.message (f : OutputFault) : String := Text.ofBytes f.messageBytes

def runWriters : List (Writer κ) → Site κ → Site κ × Option OutputFault
  | [], s => (s, none)
  | w :: ws, s =>
    if s.isCancelled then (s, some .cancelled)
    else
      match w.write s.checked with
      | (s, none) => runWriters ws (s.tell (.wrote w.name))
      | (s, some .aborted) => (s, some (.writer w.name .aborted))
      | (s, some fault) =>
        if s.debug then (s, some (.writer w.name fault))
        else runWriters ws (s.report (.writerFailed w.name fault.message))

end Datapack.Output
