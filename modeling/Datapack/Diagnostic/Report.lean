import Datapack.Diagnostic.Basic
import Datapack.Text.Style

/-!
# Reports

The text of a bag of diagnostics, in full with a block per finding or compact with a line per finding,
and the summary below.
-/

namespace Datapack

open Text

def Severity.style : Severity → Style
  | error => .boldRed
  | warning => .boldYellow
  | info => .boldCyan
  | hint => .boldPurple
  | other => .boldPurple

namespace Diagnostic

/-- The usable location of a finding. -/
def shownLocation (d : Diagnostic) : Option Location := d.location.filter Location.isValid

def heading (colours : Bool) (d : Diagnostic) : String :=
  d.severity.style.paint colours d.severity.name
    ++ if d.code = "" then "" else "[" ++ d.code ++ "]"

/-- One labelled line below a finding. -/
def detail (colours : Bool) (style : Style) (label text : String) : String :=
  style.paint colours ("  = " ++ label ++ ": ") ++ text ++ "\n"

def full (colours : Bool) (d : Diagnostic) : String :=
  d.heading colours ++ Style.grey.paint colours (" (" ++ d.category.name ++ ")") ++ ": "
    ++ d.severity.style.paintLine colours d.message
    ++ (match d.shownLocation with
      | some l => Style.blue.paint colours ("  --> " ++ l.text ++ "\n")
      | none => "")
    ++ (match d.cause with
      | some c => detail colours .grey "cause" c
      | none => "")
    ++ String.join (d.notes.map (detail colours .cyan "note"))
    ++ (if d.help = "" then "" else detail colours .green "help" d.help)
    ++ "\n"

def compact (colours : Bool) (d : Diagnostic) : String :=
  (match d.shownLocation with
    | some l => l.text ++ ": "
    | none => "")
    ++ d.heading colours ++ ": " ++ d.message
    ++ (match d.cause with
      | some c => ": " ++ c
      | none => "")
    ++ "\n"

end Diagnostic

namespace Bag

def closing (colours : Bool) (b : Bag) : String :=
  let s := b.summary
  if s = "" then ""
  else (if b.hasErrors then Style.red else Style.orange).paintLine colours ("\n" ++ s)

def report (colours : Bool) (b : Bag) : String :=
  String.join (b.sorted.map (Diagnostic.full colours)) ++ b.closing colours

def compactReport (colours : Bool) (b : Bag) : String :=
  String.join (b.sorted.map (Diagnostic.compact colours)) ++ b.closing colours

end Bag

end Datapack
