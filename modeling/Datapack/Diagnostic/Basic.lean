import Datapack.Location

/-!
# Diagnostics

A diagnostic is one finding to report; a `Bag` collects the findings of one compilation in the order in
which they arise and summarises them.
-/

namespace Datapack

/-- How serious a finding is. -/
inductive Severity where
  | error | warning | info | hint | other
  deriving DecidableEq, Repr, Inhabited

namespace Severity

def name : Severity → String
  | error => "error"
  | warning => "warning"
  | info => "info"
  | hint => "hint"
  | other => "unknown"

def ofName (s : String) : Severity :=
  ([error, warning, info, hint].find? (·.name = s)).getD other

/-- The most serious severities have the lowest rank. -/
def rank : Severity → Nat
  | error => 0
  | warning => 1
  | info => 2
  | hint => 3
  | other => 4

end Severity

/-- Who has to act on a finding. -/
inductive Category where
  /-- The program or the configuration. -/
  | input
  /-- A pass, a generator or a writer. -/
  | internal
  /-- Files or the network. -/
  | io
  deriving DecidableEq, Repr, Inhabited

def Category.name : Category → String
  | input => "input"
  | internal => "internal"
  | io => "io"

/-- The category of a name; other names stand for the input. -/
def Category.ofName (s : String) : Category :=
  ([internal, io].find? (·.name = s)).getD input

/-- A finding. -/
structure Diagnostic where
  severity : Severity
  message : String
  category : Category := .input
  code : String := ""
  location : Option Location := none
  notes : List String := []
  help : String := ""
  cause : Option String := none
  deriving DecidableEq, Repr, Inhabited

namespace Diagnostic

/-- The finding at a location; a location that is not usable is left out. -/
def located (d : Diagnostic) (loc : Option Location) : Diagnostic :=
  match loc with
  | some l => if l.isValid then { d with location := some l } else d
  | none => d

/-- The finding as a single line: location, code, message and cause. -/
def text (d : Diagnostic) : String :=
  let msg := if d.code = "" then d.message else "[" ++ d.code ++ "] " ++ d.message
  let msg :=
    match d.location with
    | some l => l.text ++ ": " ++ msg
    | none => msg
  match d.cause with
  | some c => msg ++ ": " ++ c
  | none => msg

end Diagnostic

/-- The findings of one compilation, in the order in which they arose. -/
abbrev Bag := List Diagnostic

namespace Bag

def count (b : Bag) (s : Severity) : Nat := b.countP (·.severity = s)

def errorCount (b : Bag) : Nat := b.count .error

def warningCount (b : Bag) : Nat := b.count .warning

def hasErrors (b : Bag) : Bool := 0 < b.errorCount

/-- The findings, most serious first and otherwise in order. -/
def sorted (b : Bag) : List Diagnostic :=
  b.mergeSort fun x y => x.severity.rank ≤ y.severity.rank

def withCode (b : Bag) (code : String) : List Diagnostic := b.filter (·.code = code)

def errorsOf (b : Bag) (c : Category) : Nat :=
  b.countP fun d => d.severity = .error && d.category = c

/-- The closing line of a report, empty when there is neither an error nor a warning. Categories are
listed when errors fall into more than one. -/
def summary (b : Bag) : String :=
  let errs := b.errorCount
  let warns := b.warningCount
  if 0 < errs then
    let parts := [Category.input, .internal, .io].filterMap fun c =>
      let n := b.errorsOf c
      if 0 < n then some (c.name ++ ": " ++ toString n) else none
    "Compilation failed with " ++ toString errs ++ " error(s)"
      ++ (if 1 < parts.length then " (" ++ ", ".intercalate parts ++ ")" else "")
      ++ if 0 < warns then " and " ++ toString warns ++ " warning(s)" else ""
  else if 0 < warns then "Compilation succeeded with " ++ toString warns ++ " warning(s)"
  else ""

end Bag

end Datapack
