import Datapack.Config.Basic
import Datapack.Text.Quote

/-!
# Command-line flags

Flags come before the input file. A flag starts with one or two dashes and may carry its value behind an
equals sign; a flag that is no switch takes the next argument otherwise. Two dashes alone end the flags.
-/

namespace Datapack.CommandLine

open Text

/-- What the flags say. -/
structure Options where
  target : String := "out"
  ns : String := ""
  level : String := "O1"
  version : String := "1.21.4"
  backend : String := ""
  debug : Bool := false
  noCommands : Bool := false
  keepIr : Bool := false
  experimental : Bool := false
  recursion : Bool := false
  library : String := ""
  summary : Bool := false
  compact : Bool := false
  showVersion : Bool := false
  dependencies : List Config.Dependency := []

inductive FlagKind where
  | switch (set : Bool → Options → Options)
  | text (initial : String) (set : String → Options → Options)
  /-- A value that may be refused. -/
  | value (set : String → Options → Except String Options)

structure Flag where
  name : String
  kind : FlagKind
  help : String

/-- What stands before and behind the first `sep`. -/
def cut? (sep : Char) (s : String) : Option (String × String) :=
  match s.toList.span (· ≠ sep) with
  | (front, _ :: back) => some (String.ofList front, String.ofList back)
  | (_, []) => none

/-- Add a dependency written as name, address and digest. -/
def addDependency (v : String) (o : Options) : Except String Options :=
  match cut? '=' v with
  | none => .error ("expected name=url#sha256, got " ++ quoted v)
  | some (name, rest) =>
    match cut? '#' rest with
    | none => .error ("dependency " ++ name ++ " has no sha256")
    | some (url, digest) =>
      .ok { o with dependencies := o.dependencies ++ [{ name, url, digest }] }

def flags : List Flag :=
  let initial : Options := {}
  let debug : FlagKind := .switch fun b o => { o with debug := b }
  let version : FlagKind := .switch fun b o => { o with showVersion := b }
  [⟨"O", .text initial.level fun v o => { o with level := v }, "Optimization level (O0-O3)"⟩,
    ⟨"backend", .text "" fun v o => { o with backend := v }, "Force a back end by name"⟩,
    ⟨"compact", .switch fun b o => { o with compact := b }, "One line per diagnostic"⟩,
    ⟨"d", debug, "Enable debug output"⟩,
    ⟨"debug", debug, "Enable debug output"⟩,
    ⟨"dep", .value addDependency, "Dependency datapack as name=url#sha256 (repeatable)"⟩,
    ⟨"experimental", .switch fun b o => { o with experimental := b },
      "Enable experimental passes and builtins"⟩,
    ⟨"keep-ir", .switch fun b o => { o with keepIr := b },
      "Write the optimized IR next to the pack"⟩,
    ⟨"lib", .text "" fun v o => { o with library := v }, "Library search path"⟩,
    ⟨"mc", .text initial.version fun v o => { o with version := v },
      "Target Minecraft version, e.g. 1.21.4 or bedrock:1.21.0"⟩,
    ⟨"no-commands", .switch fun b o => { o with noCommands := b }, "Skip writing function files"⟩,
    ⟨"ns", .text "" fun v o => { o with ns := v }, "Pack namespace (default: input file name)"⟩,
    ⟨"o", .text initial.target fun v o => { o with target := v }, "Output directory"⟩,
    ⟨"recursion", .switch fun b o => { o with recursion := b },
      "Require a back end that supports recursion"⟩,
    ⟨"summary", .switch fun b o => { o with summary := b }, "Print a compilation summary"⟩,
    ⟨"v", version, "Show version"⟩,
    ⟨"version", version, "Show version"⟩]

def FlagKind.argument : FlagKind → String
  | switch _ => ""
  | text .. => " string"
  | value _ => " value"

def FlagKind.initial : FlagKind → String
  | text initial _ => if initial = "" then "" else " (default " ++ quoted initial ++ ")"
  | _ => ""

/-- The entry of a flag in the overview; a flag of one letter shares the line with its help. -/
def Flag.usage (f : Flag) : String :=
  let head := "  -" ++ f.name ++ f.kind.argument
  head ++ (if head.length ≤ 4 then "\t" else "\n    \t") ++ f.help ++ f.kind.initial ++ "\n"

def overview : String := String.join (flags.map Flag.usage)

inductive UsageFault where
  | badSyntax (argument : String)
  | unknown (flag : String)
  | noArgument (flag : String)
  | badSwitch (flag value : String)
  | badValue (flag value reason : String)
  /-- The overview was asked for. -/
  | help
  deriving DecidableEq

def UsageFault.message : UsageFault → String
  | badSyntax argument => "bad flag syntax: " ++ argument ++ "\n"
  | unknown flag => "flag provided but not defined: -" ++ flag ++ "\n"
  | noArgument flag => "flag needs an argument: -" ++ flag ++ "\n"
  | badSwitch flag value =>
    "invalid boolean value " ++ quoted value ++ " for -" ++ flag ++ ": parse error\n"
  | badValue flag value reason =>
    "invalid value " ++ quoted value ++ " for flag -" ++ flag ++ ": " ++ reason ++ "\n"
  | help => ""

def bool? (s : String) : Option Bool :=
  if ["1", "t", "T", "TRUE", "true", "True"].contains s then some true
  else if ["0", "f", "F", "FALSE", "false", "False"].contains s then some false
  else none

/-- The name in an argument and what follows its dashes, if it is a flag. -/
def body? (argument : String) : Option (List Char) :=
  match argument.toList with
  | '-' :: '-' :: body => some body
  | '-' :: c :: body => some (c :: body)
  | _ => none

def splitFlag (argument : String) (body : List Char) :
    Except UsageFault (String × Option String) :=
  match body with
  | [] => .error (.badSyntax argument)
  | c :: _ =>
    if c = '-' || c = '=' then .error (.badSyntax argument)
    else
      match cut? '=' (String.ofList body) with
      | some (name, value) => .ok (name, some value)
      | none => .ok (String.ofList body, none)

def find (name : String) : Except UsageFault Flag :=
  match flags.find? (·.name = name) with
  | some f => .ok f
  | none => .error (if name = "help" || name = "h" then .help else .unknown name)

/-- Set a flag to the value it carries or else to the first argument that follows, and leave the other
arguments. -/
def Flag.apply (f : Flag) (carried : Option String) (rest : List String) (o : Options) :
    Except UsageFault (Options × List String) :=
  match f.kind with
  | .switch set =>
    match carried with
    | none => .ok (set true o, rest)
    | some v =>
      match bool? v with
      | some b => .ok (set b o, rest)
      | none => .error (.badSwitch f.name v)
  | .text _ set =>
    match carried, rest with
    | some v, rest => .ok (set v o, rest)
    | none, v :: rest => .ok (set v o, rest)
    | none, [] => .error (.noArgument f.name)
  | .value set =>
    let use (v : String) (rest : List String) : Except UsageFault (Options × List String) :=
      match set v o with
      | .ok o => .ok (o, rest)
      | .error reason => .error (.badValue f.name v reason)
    match carried, rest with
    | some v, rest => use v rest
    | none, v :: rest => use v rest
    | none, [] => .error (.noArgument f.name)

/-- Read the flags in front of the other arguments, at most `fuel` of them. -/
def readFlags : Nat → List String → Options → Except UsageFault (Options × List String)
  | 0, args, o => .ok (o, args)
  | _, [], o => .ok (o, [])
  | fuel + 1, arg :: rest, o =>
    if arg = "--" then .ok (o, rest)
    else
      match body? arg with
      | none => .ok (o, arg :: rest)
      | some body => do
        let (name, carried) ← splitFlag arg body
        let (o, rest) ← (← find name).apply carried rest o
        readFlags fuel rest o

/-- Read the arguments: the flags and what follows them. -/
def parse (args : List String) : Except UsageFault (Options × List String) :=
  readFlags args.length args {}

end Datapack.CommandLine
