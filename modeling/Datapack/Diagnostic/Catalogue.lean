import Datapack.Diagnostic.Basic
import Datapack.Text.Quote

/-!
# The findings a compilation can report

Codes are grouped by a letter: `I` for the integrity of the program, `O` for optimization, `G` for
generation, `F` for output files and `D` for dependencies.
-/

namespace Datapack

namespace Code

def unbalancedScopes := "I0001"
def undeclaredVariable := "I0002"
def typeMismatch := "I0003"
def redeclaredSymbol := "I0004"
def missingArgument := "I0005"
def invalidCondJump := "I0006"
def invalidReference := "I0007"
def invalidReturn := "I0008"
def constantReassigned := "I0009"
def unknownProperty := "I0010"
def cyclicClass := "I0011"
def unknownArgument := "I0012"
def malformedDocument := "I0013"
def invalidConfig := "I0014"
def circularDependency := "O0002"
def passFailed := "O0003"
def unknownDependency := "O0004"
def passSkipped := "O0005"
def unregisteredOpcode := "G0001"
def processorFailed := "G0002"
def noBackend := "G0003"
def templateInvalid := "G0004"
def unsupportedOperation := "G0005"
def processorOverridden := "G0006"
def unknownBuiltin := "G0007"
def writerFailed := "F0001"
def dependencyFetch := "D0001"
def dependencyChecksum := "D0002"
def dependencyExtract := "D0003"
def dependencyHook := "D0004"

end Code

namespace Diagnostic

open Text

/-- A pass failed; the stream is as it was before the pass ran. -/
def passFailed (pass cause : String) : Diagnostic :=
  { severity := .warning
    message := "optimization pass " ++ quoted pass ++ " failed and was skipped"
    category := .internal, code := Code.passFailed, cause := some cause
    notes := ["the IR was left as it was before the pass ran"] }

def passSkipped (pass : String) : Diagnostic :=
  { severity := .info
    message := "optimization pass " ++ quoted pass ++ " never ran"
    category := .internal, code := Code.passSkipped
    notes := ["a required feature was missing or an incompatible pass ran first"] }

def scheduleFailed (code cause : String) : Diagnostic :=
  { severity := .error, message := "cannot schedule optimization passes"
    category := .internal, code, cause := some cause }

def unregisteredOpcode (op : String) (loc : Option Location) : Diagnostic :=
  { severity := .warning, message := "no processor registered for opcode " ++ op
    category := .internal, code := Code.unregisteredOpcode
    notes := ["a comment was emitted in place of the instruction"] : Diagnostic }.located loc

def processorFailed (op : String) (loc : Option Location) (cause : String) : Diagnostic :=
  { severity := .error, message := "failed to generate commands for " ++ op
    category := .internal, code := Code.processorFailed, cause := some cause : Diagnostic }.located loc

def unsupportedOperation (op : String) (loc : Option Location) (cause : String) : Diagnostic :=
  { severity := .error, message := "cannot express " ++ op ++ " on this target"
    category := .input, code := Code.unsupportedOperation
    cause := some cause : Diagnostic }.located loc

def writerFailed (writer cause : String) : Diagnostic :=
  { severity := .error, message := "output writer " ++ quoted writer ++ " failed"
    category := .io, code := Code.writerFailed, cause := some cause }

def templateInvalid (name cause : String) : Diagnostic :=
  { severity := .error, message := "invalid arguments for command template " ++ quoted name
    category := .input, code := Code.templateInvalid, cause := some cause
    help := "no commands were emitted for this call" }

def dependencySkipped (name code cause : String) : Diagnostic :=
  { severity := .error, message := "dependency " ++ quoted name ++ " skipped"
    category := .io, code, cause := some cause }

def processorOverridden (op : String) : Diagnostic :=
  { severity := .warning, message := "processor for opcode " ++ op ++ " was replaced"
    category := .internal, code := Code.processorOverridden }

def unknownBuiltin (name : String) (loc : Option Location) : Diagnostic :=
  { severity := .error, message := "unknown builtin function " ++ name
    category := .input, code := Code.unknownBuiltin : Diagnostic }.located loc

end Diagnostic

end Datapack
