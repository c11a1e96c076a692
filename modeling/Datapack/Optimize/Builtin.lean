import Datapack.Optimize.DeadCode
import Datapack.Optimize.EmptyScopes
import Datapack.Optimize.Folding
import Datapack.Optimize.Run
import Datapack.Optimize.Unreachable
import Datapack.Optimize.UnusedFunctions
import Datapack.Optimize.UselessScopes

/-!
# The built-in passes
-/

namespace Datapack.Optimize

open Ir Config

/-- The feature of a stream whose delimiters match. -/
def balancedScopes : String := "balanced_scopes"

def scopeTreeKey : String := "scope_tree"

namespace Builtin

variable {σ : Type}

/-- A pass without a state of its own. -/
def stateless (info : PassInfo) (f : Stream → Except ScopeFault Outcome) : Pass σ :=
  { info
    execute := fun w s _ =>
      match f s with
      | .ok out => (w, out.code, .ok out.changed)
      | .error fault => (w, s, .error (.scopes fault)) }

/-- What cleanup passes have in common. -/
def cleanup (name display : String) (level : OptLevel) (dependsOn : List String) : PassInfo :=
  { name, display, level, phase := .cleanup, dependsOn, requires := [balancedScopes] }

/-- Checks the delimiters and publishes the scope tree. -/
def scopeAnalysis : Pass σ :=
  { info :=
      { name := "scope_analysis", display := "Scope analysis", level := .o1, phase := .analyze,
        provides := [balancedScopes] }
    analyze := some fun w s _ =>
      (w, match ScopeTree.ofStream s with
        | .ok t => .ok [(scopeTreeKey, .scopes t)]
        | .error fault => .error (.scopes fault))
    execute := fun w s _ => (w, s, .ok false) }

def constantFolding : Pass σ :=
  stateless
    { name := "constant_folding", display := "Constant folding", level := .o1, phase := .transform,
      requires := [balancedScopes] }
    Folding.run

def deadCode : Pass σ :=
  stateless (cleanup "dead_code_elimination" "Dead code elimination" .o1 []) DeadCode.run

def declarations : Pass σ :=
  stateless
    (cleanup "declaration_cleanup" "Declaration cleanup" .o1 ["dead_code_elimination"])
    Declarations.run

def unreachable : Pass σ :=
  stateless (cleanup "unreachable_code_removal" "Unreachable code removal" .o1 [])
    fun s => .ok (Unreachable.run s)

def unusedFunctions : Pass σ :=
  stateless (cleanup "unused_function_elimination" "Unused function elimination" .o1 [])
    UnusedFunctions.run

def uselessScopes : Pass σ :=
  stateless (cleanup "useless_scope_removal" "Useless scope removal" .o2 []) UselessScopes.run

def emptyScopes : Pass σ :=
  stateless
    (cleanup "empty_scope_removal" "Empty scope removal" .o1
      ["dead_code_elimination", "declaration_cleanup", "unreachable_code_removal",
        "unused_function_elimination", "useless_scope_removal"])
    EmptyScopes.run

end Builtin

/-- The built-in passes in the order of their registration. -/
def builtins {σ : Type} : Registry σ :=
  [Builtin.scopeAnalysis, Builtin.constantFolding, Builtin.deadCode, Builtin.declarations,
    Builtin.unreachable, Builtin.unusedFunctions, Builtin.uselessScopes, Builtin.emptyScopes]

end Datapack.Optimize
