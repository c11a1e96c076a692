import Datapack.Ir.ScopeTree

/-!
# Contexts

The record a run of passes carries along: what has run, which features that provides and what
analyses found.
-/

namespace Datapack.Optimize

open Ir

inductive Finding where
  | scopes (t : ScopeTree)
  | count (n : Int)
  | note (text : String)
  deriving Inhabited

/-- The state of a run as passes see it. -/
structure Context where
  /-- The passes that have run, in order, each run listed. -/
  executed : List String := []
  /-- The features the executed passes provide. -/
  features : List String := []
  /-- What analyses found, by key. -/
  analysis : List (String × Finding) := []
  iteration : Int := 0
  maxIterations : Int := 0
  debug : Bool := false

namespace Context

def withExecuted (c : Context) (name : String) (features : List String) : Context :=
  { c with
    executed := c.executed ++ [name]
    features := c.features ++ features.eraseDups.filter (· ∉ c.features) }

/-- Record one finding, in place of an earlier one of its key. -/
def withFinding (c : Context) (found : String × Finding) : Context :=
  { c with analysis := c.analysis.filter (·.1 ≠ found.1) ++ [found] }

def withAnalysis (c : Context) (found : List (String × Finding)) : Context :=
  found.foldl withFinding c

def withIteration (c : Context) (i : Int) : Context := { c with iteration := i }

def hasFeature (c : Context) (name : String) : Bool := c.features.contains name

def hasExecuted (c : Context) (name : String) : Bool := c.executed.contains name

def finding? (c : Context) (key : String) : Option Finding := c.analysis.lookup key

end Context

end Datapack.Optimize
