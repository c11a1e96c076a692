/-!
# Kinds of lexical regions
-/

namespace Datapack.Ir

/-- What a lexical region is for. -/
inductive ScopeKind where
  | global | function | object | loop | loopCheck | loopBody | interface | block | conditional
  deriving DecidableEq, Repr, Inhabited

namespace ScopeKind

def all : List ScopeKind :=
  [global, function, object, loop, loopCheck, loopBody, interface, block, conditional]

def name : ScopeKind → String
  | global => "GLOBAL"
  | function => "FUNCTION"
  | object => "CLASS"
  | loop => "LOOP"
  | loopCheck => "LOOP_CHECK"
  | loopBody => "LOOP_BODY"
  | interface => "INTERFACE"
  | block => "BLOCK"
  | conditional => "CONDITIONAL"

def ofName? (s : String) : Option ScopeKind := all.find? (·.name = s)

/-- The code of a kind, its place in `all`. -/
def code (k : ScopeKind) : Nat := all.idxOf k

/-- The name that belongs to a code, also when no kind has it. -/
def nameOfCode (n : Nat) : String := (all[n]?.map name).getD "SCOPE(?)"

/-- Whether the region is part of a loop construct. -/
def isLoop : ScopeKind → Bool
  | loop => true
  | loopCheck => true
  | loopBody => true
  | _ => false

end ScopeKind

end Datapack.Ir
