import Datapack.Ir.Eval
import Datapack.Ir.ScopeTree

/-!
# Known values

What constant folding knows while it walks a stream. Every open region has a frame with the values
written in it; reads search the frames from the inside out. A value is forgotten when the search
leaves a loop or a definition, unless it belongs to a constant, and nothing is known inside a loop
header, which may run again. A conditional region leaves its frame behind as a pending branch until
the jump that selects it is met.
-/

namespace Datapack.Optimize.Folding

open Ir

/-- What is known of a variable. -/
inductive Value where
  | unknown
  | known (l : Literal)
  deriving DecidableEq, Inhabited

def Value.literal? : Value → Option Literal
  | known l => some l
  | unknown => none

/-- Values of variables, each variable once. -/
abbrev Env := List (Variable × Value)

namespace Env

def get? (e : Env) (v : Variable) : Option Value := e.lookup v

def set (e : Env) (v : Variable) (x : Value) : Env := (v, x) :: e.filter (·.1 ≠ v)

def vars (e : Env) : List Variable := e.map Prod.fst

end Env

def addOnce {α : Type} [DecidableEq α] (xs : List α) (a : α) : List α :=
  if a ∈ xs then xs else a :: xs

/-- What happened in an open region. -/
structure Frame where
  node : Nat
  kind : ScopeKind
  values : Env := []
  written : List Variable := []
  declared : List Variable := []

namespace Frame

def write (f : Frame) (v : Variable) (x : Value) : Frame :=
  { f with values := f.values.set v x, written := addOnce f.written v }

def declare (f : Frame) (v : Variable) : Frame :=
  { f with values := f.values.set v .unknown, declared := addOnce f.declared v }

/-- The written variables that are not the region's own. -/
def escaping (f : Frame) : List Variable := f.written.filter (· ∉ f.declared)

end Frame

/-- What a conditional region leaves behind until it is selected. -/
structure Branch where
  parent : Nat
  values : Env
  written : List Variable

def Branch.valueOf (b : Branch) (v : Variable) : Value := (b.values.get? v).getD .unknown

/-- What is known at a point of a stream. -/
structure State where
  /-- The innermost frame. -/
  top : Frame
  /-- The frames around it, inside out. -/
  outer : List Frame := []
  /-- The number of regions opened so far. -/
  opened : Nat := 0
  /-- Variables known to be assigned once. -/
  constants : List Variable := []
  /-- What was known in a region before the conditional regions that are pending there. -/
  bases : List (Nat × Env) := []
  pending : List (Nat × Branch) := []

namespace State

def initial : State := { top := ⟨ScopeTree.root, .global, [], [], []⟩ }

/-- The frames from the inside out. -/
def frames (st : State) : List Frame := st.top :: st.outer

/-- Regions whose surroundings may have changed when they run. -/
def isBoundary : ScopeKind → Bool
  | .loop | .loopCheck | .loopBody | .function | .object | .interface => true
  | _ => false

/-- The nearest value of a variable in a list of frames; `crossed` says whether a boundary has been
left on the way there. -/
def search (constant : Bool) (v : Variable) : Bool → List Frame → Option Value
  | _, [] => none
  | crossed, f :: fs =>
    match f.values.get? v with
    | some (.known l) => some (if crossed && !constant then .unknown else .known l)
    | some .unknown => some .unknown
    | none => search constant v (crossed || isBoundary f.kind) fs

/-- What is known of a variable, `none` when it has not been met. -/
def lookup (st : State) (v : Variable) : Option Value :=
  if st.frames.any (·.kind = .loopCheck) then some .unknown
  else search (v ∈ st.constants) v false st.frames

/-- Everything that is known. -/
def flatten (st : State) : Env :=
  (st.frames.flatMap (·.values.vars)).eraseDups.filterMap fun v => (st.lookup v).map (v, ·)

def noteConstant (st : State) (r : Option Reference) : State :=
  match varOf r with
  | some v => if isConstantRef r then { st with constants := addOnce st.constants v } else st
  | none => st

/-- Record the value of a variable in the innermost frame. -/
def store (st : State) (v : Variable) (x : Value) : State := { st with top := st.top.write v x }

def storeAll (st : State) (vs : List Variable) (x : Variable → Value) : State :=
  vs.foldl (fun st v => st.store v (x v)) st

def write (st : State) (r : Option Reference) (x : Value) : State :=
  match varOf r with
  | some v => (st.noteConstant r).store v x
  | none => st

def declare (st : State) (r : Option Reference) : State :=
  match varOf r with
  | some v =>
    let st := st.noteConstant r
    { st with top := st.top.declare v }
  | none => st

/-- The literal a read of a primitive variable gives. -/
def read (st : State) (r : Option Reference) : State × Option Literal :=
  match varOf r with
  | some v =>
    if v.type.isPrimitive then
      let st := st.noteConstant r
      (st, (st.lookup v).bind Value.literal?)
    else (st, none)
  | none => (st, none)

def branch? (st : State) (n : Option Nat) : Option Branch := n.bind fun n => st.pending.lookup n

/-- Forget the pending branch of a region. -/
def settle (st : State) (n : Option Nat) : State :=
  { st with pending := st.pending.filter fun p => some p.1 ≠ n }

/-- Forget what was known before the conditional regions of a region. -/
def dropBase (st : State) (n : Nat) : State :=
  { st with bases := st.bases.filter (·.1 ≠ n) }

/-- Take over what the pending branch of a region wrote. -/
def commit (st : State) (n : Option Nat) : State :=
  match st.branch? n with
  | some b => (st.storeAll b.written b.valueOf).settle n
  | none => st

/-- Open a region. A conditional region starts from what was known before its siblings. -/
def enter (st : State) (node : Nat) (kind : ScopeKind) : State :=
  let st := { st with opened := st.opened + 1 }
  if kind = .conditional then
    match st.bases.lookup st.top.node with
    | some base => { st with top := ⟨node, kind, base, [], []⟩, outer := st.frames }
    | none =>
      let base := st.flatten
      { st with
        top := ⟨node, kind, base, [], []⟩, outer := st.frames
        bases := (st.top.node, base) :: st.bases }
  else { st with top := ⟨node, kind, [], [], []⟩, outer := st.frames }

/-- Close a region. Its pending branches may or may not have run, and what it wrote is unknown outside,
except that a conditional region becomes a pending branch. -/
def leave (st : State) : State :=
  match st.outer with
  | [] => st
  | next :: outer =>
    let node := st.top.node
    let mine := st.pending.filter (·.2.parent = node)
    let st := st.storeAll (mine.flatMap (·.2.written)) fun _ => .unknown
    let closed := st.top
    let st : State :=
      { st with
        top := next, outer
        bases := st.bases.filter (·.1 ≠ node)
        pending := st.pending.filter (·.2.parent ≠ node) }
    if closed.kind = .conditional then
      { st with pending := (node, ⟨next.node, closed.values, closed.escaping⟩) :: st.pending }
    else st.storeAll closed.escaping fun _ => .unknown

/-- The frames up to the innermost function, if there is one around. -/
def upToFunction : List Frame → Option (List Frame × Frame)
  | [] => none
  | f :: fs =>
    if f.kind = .function then some ([f], f)
    else (upToFunction fs).map fun (own, g) => (f :: own, g)

/-- Forget what a call may overwrite: everything, if the caller is no function or the body of the
callee lies inside it, and otherwise the variables that are not the caller's own. -/
def clobber (st : State) (t : ScopeTree) (bodies : List (Nat × Option Function))
    (callee : Option Function) : State :=
  let vars := st.flatten.vars
  match upToFunction st.frames with
  | none => st.storeAll vars fun _ => .unknown
  | some (own, caller) =>
    if bodies.any fun (n, f) => f = callee && t.isAncestor caller.node n then
      st.storeAll vars fun _ => .unknown
    else
      st.storeAll (vars.filter fun v => !own.any (v ∈ ·.declared)) fun _ => .unknown

def outcomeOf (st : State) (b : Option Branch) (v : Variable) : Option Value :=
  match b with
  | some b => some (b.valueOf v)
  | none => st.lookup v

/-- Two outcomes together: a value both agree on, or unknown. -/
def agree : Option Value → Option Value → Value
  | some (.known a), some (.known b) => if a = b then .known a else .unknown
  | _, _ => .unknown

/-- Merge the pending branches of a conditional jump. -/
def merge (st : State) (onTrue onFalse : Option Nat) : State :=
  let tb := st.branch? onTrue
  let fb := st.branch? onFalse
  if tb.isNone && fb.isNone then st
  else
    let vars := ((tb.map (·.written)).getD [] ++ (fb.map (·.written)).getD []).eraseDups
    let st := st.storeAll vars fun v => agree (st.outcomeOf tb v) (st.outcomeOf fb v)
    ((st.settle onTrue).settle onFalse).dropBase st.top.node

end State

end Datapack.Optimize.Folding
