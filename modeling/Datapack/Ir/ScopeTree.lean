import Datapack.Ir.Instruction

/-!
# Scope trees

The regions of a stream are opened and closed by delimiter instructions. `ScopeTree.ofStream` matches
the delimiters with a stack and indexes the result: node zero is the implicit global region around the
whole stream, and the other nodes stand in the order in which they open.
-/

namespace Datapack.Ir

/-- A region of a stream. -/
structure ScopeNode where
  name : String
  kind : ScopeKind
  /-- Index of the opening delimiter, `-1` for the implicit global region. -/
  first : Int
  /-- Index of the closing delimiter, the length of the stream for the implicit global region. -/
  last : Int
  /-- The nodes around this one, innermost first. -/
  outer : List Nat
  deriving DecidableEq, Repr, Inhabited

namespace ScopeNode

def parent? (n : ScopeNode) : Option Nat := n.outer.head?

def depth (n : ScopeNode) : Nat := n.outer.length

/-- Whether an instruction lies strictly inside the region. -/
def contains (n : ScopeNode) (i : Int) : Bool := n.first < i && i < n.last

end ScopeNode

/-- How the delimiters of a stream fail to match. -/
inductive ScopeFault where
  | unopened (name : String) (index : Nat)
  | crossed (name : String) (index : Nat) (innermost : String)
  | unclosed (name : String) (opened : Int)
  deriving DecidableEq, Repr

def ScopeFault.message (f : ScopeFault) : String :=
  "unbalanced SCOPE_BEGIN/SCOPE_END: " ++
    match f with
    | unopened name i =>
      "SCOPE_END " ++ Text.quoted name ++ " at " ++ toString i ++ " has no matching begin"
    | crossed name i innermost =>
      "SCOPE_END " ++ Text.quoted name ++ " at " ++ toString i ++ " closes " ++ Text.quoted innermost
    | unclosed name opened =>
      "scope " ++ Text.quoted name ++ " opened at " ++ toString opened ++ " is never closed"

/-- The regions of a stream, indexed. -/
structure ScopeTree where
  /-- The global region, then the others in the order in which they open. -/
  nodes : List ScopeNode
  /-- The innermost node of every instruction. Delimiters belong to the region they delimit. -/
  owner : List Nat
  deriving Repr, Inhabited

namespace ScopeTree

def root : Nat := 0

/-- Match the delimiters of the rest of a stream from index `i` on. `stack` holds the open nodes,
innermost first and the global one last; `owner` is kept in reverse. -/
def scan : Nat → List ScopeNode → List Nat → List Nat → Stream → Except ScopeFault ScopeTree
  | _, nodes, stack, owner, [] =>
    match stack with
    | n :: _ :: _ =>
      match nodes[n]? with
      | some node => .error (.unclosed node.name node.first)
      | none => .ok ⟨nodes, owner.reverse⟩
    | _ => .ok ⟨nodes, owner.reverse⟩
  | i, nodes, stack, owner, ins :: rest =>
    match ins.op with
    | .scopeBegin =>
      let id := nodes.length
      let node : ScopeNode := ⟨ins.scopeName, ins.scopeKind, i, -1, stack⟩
      scan (i + 1) (nodes ++ [node]) (id :: stack) (id :: owner) rest
    | .scopeEnd =>
      match stack with
      | n :: outer :: stack' =>
        let innermost := (nodes[n]?.map ScopeNode.name).getD ""
        if innermost = ins.scopeName then
          scan (i + 1) (nodes.modify n fun node => { node with last := i }) (outer :: stack')
            (n :: owner) rest
        else .error (.crossed ins.scopeName i innermost)
      | _ => .error (.unopened ins.scopeName i)
    | _ => scan (i + 1) nodes stack (stack.headD root :: owner) rest

def ofStream (s : Stream) : Except ScopeFault ScopeTree :=
  scan 0 [⟨"", .global, -1, s.length, []⟩] [root] [] s

def node (t : ScopeTree) (n : Nat) : ScopeNode := t.nodes[n]?.getD default

/-- The nodes other than the global one, in the order in which they open. -/
def inner (t : ScopeTree) : List Nat := (List.range t.nodes.length).tail

def ancestors (t : ScopeTree) (n : Nat) : List Nat := n :: (t.node n).outer

def isAncestor (t : ScopeTree) (n m : Nat) : Bool := (t.ancestors m).contains n

/-- The nodes directly inside a node, in the order in which they open. -/
def children (t : ScopeTree) (n : Nat) : List Nat :=
  (List.range t.nodes.length).filter fun m => (t.node m).parent? = some n

/-- The innermost node of instruction `i`, the global one outside the stream. -/
def nodeAt (t : ScopeTree) (i : Int) : Nat :=
  if i < 0 then root else t.owner[i.toNat]?.getD root

/-- As `nodeAt`, except that a delimiter belongs to the region around the one it delimits. -/
def enclosingAt (t : ScopeTree) (i : Int) : Nat :=
  let n := t.nodeAt i
  let node := t.node n
  if n ≠ root && (node.first = i || node.last = i) then node.parent?.getD root else n

/-- The region a name stands for, seen from a node: the nearest node around it of that name, else the
first of that name directly inside one of the nodes around it, innermost first. -/
def resolve (t : ScopeTree) (start : Nat) (name : String) : Option Nat :=
  let around := t.ancestors start
  match around.find? fun n => n ≠ root && (t.node n).name = name with
  | some n => some n
  | none => around.findSome? fun n => (t.children n).find? fun c => (t.node c).name = name

/-- The nearest node of one of the given kinds, the node itself included. -/
def enclosing (t : ScopeTree) (n : Nat) (kinds : List ScopeKind) : Option Nat :=
  (t.ancestors n).find? fun m => kinds.contains (t.node m).kind

/-- The indices of the instructions of a node that belong to no node inside it, its delimiters left
out. -/
def directly (t : ScopeTree) (n : Nat) : List Nat :=
  let node := t.node n
  t.owner.zipIdx.filterMap fun (m, i) => if m = n && node.contains i then some i else none

end ScopeTree

def Stream.balanced (s : Stream) : Bool := (ScopeTree.ofStream s).toOption.isSome

/-- The function whose body each function region is: the one defined right before the region. A
definition without its symbol gives `none`. -/
def functionScopesFrom (t : ScopeTree) : Nat → Stream → List (Nat × Option Function)
  | i, a :: b :: rest =>
    let here :=
      if a.op = .function && b.op = .scopeBegin && b.scopeKind = .function then
        [(t.nodeAt (i + 1), a.function?)]
      else []
    here ++ functionScopesFrom t (i + 1) (b :: rest)
  | _, _ => []

/-- The function regions of a stream with the functions whose bodies they are. -/
def functionScopes (s : Stream) (t : ScopeTree) : List (Nat × Option Function) :=
  functionScopesFrom t 0 s

end Datapack.Ir
