import Datapack.Ir.Symbol

/-!
# Class hierarchies

A `Hierarchy` holds the members of every class and the links to its parent and interfaces. Links may
form cycles: subtyping is reachability along links and ends on every hierarchy, and `acyclic` reports
the class at which a walk along the links comes back to a class it is still visiting.
-/

namespace Datapack.Ir

/-- A field of the objects of a class. -/
structure Property where
  name : String
  type : Ty
  deriving DecidableEq, Inhabited

structure ClassDecl where
  ref : ClassRef
  properties : List Property := []
  methods : List Function := []
  parent : Option ClassRef := none
  interfaces : List ClassRef := []
  isInterface : Bool := false
  deriving Inhabited

/-- The classes linked from a class: its parent, then its interfaces. -/
def ClassDecl.links (c : ClassDecl) : List ClassRef := c.parent.toList ++ c.interfaces

/-- The classes of a program. -/
abbrev Hierarchy := List ClassDecl

namespace Hierarchy

def find? (h : Hierarchy) (c : ClassRef) : Option ClassDecl := List.find? (·.ref = c) h

def unseen (h : Hierarchy) (seen : List ClassRef) : Nat :=
  h.countP fun c => c.ref ∉ seen

theorem unseen_cons_le (h : Hierarchy) (c : ClassRef) (seen : List ClassRef) :
    h.unseen (c :: seen) ≤ h.unseen seen :=
  List.countP_mono_left fun k _ hk => by
    simp only [List.mem_cons, not_or, decide_eq_true_eq] at hk ⊢
    exact hk.2

theorem unseen_cons_lt {h : Hierarchy} {c : ClassRef} {k : ClassDecl} {seen : List ClassRef}
    (hk : h.find? c = some k) (hc : c ∉ seen) : h.unseen (c :: seen) < h.unseen seen := by
  induction h with
  | nil => simp [find?] at hk
  | cons d h ih =>
    have le := unseen_cons_le h c seen
    simp only [unseen, List.mem_cons] at le ih ⊢
    by_cases hd : d.ref = c
    · subst hd
      simp only [List.countP_cons, true_or, not_true_eq_false, decide_false, hc,
        not_false_eq_true, decide_true, if_true, Bool.false_eq_true, if_false]
      omega
    · have hk' : Hierarchy.find? h c = some k := by
        simpa [find?, List.find?_cons, hd] using hk
      have lt := ih hk'
      simp only [List.countP_cons, hd, false_or]
      omega

set_option linter.unusedVariables false in
/-- Whether `target` is met by a walk that still has `work` to visit and does not enter the classes
in `seen` again. -/
def search (h : Hierarchy) (target : ClassRef) (work seen : List ClassRef) : Bool :=
  match work with
  | [] => false
  | c :: work =>
    if hc : c ∈ seen then search h target work seen
    else if c = target then true
    else
      match hk : h.find? c with
      | none => search h target work seen
      | some k => search h target (k.links ++ work) (c :: seen)
termination_by (h.unseen seen, work.length)
decreasing_by
  · exact Prod.Lex.right _ (by simp)
  · exact Prod.Lex.right _ (by simp)
  · exact Prod.Lex.left _ _ (unseen_cons_lt hk hc)

/-- Whether `c` is `d`, extends it or implements it, directly or through other classes. -/
def isSubclass (h : Hierarchy) (c d : ClassRef) : Bool := h.search d [c] []

/-- Whether a slot of type `dst` may hold a value of type `src`: booleans are integers, and a class
holds null and the objects of its subclasses. -/
def accepts (h : Hierarchy) : Ty → Ty → Bool
  | .data d, .data s => d = s || (d = .int && s = .boolean)
  | .data _, .object _ => false
  | .object _, .data s => s = .null
  | .object d, .object s => h.isSubclass s d

/-- A class and its parents, outwards, at most `fuel` of them. -/
def lineageFrom (h : Hierarchy) : Nat → ClassRef → List ClassDecl
  | 0, _ => []
  | fuel + 1, c =>
    match h.find? c with
    | none => []
    | some k => k :: (k.parent.map (lineageFrom h fuel)).getD []

/-- A class and its parents, outwards. A chain without repetition has at most as many classes as the
hierarchy. -/
def lineage (h : Hierarchy) (c : ClassRef) : List ClassDecl := h.lineageFrom h.length c

def property? (h : Hierarchy) (c : ClassRef) (name : String) : Option Property :=
  (h.lineage c).findSome? fun k => k.properties.find? (·.name = name)

def method? (h : Hierarchy) (c : ClassRef) (name : String) : Option Function :=
  (h.lineage c).findSome? fun k => k.methods.find? (·.name = name)

def methodOwner? (h : Hierarchy) (c : ClassRef) (name : String) : Option ClassDecl :=
  (h.lineage c).find? fun k => k.methods.any (·.name = name)

/-- Visit a class depth first. `path` holds the classes being visited, `finished` those already done;
the result is the extended `finished`, or the class at which the walk closes a cycle. -/
def visit (h : Hierarchy) :
    Nat → List ClassRef → List ClassRef → ClassRef → Except ClassRef (List ClassRef)
  | 0, _, finished, _ => .ok finished
  | fuel + 1, path, finished, c =>
    if c ∈ path then .error c
    else if c ∈ finished then .ok finished
    else do
      let links := ((h.find? c).map ClassDecl.links).getD []
      let finished ← links.foldlM (fun done l => visit h fuel (c :: path) done l) finished
      return c :: finished

/-- Fails with the class that closes a cycle when some class reachable from `c` reaches itself. A walk
that meets no class twice is at most as deep as the hierarchy has classes. -/
def acyclic (h : Hierarchy) (c : ClassRef) : Except ClassRef Unit :=
  (h.visit (h.length + 2) [] [] c).map fun _ => ()

def cycleMessage (c : ClassRef) : String := "class " ++ c.name ++ ": inheritance cycle"

def setParent (h : Hierarchy) (c : ClassRef) (parent : Option ClassRef) : Hierarchy :=
  h.map fun k => if k.ref = c then { k with parent } else k

end Hierarchy

end Datapack.Ir
