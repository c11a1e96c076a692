import Datapack.Proofs.Command.Comparison
import Datapack.Proofs.Ir.Branching

/-!
# Structured bodies

Function bodies built from data statements, branches, loops and exits, with two readings.  `Eval` runs
a body directly on the values of its variables; `Stmt.stream` lays it out as instructions.  A branch is
a region in front of the jump that selects it, and a loop is three regions: the loop itself, its check
and its body, which goes back to the check.
-/

namespace Datapack.Ir.Structured

open Command

/-- The values of the variables. -/
abbrev Values := Variable → Int64

/-- What a statement reads. -/
inductive Term where
  | var (v : Variable)
  | lit (n : Int64)
  deriving DecidableEq

namespace Term

def value (σ : Values) : Term → Int64
  | var v => σ v
  | lit n => n

def ref : Term → Option Reference
  | var v => some (.var v)
  | lit n => some (.literal (.int n))

/-- A variable of the body, or a literal of 32 bits. -/
def fits (vars : List Variable) : Term → Bool
  | var v => v ∈ vars
  | lit n => isShort n

end Term

/-- A statement that gives a variable a value. -/
inductive Data where
  | assign (dst : Variable) (x : Term)
  | add (dst : Variable) (l r : Term)
  | sub (dst : Variable) (l r : Term)
  | compare (dst : Variable) (op : CompareOperator) (l r : Term)
  deriving DecidableEq

namespace Data

def dst : Data → Variable
  | assign v _ | add v _ _ | sub v _ _ | compare v _ _ _ => v

/-- The value a statement gives its variable. -/
def result (σ : Values) : Data → Int64
  | assign _ x => x.value σ
  | add _ l r => l.value σ + r.value σ
  | sub _ l r => l.value σ - r.value σ
  | compare _ op l r => comparisonOf op (l.value σ) (r.value σ)

def exec (σ : Values) (d : Data) : Values := fun v => if v = d.dst then d.result σ else σ v

def ins : Data → Instruction
  | assign v x => .assign (some (.var v)) x.ref
  | add v l r => .binaryOp (some (.var v)) .add l.ref r.ref
  | sub v l r => .binaryOp (some (.var v)) .sub l.ref r.ref
  | compare v op l r => .compare (some (.var v)) op l.ref r.ref

def fits (vars : List Variable) : Data → Bool
  | assign v x => decide (v ∈ vars) && x.fits vars
  | add v l r | sub v l r => decide (v ∈ vars) && l.fits vars && r.fits vars
  | compare v op l r => decide (v ∈ vars) && l.fits vars && r.fits vars && op ≠ .undefined

end Data

def execAll (σ : Values) (ds : List Data) : Values := ds.foldl Data.exec σ

/-- A structured body. An empty name in a branch says that this side is absent. -/
inductive Stmt where
  | skip
  | data (d : Data)
  | seq (first second : Stmt)
  | branch (cond : Variable) (onTrue : String) (yes : Stmt) (onFalse : String) (no : Stmt)
  | loop (name check body : String) (test : List Data) (cond : Variable) (round : Stmt)
  | leave (loop : String)
  | next (loop : String)
  | ret
  deriving DecidableEq

/-- How control leaves a statement before its end. -/
inductive Escape where
  | leave (loop : String)
  | next (loop : String)
  | ret
  deriving DecidableEq

/-- Run a statement: it ends at its end, or by an exit. -/
inductive Eval : Stmt → Values → Option Escape → Values → Prop where
  | skip {σ : Values} : Eval .skip σ none σ
  | data {d : Data} {σ : Values} : Eval (.data d) σ none (d.exec σ)
  | seq {a b : Stmt} {σ ρ τ : Values} {o : Option Escape} (ha : Eval a σ none ρ)
      (hb : Eval b ρ o τ) : Eval (.seq a b) σ o τ
  | seqExit {a b : Stmt} {σ τ : Values} {e : Escape} (ha : Eval a σ (some e) τ) :
      Eval (.seq a b) σ (some e) τ
  | yes {c : Variable} {t f : String} {a b : Stmt} {σ τ : Values} {o : Option Escape} (hc : σ c ≠ 0)
      (ha : Eval a σ o τ) : Eval (.branch c t a f b) σ o τ
  | no {c : Variable} {t f : String} {a b : Stmt} {σ τ : Values} {o : Option Escape} (hc : σ c = 0)
      (hb : Eval b σ o τ) : Eval (.branch c t a f b) σ o τ
  | done {l k b : String} {test : List Data} {c : Variable} {a : Stmt} {σ : Values}
      (hc : execAll σ test c = 0) : Eval (.loop l k b test c a) σ none (execAll σ test)
  | again {l k b : String} {test : List Data} {c : Variable} {a : Stmt} {σ ρ τ : Values}
      {o o' : Option Escape} (hc : execAll σ test c ≠ 0) (ha : Eval a (execAll σ test) o ρ)
      (ho : o = none ∨ o = some (.next l)) (hloop : Eval (.loop l k b test c a) ρ o' τ) :
      Eval (.loop l k b test c a) σ o' τ
  | left {l k b : String} {test : List Data} {c : Variable} {a : Stmt} {σ τ : Values}
      (hc : execAll σ test c ≠ 0) (ha : Eval a (execAll σ test) (some (.leave l)) τ) :
      Eval (.loop l k b test c a) σ none τ
  | exit {l k b : String} {test : List Data} {c : Variable} {a : Stmt} {σ τ : Values} {e : Escape}
      (hc : execAll σ test c ≠ 0) (ha : Eval a (execAll σ test) (some e) τ) (hleave : e ≠ .leave l)
      (hnext : e ≠ .next l) : Eval (.loop l k b test c a) σ (some e) τ
  | leave {l : String} {σ : Values} : Eval (.leave l) σ (some (.leave l)) σ
  | next {l : String} {σ : Values} : Eval (.next l) σ (some (.next l)) σ
  | ret {σ : Values} : Eval .ret σ (some .ret) σ

/-! ## Layout -/

def region (name : String) (kind : ScopeKind) (s : Stream) : Stream :=
  .scopeBegin name kind :: (s ++ [.scopeEnd name kind])

def side (name : String) (s : Stream) : Stream := if name = "" then [] else region name .conditional s

namespace Stmt

def stream : Stmt → Stream
  | skip => []
  | data d => [d.ins]
  | seq a b => a.stream ++ b.stream
  | branch c t a f b =>
    side t a.stream ++ side f b.stream ++ [.condJump (some (.var c)) t f]
  | loop l k b test c a =>
    region l .loop
      (region k .loopCheck
        (test.map Data.ins ++ region b .loopBody (a.stream ++ [.jump k])
          ++ [.condJump (some (.var c)) b ""])
        ++ [.jump k])
      ++ [.jump l]
  | leave l => [.breakLoop l]
  | next l => [.continueLoop l]
  | ret => [.ret none]

/-- The names of the regions of a body in the order in which they open. -/
def names : Stmt → List String
  | seq a b => a.names ++ b.names
  | branch _ t a f b =>
    (if t = "" then [] else t :: a.names) ++ (if f = "" then [] else f :: b.names)
  | loop l k b _ _ a => l :: k :: b :: a.names
  | _ => []

/-- The exits by which control may leave a statement. -/
def exits : Stmt → List Escape
  | seq a b => a.exits ++ b.exits
  | branch _ _ a _ b => a.exits ++ b.exits
  | loop l _ _ _ _ a => a.exits.filter fun e => e ≠ .leave l && e ≠ .next l
  | leave l => [.leave l]
  | next l => [.next l]
  | ret => [.ret]
  | _ => []

/-- Whether a statement uses the given variables, exits only from the given loops and has an absent
side of a branch empty. -/
def fits (vars : List Variable) (loops : List String) : Stmt → Bool
  | skip | ret => true
  | data d => d.fits vars
  | seq a b => a.fits vars loops && b.fits vars loops
  | branch c t a f b =>
    decide (c ∈ vars) && (t ≠ "" || a = skip) && (f ≠ "" || b = skip)
      && a.fits vars loops && b.fits vars loops
  | loop l _ _ test c a =>
    test.all (Data.fits vars) && decide (c ∈ vars) && a.fits vars (l :: loops)
  | leave l | next l => l ∈ loops

end Stmt

/-! ## Exits -/

theorem Eval.mem_exits {s : Stmt} {σ τ : Values} {o : Option Escape} (h : Eval s σ o τ) :
    ∀ e, o = some e → e ∈ s.exits := by
  induction h with
  | skip | data | done _ => exact nofun
  | seq _ _ _ ih =>
      intro e he
      exact List.mem_append_right _ (ih e he)
  | seqExit _ ih =>
      intro e he
      exact List.mem_append_left _ (ih e he)
  | yes _ _ ih =>
      intro e he
      exact List.mem_append_left _ (ih e he)
  | no _ _ ih =>
      intro e he
      exact List.mem_append_right _ (ih e he)
  | again _ _ _ _ _ ih => exact ih
  | left _ _ _ => exact nofun
  | exit _ _ hleave hnext ih =>
      intro e he
      cases he
      simpa [Stmt.exits, hleave, hnext] using ih _ rfl
  | leave | next | ret =>
      intro e he
      simpa [Stmt.exits] using he.symm

/-- The loops whose exits a statement may take are those around it. -/
theorem Stmt.exits_of_fits {vars : List Variable} {s : Stmt} {loops : List String}
    (h : s.fits vars loops = true) :
    ∀ e ∈ s.exits, e = .ret ∨ ∃ l ∈ loops, e = .leave l ∨ e = .next l := by
  induction s generalizing loops with
  | skip | data d => exact nofun
  | seq a b iha ihb =>
      simp only [fits, Bool.and_eq_true] at h
      intro e he
      rcases List.mem_append.mp he with he | he
      · exact iha h.1 e he
      · exact ihb h.2 e he
  | branch c t a f b iha ihb =>
      simp only [fits, Bool.and_eq_true] at h
      intro e he
      rcases List.mem_append.mp he with he | he
      · exact iha h.1.2 e he
      · exact ihb h.2 e he
  | loop l k b test c a ih =>
      simp only [fits, Bool.and_eq_true] at h
      intro e he
      simp only [exits, List.mem_filter, Bool.and_eq_true, decide_eq_true_eq] at he
      rcases ih h.2 e he.1 with hret | ⟨m, hm, hem⟩
      · exact .inl hret
      · rcases List.mem_cons.mp hm with rfl | hm
        · exact absurd hem (by simp [he.2.1, he.2.2])
        · exact .inr ⟨m, hm, hem⟩
  | leave l =>
      intro e he
      refine .inr ⟨l, by simpa [fits] using h, .inl ?_⟩
      simpa [exits] using he
  | next l =>
      intro e he
      refine .inr ⟨l, by simpa [fits] using h, .inr ?_⟩
      simpa [exits] using he
  | ret =>
      intro e he
      exact .inl (by simpa [exits] using he)

end Datapack.Ir.Structured
