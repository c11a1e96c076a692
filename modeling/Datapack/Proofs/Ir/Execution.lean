import Datapack.Ir.Eval
import Datapack.Proofs.Ir.ScopeTree

/-!
# Running a stream

The reference meaning of streams of data instructions and conditional regions.  A store gives every
variable a literal or no value; an operation stores what its evaluation gives.  A region that is met is
passed over, and a jump runs the body of the region it names.
-/

namespace Datapack.Ir

/-- The values of the variables. -/
abbrev Store := Variable → Option Literal

namespace Store

def value (σ : Store) (r : Option Reference) : Option Literal :=
  (literalOf r).or ((varOf r).bind σ)

/-- Write through a reference; what is no variable takes no value. -/
def write (σ : Store) (r : Option Reference) (x : Option Literal) : Store :=
  match varOf r with
  | some v => fun w => if w = v then x else σ w
  | none => σ

/-- What an operation evaluates to. -/
def computed (σ : Store) (ins : Instruction) : Option Literal :=
  match ins.op with
  | .binaryOp => do
    let l ← σ.value (ins.refAt 2)
    let r ← σ.value (ins.refAt 3)
    evalBinary ins.binaryOperator l r (typeOf (ins.refAt 0))
  | .compare => do
    let l ← σ.value (ins.refAt 2)
    let r ← σ.value (ins.refAt 3)
    evalCompare ins.compareOperator l r
  | .unaryOp => do
    let x ← σ.value (ins.refAt 2)
    evalUnary ins.unaryOperator x
  | .cast => do
    let x ← σ.value (ins.refAt 2)
    evalCast ins.castTarget x
  | .assign => σ.value (ins.refAt 1)
  | _ => none

/-- The store behind a data instruction. A declaration changes nothing. -/
def exec (σ : Store) (ins : Instruction) : Store :=
  if ins.op = .declare then σ else σ.write (ins.refAt 0) (σ.computed ins)

def selects (σ : Store) (ins : Instruction) : String :=
  if (σ.value ins.condition).bind Literal.truthy? = some true then ins.onTrue else ins.onFalse

end Store

/-- Whether an instruction computes or declares a value. -/
def Instruction.isData (ins : Instruction) : Bool :=
  match ins.op with
  | .declare | .assign | .unaryOp | .binaryOp | .compare | .cast => true
  | _ => false

/-- The instructions up to the delimiter that closes a region, `depth` regions inside it being open, and
those behind it. -/
def splitRegion (depth : Nat) : Stream → Stream × Stream
  | [] => ([], [])
  | ins :: rest =>
    if ins.op = .scopeEnd ∧ depth = 0 then ([], rest)
    else
      let inner :=
        if ins.op = .scopeEnd then depth - 1
        else if ins.op = .scopeBegin then depth + 1
        else depth
      (ins :: (splitRegion inner rest).1, (splitRegion inner rest).2)

def bodyOf (name : String) : Stream → Option Stream
  | [] => none
  | ins :: rest =>
    if ins.op = .scopeBegin ∧ ins.scopeName = name then some (splitRegion 0 rest).1
    else bodyOf name rest

/-- The stream `s`, as a part of the program `prog`, takes one store to another. -/
inductive Runs (prog : Stream) : Stream → Store → Store → Prop where
  | nil {σ : Store} : Runs prog [] σ σ
  | data {ins : Instruction} {rest : Stream} {σ τ : Store} (hdata : ins.isData = true)
      (hrest : Runs prog rest (σ.exec ins) τ) : Runs prog (ins :: rest) σ τ
  | region {ins : Instruction} {rest : Stream} {σ τ : Store} (hop : ins.op = .scopeBegin)
      (hrest : Runs prog (splitRegion 0 rest).2 σ τ) : Runs prog (ins :: rest) σ τ
  | jump {ins : Instruction} {rest body : Stream} {σ ρ τ : Store} (hop : ins.op = .jump)
      (htarget : bodyOf ins.jumpTarget prog = some body) (hbody : Runs prog body σ ρ)
      (hrest : Runs prog rest ρ τ) : Runs prog (ins :: rest) σ τ
  | branch {ins : Instruction} {rest body : Stream} {σ ρ τ : Store} (hop : ins.op = .condJump)
      (hname : σ.selects ins ≠ "") (htarget : bodyOf (σ.selects ins) prog = some body)
      (hbody : Runs prog body σ ρ) (hrest : Runs prog rest ρ τ) : Runs prog (ins :: rest) σ τ
  | skip {ins : Instruction} {rest : Stream} {σ τ : Store} (hop : ins.op = .condJump)
      (hname : σ.selects ins = "") (hrest : Runs prog rest σ τ) : Runs prog (ins :: rest) σ τ

theorem isData_ne {ins : Instruction} (h : ins.isData = true) {op : Opcode}
    (hop : op = .scopeBegin ∨ op = .scopeEnd ∨ op = .jump ∨ op = .condJump) : ins.op ≠ op := by
  rintro rfl
  rcases hop with hop | hop | hop | hop <;> simp [Instruction.isData, hop] at h

theorem Runs.deterministic {prog s : Stream} {σ τ τ' : Store} (h : Runs prog s σ τ)
    (h' : Runs prog s σ τ') : τ = τ' := by
  induction h generalizing τ' with
  | nil =>
      cases h'
      rfl
  | data hdata _ ih =>
      cases h' with
      | data _ hrest => exact ih hrest
      | region hop _ => exact absurd hop (isData_ne hdata (by simp))
      | jump hop _ _ _ => exact absurd hop (isData_ne hdata (by simp))
      | branch hop _ _ _ _ => exact absurd hop (isData_ne hdata (by simp))
      | skip hop _ _ => exact absurd hop (isData_ne hdata (by simp))
  | region hop _ ih =>
      cases h' with
      | data hdata _ => exact absurd hop (isData_ne hdata (by simp))
      | region _ hrest => exact ih hrest
      | jump hop' _ _ _ => simp [hop] at hop'
      | branch hop' _ _ _ _ => simp [hop] at hop'
      | skip hop' _ _ => simp [hop] at hop'
  | jump hop htarget _ _ ihbody ihrest =>
      cases h' with
      | data hdata _ => exact absurd hop (isData_ne hdata (by simp))
      | region hop' _ => simp [hop] at hop'
      | jump _ htarget' hbody hrest =>
          rw [htarget, Option.some.injEq] at htarget'
          subst htarget'
          have hρ := ihbody hbody
          subst hρ
          exact ihrest hrest
      | branch hop' _ _ _ _ => simp [hop] at hop'
      | skip hop' _ _ => simp [hop] at hop'
  | branch hop hname htarget _ _ ihbody ihrest =>
      cases h' with
      | data hdata _ => exact absurd hop (isData_ne hdata (by simp))
      | region hop' _ => simp [hop] at hop'
      | jump hop' _ _ _ => simp [hop] at hop'
      | branch _ _ htarget' hbody hrest =>
          rw [htarget, Option.some.injEq] at htarget'
          subst htarget'
          have hρ := ihbody hbody
          subst hρ
          exact ihrest hrest
      | skip _ hname' _ => exact absurd hname' hname
  | skip hop hname _ ih =>
      cases h' with
      | data hdata _ => exact absurd hop (isData_ne hdata (by simp))
      | region hop' _ => simp [hop] at hop'
      | jump hop' _ _ _ => simp [hop] at hop'
      | branch _ hname' _ _ _ => exact absurd hname hname'
      | skip _ _ hrest => exact ih hrest

/-! ## Bodies -/

theorem closes_append {ns : List String} {s : Stream} (h : closes ns s = true) (names : List String)
    (t : Stream) :
    closes (ns ++ names) (s ++ t) = closes names t := by
  induction s generalizing ns with
  | nil =>
      cases ns with
      | nil => rfl
      | cons n ns => simp [closes] at h
  | cons ins s ih =>
      rw [List.cons_append]
      rcases ins.delimiter_cases with hop | hop | ⟨hb, he⟩
      · rw [closes_begin hop] at h ⊢
        exact ih h
      · cases ns with
        | nil =>
            rw [closes_end_nil hop] at h
            exact Bool.noConfusion h
        | cons n ns =>
            rw [closes_end hop, Bool.and_eq_true] at h
            rw [List.cons_append, closes_end hop, h.1, ih h.2, Bool.true_and]
      · rw [closes_other hb he] at h ⊢
        exact ih h

theorem splitRegion_append {ns : List String} {s : Stream} (h : closes ns s = true) (d : Nat)
    (t : Stream) :
    splitRegion (ns.length + d) (s ++ t) = (s ++ (splitRegion d t).1, (splitRegion d t).2) := by
  induction s generalizing ns with
  | nil =>
      cases ns with
      | nil => simp
      | cons n ns => simp [closes] at h
  | cons ins s ih =>
      rw [List.cons_append, splitRegion]
      rcases ins.delimiter_cases with hop | hop | ⟨hb, he⟩
      · rw [closes_begin hop] at h
        have hrest := ih h
        rw [List.length_cons, Nat.add_right_comm] at hrest
        simp [hop, hrest]
      · cases ns with
        | nil =>
            rw [closes_end_nil hop] at h
            exact Bool.noConfusion h
        | cons n ns =>
            rw [closes_end hop, Bool.and_eq_true] at h
            have hdepth : (n :: ns).length + d = ns.length + d + 1 := by
              rw [List.length_cons]
              omega
            rw [hdepth]
            simp [hop, ih h.2]
      · rw [closes_other hb he] at h
        simp [he, hb, ih h]

theorem splitRegion_region {body : Stream} (h : closes [] body = true) {e : Instruction}
    (he : e.op = .scopeEnd) (rest : Stream) :
    splitRegion 0 (body ++ e :: rest) = (body, rest) := by
  have happend := splitRegion_append h 0 (e :: rest)
  simpa [splitRegion, he] using happend

/-- Where names are distinct, a name leads to the body of its region. -/
theorem bodyOf_region {prog body : Stream} {b e : Instruction} {pre post : Stream}
    (hprog : prog = pre ++ b :: (body ++ e :: post)) (hnodup : (regionNames prog).Nodup)
    (hb : b.op = .scopeBegin) (he : e.op = .scopeEnd) (h : closes [] body = true) :
    bodyOf b.scopeName prog = some body := by
  subst hprog
  rw [regionNames_append, regionNames_cons_begin hb, List.nodup_append] at hnodup
  have hfresh : b.scopeName ∉ regionNames pre := by
    intro hmem
    exact hnodup.2.2 _ hmem _ List.mem_cons_self rfl
  clear hnodup
  induction pre with
  | nil =>
      simp only [List.nil_append, bodyOf, hb, and_self, if_true, splitRegion_region h he]
  | cons ins pre ih =>
      rw [List.cons_append, bodyOf]
      by_cases hop : ins.op = .scopeBegin
      · rw [regionNames_cons_begin hop, List.mem_cons, not_or] at hfresh
        rw [if_neg fun hins => hfresh.1 hins.2.symm]
        exact ih hfresh.2
      · rw [regionNames_cons_other hop] at hfresh
        rw [if_neg fun hins => hop hins.1]
        exact ih hfresh

end Datapack.Ir
