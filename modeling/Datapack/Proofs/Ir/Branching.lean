import Datapack.Proofs.Ir.Execution

/-!
# Streams of conditional groups

A conditional group is one or two conditional regions with the jump that selects between them right
behind.  The streams built from data instructions and such groups, to any depth, close every region
they open.
-/

namespace Datapack.Ir

def declarations (s : Stream) : List Variable :=
  s.filterMap fun ins => if ins.op = .declare then varOf (ins.refAt 0) else none

theorem declarations_append (s t : Stream) :
    declarations (s ++ t) = declarations s ++ declarations t := by
  simp [declarations]

theorem declarations_cons_declare {ins : Instruction} (h : ins.op = .declare) (s : Stream) :
    declarations (ins :: s) = (varOf (ins.refAt 0)).toList ++ declarations s := by
  cases hv : varOf (ins.refAt 0) <;> simp [declarations, h, hv]

theorem declarations_cons_other {ins : Instruction} (h : ins.op ≠ .declare) (s : Stream) :
    declarations (ins :: s) = declarations s := by
  simp [declarations, h]

/-- The two delimiters of a conditional region. -/
structure Encloses (b e : Instruction) : Prop where
  opens : b.op = .scopeBegin
  kind : b.scopeKind = .conditional
  closes : e.op = .scopeEnd
  name : e.scopeName = b.scopeName

/-- Streams of data instructions and conditional groups. `D` are the variables that are declared
anywhere in the program and `V` those whose declaration is visible here: what is declared is used only
where its declaration is visible. -/
inductive Branching (D : List Variable) : List Variable → Stream → Prop where
  | nil {V : List Variable} : Branching D V []
  | declare {V : List Variable} {ins : Instruction} {rest : Stream} (hop : ins.op = .declare)
      (hrest : Branching D ((varOf (ins.refAt 0)).toList ++ V) rest) : Branching D V (ins :: rest)
  | data {V : List Variable} {ins : Instruction} {rest : Stream} (hdata : ins.isData = true)
      (hop : ins.op ≠ .declare) (hvars : ∀ v ∈ ins.vars, v ∈ D → v ∈ V)
      (hrest : Branching D V rest) : Branching D V (ins :: rest)
  | one {V : List Variable} {b e j : Instruction} {body rest : Stream} (hregion : Encloses b e)
      (hbody : Branching D V body) (hop : j.op = .condJump) (hvars : ∀ v ∈ j.vars, v ∈ D → v ∈ V)
      (hnamed : b.scopeName ∈ j.jumpTargets) (honly : ∀ n ∈ j.jumpTargets, n = b.scopeName)
      (hrest : Branching D V rest) : Branching D V (b :: (body ++ e :: j :: rest))
  | two {V : List Variable} {b e b' e' j : Instruction} {body body' rest : Stream}
      (hregion : Encloses b e) (hbody : Branching D V body) (hregion' : Encloses b' e')
      (hbody' : Branching D V body') (hop : j.op = .condJump)
      (hvars : ∀ v ∈ j.vars, v ∈ D → v ∈ V) (hnamed : b.scopeName ∈ j.jumpTargets)
      (hnamed' : b'.scopeName ∈ j.jumpTargets) (hrest : Branching D V rest) :
      Branching D V (b :: (body ++ e :: b' :: (body' ++ e' :: j :: rest)))

theorem closes_region {b e : Instruction} (h : Encloses b e) {body : Stream}
    (hbody : closes [] body = true) (rest : Stream) :
    closes [] (b :: (body ++ e :: rest)) = closes [] rest := by
  have happend := closes_append hbody [b.scopeName] (e :: rest)
  rw [closes_begin h.opens]
  simp only [List.nil_append] at happend
  rw [happend, closes_end h.closes, h.name]
  simp

theorem Branching.closes {D V : List Variable} {s : Stream} (h : Branching D V s) :
    Ir.closes [] s = true := by
  induction h with
  | nil => rfl
  | declare hop _ ih => rw [closes_other (by simp [hop]) (by simp [hop]), ih]
  | data hdata _ _ _ ih =>
      rw [closes_other (isData_ne hdata (by simp)) (isData_ne hdata (by simp)), ih]
  | one hregion _ hop _ _ _ _ ihbody ihrest =>
      rw [closes_region hregion ihbody, closes_other (by simp [hop]) (by simp [hop]), ihrest]
  | two hregion _ hregion' _ hop _ _ _ _ ihbody ihbody' ihrest =>
      rw [closes_region hregion ihbody, closes_region hregion' ihbody',
        closes_other (by simp [hop]) (by simp [hop]), ihrest]

theorem Position.stack_after {ns : List String} {s : Stream} (h : closes ns s = true)
    (p : Position) : (p.after s).stack = p.stack.drop ns.length := by
  induction s generalizing ns p with
  | nil =>
      cases ns with
      | nil => rfl
      | cons n ns => simp [closes] at h
  | cons ins s ih =>
      rw [after_cons]
      rcases ins.delimiter_cases with hop | hop | ⟨hb, he⟩
      · rw [closes_begin hop] at h
        rw [ih h, advance_begin p hop]
        rfl
      · cases ns with
        | nil =>
            rw [closes_end_nil hop] at h
            exact Bool.noConfusion h
        | cons n ns =>
            rw [closes_end hop, Bool.and_eq_true] at h
            rw [ih h.2, advance_end p hop]
            simp
      · rw [closes_other hb he] at h
        rw [ih h, advance_other p hb he]

end Datapack.Ir
