import Datapack.Proofs.Ir.Thinning
import Datapack.Proofs.Optimize.Folding.Jumps
import Datapack.Proofs.Optimize.Measure

/-!
# What folding puts in place of an instruction

Every instruction of a folded stream stands in place of one of the stream it was made from, between the
same delimiters.  It is that instruction with literals for some of the variables it reads, or the
assignment of the value of an operation, or the plain jump that is left of a decided one.
-/

namespace Datapack.Optimize.Folding

open Ir

/-! ## Operands -/

/-- What may stand in place of an operand: itself or, where it is a variable, a literal. -/
inductive Valued : Option Reference → Option Reference → Prop
  | kept (r : Option Reference) : Valued r r
  | known {r : Option Reference} {v : Variable} (h : varOf r = some v) (l : Literal) :
      Valued r (some (.literal l))

namespace Valued

variable {r r' : Option Reference}

theorem isNone (h : Valued r r') : r'.isNone = r.isNone := by
  cases h with
  | kept => rfl
  | known h l =>
      cases r with
      | none => cases h
      | some r => rfl

theorem of_literal {l : Literal} (h : Valued (some (.literal l)) r') : r' = some (.literal l) := by
  cases h with
  | kept => rfl
  | known h l => cases h

end Valued

theorem relates_valued : Relates (fun _ => True) Valued where
  refl := .kept
  trans := by
    intro r r' r'' h h'
    cases h with
    | kept => exact h'
    | known h l =>
        rw [h'.of_literal]
        exact .known h l
  noted := fun _ _ => trivial
  read := fun _ h => by
    obtain ⟨v, hv, -⟩ := read_eq_some h
    exact .known hv _

/-! ## Instructions -/

variable {e : Surroundings} {st : State} {ins new : Instruction}

theorem valued_substitute (hcall : ins.isCall = false) (i : Nat) :
    Valued (ins.refAt i) ((substitute st ins).2.1.refAt i) :=
  relates_valued.refAt trivial hcall i

theorem valued_arguments (hcall : ins.isCall = true) :
    List.Forall₂ (RelatesArgument Valued) ins.arguments (substitute st ins).2.1.arguments := by
  rw [arguments_substitute st ins hcall]
  exact relates_valued.args trivial ins.arguments

/-- What may stand in place of an instruction. -/
inductive Becomes (st : State) (ins : Instruction) : Instruction → Prop
  | substituted : Becomes st ins (substitute st ins).2.1
  | evaluated (h : isOperation ins = true) (l : Literal) :
      Becomes st ins ((Instruction.assign (ins.refAt 0) (some (.literal l))).located ins.loc)
  | decided (hop : ins.op = .condJump) {truth : Bool} (htruth : verdict st ins = some truth)
      (hname : taken ins truth ≠ "") :
      Becomes st ins ((Instruction.jump (taken ins truth)).located ins.loc)

theorem substitute_of_noValues (st : State) (hslots : valueSlots ins.op = []) (hcall : ins.isCall = false) :
    (substitute st ins).2.1 = ins := by
  rw [substitute_of_not_isCall st hcall, hslots]
  rfl

theorem isOperation_of_evaluate {l : Literal} (h : evaluate ins = some l) : isOperation ins = true := by
  unfold evaluate at h
  split at h
  all_goals first
    | next hop => simp [isOperation, hop]
    | contradiction

/-- A step puts in place of an instruction that is no conditional jump what substitution makes of it or, if
that has a value, the assignment of the value. -/
theorem emitted_plain (e : Surroundings) (st : State) (hop : ins.op ≠ .condJump) :
    evaluate (substitute st ins).2.1 = none ∧ (step e st ins).2.emitted ins = [(substitute st ins).2.1] ∨
      ∃ l, evaluate (substitute st ins).2.1 = some l ∧ (step e st ins).2.emitted ins =
        [(Instruction.assign (ins.refAt 0) (some (.literal l))).located ins.loc] := by
  have hnone : isOperation ins = false → evaluate (substitute st ins).2.1 = none := by
    intro hoperation
    rw [Option.eq_none_iff_forall_ne_some]
    intro l hl
    rw [← isOperation_substitute st, isOperation_of_evaluate hl] at hoperation
    exact Bool.noConfusion hoperation
  have hsubstituted : isOperation ins = false →
      (step e st ins).2 = replaceIf (substitute st ins).2.2 (substitute st ins).2.1 →
      evaluate (substitute st ins).2.1 = none ∧
        (step e st ins).2.emitted ins = [(substitute st ins).2.1] := by
    intro hoperation hstep
    rw [hstep, emitted_substitute]
    exact ⟨hnone hoperation, rfl⟩
  have hkept : isOperation ins = false → (step e st ins).2 = .keep → valueSlots ins.op = [] →
      ins.isCall = false → evaluate (substitute st ins).2.1 = none ∧
        (step e st ins).2.emitted ins = [(substitute st ins).2.1] := by
    intro hoperation hstep hslots hcall
    refine ⟨hnone hoperation, ?_⟩
    rw [hstep, substitute_of_noValues st hslots hcall]
    rfl
  cases hcases : ins.op with
  | condJump => exact absurd hcases hop
  | binaryOp | compare | unaryOp | cast =>
      have hresult : (substitute st ins).2.1.result = ins.refAt 0 := by
        rw [Instruction.result, substitute_op]
        simp only [hcases]
        exact Instruction.refAt_congr (substitute_operand st ins (by simp [valueSlots, hcases])
          (by simp [Instruction.isCall, hcases]))
      cases hvalue : evaluate (substitute st ins).2.1 with
      | none =>
          refine .inl ⟨rfl, ?_⟩
          rw [← emitted_substitute st ins]
          simp only [step, hcases, foldOperation, hvalue]
      | some l =>
          refine .inr ⟨l, rfl, ?_⟩
          simp only [step, hcases, foldOperation, hvalue, hresult, Replacement.emitted, substitute_loc]
  | assign | call | callMethod | ret | setProperty =>
      exact .inl (hsubstituted (by simp [isOperation, hcases]) (by simp only [step, hcases]))
  | _ =>
      exact .inl (hkept (by simp [isOperation, hcases]) (by simp only [step, hcases])
        (by simp [valueSlots, hcases]) (by simp [Instruction.isCall, hcases]))

/-- In place of a conditional jump a step puts what substitution makes of it or, if that decides it, a jump
to the branch that is taken, or nothing where there is none. -/
theorem emitted_condJump (e : Surroundings) (st : State) (hop : ins.op = .condJump) :
    verdict st ins = none ∧ (step e st ins).2.emitted ins = [(substitute st ins).2.1] ∨
      ∃ truth, verdict st ins = some truth ∧ (step e st ins).2.emitted ins =
        if taken ins truth = "" then [] else [(Instruction.jump (taken ins truth)).located ins.loc] := by
  cases htruth : verdict st ins with
  | none => exact .inl ⟨rfl, by rw [step_open e hop htruth, emitted_substitute]⟩
  | some truth =>
      refine .inr ⟨truth, rfl, ?_⟩
      rw [step_decided e hop htruth]
      split
      · rfl
      · rfl

theorem becomes_of_emitted (h : (step e st ins).2.emitted ins = [new]) : Becomes st ins new := by
  by_cases hop : ins.op = .condJump
  · rcases emitted_condJump e st hop with ⟨-, hemitted⟩ | ⟨truth, htruth, hemitted⟩
    · obtain rfl := List.singleton_inj.1 (h.symm.trans hemitted)
      exact .substituted
    · rw [hemitted] at h
      split at h
      · exact absurd h (by simp)
      · next hname =>
          obtain rfl := List.singleton_inj.1 h
          exact .decided hop htruth hname
  · rcases emitted_plain e st hop with ⟨-, hemitted⟩ | ⟨l, hl, hemitted⟩
    · obtain rfl := List.singleton_inj.1 (h.symm.trans hemitted)
      exact .substituted
    · obtain rfl := List.singleton_inj.1 (h.symm.trans hemitted)
      exact .evaluated ((isOperation_substitute st ins).symm.trans (isOperation_of_evaluate hl)) l

/-! ## Streams -/

theorem emitted_cases (r : Replacement) (ins : Instruction) :
    r.emitted ins = [] ∨ ∃ new, r.emitted ins = [new] := by
  cases r with
  | keep => exact .inr ⟨ins, rfl⟩
  | replace new => exact .inr ⟨new, rfl⟩
  | remove => exact .inl rfl

/-- Every instruction of a folded stream stands in place of one of the stream. -/
theorem exists_source {s : Stream} {j : Nat} (h : (foldFrom e st s).code[j]? = some new) :
    ∃ pre ins post, s = pre ++ ins :: post ∧ (foldFrom e st pre).code.length = j ∧
      (step e (walk e st pre) ins).2.emitted ins = [new] := by
  induction s generalizing st j with
  | nil => cases h
  | cons ins s ih =>
      have hlater : ∀ {k}, (foldFrom e (step e st ins).1 s).code[k]? = some new →
          j = ((step e st ins).2.emitted ins).length + k →
          ∃ pre a post, ins :: s = pre ++ a :: post ∧ (foldFrom e st pre).code.length = j ∧
            (step e (walk e st pre) a).2.emitted a = [new] := by
        intro k hk hj
        obtain ⟨pre, a, post, rfl, hlength, hemitted⟩ := ih hk
        exact ⟨ins :: pre, a, post, rfl, by rw [code_cons, List.length_append, hlength, hj], hemitted⟩
      rw [code_cons] at h
      rcases emitted_cases (step e st ins).2 ins with hemitted | ⟨first, hemitted⟩
      · rw [hemitted, List.nil_append] at h
        exact hlater h (by rw [hemitted, List.length_nil, Nat.zero_add])
      · rw [hemitted, List.singleton_append] at h
        cases j with
        | zero =>
            obtain rfl := Option.some.inj h
            exact ⟨[], ins, s, rfl, rfl, hemitted⟩
        | succ j => exact hlater h (by rw [hemitted, List.length_singleton, Nat.add_comm])

/-- A stream with what folding puts in place of its instructions. -/
def revision (e : Surroundings) : State → Stream → Revision
  | _, [] => []
  | st, ins :: rest =>
    (ins, ((step e st ins).2.emitted ins).head?) :: revision e (step e st ins).1 rest

theorem before_revision (e : Surroundings) (st : State) (s : Stream) :
    (revision e st s).before = s := by
  induction s generalizing st with
  | nil => rfl
  | cons ins s ih => exact congrArg (ins :: ·) (ih _)

theorem after_revision (e : Surroundings) (st : State) (s : Stream) :
    (revision e st s).after = (foldFrom e st s).code := by
  induction s generalizing st with
  | nil => rfl
  | cons ins s ih =>
      rw [code_cons, ← ih]
      rcases emitted_cases (step e st ins).2 ins with hemitted | ⟨new, hemitted⟩
      · rw [revision, hemitted]
        rfl
      · rw [revision, hemitted]
        rfl

theorem revision_split {s : Stream} {a b : Revision} {o : Option Instruction}
    (h : revision e st s = a ++ (ins, o) :: b) :
    s = a.before ++ ins :: b.before ∧
      o = ((step e (walk e st a.before) ins).2.emitted ins).head? := by
  refine ⟨?_, ?_⟩
  · rw [← before_revision e st s, h, Revision.before_append]
    rfl
  · induction s generalizing st a with
    | nil => simp [revision] at h
    | cons x s ih =>
        cases a with
        | nil =>
            obtain ⟨hpair, -⟩ := List.cons.inj h
            obtain ⟨rfl, rfl⟩ := Prod.mk.inj hpair
            rfl
        | cons y a =>
            obtain ⟨rfl, hrest⟩ := List.cons.inj h
            exact (ih hrest :)

/-- Where an instruction of a folded stream stands is where the one it replaces stood. -/
theorem after_foldFrom (e : Surroundings) (st : State) (s : Stream) (p : Ir.Position) :
    p.after (foldFrom e st s).code = p.after s := by
  rw [← after_delimiters, delimiters_foldFrom, after_delimiters]

end Datapack.Optimize.Folding
