import Datapack.Proofs.Optimize.Folding.Replacements

/-!
# What folding leaves

A folded stream holds no operation that has a value and no conditional jump that is decided.  But for
conditional jumps it has one instruction for every one of the stream it was made from, in the same order.
-/

namespace Datapack.Optimize.Folding

open Ir Revision

/-- Nothing is left to fold: an instruction is no operation that has a value and no conditional jump with
a literal that decides it. -/
structure Residual (ins : Instruction) : Prop where
  valueless : evaluate ins = none
  undecided : ins.op = .condJump → (literalOf ins.condition).bind Literal.truthy? = none

/-- An instruction with literals in place of some of the variables it reads, all else being the same. -/
structure Substitutes (ins new : Instruction) : Prop where
  op : new.op = ins.op
  loc : new.loc = ins.loc
  slots : ∀ i ∈ valueSlots ins.op, Valued (ins.refAt i) (new.refAt i)
  arguments : ins.isCall = true → List.Forall₂ (RelatesArgument Valued) ins.arguments new.arguments
  rest : ∀ i, i ∉ valueSlots ins.op → (ins.isCall = true → i ≠ ins.argumentSlot) →
    new.operand i = ins.operand i

/-- What folding may put in place of an instruction. -/
inductive Folds (ins : Instruction) : Option Instruction → Prop
  | substituted {new : Instruction} (h : Substitutes ins new) : Folds ins (some new)
  | evaluated (h : isOperation ins = true) (l : Literal) :
      Folds ins (some ((Instruction.assign (ins.refAt 0) (some (.literal l))).located ins.loc))
  | selected (hop : ins.op = .condJump) {truth : Bool} (hname : taken ins truth ≠ "") :
      Folds ins (some ((Instruction.jump (taken ins truth)).located ins.loc))
  | skipped (hop : ins.op = .condJump) {truth : Bool} (hname : taken ins truth = "") : Folds ins none

/-- The opcodes of instructions that folding leaves alone. -/
def untouched : List Opcode :=
  [.scopeBegin, .scopeEnd, .declare, .function, .classDef, .jump, .breakLoop, .continueLoop, .newObject,
    .getProperty]

variable {e : Surroundings} {st : State} {ins new : Instruction}

/-! ## One instruction -/

theorem substitutes_substitute (st : State) (ins : Instruction) :
    Substitutes ins (substitute st ins).2.1 where
  op := substitute_op st ins
  loc := substitute_loc st ins
  slots i hi := valued_substitute (by
    cases hcall : ins.isCall with
    | false => rfl
    | true => rcases op_of_isCall hcall with hop | hop <;> simp [valueSlots, hop] at hi) i
  arguments := valued_arguments
  rest _ := substitute_operand st ins

theorem folds_step (e : Surroundings) (st : State) (ins : Instruction) :
    Folds ins ((step e st ins).2.emitted ins).head? := by
  have hsubstituted := Folds.substituted (substitutes_substitute st ins)
  by_cases hop : ins.op = .condJump
  · rcases emitted_condJump e st hop with ⟨-, hemitted⟩ | ⟨truth, -, hemitted⟩
    · rwa [hemitted]
    · rw [hemitted]
      split
      · next hname => exact .skipped hop hname
      · next hname => exact .selected hop hname
  · rcases emitted_plain e st hop with ⟨-, hemitted⟩ | ⟨l, hl, hemitted⟩
    · rwa [hemitted]
    · rw [hemitted]
      exact .evaluated ((isOperation_substitute st ins).symm.trans (isOperation_of_evaluate hl)) l

theorem isSome_emitted (hop : ins.op ≠ .condJump) : ((step e st ins).2.emitted ins).head?.isSome = true := by
  rcases emitted_plain e st hop with ⟨-, hemitted⟩ | ⟨l, -, hemitted⟩
  · rw [hemitted]
    rfl
  · rw [hemitted]
    rfl

theorem emitted_untouched (e : Surroundings) (st : State) (h : ins.op ∈ untouched) :
    (step e st ins).2.emitted ins = [ins] := by
  have hstep : (step e st ins).2 = .keep := by
    simp only [untouched, List.mem_cons, List.not_mem_nil, or_false] at h
    rcases h with h | h | h | h | h | h | h | h | h | h <;> simp only [step, h]
  rw [hstep]
  rfl

/-- What a step puts in place of an instruction is not foldable. -/
theorem residual_of_emitted (h : (step e st ins).2.emitted ins = [new]) : Residual new := by
  by_cases hop : ins.op = .condJump
  · rcases emitted_condJump e st hop with ⟨htruth, hemitted⟩ | ⟨truth, -, hemitted⟩
    · obtain rfl := List.singleton_inj.1 (h.symm.trans hemitted)
      refine ⟨?_, fun _ => htruth⟩
      simp only [evaluate, substitute_op, hop]
    · rw [hemitted] at h
      split at h
      · exact absurd h (by simp)
      · obtain rfl := List.singleton_inj.1 h
        exact ⟨rfl, Opcode.noConfusion⟩
  · rcases emitted_plain e st hop with ⟨hnone, hemitted⟩ | ⟨l, -, hemitted⟩
    · obtain rfl := List.singleton_inj.1 (h.symm.trans hemitted)
      exact ⟨hnone, fun hcond => absurd ((substitute_op st ins).symm.trans hcond) hop⟩
    · obtain rfl := List.singleton_inj.1 (h.symm.trans hemitted)
      exact ⟨rfl, Opcode.noConfusion⟩

/-! ## Streams -/

theorem residual_foldFrom {s : Stream} (h : new ∈ (foldFrom e st s).code) : Residual new := by
  obtain ⟨j, hj⟩ := List.mem_iff_getElem?.1 h
  obtain ⟨pre, ins, post, -, -, hemitted⟩ := exists_source hj
  exact residual_of_emitted hemitted

/-- Nothing foldable is left of a balanced stream, and only conditional jumps go. -/
theorem run_leaves_residue {s : Stream} (hs : s.balanced = true) :
    ∃ out, run s = .ok out ∧ (∀ ins ∈ out.code, Residual ins) ∧
      ∃ w : Revision, before w = s ∧ after w = out.code ∧
        ∀ ins o, (ins, o) ∈ w → Folds ins o ∧ (ins.op ≠ .condJump → o.isSome = true) ∧
          (ins.op ∈ untouched → o = some ins) := by
  obtain ⟨t, ht⟩ := exists_tree hs
  refine ⟨_, withTree_eq ht _, fun ins hins => residual_foldFrom hins, _, before_revision _ _ s,
    after_revision _ _ s, fun ins o hmem => ?_⟩
  obtain ⟨a, b, hw⟩ := List.append_of_mem hmem
  obtain ⟨-, rfl⟩ := revision_split hw
  refine ⟨folds_step _ _ ins, isSome_emitted, fun huntouched => ?_⟩
  rw [emitted_untouched _ _ huntouched]
  rfl

/-- A comparison of a sum, which decides a jump. -/
def decidedSum : Stream :=
  let x := some (Reference.var { id := "x", name := "x", type := .data .int })
  let y := some (Reference.var { id := "y", name := "y", type := .data .int })
  let c := some (Reference.var { id := "c", name := "c", type := .data .boolean })
  [.binaryOp x .add (some (.literal (.int 1))) (some (.literal (.int 2))),
    .compare c .lt x (some (.literal (.int 4))),
    .scopeBegin "a" .conditional, .unaryOp y .neg x, .scopeEnd "a" .conditional, .condJump c "" "a"]

theorem run_leaves_residue_decidedSum :
    decidedSum.balanced = true ∧
      ∃ out, run decidedSum = .ok out ∧ (∀ ins ∈ out.code, Residual ins) ∧
        ∃ w : Revision, before w = decidedSum ∧ after w = out.code ∧
          ∀ ins o, (ins, o) ∈ w → Folds ins o ∧ (ins.op ≠ .condJump → o.isSome = true) ∧
            (ins.op ∈ untouched → o = some ins) :=
  ⟨by decide, run_leaves_residue (by decide)⟩

end Datapack.Optimize.Folding
