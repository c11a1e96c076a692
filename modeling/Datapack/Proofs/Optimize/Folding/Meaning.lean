import Datapack.Proofs.Ir.Execution
import Datapack.Proofs.Optimize.Folding.Step

/-!
# Folding keeps the meaning of conditional code

A store satisfies the frames of a walk when every value found in them is the value of its variable.
Folding a data instruction keeps that, and the folded instruction does to such a store what the
original does.  A conditional region leaves a pending branch that is right about every store its body
can end in; a jump that takes the branch, or merges it with another one, is then right as well.
-/

namespace Datapack.Optimize.Folding

open Ir

/-- The store has every value that is found in the frames. -/
def Satisfies (σ : Store) (fs : List Frame) : Prop :=
  ∀ v l, State.hit v fs = some (.known l) → σ v = some l

/-! ## Operands -/

theorem value_literal (σ : Store) (l : Literal) : σ.value (some (.literal l)) = some l := rfl

theorem value_of_varOf {σ : Store} {r : Option Reference} {v : Variable} (h : varOf r = some v) :
    σ.value r = σ v := by
  cases r with
  | none => simp [varOf] at h
  | some r => cases r <;> simp_all [varOf, Store.value, literalOf, Reference.var?, Reference.literal?]

theorem value_of_literalOf {σ : Store} {r : Option Reference} {l : Literal}
    (h : literalOf r = some l) : σ.value r = some l := by
  rw [Store.value, h]
  rfl

theorem value_read {σ : Store} {st : State} (hσ : Satisfies σ st.frames) {r : Option Reference}
    {l : Literal} (h : (st.read r).2 = some l) : σ.value r = some l := by
  obtain ⟨v, hv, hhit⟩ := read_eq_some h
  rw [value_of_varOf hv]
  exact hσ v l hhit

theorem value_substituteSlots {σ : Store} (slots : List Nat) {st : State}
    (hσ : Satisfies σ st.frames) (ins : Instruction) (changed : Bool) (i : Nat) :
    σ.value ((slots.foldl substituteSlot (st, ins, changed)).2.1.refAt i) = σ.value (ins.refAt i) := by
  induction slots generalizing st ins changed with
  | nil => rfl
  | cons j slots ih =>
      rw [List.foldl_cons, substituteSlot_eq]
      have hσ' : Satisfies σ (st.read (ins.refAt j)).1.frames := by
        rw [(noted_read st _).frames]
        exact hσ
      cases hread : (st.read (ins.refAt j)).2 with
      | none => exact ih hσ' ins changed
      | some l =>
          simp only
          rw [ih hσ']
          by_cases hi : i = j
          · subst hi
            rw [Instruction.refAt_setOperand_reference, value_literal, value_read hσ hread]
          · rw [Instruction.refAt_setOperand_ne _ _ hi]

/-- Substitution keeps the value of every operand. -/
theorem value_substitute {σ : Store} {st : State} (hσ : Satisfies σ st.frames) {ins : Instruction}
    (hcall : ins.isCall = false) (i : Nat) :
    σ.value ((substitute st ins).2.1.refAt i) = σ.value (ins.refAt i) := by
  rw [substitute_of_not_isCall st hcall]
  exact value_substituteSlots _ hσ ins false i

/-! ## Data instructions -/

theorem isData_isCall {ins : Instruction} (h : ins.isData = true) : ins.isCall = false := by
  unfold Instruction.isData at h
  unfold Instruction.isCall
  split at h <;> simp_all

theorem operand_substitute_data (st : State) {ins : Instruction} (h : ins.isData = true)
    {i : Nat} (hi : i ≤ 1) (hassign : ins.op = .assign → i ≠ 1) :
    (substitute st ins).2.1.operand i = ins.operand i := by
  refine substitute_operand st ins ?_ ?_
  · unfold Instruction.isData at h
    unfold valueSlots
    split at h <;> simp_all <;> omega
  · simp [isData_isCall h]

theorem refAt_zero_substitute (st : State) {ins : Instruction} (h : ins.isData = true) :
    (substitute st ins).2.1.refAt 0 = ins.refAt 0 :=
  Instruction.refAt_congr (operand_substitute_data st h (Nat.zero_le 1) (by simp))

theorem computed_substitute {σ : Store} {st : State} (hσ : Satisfies σ st.frames)
    {ins : Instruction} (h : ins.isData = true) :
    σ.computed (substitute st ins).2.1 = σ.computed ins := by
  have hvalue := value_substitute hσ (isData_isCall h)
  unfold Store.computed
  rw [substitute_op]
  by_cases hop : ins.op = .assign
  · simp only [hop, hvalue]
  · have hone := operand_substitute_data st h (Nat.le_refl 1) fun hop' => absurd hop' hop
    have hzero := Instruction.refAt_congr
      (operand_substitute_data st h (Nat.zero_le 1) (by simp))
    simp only [hvalue, Instruction.unaryOperator, Instruction.binaryOperator,
      Instruction.compareOperator, Instruction.castTarget, hone, hzero]

theorem exec_substitute {σ : Store} {st : State} (hσ : Satisfies σ st.frames)
    {ins : Instruction} (h : ins.isData = true) : σ.exec (substitute st ins).2.1 = σ.exec ins := by
  have hzero := Instruction.refAt_congr
    (operand_substitute_data st h (Nat.zero_le 1) (by simp))
  rw [Store.exec, Store.exec, substitute_op, computed_substitute hσ h, hzero]

theorem computed_of_evaluate {ins : Instruction} {l : Literal} (h : evaluate ins = some l)
    (σ : Store) : σ.computed ins = some l := by
  unfold evaluate at h
  unfold Store.computed
  split at h
  · rename_i hop
    obtain ⟨x, hx, h⟩ := Option.bind_eq_some_iff.1 h
    obtain ⟨y, hy, h⟩ := Option.bind_eq_some_iff.1 h
    simp [hop, value_of_literalOf hx, value_of_literalOf hy, h]
  · rename_i hop
    obtain ⟨x, hx, h⟩ := Option.bind_eq_some_iff.1 h
    obtain ⟨y, hy, h⟩ := Option.bind_eq_some_iff.1 h
    simp [hop, value_of_literalOf hx, value_of_literalOf hy, h]
  · rename_i hop
    obtain ⟨x, hx, h⟩ := Option.bind_eq_some_iff.1 h
    simp [hop, value_of_literalOf hx, h]
  · rename_i hop
    obtain ⟨x, hx, h⟩ := Option.bind_eq_some_iff.1 h
    simp [hop, value_of_literalOf hx, h]
  · simp at h

/-- A data instruction that is no declaration writes its target and stays a data instruction with the
same effect; a value that is recorded for the target is the one it computes. -/
theorem step_data (e : Surroundings) (st : State) {ins : Instruction} (h : ins.isData = true)
    (hdecl : ins.op ≠ .declare) :
    ∃ st' x new, Noted st st' ∧ (step e st ins).1 = st'.write (ins.refAt 0) x ∧
      (step e st ins).2.emitted ins = [new] ∧ new.isData = true ∧
      ∀ σ, Satisfies σ st.frames →
        σ.exec new = σ.exec ins ∧ ∀ l, x = .known l → σ.computed ins = some l := by
  have hzero := Instruction.refAt_congr (operand_substitute_data st h (Nat.zero_le 1) (by simp))
  have hdata : (substitute st ins).2.1.isData = true := by
    simpa only [Instruction.isData, substitute_op] using h
  by_cases hassign : ins.op = .assign
  · refine ⟨(substitute st ins).1,
      (literalOf ((substitute st ins).2.1.refAt 1)).elim .unknown Value.known,
      (substitute st ins).2.1, noted_substitute st ins, ?_, ?_, hdata, ?_⟩
    · simp only [step, hassign, hzero]
    · simp only [step, hassign, emitted_substitute]
    · intro σ hσ
      refine ⟨exec_substitute hσ h, fun l hl => ?_⟩
      rw [← computed_substitute hσ h]
      simp only [Store.computed, substitute_op, hassign]
      cases hlit : literalOf ((substitute st ins).2.1.refAt 1) with
      | none => simp [hlit] at hl
      | some k =>
          simp only [hlit, Option.elim_some, Value.known.injEq] at hl
          rw [value_of_literalOf hlit, hl]
  · have hstep : step e st ins = foldOperation st ins := by
      unfold Instruction.isData at h
      unfold step
      split at h <;> simp_all
    have hresult : (substitute st ins).2.1.result = ins.refAt 0 := by
      rw [← hzero]
      unfold Instruction.result
      rw [substitute_op]
      unfold Instruction.isData at h
      split at h <;> simp_all
    rw [hstep, foldOperation]
    simp only [hresult]
    cases heval : evaluate (substitute st ins).2.1 with
    | some l =>
        refine ⟨(substitute st ins).1, .known l, _, noted_substitute st ins, rfl, rfl, rfl, ?_⟩
        intro σ hσ
        have hcomputed : σ.computed ins = some l := by
          rw [← computed_substitute hσ h]
          exact computed_of_evaluate heval σ
        refine ⟨?_, fun k hk => ?_⟩
        · rw [Store.exec, Store.exec, if_neg hdecl, hcomputed]
          rfl
        · cases hk
          exact hcomputed
    | none =>
        refine ⟨(substitute st ins).1, .unknown, (substitute st ins).2.1, noted_substitute st ins,
          rfl, emitted_substitute st ins, hdata, ?_⟩
        intro σ hσ
        exact ⟨exec_substitute hσ h, fun k hk => by simp at hk⟩

/-! ## What a store satisfies -/

theorem hit_storeAll (st : State) (vs : List Variable) (x : Variable → Value) (v : Variable) :
    State.hit v (st.storeAll vs x).frames = if v ∈ vs then some (x v) else State.hit v st.frames := by
  simp only [State.frames, State.hit_cons, State.storeAll_values, State.storeAll_outer]
  split <;> simp

theorem hit_store (st : State) (w : Variable) (x : Value) (v : Variable) :
    State.hit v (st.store w x).frames = if v = w then some x else State.hit v st.frames :=
  (hit_storeAll st [w] (fun _ => x) v).trans (if_congr List.mem_singleton rfl rfl)

theorem hit_declare (st : State) (r : Option Reference) (v : Variable) :
    State.hit v (st.declare r).frames =
      if varOf r = some v then some .unknown else State.hit v st.frames := by
  unfold State.declare
  cases hr : varOf r with
  | none => simp
  | some w =>
      simp only [State.frames, State.hit_cons, Frame.declare, Env.get?_set, Option.some.injEq,
        (noted_noteConstant st r).top, (noted_noteConstant st r).outer]
      by_cases hv : v = w
      · simp [hv]
      · simp [hv, Ne.symm hv]

theorem hit_write (st : State) (r : Option Reference) (x : Value) (v : Variable) :
    State.hit v (st.write r x).frames =
      if varOf r = some v then some x else State.hit v st.frames := by
  unfold State.write
  cases hr : varOf r with
  | none => simp
  | some w =>
      simp only [hit_store, (noted_noteConstant st r).frames, Option.some.injEq]
      by_cases hv : v = w
      · simp [hv]
      · simp [hv, Ne.symm hv]

theorem write_apply (σ : Store) (r : Option Reference) (x : Option Literal) (v : Variable) :
    σ.write r x v = if varOf r = some v then x else σ v := by
  unfold Store.write
  cases hr : varOf r with
  | none => simp
  | some w =>
      simp only [Option.some.injEq]
      by_cases hv : v = w
      · simp [hv]
      · simp [hv, Ne.symm hv]

theorem Satisfies.write {σ : Store} {st : State} (hσ : Satisfies σ st.frames)
    (r : Option Reference) {x : Value} {y : Option Literal} (hxy : ∀ l, x = .known l → y = some l) :
    Satisfies (σ.write r y) (st.write r x).frames := by
  intro v l hv
  rw [hit_write] at hv
  rw [write_apply]
  by_cases hr : varOf r = some v
  · rw [if_pos hr, Option.some.injEq] at hv
    rw [if_pos hr]
    exact hxy l hv
  · rw [if_neg hr] at hv
    rw [if_neg hr]
    exact hσ v l hv

theorem Satisfies.declare {σ : Store} {st : State} (hσ : Satisfies σ st.frames)
    (r : Option Reference) : Satisfies σ (st.declare r).frames := by
  intro v l hv
  rw [hit_declare] at hv
  split at hv
  · simp at hv
  · exact hσ v l hv

end Datapack.Optimize.Folding
