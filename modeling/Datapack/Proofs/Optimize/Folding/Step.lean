import Mathlib.Data.List.Forall2
import Datapack.Proofs.Ir.ScopeTree
import Datapack.Proofs.Optimize.Folding.State

/-!
# Folding one instruction

What substitution changes: of the state only the set of constants, and of an instruction only the
slots that hold values, each of which keeps its operand or receives the nearest value of its variable.
A step emits at most one instruction in place of the one it reads, and delimiters pass unchanged.
-/

namespace Datapack.Ir.Instruction

variable (ins : Instruction) (i j : Nat) (x : Operand)

@[simp] theorem setOperand_op : (ins.setOperand i x).op = ins.op := rfl

theorem operand_setOperand :
    (ins.setOperand i x).operand j = if j = i then x else ins.operand j := by
  unfold operand setOperand
  simp only
  by_cases hj : j = i
  · subst hj
    rw [List.getElem?_set_self (by simp; omega)]
    simp
  · rw [List.getElem?_set_ne (Ne.symm hj), if_neg hj]
    by_cases hlen : j < ins.operands.length
    · rw [List.getElem?_append_left hlen]
    · rw [List.getElem?_append_right (by omega), List.getElem?_replicate,
        List.getElem?_eq_none (by omega : ins.operands.length ≤ j)]
      split <;> rfl

theorem refAt_congr {a b : Instruction} {i : Nat} (h : a.operand i = b.operand i) :
    a.refAt i = b.refAt i := by
  simp only [refAt, h]

theorem textAt_congr {a b : Instruction} {i : Nat} (h : a.operand i = b.operand i) :
    a.textAt i = b.textAt i := by
  simp only [textAt, h]

theorem refAt_setOperand_ne {i j : Nat} (h : j ≠ i) : (ins.setOperand i x).refAt j = ins.refAt j :=
  refAt_congr (by rw [operand_setOperand, if_neg h])

theorem refAt_setOperand_reference (r : Option Reference) :
    (ins.setOperand i (.reference r)).refAt i = r := by
  unfold refAt
  rw [operand_setOperand, if_pos rfl]

end Datapack.Ir.Instruction

namespace Datapack.Optimize.Folding

open Ir

theorem eq_of_literalOf {r : Option Reference} {l : Literal} (h : literalOf r = some l) :
    r = some (.literal l) := by
  cases r with
  | none => simp [literalOf] at h
  | some r => cases r <;> simp_all [literalOf, Reference.literal?]

/-! ## Noting constants -/

/-- The same state with more constants. -/
def Noted (st st' : State) : Prop :=
  ∃ cs, st' = { st with constants := cs } ∧ ∀ v ∈ st.constants, v ∈ cs

namespace Noted

variable {st st' st'' : State}

theorem refl (st : State) : Noted st st := ⟨st.constants, rfl, fun _ hv => hv⟩

theorem trans (h : Noted st st') (h' : Noted st' st'') : Noted st st'' := by
  obtain ⟨cs, rfl, hcs⟩ := h
  obtain ⟨ds, rfl, hds⟩ := h'
  exact ⟨ds, rfl, fun v hv => hds v (hcs v hv)⟩

theorem frames (h : Noted st st') : st'.frames = st.frames := by
  obtain ⟨cs, rfl, _⟩ := h
  rfl

theorem top (h : Noted st st') : st'.top = st.top := by
  obtain ⟨cs, rfl, _⟩ := h
  rfl

theorem bases (h : Noted st st') : st'.bases = st.bases := by
  obtain ⟨cs, rfl, _⟩ := h
  rfl

theorem pending (h : Noted st st') : st'.pending = st.pending := by
  obtain ⟨cs, rfl, _⟩ := h
  rfl

theorem opened (h : Noted st st') : st'.opened = st.opened := by
  obtain ⟨cs, rfl, _⟩ := h
  rfl

theorem outer (h : Noted st st') : st'.outer = st.outer := by
  obtain ⟨cs, rfl, _⟩ := h
  rfl

end Noted

theorem noted_noteConstant (st : State) (r : Option Reference) : Noted st (st.noteConstant r) := by
  unfold State.noteConstant
  split
  · split
    · exact ⟨_, rfl, fun v hv => (mem_addOnce _ _ _).2 (.inr hv)⟩
    · exact .refl st
  · exact .refl st

theorem noted_read (st : State) (r : Option Reference) : Noted st (st.read r).1 := by
  unfold State.read
  split
  · split
    · exact noted_noteConstant st r
    · exact .refl st
  · exact .refl st

/-! ## Reading and substituting -/

/-- What stands for an operand behind a read. -/
def resolved (st : State) (r : Option Reference) : Option Reference :=
  match (st.read r).2 with
  | some l => some (.literal l)
  | none => r

/-- A read gives the nearest value of a variable. -/
theorem read_eq_some {st : State} {r : Option Reference} {l : Literal}
    (h : (st.read r).2 = some l) :
    ∃ v, varOf r = some v ∧ State.hit v st.frames = some (.known l) := by
  unfold State.read at h
  split at h
  · rename_i v hv
    split at h
    · refine ⟨v, hv, ?_⟩
      simp only at h
      obtain ⟨y, hy, hl⟩ := Option.bind_eq_some_iff.1 h
      cases y with
      | unknown => simp [Value.literal?] at hl
      | known k =>
          simp only [Value.literal?, Option.some.injEq] at hl
          subst hl
          rw [← (noted_noteConstant st r).frames]
          exact State.hit_of_lookup hy
    · simp at h
  · simp at h

theorem substituteSlot_eq (st : State) (ins : Instruction) (changed : Bool) (i : Nat) :
    substituteSlot (st, ins, changed) i =
      match (st.read (ins.refAt i)).2 with
      | some l => ((st.read (ins.refAt i)).1, ins.setOperand i (.reference (some (.literal l))), true)
      | none => ((st.read (ins.refAt i)).1, ins, changed) := by
  unfold substituteSlot
  simp only
  cases hread : st.read (ins.refAt i) with
  | mk st' l => cases l <;> rfl

theorem operand_substituteSlots (slots : List Nat) (acc : State × Instruction × Bool) {j : Nat}
    (hj : j ∉ slots) : (slots.foldl substituteSlot acc).2.1.operand j = acc.2.1.operand j := by
  induction slots generalizing acc with
  | nil => rfl
  | cons i slots ih =>
      obtain ⟨st, ins, changed⟩ := acc
      rw [List.foldl_cons, ih _ (fun h => hj (List.mem_cons_of_mem i h)), substituteSlot_eq]
      have hne : j ≠ i := fun h => hj (h ▸ List.mem_cons_self)
      cases (st.read (ins.refAt i)).2 with
      | none => rfl
      | some l => simp [Instruction.operand_setOperand, hne]

theorem op_substituteSlots (slots : List Nat) (acc : State × Instruction × Bool) :
    (slots.foldl substituteSlot acc).2.1.op = acc.2.1.op := by
  induction slots generalizing acc with
  | nil => rfl
  | cons i slots ih =>
      obtain ⟨st, ins, changed⟩ := acc
      rw [List.foldl_cons, ih, substituteSlot_eq]
      cases (st.read (ins.refAt i)).2 <;> rfl

theorem loc_substituteSlots (slots : List Nat) (acc : State × Instruction × Bool) :
    (slots.foldl substituteSlot acc).2.1.loc = acc.2.1.loc := by
  induction slots generalizing acc with
  | nil => rfl
  | cons i slots ih =>
      obtain ⟨st, ins, changed⟩ := acc
      rw [List.foldl_cons, ih, substituteSlot_eq]
      cases (st.read (ins.refAt i)).2 <;> rfl

theorem noted_substituteSlots (slots : List Nat) (acc : State × Instruction × Bool) :
    Noted acc.1 (slots.foldl substituteSlot acc).1 := by
  induction slots generalizing acc with
  | nil => exact .refl _
  | cons i slots ih =>
      obtain ⟨st, ins, changed⟩ := acc
      refine Noted.trans ?_ (ih _)
      rw [substituteSlot_eq]
      cases (st.read (ins.refAt i)).2 <;> exact noted_read st _

/-- Without a change the instruction is the same. -/
theorem substituteSlots_unchanged (slots : List Nat) (acc : State × Instruction × Bool)
    (h : (slots.foldl substituteSlot acc).2.2 = false) :
    (slots.foldl substituteSlot acc).2.1 = acc.2.1 ∧ acc.2.2 = false := by
  induction slots generalizing acc with
  | nil => exact ⟨rfl, h⟩
  | cons i slots ih =>
      obtain ⟨st, ins, changed⟩ := acc
      rw [List.foldl_cons] at h ⊢
      obtain ⟨hins, hchanged⟩ := ih _ h
      rw [hins]
      rw [substituteSlot_eq] at hchanged ⊢
      cases hread : (st.read (ins.refAt i)).2 with
      | none =>
          rw [hread] at hchanged
          exact ⟨rfl, hchanged⟩
      | some l =>
          rw [hread] at hchanged
          simp at hchanged

theorem noted_substituteArgs (st : State) (args : List Argument) :
    Noted st (substituteArgs st args).1 := by
  induction args generalizing st with
  | nil => exact .refl st
  | cons a args ih =>
      unfold substituteArgs
      simp only
      split
      · exact (noted_read st a.value).trans (ih _)
      · exact (noted_read st a.value).trans (ih _)

theorem substituteArgs_unchanged (st : State) (args : List Argument)
    (h : (substituteArgs st args).2.2 = false) : (substituteArgs st args).2.1 = args := by
  induction args generalizing st with
  | nil => rfl
  | cons a args ih =>
      unfold substituteArgs at h ⊢
      simp only at h ⊢
      split at h
      · simp at h
      · dsimp only
        rw [ih _ h]

/-! ## Substitution in an instruction -/

theorem substitute_of_not_isCall {ins : Instruction} (st : State) (h : ins.isCall = false) :
    substitute st ins = (valueSlots ins.op).foldl substituteSlot (st, ins, false) := by
  have hcall : ((valueSlots ins.op).foldl substituteSlot (st, ins, false)).2.1.isCall = false := by
    unfold Instruction.isCall at h ⊢
    rw [op_substituteSlots]
    exact h
  unfold substitute
  simp only
  rw [if_neg (by simp [hcall])]

theorem substitute_of_isCall {ins : Instruction} (st : State) (h : ins.isCall = true) :
    substitute st ins =
      ((substituteArgs st ins.arguments).1,
        if (substituteArgs st ins.arguments).2.2 = true then
          ins.setOperand ins.argumentSlot (.arguments (substituteArgs st ins.arguments).2.1)
        else ins,
        (substituteArgs st ins.arguments).2.2) := by
  have hslots : valueSlots ins.op = [] := by
    unfold Instruction.isCall at h
    unfold valueSlots
    split at h <;> simp_all
  unfold substitute
  simp only [hslots, List.foldl_nil, h, if_true]
  rcases substituteArgs st ins.arguments with ⟨st', args, _ | _⟩ <;> rfl

variable (st : State) (ins : Instruction)

theorem noted_substitute : Noted st (substitute st ins).1 := by
  cases h : ins.isCall with
  | false =>
      rw [substitute_of_not_isCall st h]
      exact noted_substituteSlots _ (st, ins, false)
  | true =>
      rw [substitute_of_isCall st h]
      exact noted_substituteArgs st _

@[simp] theorem substitute_op : (substitute st ins).2.1.op = ins.op := by
  cases h : ins.isCall with
  | false =>
      rw [substitute_of_not_isCall st h]
      exact op_substituteSlots _ _
  | true =>
      rw [substitute_of_isCall st h]
      dsimp only
      split <;> rfl

@[simp] theorem substitute_loc : (substitute st ins).2.1.loc = ins.loc := by
  cases h : ins.isCall with
  | false =>
      rw [substitute_of_not_isCall st h]
      exact loc_substituteSlots _ _
  | true =>
      rw [substitute_of_isCall st h]
      dsimp only
      split <;> rfl

theorem substitute_operand {i : Nat} (hslot : i ∉ valueSlots ins.op)
    (harg : ins.isCall = true → i ≠ ins.argumentSlot) :
    (substitute st ins).2.1.operand i = ins.operand i := by
  cases h : ins.isCall with
  | false =>
      rw [substitute_of_not_isCall st h]
      exact operand_substituteSlots _ _ hslot
  | true =>
      rw [substitute_of_isCall st h]
      dsimp only
      split
      · rw [Instruction.operand_setOperand, if_neg (harg h)]
      · rfl

theorem op_of_isCall {ins : Instruction} (h : ins.isCall = true) : ins.op = .call ∨ ins.op = .callMethod := by
  unfold Instruction.isCall at h
  split at h <;> simp_all

theorem substitute_operand_call (hcall : ins.isCall = true) {i : Nat} (hi : i ≠ ins.argumentSlot) :
    (substitute st ins).2.1.operand i = ins.operand i :=
  substitute_operand st ins (by rcases op_of_isCall hcall with hop | hop <;> simp [valueSlots, hop]) fun _ => hi

theorem result_substitute_call (hcall : ins.isCall = true) : (substitute st ins).2.1.result = ins.result := by
  have hzero : 0 ≠ ins.argumentSlot := by
    rcases op_of_isCall hcall with hop | hop <;> simp [Instruction.argumentSlot, hop]
  simp only [Instruction.result, substitute_op,
    Instruction.refAt_congr (substitute_operand_call st ins hcall hzero)]

theorem function?_substitute_call (hcall : ins.isCall = true) :
    (substitute st ins).2.1.function? = ins.function? := by
  have hsame := fun i => substitute_operand_call st ins hcall (i := i)
  rcases op_of_isCall hcall with hop | hop
  · simp only [Instruction.function?, substitute_op, hop, Instruction.functionAt,
      hsame 1 (by simp [Instruction.argumentSlot, hop])]
  · simp only [Instruction.function?, substitute_op, hop, Instruction.functionAt,
      hsame 2 (by simp [Instruction.argumentSlot, hop])]

theorem substitute_unchanged (h : (substitute st ins).2.2 = false) :
    (substitute st ins).2.1 = ins := by
  cases hcall : ins.isCall with
  | false =>
      rw [substitute_of_not_isCall st hcall] at h ⊢
      exact (substituteSlots_unchanged _ _ h).1
  | true =>
      rw [substitute_of_isCall st hcall] at h ⊢
      dsimp only at h ⊢
      rw [h]
      rfl

/-! ### Operands before and behind substitution -/

theorem arguments_substitute (hcall : ins.isCall = true) :
    (substitute st ins).2.1.arguments = (substituteArgs st ins.arguments).2.1 := by
  rw [substitute_of_isCall st hcall]
  dsimp only
  split
  · rw [Instruction.arguments, show Instruction.argumentSlot (ins.setOperand ins.argumentSlot
      (.arguments (substituteArgs st ins.arguments).2.1)) = ins.argumentSlot from rfl,
      Instruction.operand_setOperand, if_pos rfl]
  · next hsame => rw [substituteArgs_unchanged st _ (by simpa using hsame)]

/-- In a state that satisfies `P` every operand that can be read is related to the literal it gives. -/
structure Relates (P : State → Prop) (R : Option Reference → Option Reference → Prop) : Prop where
  refl : ∀ r, R r r
  trans : ∀ {r r' r''}, R r r' → R r' r'' → R r r''
  noted : ∀ {st st'}, P st → Noted st st' → P st'
  read : ∀ {st r l}, P st → (st.read r).2 = some l → R r (some (.literal l))

/-- Two arguments for the same parameter whose values are related. -/
def RelatesArgument (R : Option Reference → Option Reference → Prop) (a b : Argument) : Prop :=
  b.name = a.name ∧ R a.value b.value

theorem find?_related {R : Option Reference → Option Reference → Prop} {as bs : List Argument}
    (h : List.Forall₂ (RelatesArgument R) as bs) (name : String) :
    Option.Rel (RelatesArgument R) (as.find? (·.name = name)) (bs.find? (·.name = name)) := by
  induction h with
  | nil => exact .none
  | @cons a b as bs hab hrest ih =>
      rw [List.find?_cons, List.find?_cons, hab.1]
      cases decide (a.name = name) with
      | true => exact .some hab
      | false => exact ih

namespace Relates

variable {P : State → Prop} {R : Option Reference → Option Reference → Prop} {st : State}

theorem slots (hR : Relates P R) (slots : List Nat) (h : P st) (ins : Instruction) (changed : Bool) (i : Nat) :
    R (ins.refAt i) ((slots.foldl substituteSlot (st, ins, changed)).2.1.refAt i) := by
  induction slots generalizing st ins changed with
  | nil => exact hR.refl _
  | cons j slots ih =>
      rw [List.foldl_cons, substituteSlot_eq]
      have hnoted := hR.noted h (noted_read st (ins.refAt j))
      cases hread : (st.read (ins.refAt j)).2 with
      | none => exact ih hnoted ins changed
      | some l =>
          refine hR.trans ?_ (ih hnoted _ true)
          by_cases hi : i = j
          · subst hi
            rw [Instruction.refAt_setOperand_reference]
            exact hR.read h hread
          · rw [Instruction.refAt_setOperand_ne _ _ hi]
            exact hR.refl _

/-- Every operand is related to what substitution puts in its place. -/
theorem refAt (hR : Relates P R) (h : P st) {ins : Instruction} (hcall : ins.isCall = false) (i : Nat) :
    R (ins.refAt i) ((substitute st ins).2.1.refAt i) := by
  rw [substitute_of_not_isCall st hcall]
  exact hR.slots _ h ins false i

/-- Every argument is related to the one substitution puts in its place. -/
theorem args (hR : Relates P R) (h : P st) (as : List Argument) :
    List.Forall₂ (RelatesArgument R) as (substituteArgs st as).2.1 := by
  induction as generalizing st with
  | nil => exact .nil
  | cons a as ih =>
      have htail := ih (hR.noted h (noted_read st a.value))
      unfold substituteArgs
      simp only
      split
      · next l hl => exact .cons ⟨rfl, hR.read h hl⟩ htail
      · exact .cons ⟨rfl, hR.refl _⟩ htail

end Relates

/-! ## Conditional jumps -/

/-- What decides a conditional jump here, if something does. -/
def verdict : Option Bool := (literalOf (substitute st ins).2.1.condition).bind Literal.truthy?

def taken (truth : Bool) : String := if truth then ins.onTrue else ins.onFalse

variable {st ins}

theorem target?_congr (e : Surroundings) {st' : State} (h : st'.top.node = st.top.node)
    (name : String) : target? e st' name = target? e st name := by
  simp only [target?, h]

theorem onTrue_substitute (hop : ins.op = .condJump) :
    (substitute st ins).2.1.onTrue = ins.onTrue := by
  refine Instruction.textAt_congr (substitute_operand st ins ?_ ?_)
  · simp [valueSlots, hop]
  · simp [Instruction.isCall, hop]

theorem onFalse_substitute (hop : ins.op = .condJump) :
    (substitute st ins).2.1.onFalse = ins.onFalse := by
  refine Instruction.textAt_congr (substitute_operand st ins ?_ ?_)
  · simp [valueSlots, hop]
  · simp [Instruction.isCall, hop]

theorem step_decided (e : Surroundings) (hop : ins.op = .condJump) {truth : Bool}
    (htruth : verdict st ins = some truth) :
    step e st ins =
      (((substitute st ins).1.commit (target? e st (taken ins truth))).dropBase st.top.node,
        if taken ins truth = "" then .remove
        else .replace ((Instruction.jump (taken ins truth)).located ins.loc)) := by
  have htop := congrArg Frame.node (noted_substitute st ins).top
  unfold verdict at htruth
  simp only [step, hop, foldCondJump, htruth, onTrue_substitute hop, onFalse_substitute hop,
    substitute_loc, htop, target?_congr e htop]
  cases truth <;> rfl

theorem step_open (e : Surroundings) (hop : ins.op = .condJump) (htruth : verdict st ins = none) :
    step e st ins =
      ((substitute st ins).1.merge (target? e st ins.onTrue) (target? e st ins.onFalse),
        replaceIf (substitute st ins).2.2 (substitute st ins).2.1) := by
  have htop := congrArg Frame.node (noted_substitute st ins).top
  unfold verdict at htruth
  simp only [step, hop, foldCondJump, htruth, onTrue_substitute hop, onFalse_substitute hop,
    target?_congr e htop]

/-! ## What a step emits -/

variable (st ins)

/-- The instructions that stand in place of one. -/
def Replacement.emitted (r : Replacement) (ins : Instruction) : Stream :=
  match r with
  | .keep => [ins]
  | .replace new => [new]
  | .remove => []

def Replacement.isChange : Replacement → Bool
  | .keep => false
  | _ => true

theorem foldFrom_cons (e : Surroundings) (rest : Stream) :
    foldFrom e st (ins :: rest) =
      ⟨(step e st ins).2.emitted ins ++ (foldFrom e (step e st ins).1 rest).code,
        (step e st ins).2.isChange || (foldFrom e (step e st ins).1 rest).changed⟩ := by
  rw [foldFrom]
  rcases step e st ins with ⟨st', _ | new | _⟩ <;> rfl

/-- What substitution leaves stands in the stream, changed or not. -/
theorem emitted_substitute :
    (replaceIf (substitute st ins).2.2 (substitute st ins).2.1).emitted ins =
      [(substitute st ins).2.1] := by
  cases h : (substitute st ins).2.2 with
  | false =>
      rw [substitute_unchanged st ins h]
      rfl
  | true => rfl

/-- Delimiters and definitions pass unchanged. -/
theorem step_keep (e : Surroundings)
    (h : ins.op = .scopeBegin ∨ ins.op = .scopeEnd ∨ ins.op = .function) :
    (step e st ins).2 = .keep := by
  rcases h with h | h | h <;> simp only [step, h]

/-- What stands in place of an instruction that delimits nothing delimits nothing. -/
theorem op_emitted (e : Surroundings) (hb : ins.op ≠ .scopeBegin) (he : ins.op ≠ .scopeEnd) :
    ∀ new ∈ (step e st ins).2.emitted ins, new.op ≠ .scopeBegin ∧ new.op ≠ .scopeEnd := by
  have hsubst : ∀ new ∈ (replaceIf (substitute st ins).2.2 (substitute st ins).2.1).emitted ins,
      new.op ≠ .scopeBegin ∧ new.op ≠ .scopeEnd := by
    intro new hnew
    rw [emitted_substitute, List.mem_singleton] at hnew
    rw [hnew, substitute_op]
    exact ⟨hb, he⟩
  intro new hnew
  cases hop : ins.op with
  | scopeBegin => exact absurd hop hb
  | scopeEnd => exact absurd hop he
  | condJump =>
      cases htruth : verdict st ins with
      | some truth =>
          rw [step_decided e hop htruth] at hnew
          by_cases hname : taken ins truth = ""
          · simp [hname, Replacement.emitted] at hnew
          · simp only [if_neg hname, Replacement.emitted, List.mem_singleton] at hnew
            rw [hnew]
            exact ⟨Opcode.noConfusion, Opcode.noConfusion⟩
      | none =>
          rw [step_open e hop htruth] at hnew
          exact hsubst new hnew
  | binaryOp | compare | unaryOp | cast =>
      simp only [step, hop, foldOperation] at hnew
      split at hnew
      · simp only [Replacement.emitted, List.mem_singleton] at hnew
        rw [hnew]
        exact ⟨Opcode.noConfusion, Opcode.noConfusion⟩
      · exact hsubst new hnew
  | assign | call | callMethod | ret | setProperty =>
      simp only [step, hop] at hnew
      exact hsubst new hnew
  | _ =>
      simp only [step, hop, Replacement.emitted, List.mem_singleton] at hnew
      rw [hnew]
      exact ⟨hb, he⟩

theorem delimiters_emitted (e : Surroundings) :
    delimiters ((step e st ins).2.emitted ins) = delimiters [ins] := by
  rcases ins.delimiter_cases with h | h | ⟨hb, he⟩
  · rw [step_keep st ins e (.inl h)]
    rfl
  · rw [step_keep st ins e (.inr (.inl h))]
    rfl
  · rw [delimiters_cons_other hb he]
    have hnone := op_emitted st ins e hb he
    simp only [delimiters, List.filter_eq_nil_iff, List.filter_nil]
    intro new hnew
    simp [hnone new hnew]

theorem delimiters_foldFrom (e : Surroundings) (s : Stream) :
    delimiters (foldFrom e st s).code = delimiters s := by
  induction s generalizing st with
  | nil => rfl
  | cons ins s ih =>
      rw [foldFrom_cons, delimiters_append, delimiters_emitted, ih, ← delimiters_append]
      rfl

theorem bodiesFrom_foldFrom (e : Surroundings) (p : Ir.Position) (s : Stream)
    {x : Nat × Option Function} (h : x ∈ bodiesFrom p s) :
    x ∈ bodiesFrom p (foldFrom e st s).code := by
  induction s generalizing st p with
  | nil => simp [bodiesFrom] at h
  | cons a s ih =>
      cases s with
      | nil => simp [bodiesFrom] at h
      | cons b rest =>
          rw [foldFrom_cons]
          rw [bodiesFrom, List.mem_append] at h
          rcases h with hhere | hrest
          · -- A definition and the delimiter behind it both stay, and so they stay together.
            split at hhere
            · rename_i hbody
              have hops := hbody
              simp only [Bool.and_eq_true, decide_eq_true_eq] at hops
              rw [step_keep st a e (.inr (.inr hops.1.1)), foldFrom_cons,
                step_keep _ b e (.inl hops.1.2)]
              simp only [Replacement.emitted, List.singleton_append, bodiesFrom]
              rw [if_pos hbody]
              exact List.mem_append_left _ hhere
            · simp at hhere
          · apply bodiesFrom_append
            have hpos : p.after ((step e st a).2.emitted a) = p.advance a := by
              rw [← after_delimiters, delimiters_emitted, after_delimiters]
              rfl
            rw [hpos]
            exact ih _ _ hrest

end Datapack.Optimize.Folding
