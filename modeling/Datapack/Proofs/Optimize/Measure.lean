import Mathlib.Data.List.Basic
import Datapack.Proofs.Optimize.Balance

/-!
# A measure that changes lower

`measure` weighs a stream by its instructions, its operations, its conditional jumps with their
branches and the variables it reads.  Every change a pass can make lowers it: a dropped instruction
takes its own weight along, a narrowed conditional jump loses a branch, a folded operation becomes an
assignment of a literal, and a substituted operand is one variable less to read.
-/

namespace Datapack.Optimize

open Ir

/-- Whether an instruction computes a value that folding can replace by a literal. -/
def isOperation (ins : Instruction) : Bool :=
  ins.op = .binaryOp || ins.op = .compare || ins.op = .unaryOp || ins.op = .cast

def isCondJump (ins : Instruction) : Bool := ins.op = .condJump

def branchNames (ins : Instruction) : List String :=
  if isCondJump ins then [ins.onTrue, ins.onFalse].filter (· ≠ "") else []

def measure (s : Stream) : Nat :=
  s.length + s.countP isOperation + s.countP isCondJump + (s.flatMap branchNames).length
    + (s.flatMap Instruction.readVars).length

/-- What a single instruction adds to the measure. -/
def weight (ins : Instruction) : Nat :=
  1 + (if isOperation ins then 1 else 0) + (if isCondJump ins then 1 else 0)
    + (branchNames ins).length + ins.readVars.length

@[simp] theorem measure_nil : measure [] = 0 := rfl

@[simp] theorem measure_cons (ins : Instruction) (s : Stream) :
    measure (ins :: s) = weight ins + measure s := by
  simp only [measure, weight, List.length_cons, List.countP_cons, List.flatMap_cons,
    List.length_append]
  omega

theorem measure_append (s u : Stream) : measure (s ++ u) = measure s + measure u := by
  induction s with
  | nil => simp
  | cons ins s ih =>
      rw [List.cons_append, measure_cons, measure_cons, ih]
      omega

theorem weight_pos (ins : Instruction) : 0 < weight ins := by
  unfold weight
  omega

/-- A report about a stream is honest: without a change the stream is the same, and with one it has a
lower measure. -/
def Honest (s : Stream) (out : Outcome) : Prop :=
  (out.changed = false → out.code = s) ∧ (out.changed = true → measure out.code < measure s)

theorem Honest.le {s : Stream} {out : Outcome} (h : Honest s out) : measure out.code ≤ measure s := by
  cases hchanged : out.changed with
  | false => exact Nat.le_of_eq (congrArg measure (h.1 hchanged))
  | true => exact Nat.le_of_lt (h.2 hchanged)

theorem Honest.cons {ins : Instruction} {s head : Stream} {out : Outcome} {changed : Bool}
    (hkept : changed = false → head = [ins]) (hlower : changed = true → measure head < weight ins)
    (h : Honest s out) : Honest (ins :: s) ⟨head ++ out.code, changed || out.changed⟩ := by
  have hle := h.le
  cases changed with
  | false =>
      rw [hkept rfl]
      refine ⟨fun hrest => ?_, fun hrest => ?_⟩
      · rw [h.1 hrest]
        rfl
      · have hlt := h.2 hrest
        simp only [List.cons_append, List.nil_append, measure_cons]
        omega
  | true =>
      have hhead := hlower rfl
      refine ⟨fun hrest => Bool.noConfusion hrest, fun _ => ?_⟩
      simp only [measure_append, measure_cons]
      omega

/-! ## Planned edits -/

namespace Edits

variable {e : Edits} {s : Stream}

theorem honest_edited {i : Nat}
    (hlower : ∀ k ins new, s[k]? = some ins → e.replace (i + k) = some new → weight new < weight ins) :
    Honest s ⟨e.edited i s, e.touches i s⟩ := by
  induction s generalizing i with
  | nil => exact ⟨fun _ => rfl, fun h => Bool.noConfusion h⟩
  | cons ins s ih =>
      have hrest := @ih (i + 1) fun k old new hk hnew =>
        hlower (k + 1) old new hk (by rwa [Nat.add_assoc, Nat.add_comm 1 k] at hnew)
      have hhead := fun new => hlower 0 ins new rfl
      let head := if e.drop i then [] else [(e.replace i).getD ins]
      have hcons : edited e i (ins :: s) = head ++ edited e (i + 1) s := by
        simp only [edited, head]
        split
        · rfl
        · rfl
      rw [hcons, touches]
      refine hrest.cons ?_ ?_
      · intro hnone
        rw [Bool.or_eq_false_iff, Option.isSome_eq_false_iff, Option.isNone_iff_eq_none] at hnone
        simp [head, hnone]
      · intro hsome
        simp only [head]
        split
        · exact weight_pos ins
        · next hdrop =>
            rw [Bool.not_eq_true] at hdrop
            rw [hdrop, Bool.false_or, Option.isSome_iff_exists] at hsome
            obtain ⟨new, hnew⟩ := hsome
            rw [hnew, Option.getD_some, measure_cons, measure_nil, Nat.add_zero]
            exact hhead new hnew

theorem honest_apply
    (hlower : ∀ k ins new, s[k]? = some ins → e.replace k = some new → weight new < weight ins) :
    Honest s (e.apply s) := by
  rw [apply_eq]
  refine honest_edited fun k ins new hk hnew => hlower k ins new hk ?_
  rwa [Nat.zero_add] at hnew

theorem honest_drop (drop : Nat → Bool) (s : Stream) : Honest s (Edits.apply { drop } s) :=
  honest_apply fun _ _ _ _ hnew => absurd hnew (by simp)

end Edits

/-- What a branch of a conditional jump adds to its weight. -/
def branchWeight (name : String) : Nat := if name = "" then 0 else 1

theorem weight_condJump {ins : Instruction} (hop : ins.op = .condJump) :
    weight ins =
      2 + branchWeight ins.onTrue + branchWeight ins.onFalse + (varOf ins.condition).toList.length := by
  have hreads : ins.readVars = (varOf ins.condition).toList := by
    simp only [Instruction.readVars, Instruction.reads, Instruction.readSlots, Instruction.isCall, hop,
      Instruction.condition, varOf]
    cases hcond : ins.refAt 0 with
    | none => simp [hcond]
    | some r => cases hvar : r.var? <;> simp [hcond, hvar]
  have hnames : (branchNames ins).length = branchWeight ins.onTrue + branchWeight ins.onFalse := by
    by_cases htrue : ins.onTrue = ""
    · by_cases hfalse : ins.onFalse = ""
      · simp [branchNames, branchWeight, isCondJump, hop, htrue, hfalse]
      · simp [branchNames, branchWeight, isCondJump, hop, htrue, hfalse]
    · by_cases hfalse : ins.onFalse = ""
      · simp [branchNames, branchWeight, isCondJump, hop, htrue, hfalse]
      · simp [branchNames, branchWeight, isCondJump, hop, htrue, hfalse]
  simp only [weight, isOperation, isCondJump, hop, hreads, hnames]
  simp
  omega

namespace EmptyScopes

variable {t : ScopeTree} {empty : List Nat} {n : Nat} {ins new : Instruction}

theorem branchWeight_branch_le (name : String) :
    branchWeight (branch t empty n name) ≤ branchWeight name := by
  unfold branch
  split
  · exact Nat.zero_le _
  · exact Nat.le_refl _

theorem branchWeight_branch_lt {name : String} (h : branch t empty n name ≠ name) :
    branchWeight (branch t empty n name) < branchWeight name := by
  unfold branch at h ⊢
  split at h
  · next hnowhere =>
      rw [if_pos hnowhere, branchWeight, branchWeight, if_pos rfl, if_neg (Ne.symm h)]
      exact Nat.one_pos
  · exact absurd rfl h

theorem weight_narrowed (h : narrowed t empty n ins = some new) : weight new < weight ins := by
  obtain ⟨hop, hbranch, rfl⟩ := narrowed_eq_some h
  have hnew : weight ((Instruction.condJump ins.condition (branch t empty n ins.onTrue)
      (branch t empty n ins.onFalse)).located ins.loc) =
      2 + branchWeight (branch t empty n ins.onTrue) + branchWeight (branch t empty n ins.onFalse)
        + (varOf ins.condition).toList.length := weight_condJump rfl
  have htrue := @branchWeight_branch_le t empty n ins.onTrue
  have hfalse := @branchWeight_branch_le t empty n ins.onFalse
  rw [hnew, weight_condJump hop]
  rcases hbranch with hne | hne
  · have hlt := branchWeight_branch_lt hne
    omega
  · have hlt := branchWeight_branch_lt hne
    omega

end EmptyScopes

/-! ## Folding -/

namespace Folding

variable {ins : Instruction} {st : State}

theorem nodup_readSlots (ins : Instruction) : ins.readSlots.Nodup := by
  unfold Instruction.readSlots
  split <;> decide

theorem valueSlots_subset (ins : Instruction) : valueSlots ins.op ⊆ ins.readSlots := by
  unfold valueSlots Instruction.readSlots
  cases ins.op <;> simp

theorem length_filterMap_cons {α β : Type} (f : α → Option β) (a : α) (l : List α) :
    ((a :: l).filterMap f).length = (f a).toList.length + (l.filterMap f).length := by
  cases h : f a with
  | none => simp [h]
  | some b => simp [h, Nat.add_comm]

def slotVars (ins : Instruction) (slots : List Nat) : List Variable :=
  slots.filterMap fun i => varOf (ins.refAt i)

theorem readVars_eq (hcall : ins.isCall = false) : ins.readVars = slotVars ins ins.readSlots := by
  rw [Instruction.readVars, Instruction.reads, hcall]
  simp only [Bool.false_eq_true, if_false, List.append_nil, List.filterMap_filterMap]
  rfl

theorem length_slotVars_setOperand {slots : List Nat} {i : Nat} {v : Variable} (l : Literal)
    (hnodup : slots.Nodup) (hi : i ∈ slots) (hvar : varOf (ins.refAt i) = some v) :
    (slotVars (ins.setOperand i (.reference (some (.literal l)))) slots).length + 1 =
      (slotVars ins slots).length := by
  induction slots with
  | nil => exact absurd hi List.not_mem_nil
  | cons j slots ih =>
      rw [List.nodup_cons] at hnodup
      have hcons : ∀ ins : Instruction, (slotVars ins (j :: slots)).length =
          (varOf (ins.refAt j)).toList.length + (slotVars ins slots).length :=
        fun ins => length_filterMap_cons _ j slots
      rw [hcons, hcons]
      by_cases hij : i = j
      · subst hij
        have hsame : slotVars (ins.setOperand i (.reference (some (.literal l)))) slots =
            slotVars ins slots := by
          refine List.filterMap_congr fun k hk => ?_
          rw [Instruction.refAt_setOperand_ne]
          rintro rfl
          exact hnodup.1 hk
        rw [hsame, hvar, Instruction.refAt_setOperand_reference]
        simp [varOf, Reference.var?, Nat.add_comm]
      · rw [Instruction.refAt_setOperand_ne _ _ (Ne.symm hij), ← ih hnodup.2
          ((List.mem_cons.1 hi).resolve_left hij)]
        omega

theorem length_slotVars_substituteSlots {reads slots : List Nat} (hnodup : reads.Nodup)
    (hslots : slots ⊆ reads) (acc : State × Instruction × Bool) :
    let out := slots.foldl substituteSlot acc
    (slotVars out.2.1 reads).length ≤ (slotVars acc.2.1 reads).length ∧
      (acc.2.2 = false → out.2.2 = true →
        (slotVars out.2.1 reads).length < (slotVars acc.2.1 reads).length) := by
  induction slots generalizing acc with
  | nil =>
      refine ⟨Nat.le_refl _, fun hfalse htrue => ?_⟩
      rw [List.foldl_nil, hfalse] at htrue
      exact Bool.noConfusion htrue
  | cons i slots ih =>
      obtain ⟨st, ins, changed⟩ := acc
      obtain ⟨hi, hrest⟩ := List.cons_subset.1 hslots
      have htail := ih hrest (substituteSlot (st, ins, changed) i)
      rw [List.foldl_cons]
      rw [substituteSlot_eq] at htail ⊢
      cases hread : (st.read (ins.refAt i)).2 with
      | none =>
          rw [hread] at htail
          exact htail
      | some l =>
          rw [hread] at htail
          obtain ⟨v, hvar, -⟩ := read_eq_some hread
          have hone := length_slotVars_setOperand l hnodup hi hvar
          have hle := htail.1
          dsimp only at hle ⊢
          exact ⟨by omega, fun _ _ => by omega⟩

def argumentVars (args : List Argument) : List Variable :=
  args.filterMap fun a => varOf a.value

theorem substituteArgs_cons (st : State) (a : Argument) (args : List Argument) :
    substituteArgs st (a :: args) =
      let rest := substituteArgs (st.read a.value).1 args
      match (st.read a.value).2 with
      | some l => (rest.1, { a with value := some (.literal l) } :: rest.2.1, true)
      | none => (rest.1, a :: rest.2.1, rest.2.2) := by
  cases hread : st.read a.value with
  | mk st' l => cases l <;> simp only [substituteArgs, hread]

theorem length_argumentVars_substituteArgs (st : State) (args : List Argument) :
    (argumentVars (substituteArgs st args).2.1).length ≤ (argumentVars args).length ∧
      ((substituteArgs st args).2.2 = true →
        (argumentVars (substituteArgs st args).2.1).length < (argumentVars args).length) := by
  induction args generalizing st with
  | nil => exact ⟨Nat.le_refl _, fun h => Bool.noConfusion h⟩
  | cons a args ih =>
      obtain ⟨hle, hlt⟩ := ih (st.read a.value).1
      have hcons : ∀ (a : Argument) (args : List Argument), (argumentVars (a :: args)).length =
          (varOf a.value).toList.length + (argumentVars args).length :=
        fun a args => length_filterMap_cons _ a args
      rw [substituteArgs_cons]
      cases hread : (st.read a.value).2 with
      | some l =>
          obtain ⟨v, hvar, -⟩ := read_eq_some hread
          have hnew : varOf (some (Reference.literal l)) = none := rfl
          simp only [hcons, hvar, hnew, Option.toList_none, Option.toList_some, List.length_nil,
            List.length_singleton]
          exact ⟨by omega, fun _ => by omega⟩
      | none =>
          simp only [hcons]
          refine ⟨by omega, fun hchanged => ?_⟩
          have := hlt hchanged
          omega

theorem length_readVars_substitute (h : (substitute st ins).2.2 = true) :
    (substitute st ins).2.1.readVars.length < ins.readVars.length := by
  cases hcall : ins.isCall with
  | false =>
      rw [substitute_of_not_isCall st hcall] at h ⊢
      have hslots : (substitute st ins).2.1.readSlots = ins.readSlots := by
        simp only [Instruction.readSlots, substitute_op]
      have hcall' : (substitute st ins).2.1.isCall = false := by
        simp only [Instruction.isCall, substitute_op]
        exact hcall
      rw [substitute_of_not_isCall st hcall] at hslots hcall'
      rw [readVars_eq hcall', readVars_eq hcall, hslots]
      exact (length_slotVars_substituteSlots (nodup_readSlots ins) (valueSlots_subset ins)
        (st, ins, false)).2 rfl h
  | true =>
      have hslots : ins.readSlots = [] := by
        unfold Instruction.isCall at hcall
        unfold Instruction.readSlots
        split at hcall
        · simp_all
        · simp_all
        · exact absurd hcall (by simp)
      have hreads : ∀ ins' : Instruction, ins'.op = ins.op →
          ins'.readVars = argumentVars ins'.arguments := by
        intro ins' hop
        have hcall' : ins'.isCall = true := by
          rw [← hcall]
          simp only [Instruction.isCall, hop]
        have hslots' : ins'.readSlots = [] := by
          rw [← hslots]
          simp only [Instruction.readSlots, hop]
        rw [Instruction.readVars, Instruction.reads, hslots', hcall']
        simp only [if_true, List.filterMap_nil, List.nil_append, List.filterMap_filterMap]
        rfl
      rw [substitute_of_isCall st hcall] at h ⊢
      dsimp only at h ⊢
      rw [if_pos h, hreads (ins.setOperand _ _) rfl, hreads ins rfl]
      have hargs : (ins.setOperand ins.argumentSlot
          (.arguments (substituteArgs st ins.arguments).2.1)).arguments =
            (substituteArgs st ins.arguments).2.1 := by
        rw [Instruction.arguments]
        rw [show (ins.setOperand ins.argumentSlot _).argumentSlot = ins.argumentSlot from rfl,
          Instruction.operand_setOperand, if_pos rfl]
      rw [hargs]
      exact (length_argumentVars_substituteArgs st ins.arguments).2 h

theorem isOperation_substitute (st : State) (ins : Instruction) :
    isOperation (substitute st ins).2.1 = isOperation ins := by
  simp only [isOperation, substitute_op]

theorem weight_substitute (h : (substitute st ins).2.2 = true) :
    weight (substitute st ins).2.1 < weight ins := by
  have hreads := length_readVars_substitute h
  have hcond : isCondJump (substitute st ins).2.1 = isCondJump ins := by
    rw [isCondJump, isCondJump, substitute_op]
  have hnames : branchNames (substitute st ins).2.1 = branchNames ins := by
    rw [branchNames, branchNames, hcond]
    cases hcond : isCondJump ins with
    | false => rfl
    | true =>
        have hcond : ins.op = .condJump := by simpa [isCondJump] using hcond
        rw [onTrue_substitute hcond, onFalse_substitute hcond]
  rw [weight, weight, isOperation_substitute, hcond, hnames]
  omega

theorem emitted_replaceIf :
    let r := replaceIf (substitute st ins).2.2 (substitute st ins).2.1
    (r.isChange = false → r.emitted ins = [ins]) ∧
      (r.isChange = true → measure (r.emitted ins) < weight ins) := by
  cases h : (substitute st ins).2.2 with
  | false => exact ⟨fun _ => rfl, fun h => Bool.noConfusion h⟩
  | true =>
      refine ⟨fun h => Bool.noConfusion h, fun _ => ?_⟩
      have hlt := weight_substitute h
      simp only [replaceIf, if_true, Replacement.emitted, measure_cons, measure_nil]
      omega

theorem weight_operation (h : isOperation ins = true) : 1 < weight ins := by
  rw [weight, h]
  simp only [if_true]
  omega

theorem honest_step (e : Surroundings) (st : State) (ins : Instruction) :
    ((step e st ins).2.isChange = false → (step e st ins).2.emitted ins = [ins]) ∧
      ((step e st ins).2.isChange = true → measure ((step e st ins).2.emitted ins) < weight ins) := by
  cases hop : ins.op with
  | condJump =>
      have hweight := weight_condJump hop
      cases htruth : verdict st ins with
      | some truth =>
          rw [step_decided e hop htruth]
          by_cases hname : taken ins truth = ""
          · simp only [if_pos hname]
            exact ⟨fun h => Bool.noConfusion h, fun _ => weight_pos ins⟩
          · simp only [if_neg hname]
            refine ⟨fun h => Bool.noConfusion h, fun _ => ?_⟩
            have hjump : measure [(Instruction.jump (taken ins truth)).located ins.loc] = 1 := rfl
            rw [Replacement.emitted, hjump]
            omega
      | none =>
          rw [step_open e hop htruth]
          exact emitted_replaceIf
  | binaryOp | compare | unaryOp | cast =>
      have hoperation : isOperation ins = true := by simp [isOperation, hop]
      simp only [step, hop, foldOperation]
      split
      · next l _ =>
          refine ⟨fun h => Bool.noConfusion h, fun _ => ?_⟩
          have hassign : ∀ r, measure [(Instruction.assign r (some (.literal l))).located
              (substitute st ins).2.1.loc] = 1 := fun r => rfl
          rw [Replacement.emitted, hassign]
          exact weight_operation hoperation
      · exact emitted_replaceIf
  | assign | call | callMethod | ret | setProperty =>
      simp only [step, hop]
      exact emitted_replaceIf
  | _ =>
      simp only [step, hop]
      exact ⟨fun _ => rfl, fun h => Bool.noConfusion h⟩

theorem honest_foldFrom (e : Surroundings) (st : State) (s : Stream) : Honest s (foldFrom e st s) := by
  induction s generalizing st with
  | nil => exact ⟨fun _ => rfl, fun h => Bool.noConfusion h⟩
  | cons ins s ih =>
      rw [foldFrom_cons]
      exact (ih _).cons (honest_step e st ins).1 (honest_step e st ins).2

end Folding

end Datapack.Optimize
