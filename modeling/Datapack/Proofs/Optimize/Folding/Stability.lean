import Datapack.Proofs.Optimize.Folding.Knowledge
import Datapack.Proofs.Optimize.Folding.Step

/-!
# Folding a folded stream

A second walk over a folded stream runs beside the first one and knows nothing that the first did not
know, so it finds nothing to replace.  The exception are the snapshots from which conditional regions
start: a jump that folds drops the snapshot of its region in the first walk, and the plain jump that is
left of it does not do so in the second.  A stream is steady when no such leftover tells a later
conditional region more than the first walk knew there; a steady stream is folded in one walk.
-/

namespace Datapack.Optimize.Folding

open Ir

/-! ## Substituting a second time -/

theorem StateLe.noted {b a a' : State} (h : StateLe b a) (hn : Noted a a') : StateLe b a' := by
  obtain ⟨cs, rfl, hcs⟩ := hn
  exact ⟨h.frames, h.opened, fun v hv => hcs v (h.constants v hv), h.pending⟩

theorem read_literal (st : State) (l : Literal) : st.read (some (.literal l)) = (st, none) := rfl

/-- A read by a walk that knows less finds nothing where the operand is left as it is. -/
theorem read_resolved {b a : State} (h : StateLe b a) (r : Option Reference) :
    (b.read (resolved a r)).2 = none ∧ StateLe (b.read (resolved a r)).1 (a.read r).1 := by
  unfold resolved
  cases hread : (a.read r).2 with
  | some l =>
      rw [read_literal]
      exact ⟨rfl, h.noted (noted_read a r)⟩
  | none =>
      simp only
      unfold State.read at hread ⊢
      cases hv : varOf r with
      | none => exact ⟨rfl, h⟩
      | some v =>
          simp only [hv] at hread ⊢
          by_cases hp : v.type.isPrimitive = true
          · simp only [hp, if_true] at hread ⊢
            refine ⟨?_, h.noteConstant r⟩
            cases hb : ((b.noteConstant r).lookup v).bind Value.literal? with
            | none => rfl
            | some l =>
                obtain ⟨y, hy, hl⟩ := Option.bind_eq_some_iff.1 hb
                cases y with
                | unknown => simp [Value.literal?] at hl
                | known k =>
                    rw [(h.noteConstant r).lookup hy] at hread
                    simp [Value.literal?] at hread
          · simp only [hp, Bool.false_eq_true, if_false]
            exact ⟨trivial, h⟩

theorem substituteSlot_refAt (st : State) (ins : Instruction) (changed : Bool) (i : Nat) :
    (substituteSlot (st, ins, changed) i).2.1.refAt i = resolved st (ins.refAt i) := by
  rw [substituteSlot_eq, resolved]
  cases (st.read (ins.refAt i)).2 with
  | none => rfl
  | some l => exact Instruction.refAt_setOperand_reference _ _ _

theorem substituteSlot_state (st : State) (ins : Instruction) (changed : Bool) (i : Nat) :
    (substituteSlot (st, ins, changed) i).1 = (st.read (ins.refAt i)).1 := by
  rw [substituteSlot_eq]
  cases (st.read (ins.refAt i)).2 <;> rfl

/-- What substitution has made of a list of slots, a walk that knows less leaves as it is. -/
theorem substituteSlots_again {slots : List Nat} (hnodup : slots.Nodup) {b a : State}
    (h : StateLe b a) (ins : Instruction) (changed : Bool) :
    ∃ b', slots.foldl substituteSlot
        (b, (slots.foldl substituteSlot (a, ins, changed)).2.1, false) =
          (b', (slots.foldl substituteSlot (a, ins, changed)).2.1, false) ∧
      StateLe b' (slots.foldl substituteSlot (a, ins, changed)).1 ∧ Noted b b' := by
  induction slots generalizing b a ins changed with
  | nil => exact ⟨b, rfl, h, .refl b⟩
  | cons i slots ih =>
      obtain ⟨hi, hslots⟩ := List.nodup_cons.1 hnodup
      obtain ⟨a', ins', changed', hstep⟩ : ∃ a' ins' c', substituteSlot (a, ins, changed) i =
        (a', ins', c') := ⟨_, _, _, rfl⟩
      have hstate : a' = (a.read (ins.refAt i)).1 := by
        rw [← substituteSlot_state a ins changed i, hstep]
      simp only [List.foldl_cons, hstep]
      -- The slots that follow leave this one alone, so the second walk meets what was put here.
      have hmeets : (slots.foldl substituteSlot (a', ins', changed')).2.1.refAt i =
          resolved a (ins.refAt i) := by
        rw [Instruction.refAt_congr (operand_substituteSlots slots _ hi),
          ← substituteSlot_refAt a ins changed i, hstep]
      obtain ⟨hnone, hle⟩ := read_resolved h (ins.refAt i)
      rw [substituteSlot_eq, hmeets, hnone]
      simp only
      rw [← hstate] at hle
      obtain ⟨b', heq, hle', hnoted⟩ := ih hslots hle ins' changed'
      exact ⟨b', heq, hle', (noted_read b _).trans hnoted⟩

theorem substituteArgs_again {b a : State} (h : StateLe b a) (args : List Argument) :
    ∃ b', substituteArgs b (substituteArgs a args).2.1 = (b', (substituteArgs a args).2.1, false) ∧
      StateLe b' (substituteArgs a args).1 ∧ Noted b b' := by
  induction args generalizing b a with
  | nil => exact ⟨b, rfl, h, .refl b⟩
  | cons x args ih =>
      have hcons : substituteArgs a (x :: args) =
          ((substituteArgs (a.read x.value).1 args).1,
            { x with value := resolved a x.value } :: (substituteArgs (a.read x.value).1 args).2.1,
            (a.read x.value).2.isSome || (substituteArgs (a.read x.value).1 args).2.2) := by
        rw [substituteArgs, resolved]
        simp only
        cases (a.read x.value).2 <;> rfl
      obtain ⟨hnone, hle⟩ := read_resolved h x.value
      obtain ⟨b', heq, hle', hnoted⟩ := ih hle
      rw [hcons]
      simp only
      refine ⟨b', ?_, hle', (noted_read b _).trans hnoted⟩
      rw [substituteArgs]
      simp only [hnone, heq]

theorem nodup_valueSlots (op : Opcode) : (valueSlots op).Nodup := by
  unfold valueSlots
  split <;> simp

/-- What substitution has made of an instruction, a walk that knows less leaves as it is. -/
theorem substitute_again {b a : State} (h : StateLe b a) (ins : Instruction) :
    ∃ b', substitute b (substitute a ins).2.1 = (b', (substitute a ins).2.1, false) ∧
      StateLe b' (substitute a ins).1 ∧ Noted b b' := by
  have hop : (substitute a ins).2.1.op = ins.op := substitute_op a ins
  have hcallEq : (substitute a ins).2.1.isCall = ins.isCall := by
    simp only [Instruction.isCall, hop]
  cases hcall : ins.isCall with
  | false =>
      rw [hcall] at hcallEq
      rw [substitute_of_not_isCall b hcallEq, hop, substitute_of_not_isCall a hcall]
      exact substituteSlots_again (nodup_valueSlots ins.op) h ins false
  | true =>
      rw [hcall] at hcallEq
      have hargs : (substitute a ins).2.1.arguments = (substituteArgs a ins.arguments).2.1 := by
        rw [substitute_of_isCall a hcall]
        dsimp only
        split
        · simp only [Instruction.arguments, Instruction.argumentSlot, Instruction.setOperand_op,
            Instruction.operand_setOperand, if_true]
        · rename_i hsame
          rw [substituteArgs_unchanged a ins.arguments (by simpa using hsame)]
      obtain ⟨b', heq, hle, hnoted⟩ := substituteArgs_again h ins.arguments
      rw [substitute_of_isCall b hcallEq, hargs, heq]
      refine ⟨b', rfl, ?_, hnoted⟩
      rw [substitute_of_isCall a hcall]
      exact hle

/-! ## Snapshots that are kept -/

/-- The comparison of the snapshots that two walks have of every region. -/
def BasesLe (bs kept : List (Nat × Env)) : Prop :=
  ∀ n, (bs.lookup n = none ∧ kept.lookup n = none) ∨
    ∃ x y, bs.lookup n = some x ∧ kept.lookup n = some y ∧ SnapshotLe x y

namespace BasesLe

variable {bs kept : List (Nat × Env)}

theorem drop (h : BasesLe bs kept) (n : Nat) :
    BasesLe (bs.filter (·.1 ≠ n)) (kept.filter (·.1 ≠ n)) := by
  intro m
  rw [lookup_filter_fst_ne, lookup_filter_fst_ne]
  by_cases hm : m = n
  · rw [if_pos hm, if_pos hm]
    exact .inl ⟨rfl, rfl⟩
  · rw [if_neg hm, if_neg hm]
    exact h m

theorem take (h : BasesLe bs kept) (n : Nat) {x y : Env} (hxy : SnapshotLe x y) :
    BasesLe ((n, x) :: bs) ((n, y) :: kept) := by
  intro m
  rw [lookup_cons_ite, lookup_cons_ite]
  by_cases hm : m = n
  · rw [if_pos hm, if_pos hm]
    exact .inr ⟨x, y, rfl, rfl, hxy⟩
  · rw [if_neg hm, if_neg hm]
    exact h m

theorem isSome (h : BasesLe bs kept) (n : Nat) :
    (bs.lookup n).isSome = (kept.lookup n).isSome := by
  rcases h n with ⟨hb, hk⟩ | ⟨x, y, hb, hk, _⟩
  · rw [hb, hk]
  · rw [hb, hk]
    rfl

/-- A region that opens starts from a snapshot below the one that is kept. -/
theorem snapshot {b a : State} (h : StateLe b a) (hb : BasesLe b.bases kept) :
    SnapshotLe b.snapshot { a with bases := kept }.snapshot := by
  unfold State.snapshot
  simp only
  rw [← h.node]
  rcases hb b.top.node with ⟨hb, hk⟩ | ⟨x, y, hb, hk, hxy⟩
  · rw [hb, hk]
    exact h.flatten
  · rw [hb, hk]
    exact hxy

end BasesLe

/-- The snapshots behind an instruction, if a jump that is decided drops none. -/
def keptAfter (e : Surroundings) (st : State) (kept : List (Nat × Env)) (ins : Instruction) :
    List (Nat × Env) :=
  let keeping := { st with bases := kept }
  match ins.op with
  | .scopeBegin => (keeping.enter (st.opened + 1) (e.tree.node (st.opened + 1)).kind).bases
  | .scopeEnd => keeping.leave.bases
  | .condJump =>
    if (verdict st ins).isSome then kept
    else (keeping.merge (target? e st ins.onTrue) (target? e st ins.onFalse)).bases
  | _ => kept

def opensBranch (e : Surroundings) (st : State) (ins : Instruction) : Bool :=
  ins.op = .scopeBegin && (e.tree.node (st.opened + 1)).kind = .conditional

/-- Whether every conditional region of the rest of a stream may as well start from the snapshots in
`kept`, those that are left when a jump that is decided drops none. -/
def steady (e : Surroundings) : State → List (Nat × Env) → Stream → Bool
  | _, _, [] => true
  | st, kept, ins :: rest =>
    (!opensBranch e st ins || st.subsumes { st with bases := kept }.snapshot) &&
      steady e (step e st ins).1 (keptAfter e st kept ins) rest

/-- Whether no snapshot that outlives a decided jump tells a later conditional region more than is
known there. -/
def isSteady (s : Stream) : Bool :=
  match ScopeTree.ofStream s with
  | .ok t => steady ⟨t, functionScopes s t⟩ .initial [] s
  | .error _ => true

/-! ## The operations that touch no snapshot -/

section Bases

variable (st : State) (r : Option Reference)

@[simp] theorem noteConstant_bases : (st.noteConstant r).bases = st.bases :=
  (noted_noteConstant st r).bases

@[simp] theorem write_bases (x : Value) : (st.write r x).bases = st.bases := by
  unfold State.write
  split
  · exact noteConstant_bases st r
  · rfl

@[simp] theorem declare_bases : (st.declare r).bases = st.bases := by
  unfold State.declare
  split
  · simp
  · rfl

@[simp] theorem commit_bases (n : Option Nat) : (st.commit n).bases = st.bases := by
  unfold State.commit
  split
  · simp [State.settle]
  · rfl

@[simp] theorem clobber_bases (t : ScopeTree) (bodies : List (Nat × Option Function))
    (callee : Option Function) : (st.clobber t bodies callee).bases = st.bases := by
  unfold State.clobber
  simp only
  split
  · simp
  · split <;> simp

end Bases

/-! ## One step of both walks -/

/-- The second walk leaves the instructions `out` that the first one emitted as they are and stays
below it: the first walk is then in state `a`, with the snapshots `kept`. -/
def Settles (d : Surroundings) (b : State) (out : Stream) (a : State) (kept : List (Nat × Env)) :
    Prop :=
  ∃ b', StateLe b' a ∧ BasesLe b'.bases kept ∧
    ∀ rest, foldFrom d b (out ++ rest) =
      ⟨out ++ (foldFrom d b' rest).code, (foldFrom d b' rest).changed⟩

theorem Settles.of_keep {d : Surroundings} {b b' a : State} {ins : Instruction}
    {kept : List (Nat × Env)} (hstep : step d b ins = (b', .keep)) (h : StateLe b' a)
    (hb : BasesLe b'.bases kept) : Settles d b [ins] a kept := by
  refine ⟨b', h, hb, fun rest => ?_⟩
  rw [List.singleton_append, foldFrom_cons, hstep]
  rfl

theorem Settles.of_nil {d : Surroundings} {b a : State} {kept : List (Nat × Env)} (h : StateLe b a)
    (hb : BasesLe b.bases kept) : Settles d b [] a kept :=
  ⟨b, h, hb, fun _ => rfl⟩

/-- The second walk sees the regions of the first, and the bodies of functions where the first saw
them. -/
structure Surroundings.Extends (d e : Surroundings) : Prop where
  tree : d.tree.Alike e.tree
  bodies : ∀ x ∈ e.bodies, x ∈ d.bodies

section Steps

variable {d e : Surroundings} {b a : State} {kept : List (Nat × Env)} {ins : Instruction}

theorem target?_eq (hd : d.Extends e) (h : StateLe b a) (name : String) :
    target? d b name = target? e a name := by
  unfold target?
  rw [hd.tree.resolve, h.node]

theorem settles_begin (hd : d.Extends e) (h : StateLe b a) (hb : BasesLe b.bases kept)
    (hop : ins.op = .scopeBegin)
    (hsteady : opensBranch e a ins = true → a.subsumes { a with bases := kept }.snapshot = true) :
    Settles d b ((step e a ins).2.emitted ins) (step e a ins).1 (keptAfter e a kept ins) := by
  have hstep : ∀ (x : Surroundings) (st : State),
      step x st ins = (st.enter (st.opened + 1) (x.tree.node (st.opened + 1)).kind, .keep) := by
    intro x st
    simp only [step, hop]
  have hkept : keptAfter e a kept ins =
      (State.enter { a with bases := kept } (a.opened + 1) (e.tree.node (a.opened + 1)).kind).bases := by
    simp only [keptAfter, hop]
  have hkind : (d.tree.node (b.opened + 1)).kind = (e.tree.node (a.opened + 1)).kind := by
    rw [hd.tree.kind, h.opened]
  rw [hkept, hstep]
  refine .of_keep (hstep d b) ?_ ?_
  · rw [hkind, h.opened]
    by_cases hk : (e.tree.node (a.opened + 1)).kind = .conditional
    · rw [hk]
      exact h.enter_conditional _ (BasesLe.snapshot h hb)
        (hsteady (by simp [opensBranch, hop, hk]))
    · exact h.enter _ hk
  · rw [hkind]
    by_cases hk : (e.tree.node (a.opened + 1)).kind = .conditional
    · rw [hk, State.enter_conditional, State.enter_conditional]
      simp only
      rw [← h.node, ← hb.isSome]
      split
      · exact hb
      · exact hb.take _ h.flatten
    · unfold State.enter
      simp only [if_neg hk]
      exact hb

theorem leave_bases (st : State) :
    st.leave.bases =
      match st.outer with
      | [] => st.bases
      | _ :: _ => st.bases.filter (·.1 ≠ st.top.node) := by
  unfold State.leave
  cases hout : st.outer with
  | nil => rfl
  | cons f fs =>
      simp only [State.storeAll_bases]
      split <;> simp

theorem settles_end (h : StateLe b a) (hb : BasesLe b.bases kept) (hop : ins.op = .scopeEnd) :
    Settles d b ((step e a ins).2.emitted ins) (step e a ins).1 (keptAfter e a kept ins) := by
  have hstep : ∀ (x : Surroundings) (st : State), step x st ins = (st.leave, .keep) := by
    intro x st
    simp only [step, hop]
  have hkept : keptAfter e a kept ins = (State.leave { a with bases := kept }).bases := by
    simp only [keptAfter, hop]
  rw [hkept, hstep]
  refine .of_keep (hstep d b) h.leave ?_
  rw [leave_bases, leave_bases]
  have hout := h.outer
  revert hout
  cases b.outer <;> cases ha : a.outer <;> intro hout
  · simpa using hb
  · cases hout
  · cases hout
  · simp only
    rw [h.node]
    exact hb.drop _

theorem merge_bases (st : State) (t f : Option Nat) :
    (st.merge t f).bases =
      if (st.branch? t).isNone && (st.branch? f).isNone then st.bases
      else st.bases.filter (·.1 ≠ st.top.node) := by
  unfold State.merge
  simp only
  split <;> simp [State.settle, State.dropBase]

/-- A decided jump is met again as a plain jump to the same branch, or not at all. -/
theorem settles_decided (hd : d.Extends e) (h : StateLe b a) (hb : BasesLe b.bases kept)
    (hop : ins.op = .condJump) {truth : Bool} (htruth : verdict a ins = some truth) :
    Settles d b ((step e a ins).2.emitted ins) (step e a ins).1 (keptAfter e a kept ins) := by
  have hkept : keptAfter e a kept ins = kept := by
    simp [keptAfter, hop, htruth]
  have hle : StateLe b (substitute a ins).1 := h.noted (noted_substitute a ins)
  rw [hkept, step_decided e hop htruth, ← target?_eq hd h]
  by_cases hname : taken ins truth = ""
  · simp only [hname, if_true, target?, Replacement.emitted]
    exact .of_nil (hle.dropBase_right _) hb
  · simp only [if_neg hname, Replacement.emitted]
    refine .of_keep rfl ((hle.commit (target? d b (taken ins truth))).dropBase_right a.top.node) ?_
    rw [commit_bases]
    exact hb

/-- An open conditional jump is met again as it was left, and merges the same branches. -/
theorem settles_open (hd : d.Extends e) (h : StateLe b a) (hb : BasesLe b.bases kept)
    (hop : ins.op = .condJump) (htruth : verdict a ins = none) :
    Settles d b ((step e a ins).2.emitted ins) (step e a ins).1 (keptAfter e a kept ins) := by
  obtain ⟨b', hagain, hle, hnoted⟩ := substitute_again h ins
  have hop' : (substitute a ins).2.1.op = .condJump := by rw [substitute_op, hop]
  have hverdict : verdict b (substitute a ins).2.1 = none := by
    rw [verdict, hagain]
    exact htruth
  have hstep : step d b (substitute a ins).2.1 =
      (b'.merge (target? e a ins.onTrue) (target? e a ins.onFalse), .keep) := by
    rw [step_open d hop' hverdict, hagain, onTrue_substitute hop, onFalse_substitute hop,
      target?_eq hd h, target?_eq hd h]
    rfl
  have hkept : keptAfter e a kept ins = (State.merge { a with bases := kept }
      (target? e a ins.onTrue) (target? e a ins.onFalse)).bases := by
    simp [keptAfter, hop, htruth]
  have hnone : ∀ n, (b'.branch? n).isNone = (State.branch? { a with bases := kept } n).isNone := by
    intro n
    have hbranch : State.branch? { a with bases := kept } n = (substitute a ins).1.branch? n := by
      simp only [State.branch?, (noted_substitute a ins).pending]
    rw [hbranch, hle.isNone_branch?]
  rw [step_open e hop htruth, emitted_substitute, hkept]
  refine .of_keep hstep (hle.merge _ _) ?_
  rw [merge_bases, merge_bases, hnone, hnone, hnoted.bases, hnoted.top]
  split
  · exact hb
  · rw [h.node]
    exact hb.drop _

/-! ### Data -/

theorem settles_operation (h : StateLe b a) (hb : BasesLe b.bases kept)
    (hstep : ∀ (x : Surroundings) (st : State) (i : Instruction), i.op = ins.op →
      step x st i = foldOperation st i)
    (hkept : keptAfter e a kept ins = kept) :
    Settles d b ((step e a ins).2.emitted ins) (step e a ins).1 (keptAfter e a kept ins) := by
  obtain ⟨b', hagain, hle, hnoted⟩ := substitute_again h ins
  rw [hkept, hstep e a ins rfl, foldOperation]
  simp only
  cases hval : evaluate (substitute a ins).2.1 with
  | some l =>
      simp only [Replacement.emitted]
      have hle' : StateLe b (substitute a ins).1 := h.noted (noted_substitute a ins)
      refine .of_keep rfl (hle'.write _ fun k hk => hk) ?_
      simpa using hb
  | none =>
      simp only
      rw [emitted_substitute]
      have hstep' : step d b (substitute a ins).2.1 =
          (b'.write (substitute a ins).2.1.result .unknown, .keep) := by
        rw [hstep d b _ (substitute_op a ins), foldOperation, hagain]
        simp only [hval]
        rfl
      refine .of_keep hstep' (hle.write _ fun k hk => hk) ?_
      rw [write_bases, hnoted.bases]
      exact hb

theorem settles_assign (h : StateLe b a) (hb : BasesLe b.bases kept) (hop : ins.op = .assign) :
    Settles d b ((step e a ins).2.emitted ins) (step e a ins).1 (keptAfter e a kept ins) := by
  obtain ⟨b', hagain, hle, hnoted⟩ := substitute_again h ins
  have hkept : keptAfter e a kept ins = kept := by simp [keptAfter, hop]
  have hstep : ∀ (x : Surroundings) (st : State) (i : Instruction), i.op = .assign →
      step x st i =
        ((substitute st i).1.write ((substitute st i).2.1.refAt 0)
            ((literalOf ((substitute st i).2.1.refAt 1)).elim .unknown Value.known),
          replaceIf (substitute st i).2.2 (substitute st i).2.1) := by
    intro x st i hi
    simp only [step, hi]
  have hagain' := hstep d b _ ((substitute_op a ins).trans hop)
  rw [hagain] at hagain'
  rw [hkept, hstep e a ins hop, emitted_substitute]
  refine .of_keep hagain' (hle.write _ fun k hk => hk) ?_
  rw [write_bases, hnoted.bases]
  exact hb

theorem settles_call (hd : d.Extends e) (h : StateLe b a) (hb : BasesLe b.bases kept)
    (hop : ins.isCall = true) :
    Settles d b ((step e a ins).2.emitted ins) (step e a ins).1 (keptAfter e a kept ins) := by
  obtain ⟨b', hagain, hle, hnoted⟩ := substitute_again h ins
  have hstep : ∀ (x : Surroundings) (st : State) (i : Instruction), i.isCall = true →
      step x st i =
        (((substitute st i).1.clobber x.tree x.bodies (substitute st i).2.1.function?).write
            (substitute st i).2.1.result .unknown,
          replaceIf (substitute st i).2.2 (substitute st i).2.1) := by
    intro x st i hi
    unfold Instruction.isCall at hi
    unfold step
    split at hi <;> simp_all
  have hkept : keptAfter e a kept ins = kept := by
    unfold Instruction.isCall at hop
    unfold keptAfter
    split at hop <;> simp_all
  have hop' : (substitute a ins).2.1.isCall = true := by
    simpa only [Instruction.isCall, substitute_op] using hop
  have hagain' := hstep d b _ hop'
  rw [hagain] at hagain'
  rw [hkept, hstep e a ins hop, emitted_substitute]
  refine .of_keep hagain' ((hle.clobber hd.tree.isAncestor hd.bodies _).write _ fun k hk => hk) ?_
  rw [write_bases, clobber_bases, hnoted.bases]
  exact hb

theorem settles_read (h : StateLe b a) (hb : BasesLe b.bases kept)
    (hstep : ∀ (x : Surroundings) (st : State) (i : Instruction), i.op = ins.op →
      step x st i = ((substitute st i).1, replaceIf (substitute st i).2.2 (substitute st i).2.1))
    (hkept : keptAfter e a kept ins = kept) :
    Settles d b ((step e a ins).2.emitted ins) (step e a ins).1 (keptAfter e a kept ins) := by
  obtain ⟨b', hagain, hle, hnoted⟩ := substitute_again h ins
  have hagain' := hstep d b _ (substitute_op a ins)
  rw [hagain] at hagain'
  rw [hkept, hstep e a ins rfl, emitted_substitute]
  refine .of_keep hagain' hle ?_
  rw [hnoted.bases]
  exact hb

/-- The second walk leaves what a step emitted as it is. -/
theorem step_again (hd : d.Extends e) (h : StateLe b a) (hb : BasesLe b.bases kept)
    (hsteady : opensBranch e a ins = true → a.subsumes { a with bases := kept }.snapshot = true) :
    Settles d b ((step e a ins).2.emitted ins) (step e a ins).1 (keptAfter e a kept ins) := by
  cases hop : ins.op with
  | scopeBegin => exact settles_begin hd h hb hop hsteady
  | scopeEnd => exact settles_end h hb hop
  | condJump =>
      cases htruth : verdict a ins with
      | some truth => exact settles_decided hd h hb hop htruth
      | none => exact settles_open hd h hb hop htruth
  | jump =>
      simp only [step, keptAfter, hop, Replacement.emitted]
      rw [← target?_eq hd h]
      refine .of_keep (by simp only [step, hop]) (h.commit _) ?_
      rw [commit_bases]
      exact hb
  | declare =>
      simp only [step, keptAfter, hop, Replacement.emitted]
      refine .of_keep (by simp only [step, hop]) (h.declare _) ?_
      rw [declare_bases]
      exact hb
  | newObject | getProperty =>
      simp only [step, keptAfter, hop, Replacement.emitted]
      refine .of_keep (by simp only [step, hop]) (h.write _ fun k hk => hk) ?_
      rw [write_bases]
      exact hb
  | assign => exact settles_assign h hb hop
  | call | callMethod => exact settles_call hd h hb (by simp [Instruction.isCall, hop])
  | binaryOp | compare | unaryOp | cast =>
      refine settles_operation h hb (fun x st i hi => ?_) (by simp [keptAfter, hop])
      simp only [step, hi, hop]
  | ret | setProperty =>
      refine settles_read h hb (fun x st i hi => ?_) (by simp [keptAfter, hop])
      simp only [step, hi, hop]
  | _ =>
      simp only [step, keptAfter, hop, Replacement.emitted]
      exact .of_keep (by simp only [step, hop]) h hb

end Steps

/-! ## Both walks -/

/-- A walk over what a steady walk left changes nothing. -/
theorem foldFrom_again {d e : Surroundings} (hd : d.Extends e) {b a : State}
    {kept : List (Nat × Env)} (h : StateLe b a) (hb : BasesLe b.bases kept) {s : Stream}
    (hs : steady e a kept s = true) :
    foldFrom d b (foldFrom e a s).code = ⟨(foldFrom e a s).code, false⟩ := by
  induction s generalizing b a kept with
  | nil => rfl
  | cons ins s ih =>
      rw [steady, Bool.and_eq_true, Bool.or_eq_true, Bool.not_eq_true'] at hs
      obtain ⟨hopens, hrest⟩ := hs
      have hsteady : opensBranch e a ins = true →
          a.subsumes { a with bases := kept }.snapshot = true := by
        intro hop
        exact hopens.resolve_left (by simp [hop])
      obtain ⟨b', hle, hbases, hfold⟩ := step_again hd h hb hsteady
      rw [foldFrom_cons, hfold, ih hle hbases hrest]

theorem stateLe_initial : StateLe .initial .initial where
  frames := .cons ⟨rfl, rfl, rfl, fun _ _ h => h, fun _ h => h, fun _ h => .inl h⟩
    ⟨fun _ _ h => h, fun _ h => h⟩ .nil
  opened := rfl
  constants := fun _ h => h
  pending := .nil

/-- The stream that a walk leaves has the regions and the function bodies of the one it read. -/
theorem extends_foldFrom {s : Stream} {t : ScopeTree} (ht : ScopeTree.ofStream s = .ok t)
    (e : Surroundings) (st : State) :
    ∃ u, ScopeTree.ofStream (foldFrom e st s).code = .ok u ∧
      Surroundings.Extends ⟨u, functionScopes (foldFrom e st s).code u⟩ ⟨t, functionScopes s t⟩ := by
  obtain ⟨u, hu, halike⟩ := ScopeTree.alike_of_delimiters ht (delimiters_foldFrom st e s)
  refine ⟨u, hu, halike, fun x hx => ?_⟩
  simp only [functionScopes_eq ht] at hx
  simp only [functionScopes_eq hu]
  exact bodiesFrom_foldFrom st e _ s hx

/-- Folding what a steady stream was folded to changes nothing. -/
theorem run_run_of_isSteady {s : Stream} (hbalanced : s.balanced = true)
    (hsteady : isSteady s = true) :
    ∃ out, run s = .ok out ∧ run out.code = .ok ⟨out.code, false⟩ := by
  unfold Stream.balanced at hbalanced
  cases ht : ScopeTree.ofStream s with
  | error fault => simp [ht, Except.toOption] at hbalanced
  | ok t =>
      rw [isSteady, ht] at hsteady
      obtain ⟨u, hu, hextends⟩ := extends_foldFrom ht ⟨t, functionScopes s t⟩ .initial
      have hbases : BasesLe State.initial.bases [] := fun n => .inl ⟨rfl, rfl⟩
      have hagain := foldFrom_again hextends stateLe_initial hbases hsteady
      refine ⟨foldFrom ⟨t, functionScopes s t⟩ .initial s, ?_, ?_⟩
      · rw [run, withTree, ht]
        rfl
      · rw [run, withTree, hu]
        exact congrArg Except.ok hagain

/-! ## Two streams with a decided jump -/

private def number (id : String) : Variable := { id, name := id, type := .data .int }

private def slot (id : String) : Option Reference := some (.var (number id))

private def constant (n : Int64) : Option Reference := some (.literal (.int n))

/-- A decided jump, and behind it an open one whose branch reads a variable that has not been written
since. -/
def settledBranches : Stream :=
  [.assign (slot "z") (constant 1),
    .scopeBegin "a" .conditional, .assign (slot "x") (constant 2), .scopeEnd "a" .conditional,
    .condJump (constant 1) "a" "",
    .scopeBegin "b" .conditional, .assign (slot "y") (slot "z"), .scopeEnd "b" .conditional,
    .condJump (slot "u") "b" ""]

theorem run_run_settledBranches :
    settledBranches.balanced = true ∧ isSteady settledBranches = true ∧
      ∃ out, run settledBranches = .ok out ∧ run out.code = .ok ⟨out.code, false⟩ := by
  have hbalanced : settledBranches.balanced = true := by decide +kernel
  have hsteady : isSteady settledBranches = true := by decide +kernel
  exact ⟨hbalanced, hsteady, run_run_of_isSteady hbalanced hsteady⟩

/-- The same with a write of the variable between the two groups. -/
def outdatedBranch : Stream :=
  [.assign (slot "z") (constant 1),
    .scopeBegin "a" .conditional, .scopeEnd "a" .conditional,
    .condJump (constant 0) "a" "",
    .assign (slot "z") (slot "u"),
    .scopeBegin "b" .conditional, .assign (slot "y") (slot "z"), .scopeEnd "b" .conditional,
    .condJump (slot "u") "b" ""]

/-- The second walk starts the second branch from the snapshot before the first one, in which the
variable still has its old value. -/
theorem run_run_outdatedBranch :
    outdatedBranch.balanced = true ∧
      ¬ ∃ out, run outdatedBranch = .ok out ∧ run out.code = .ok ⟨out.code, false⟩ := by
  refine ⟨by decide +kernel, ?_⟩
  rintro ⟨out, hout, hagain⟩
  have hchanged : ((run outdatedBranch).toOption.bind fun out =>
      (run out.code).toOption.map Outcome.changed) = some true := by decide +kernel
  rw [hout] at hchanged
  simp [Except.toOption, hagain] at hchanged

end Datapack.Optimize.Folding
