import Datapack.Proofs.Optimize.Folding.Replacements
import Datapack.Proofs.Optimize.Tidy

/-!
# Folding keeps types

A value that is known of a variable is one the variable may hold, since it comes from an assignment or
an operation that was checked.  So the literals that stand for variables are accepted wherever the
variables are, an operation keeps its type when it is evaluated, and folding a tidy stream is a sound
revision of it.
-/

namespace Datapack.Optimize.Folding

open Ir ScopeTree Revision

/-! ## What holds of every known value -/

section Known

variable {P : Variable → Literal → Prop}

/-- Every value an environment knows satisfies `P`. -/
def EnvHolds (P : Variable → Literal → Prop) (e : Env) : Prop :=
  ∀ v l, e.get? v = some (.known l) → P v l

/-- Everything that is known satisfies `P`. -/
structure Holds (P : Variable → Literal → Prop) (st : State) : Prop where
  frames : ∀ f ∈ st.frames, EnvHolds P f.values
  bases : ∀ b ∈ st.bases, EnvHolds P b.2
  pending : ∀ b ∈ st.pending, EnvHolds P b.2.values

theorem EnvHolds.nil : EnvHolds P [] := fun _ _ h => (nomatch h)

theorem EnvHolds.set {e : Env} (h : EnvHolds P e) {v : Variable} {x : Value}
    (hx : ∀ l, x = .known l → P v l) : EnvHolds P (e.set v x) := by
  intro w l hw
  rw [Env.get?_set] at hw
  split at hw
  · next heq => exact heq ▸ hx l (Option.some.inj hw)
  · exact h w l hw

theorem hit_holds {fs : List Frame} (h : ∀ f ∈ fs, EnvHolds P f.values) {v : Variable} {l : Literal}
    (hl : State.hit v fs = some (.known l)) : P v l := by
  obtain ⟨f, hf, hv⟩ := List.exists_of_findSome?_eq_some hl
  exact h f hf v l hv

namespace Holds

variable {st st' : State}

theorem initial : Holds P .initial := by
  refine ⟨fun f hf => ?_, fun b hb => absurd hb List.not_mem_nil, fun b hb => absurd hb List.not_mem_nil⟩
  obtain rfl := List.mem_singleton.1 hf
  exact .nil

theorem lookup (h : Holds P st) {v : Variable} {l : Literal} (hl : st.lookup v = some (.known l)) : P v l :=
  hit_holds h.frames (State.hit_of_lookup hl)

theorem read (h : Holds P st) {r : Option Reference} {l : Literal} (hl : (st.read r).2 = some l) :
    ∃ v, varOf r = some v ∧ P v l ∧ v.type.isPrimitive = true := by
  obtain ⟨v, hv, hhit⟩ := read_eq_some hl
  refine ⟨v, hv, hit_holds h.frames hhit, ?_⟩
  cases hprimitive : v.type.isPrimitive with
  | true => rfl
  | false => simp [State.read, hv, hprimitive] at hl

theorem noted (h : Holds P st) (hn : Noted st st') : Holds P st' := by
  obtain ⟨cs, rfl, -⟩ := hn
  exact ⟨h.frames, h.bases, h.pending⟩

theorem of_top (h : Holds P st) {f : Frame} (hf : EnvHolds P f.values) :
    Holds P { st with top := f } := by
  refine ⟨fun g hg => ?_, h.bases, h.pending⟩
  rcases List.mem_cons.1 hg with rfl | hg
  · exact hf
  · exact h.frames g (List.mem_cons_of_mem _ hg)

theorem top (h : Holds P st) : EnvHolds P st.top.values := h.frames st.top List.mem_cons_self

theorem store (h : Holds P st) {v : Variable} {x : Value} (hx : ∀ l, x = .known l → P v l) :
    Holds P (st.store v x) :=
  h.of_top (h.top.set hx)

theorem storeAll (h : Holds P st) {vs : List Variable} {x : Variable → Value}
    (hx : ∀ v ∈ vs, ∀ l, x v = .known l → P v l) : Holds P (st.storeAll vs x) := by
  induction vs generalizing st with
  | nil => exact h
  | cons v vs ih =>
      exact ih (h.store (hx v List.mem_cons_self)) fun w hw => hx w (List.mem_cons_of_mem v hw)

theorem forget (h : Holds P st) (vs : List Variable) : Holds P (st.storeAll vs fun _ => .unknown) :=
  h.storeAll fun _ _ _ hl => Value.noConfusion hl

theorem write (h : Holds P st) {r : Option Reference} {x : Value}
    (hx : ∀ v l, varOf r = some v → x = .known l → P v l) : Holds P (st.write r x) := by
  unfold State.write
  split
  · next v hv => exact (h.noted (noted_noteConstant st r)).store fun l => hx v l hv
  · exact h

theorem unwrite (h : Holds P st) (r : Option Reference) : Holds P (st.write r .unknown) :=
  h.write fun _ _ _ hl => Value.noConfusion hl

theorem declare (h : Holds P st) (r : Option Reference) : Holds P (st.declare r) := by
  unfold State.declare
  split
  · next v hv =>
      have hnoted := h.noted (noted_noteConstant st r)
      exact hnoted.of_top (hnoted.top.set fun _ hl => Value.noConfusion hl)
  · exact h

theorem settle (h : Holds P st) (n : Option Nat) : Holds P (st.settle n) :=
  ⟨h.frames, h.bases, fun b hb => h.pending b (List.mem_of_mem_filter hb)⟩

theorem dropBase (h : Holds P st) (n : Nat) : Holds P (st.dropBase n) :=
  ⟨h.frames, fun b hb => h.bases b (List.mem_of_mem_filter hb), h.pending⟩

theorem valueOf (h : Holds P st) {n : Option Nat} {b : Branch} (hb : st.branch? n = some b)
    {v : Variable} {l : Literal} (hl : b.valueOf v = .known l) : P v l := by
  obtain ⟨m, -, hm⟩ := Option.bind_eq_some_iff.1 hb
  have hholds := h.pending (m, b) (mem_of_lookup_eq_some hm)
  unfold Branch.valueOf at hl
  cases hv : b.values.get? v with
  | none => simp [hv] at hl
  | some x =>
      rw [hv, Option.getD_some] at hl
      exact hholds v l (hv.trans (congrArg some hl))

theorem commit (h : Holds P st) (n : Option Nat) : Holds P (st.commit n) := by
  unfold State.commit
  split
  · next b hb => exact (h.storeAll fun v _ l hl => h.valueOf hb hl).settle n
  · exact h

theorem merge (h : Holds P st) (onTrue onFalse : Option Nat) : Holds P (st.merge onTrue onFalse) := by
  unfold State.merge
  dsimp only
  split
  · exact h
  · refine (((h.storeAll fun v _ l hl => ?_).settle onTrue).settle onFalse).dropBase _
    -- both sides agree on the value, so either of them vouches for it
    obtain ⟨htrue, -⟩ := State.agree_eq_known hl
    unfold State.outcomeOf at htrue
    split at htrue
    · next b hb => exact h.valueOf hb (Option.some.inj htrue)
    · exact h.lookup htrue

theorem flatten (h : Holds P st) : EnvHolds P st.flatten := by
  intro v l hl
  rw [State.flatten_get?] at hl
  split at hl
  · exact h.lookup hl
  · exact absurd hl (by simp)

theorem enter (h : Holds P st) (n : Nat) (kind : ScopeKind) : Holds P (st.enter n kind) := by
  have hpush : ∀ {f : Frame} {bases : List (Nat × Env)}, EnvHolds P f.values →
      (∀ b ∈ bases, EnvHolds P b.2) →
      Holds P { st with opened := st.opened + 1, top := f, outer := st.frames, bases } := by
    intro f bases hf hbases
    refine ⟨fun g hg => ?_, hbases, h.pending⟩
    rcases List.mem_cons.1 hg with rfl | hg
    · exact hf
    · exact h.frames g hg
  unfold State.enter
  dsimp only
  split
  · split
    · next base hbase => exact hpush (h.bases _ (mem_of_lookup_eq_some hbase)) h.bases
    · exact hpush h.flatten (List.forall_mem_cons.2 ⟨h.flatten, h.bases⟩)
  · exact hpush .nil h.bases

theorem leave (h : Holds P st) : Holds P st.leave := by
  unfold State.leave
  cases houter : st.outer with
  | nil => exact h
  | cons next outer =>
      dsimp only
      have hclosed := (h.forget
        ((st.pending.filter (·.2.parent = st.top.node)).flatMap (·.2.written))).top
      have houtside : Holds P
          { st with
            top := next, outer
            bases := st.bases.filter (·.1 ≠ st.top.node)
            pending := st.pending.filter (·.2.parent ≠ st.top.node) } := by
        refine ⟨fun f hf => h.frames f (List.mem_cons_of_mem _ (houter ▸ hf)), fun b hb => ?_,
          fun b hb => ?_⟩
        · exact h.bases b (List.mem_of_mem_filter hb)
        · exact h.pending b (List.mem_of_mem_filter hb)
      simp only [State.storeAll_bases, State.storeAll_pending, State.storeAll_opened,
        State.storeAll_constants]
      split
      · exact ⟨houtside.frames, houtside.bases, List.forall_mem_cons.2 ⟨hclosed, houtside.pending⟩⟩
      · exact houtside.forget _

theorem clobber (h : Holds P st) (t : ScopeTree) (bodies : List (Nat × Option Function))
    (callee : Option Function) : Holds P (st.clobber t bodies callee) := by
  unfold State.clobber
  dsimp only
  split
  · exact h.forget _
  · split
    · exact h.forget _
    · exact h.forget _

theorem step (h : Holds P st) (e : Surroundings) {ins : Instruction}
    (hassign : ins.op = .assign → ∀ v l, varOf (ins.refAt 0) = some v →
      literalOf ((substitute st ins).2.1.refAt 1) = some l → P v l)
    (hoperation : isOperation ins = true → ∀ v l, varOf (ins.refAt 0) = some v →
      evaluate (substitute st ins).2.1 = some l → P v l) : Holds P (step e st ins).1 := by
  have hsubst := h.noted (noted_substitute st ins)
  cases hop : ins.op with
  | scopeBegin =>
      simp only [Folding.step, hop]
      exact h.enter _ _
  | scopeEnd =>
      simp only [Folding.step, hop]
      exact h.leave
  | declare =>
      simp only [Folding.step, hop]
      exact h.declare _
  | jump =>
      simp only [Folding.step, hop]
      exact h.commit _
  | condJump =>
      cases htruth : verdict st ins with
      | some truth =>
          rw [step_decided e hop htruth]
          exact (hsubst.commit _).dropBase _
      | none =>
          rw [step_open e hop htruth]
          exact hsubst.merge _ _
  | call | callMethod =>
      simp only [Folding.step, hop]
      exact (hsubst.clobber _ _ _).unwrite _
  | assign =>
      simp only [Folding.step, hop]
      refine hsubst.write fun v l hv hl => hassign hop v l ?_ ?_
      · rwa [refAt_zero_substitute st (by simp [Instruction.isData, hop])] at hv
      · cases hliteral : literalOf ((substitute st ins).2.1.refAt 1) with
        | none => simp [hliteral] at hl
        | some k => simpa [hliteral] using hl
  | binaryOp | compare | unaryOp | cast =>
      have hresult : (substitute st ins).2.1.result = ins.refAt 0 := by
        rw [Instruction.result, substitute_op]
        simp only [hop]
        exact refAt_zero_substitute st (by simp [Instruction.isData, hop])
      simp only [Folding.step, hop, foldOperation, hresult]
      split
      · next k hk =>
          refine hsubst.write fun v l hv hl => ?_
          obtain rfl := Value.known.inj hl
          exact hoperation (by simp [isOperation, hop]) v k hv hk
      · exact hsubst.unwrite _
  | newObject | getProperty =>
      simp only [Folding.step, hop]
      exact h.unwrite _
  | ret | setProperty =>
      simp only [Folding.step, hop]
      exact hsubst
  | _ =>
      simp only [Folding.step, hop]
      exact h

end Holds

end Known

/-! ## Operands -/

/-- Every value that is known of a variable is one it may hold. -/
abbrev Typed (classes : Hierarchy) : State → Prop :=
  Holds fun v l => classes.accepts v.type (.data l.type) = true

/-- Where one operand is accepted the other is too, and both are strings or neither is. -/
structure Narrows (classes : Hierarchy) (r r' : Option Reference) : Prop where
  isSome : r'.isSome = r.isSome
  accepts : ∀ T, classes.accepts T (typeOf r) = true → classes.accepts T (typeOf r') = true
  isString : typeOf r' = .data .string ↔ typeOf r = .data .string

section Operands

variable {classes : Hierarchy} {r r' r'' : Option Reference}

theorem accepts_trans {T : Ty} {d s : DataType} (h : classes.accepts T (.data d) = true)
    (h' : classes.accepts (.data d) (.data s) = true) : classes.accepts T (.data s) = true := by
  cases T with
  | object c =>
      obtain rfl : d = .null := by simpa [Hierarchy.accepts] using h
      simp only [Hierarchy.accepts, Bool.or_eq_true, Bool.and_eq_true, decide_eq_true_eq] at h' ⊢
      rcases h' with rfl | ⟨hint, -⟩
      · rfl
      · exact DataType.noConfusion hint
  | data x =>
      simp only [Hierarchy.accepts, Bool.or_eq_true, Bool.and_eq_true, decide_eq_true_eq] at h h' ⊢
      rcases h' with rfl | ⟨rfl, rfl⟩
      · exact h
      · rcases h with rfl | ⟨-, hboolean⟩
        · exact .inr ⟨rfl, rfl⟩
        · exact DataType.noConfusion hboolean

theorem accepts_isString {d s : DataType} (h : classes.accepts (.data d) (.data s) = true) :
    s = .string ↔ d = .string := by
  simp only [Hierarchy.accepts, Bool.or_eq_true, Bool.and_eq_true, decide_eq_true_eq] at h
  rcases h with rfl | ⟨rfl, rfl⟩ <;> simp

theorem typeOf_of_varOf {v : Variable} (h : varOf r = some v) : typeOf r = v.type := by
  cases r with
  | none => simp [varOf] at h
  | some x => cases x <;> simp_all [varOf, Reference.var?, typeOf, Reference.type]

namespace Narrows

theorem refl (classes : Hierarchy) (r : Option Reference) : Narrows classes r r :=
  ⟨rfl, fun _ h => h, Iff.rfl⟩

theorem trans (h : Narrows classes r r') (h' : Narrows classes r' r'') : Narrows classes r r'' :=
  ⟨h'.isSome.trans h.isSome, fun T hT => h'.accepts T (h.accepts T hT), h'.isString.trans h.isString⟩

theorem exists_some (h : Narrows classes r r') {v : Reference} (hr : r = some v) :
    ∃ v', r' = some v' ∧ ∀ T, classes.accepts T v.type = true → classes.accepts T v'.type = true := by
  subst hr
  obtain ⟨v', rfl⟩ := Option.isSome_iff_exists.1 h.isSome
  exact ⟨v', rfl, h.accepts⟩

theorem eq_none (h : Narrows classes r r') (hr : r = none) : r' = none := by
  rw [← Option.not_isSome_iff_eq_none, h.isSome, hr]
  simp

/-- What is known of a variable may stand for it. -/
theorem of_read {st : State} (h : Typed classes st) {l : Literal} (hl : (st.read r).2 = some l) :
    Narrows classes r (some (.literal l)) := by
  obtain ⟨v, hv, hl', hprimitive⟩ := h.read hl
  have htype := typeOf_of_varOf hv
  cases hd : v.type with
  | object c => simp [hd, Ty.isPrimitive] at hprimitive
  | data d =>
      rw [hd] at htype hl'
      refine ⟨?_, fun T hT => ?_, ?_⟩
      · cases r with
        | none => simp [varOf] at hv
        | some x => rfl
      · exact accepts_trans (htype ▸ hT) hl'
      · rw [htype]
        simpa [typeOf, Reference.type] using accepts_isString hl'

end Narrows

theorem relates_narrows (classes : Hierarchy) : Relates (Typed classes) (Narrows classes) :=
  ⟨Narrows.refl classes, Narrows.trans, Holds.noted, fun h hl => .of_read h hl⟩

/-- Substitution puts nothing in place of an operand that could not stand there. -/
theorem narrows_substitute {st : State} (h : Typed classes st) {ins : Instruction}
    (hcall : ins.isCall = false) (i : Nat) :
    Narrows classes (ins.refAt i) ((substitute st ins).2.1.refAt i) :=
  (relates_narrows classes).refAt h hcall i

/-- An argument that binds the same parameter to a value that may stand there as well. -/
def NarrowsArgument (classes : Hierarchy) (a b : Argument) : Prop :=
  b.name = a.name ∧ Narrows classes a.value b.value

theorem narrows_substituteArgs {st : State} (h : Typed classes st) (args : List Argument) :
    List.Forall₂ (NarrowsArgument classes) args (substituteArgs st args).2.1 :=
  (relates_narrows classes).args h args

end Operands

/-! ## Calls -/

section Calls

variable {classes : Hierarchy} {e : Ir.Surroundings} {args args' : List Argument} {f : Function}
  {ins new : Instruction}

theorem paramDefects_narrowed (he : e.classes = classes)
    (h : List.Forall₂ (NarrowsArgument classes) args args') {p : Parameter}
    (hdefects : e.paramDefects f args p = []) : e.paramDefects f args' p = [] := by
  unfold Surroundings.paramDefects at hdefects ⊢
  have hfind := find?_related h p.name
  generalize args.find? (·.name = p.name) = found at *
  generalize args'.find? (·.name = p.name) = found' at *
  cases hfind with
  | none => exact hdefects
  | @some a b hab =>
      dsimp only at hdefects ⊢
      cases hv : a.value with
      | none => rw [hab.2.eq_none hv]
      | some v =>
          obtain ⟨v', hv', haccepts⟩ := hab.2.exists_some hv
          rw [hv] at hdefects
          rw [hv']
          subst he
          by_cases hv : e.classes.accepts p.type v.type = true
          · simp [haccepts _ hv]
          · simp [hv] at hdefects

theorem argumentDefects_narrowed (hop : new.op = ins.op)
    (h : List.Forall₂ (NarrowsArgument classes) args args') :
    args'.flatMap (Surroundings.argumentDefects f new) =
      args.flatMap (Surroundings.argumentDefects f ins) := by
  induction h with
  | nil => rfl
  | @cons a b args args' hab hrest ih =>
      rw [List.flatMap_cons, List.flatMap_cons, ih]
      unfold Surroundings.argumentDefects
      rw [hab.1, hop]

theorem callDefects_narrowed (he : e.classes = classes) (hop : new.op = ins.op)
    (hresult : new.result = ins.result)
    (hargs : List.Forall₂ (NarrowsArgument classes) ins.arguments new.arguments) {callee : Option Function}
    (h : e.callDefects ins callee = []) : e.callDefects new callee = [] := by
  unfold Surroundings.callDefects at h ⊢
  cases callee with
  | none => exact absurd h (by simp)
  | some f =>
      simp only [List.append_eq_nil_iff, List.flatMap_eq_nil_iff] at h ⊢
      obtain ⟨⟨hparams, harguments⟩, hresults⟩ := h
      refine ⟨⟨fun p hp => paramDefects_narrowed he hargs (hparams p hp), ?_⟩, ?_⟩
      · rw [← List.flatMap_eq_nil_iff, argumentDefects_narrowed hop hargs, List.flatMap_eq_nil_iff]
        exact harguments
      · rw [← hresults, Surroundings.resultDefects, Surroundings.resultDefects, hresult]

end Calls

/-! ## Instructions -/

section Instructions

variable {classes : Hierarchy} {st : State} {ins new : Instruction}

/-- Of two assignments to the same target the second is no worse when its source is not. -/
theorem refines_of_assignments (hins : (asAssignment ins).op = .assign)
    (hnew : (asAssignment new).op = .assign)
    (htarget : (asAssignment new).refAt 0 = (asAssignment ins).refAt 0)
    (hsource : Narrows classes ((asAssignment ins).refAt 1) ((asAssignment new).refAt 1)) :
    Refines classes ins new := by
  refine ⟨fun x hx => ?_, fun k n => ?_, fun e k n he h => ?_⟩
  · -- neither an assignment nor an operation jumps
    unfold asAssignment at hnew
    split at hnew
    · next hoperation =>
        simp only [isOperation, Bool.or_eq_true, decide_eq_true_eq] at hoperation
        rcases hoperation with ((hop | hop) | hop) | hop <;> simp [Instruction.jumpTargets, hop] at hx
    · simp [Instruction.jumpTargets, hnew] at hx
  · simp only [Progress.advance, hins, hnew, htarget]
    cases hold : (asAssignment ins).refAt 1 with
    | none => rw [hsource.eq_none hold]
    | some v =>
        obtain ⟨v', hv', -⟩ := hsource.exists_some hold
        rw [hv']
        cases varOf ((asAssignment ins).refAt 0) <;> rfl
  · simp only [Surroundings.defects, hins, hnew] at h ⊢
    obtain ⟨v, source, hv, hold, hdeclared, hconstant, htype⟩ := assignDefects_eq_nil.1 h
    obtain ⟨source', hsource', haccepts⟩ := hsource.exists_some hold
    subst he
    rw [← htarget] at hv hconstant htype
    exact assignDefects_eq_nil.2 ⟨v, source', hv, hsource', hdeclared, hconstant, haccepts _ htype⟩

theorem isOperation_isData (h : isOperation ins = true) : ins.isData = true := by
  simp only [isOperation, Bool.or_eq_true, decide_eq_true_eq] at h
  rcases h with ((hop | hop) | hop) | hop <;> simp [Instruction.isData, hop]

theorem computedType_substitute (h : Typed classes st) (hoperation : isOperation ins = true) :
    computedType (substitute st ins).2.1 = computedType ins := by
  have hdata := isOperation_isData hoperation
  have hassign : ins.op ≠ .assign := by
    intro hop
    simp [isOperation, hop] at hoperation
  have hone := operand_substitute_data st hdata (Nat.le_refl 1) fun hop => absurd hop hassign
  have hstring := (narrows_substitute h (isData_isCall hdata) 2).isString
  have hunary : (substitute st ins).2.1.unaryOperator = ins.unaryOperator := by
    simp only [Instruction.unaryOperator, hone]
  have hcast : (substitute st ins).2.1.castTarget = ins.castTarget := by
    simp only [Instruction.castTarget, hone]
  simp only [computedType, substitute_op, refAt_zero_substitute st hdata, hunary, hcast, hstring]

theorem type_evalBinary {op : BinaryOperator} {x y l : Literal} {result : Ty}
    (h : evalBinary op x y result = some l) :
    l.type = if x.type = .string then .string
      else if result = .data .boolean then .boolean else .int := by
  unfold evalBinary at h
  cases x with
  | str a =>
      dsimp only [Literal.str?] at h
      split at h
      · split at h
        · obtain rfl := Option.some.inj h
          rfl
        · exact absurd h (by simp)
      · exact absurd h (by simp)
  | int | bool | null =>
      dsimp only [Literal.str?] at h
      obtain ⟨a, -, h⟩ := Option.bind_eq_some_iff.1 h
      obtain ⟨b, -, h⟩ := Option.bind_eq_some_iff.1 h
      obtain ⟨n, -, h⟩ := Option.bind_eq_some_iff.1 h
      obtain rfl := Option.some.inj h
      by_cases hresult : result = .data .boolean <;> simp [hresult, Literal.type]

theorem type_evalUnary {op : UnaryOperator} {x l : Literal} (h : evalUnary op x = some l) :
    l.type = if op = .not then .boolean else .int := by
  unfold evalUnary at h
  cases op with
  | neg =>
      dsimp only at h
      split at h
      · obtain rfl := Option.some.inj h
        rfl
      · exact absurd h (by simp)
  | not =>
      obtain ⟨b, -, rfl⟩ := Option.map_eq_some_iff.1 h
      rfl
  | bitNot =>
      obtain ⟨n, -, rfl⟩ := Option.map_eq_some_iff.1 h
      rfl
  | undefined => exact absurd h (by simp)

theorem type_evalCast {target : DataType} {x l : Literal} (h : evalCast target x = some l) :
    l.type = target := by
  unfold evalCast at h
  split at h
  · next htype => rwa [Option.some.inj h] at htype
  · split at h
    · obtain rfl := Option.some.inj h
      rfl
    · obtain rfl := Option.some.inj h
      rfl
    · exact absurd h (by simp)

theorem typeOf_of_literalOf {r : Option Reference} {l : Literal} (h : literalOf r = some l) :
    typeOf r = .data l.type := by
  rw [eq_of_literalOf h]
  rfl

/-- The value of an operation has the type the operation computes. -/
theorem type_of_evaluate {l : Literal} (h : evaluate ins = some l) : l.type = computedType ins := by
  unfold evaluate at h
  split at h
  · next hop =>
      obtain ⟨x, hx, h⟩ := Option.bind_eq_some_iff.1 h
      obtain ⟨y, hy, h⟩ := Option.bind_eq_some_iff.1 h
      simp [computedType, hop, typeOf_of_literalOf hx, type_evalBinary h]
  · next hop =>
      obtain ⟨x, hx, h⟩ := Option.bind_eq_some_iff.1 h
      obtain ⟨y, hy, h⟩ := Option.bind_eq_some_iff.1 h
      obtain ⟨b, -, rfl⟩ := Option.map_eq_some_iff.1 h
      simp [computedType, hop, Literal.type]
  · next hop =>
      obtain ⟨x, hx, h⟩ := Option.bind_eq_some_iff.1 h
      simp [computedType, hop, type_evalUnary h]
  · next hop =>
      obtain ⟨x, hx, h⟩ := Option.bind_eq_some_iff.1 h
      simp [computedType, hop, type_evalCast h]
  · exact absurd h (by simp)

/-! ### Substitution -/

/-- An instruction that adds nothing to what is known only has to keep its targets and its defects. -/
theorem refines_unknowing (hins : isOperation ins = false ∧ ins.op ≠ .declare ∧ ins.op ≠ .assign)
    (htargets : ∀ x ∈ (substitute st ins).2.1.jumpTargets, x ∈ ins.jumpTargets)
    (hdefects : ∀ (e : Ir.Surroundings) k n, e.classes = classes → e.defects k n ins = [] →
      e.defects k n (substitute st ins).2.1 = []) : Refines classes ins (substitute st ins).2.1 := by
  refine .of_unknowing hins ?_ htargets hdefects
  rwa [isOperation_substitute, substitute_op]

section Substitution

variable (h : Typed classes st)

include h

theorem refines_operation (hoperation : isOperation ins = true) :
    Refines classes ins (substitute st ins).2.1 := by
  have hsame : asAssignment (substitute st ins).2.1 = asAssignment ins := by
    rw [asAssignment_operation hoperation,
      asAssignment_operation (by rw [isOperation_substitute, hoperation]), substitute_loc,
      computedType_substitute h hoperation, refAt_zero_substitute st (isOperation_isData hoperation)]
  have hassign : (asAssignment ins).op = .assign := by
    rw [asAssignment_operation hoperation]
    rfl
  refine refines_of_assignments hassign (hsame ▸ hassign) (by rw [hsame]) ?_
  rw [hsame]
  exact .refl classes _

theorem refines_assign (hop : ins.op = .assign) : Refines classes ins (substitute st ins).2.1 := by
  have hother : isOperation ins = false := by simp [isOperation, hop]
  have hother' : isOperation (substitute st ins).2.1 = false := by rw [isOperation_substitute, hother]
  refine refines_of_assignments ?_ ?_ ?_ ?_
  · rw [asAssignment_other hother, hop]
  · rw [asAssignment_other hother', substitute_op, hop]
  · rw [asAssignment_other hother, asAssignment_other hother',
      refAt_zero_substitute st (by simp [Instruction.isData, hop])]
  · rw [asAssignment_other hother, asAssignment_other hother']
    exact narrows_substitute h (by simp [Instruction.isCall, hop]) 1

theorem refines_condJump (hop : ins.op = .condJump) : Refines classes ins (substitute st ins).2.1 := by
  have hcondition : (substitute st ins).2.1.condition.isNone = ins.condition.isNone := by
    rw [← Option.not_isSome, ← Option.not_isSome]
    exact congrArg (!·) (narrows_substitute h (by simp [Instruction.isCall, hop]) 0).isSome
  refine refines_unknowing (by simp [isOperation, hop]) (fun x hx => ?_) fun e k n _ hdefects => ?_
  · simpa only [Instruction.jumpTargets, substitute_op, hop, onTrue_substitute hop,
      onFalse_substitute hop] using hx
  · simpa only [Surroundings.defects, substitute_op, hop, Surroundings.condJumpDefects, hcondition,
      onTrue_substitute hop, onFalse_substitute hop] using hdefects

theorem refines_ret (hop : ins.op = .ret) : Refines classes ins (substitute st ins).2.1 := by
  have hvalue : Narrows classes (ins.refAt 0) ((substitute st ins).2.1.refAt 0) :=
    narrows_substitute h (by simp [Instruction.isCall, hop]) 0
  refine refines_unknowing (by simp [isOperation, hop]) (fun x hx => ?_) fun e k n he hdefects => ?_
  · simp [Instruction.jumpTargets, hop] at hx
  · simp only [Surroundings.defects, substitute_op, hop, Surroundings.returnDefects] at hdefects ⊢
    subst he
    cases hv : ins.refAt 0 with
    | none => simpa only [hv, hvalue.eq_none hv] using hdefects
    | some v =>
        obtain ⟨v', hv', haccepts⟩ := hvalue.exists_some hv
        simp only [hv, hv'] at hdefects ⊢
        split at hdefects
        · exact hdefects
        · split at hdefects
          · rfl
          · next f hf =>
              split at hdefects
              · exact absurd hdefects (by simp)
              · split at hdefects
                · next hold => simp_all
                · exact absurd hdefects (by simp)

theorem refines_setProperty (hop : ins.op = .setProperty) :
    Refines classes ins (substitute st ins).2.1 := by
  have hvalue : Narrows classes (ins.refAt 2) ((substitute st ins).2.1.refAt 2) :=
    narrows_substitute h (by simp [Instruction.isCall, hop]) 2
  have hsame : ∀ i, i ≠ 2 → (substitute st ins).2.1.operand i = ins.operand i := fun i hi =>
    substitute_operand st ins (by simp [valueSlots, hop, hi]) (by simp [Instruction.isCall, hop])
  refine refines_unknowing (by simp [isOperation, hop]) (fun x hx => ?_) fun e k n he hdefects => ?_
  · simp [Instruction.jumpTargets, hop] at hx
  · simp only [Surroundings.defects, substitute_op, hop, Surroundings.propertyDefects,
      Instruction.propertyObject, Instruction.propertyName, Instruction.propertyOther,
      Instruction.refAt_congr (hsame 0 (by decide)), Instruction.textAt_congr (hsame 1 (by decide))]
      at hdefects ⊢
    subst he
    cases hv : ins.refAt 2 with
    | none => simpa only [hv, hvalue.eq_none hv] using hdefects
    | some v =>
        obtain ⟨v', hv', haccepts⟩ := hvalue.exists_some hv
        simp only [hv, hv'] at hdefects ⊢
        split at hdefects
        · exact hdefects
        · split at hdefects
          · exact hdefects
          · next p hp =>
              split at hdefects
              · next hold => simp only [haccepts _ hold, if_true]
              · exact absurd hdefects (by simp)

theorem refines_call (hcall : ins.isCall = true) : Refines classes ins (substitute st ins).2.1 := by
  have hargs : List.Forall₂ (NarrowsArgument classes) ins.arguments (substitute st ins).2.1.arguments := by
    rw [arguments_substitute st ins hcall]
    exact narrows_substituteArgs h _
  have hop := op_of_isCall hcall
  have hresult := result_substitute_call st ins hcall
  have hfunction := function?_substitute_call st ins hcall
  refine refines_unknowing (by rcases hop with hop | hop <;> simp [isOperation, hop]) (fun x hx => ?_)
    fun e k n he hdefects => ?_
  · rcases hop with hop | hop <;> simp [Instruction.jumpTargets, hop] at hx
  · have hcallee : ∀ callee, e.callDefects ins callee = [] →
        e.callDefects (substitute st ins).2.1 callee = [] :=
      fun callee => callDefects_narrowed he (substitute_op st ins) hresult hargs
    rcases hop with hop | hop
    · simp only [Surroundings.defects, substitute_op, hop, hfunction] at hdefects ⊢
      exact hcallee _ hdefects
    · have hclass : (substitute st ins).2.1.class? = ins.class? := by
        simp only [Instruction.class?, substitute_op, hop, Instruction.classAt,
          substitute_operand_call st ins hcall (i := 1) (by simp [Instruction.argumentSlot, hop])]
      simp only [Surroundings.defects, substitute_op, hop, Surroundings.callMethodDefects, hfunction,
        hclass] at hdefects ⊢
      split at hdefects
      · split at hdefects
        · next hmethod => 
            rw [if_pos hmethod]
            exact hcallee _ hdefects
        · exact absurd hdefects (by simp)
      · exact absurd hdefects (by simp)

/-- Substituting known values puts nothing worse in place of an instruction. -/
theorem refines_substitute (ins : Instruction) : Refines classes ins (substitute st ins).2.1 := by
  cases hop : ins.op with
  | binaryOp | compare | unaryOp | cast => exact refines_operation h (by simp [isOperation, hop])
  | assign => exact refines_assign h hop
  | condJump => exact refines_condJump h hop
  | ret => exact refines_ret h hop
  | setProperty => exact refines_setProperty h hop
  | call | callMethod => exact refines_call h (by simp [Instruction.isCall, hop])
  | _ =>
      have hsame : (substitute st ins).2.1 = ins := by
        rw [substitute_of_not_isCall st (by simp [Instruction.isCall, hop])]
        simp [valueSlots, hop]
      rw [hsame]
      exact .refl classes ins

end Substitution

end Instructions

/-! ## Folding a tidy stream -/

theorem type_sampleOf (d : DataType) : (sampleOf d).type = d := by
  cases d <;> rfl

section Step

variable {classes : Hierarchy} {st : State} {ins new : Instruction}

/-- A step over an instruction without a defect keeps the types of what is known. -/
theorem typed_step {around : Ir.Surroundings} (h : Typed around.classes st) (e : Surroundings)
    {k : Ir.Progress} {n : Nat} (hdefects : around.defects k n (asAssignment ins) = []) :
    Typed around.classes (step e st ins).1 := by
  refine h.step e (fun hop v l hv hl => ?_) fun hoperation v l hv hl => ?_
  · rw [asAssignment_other (by simp [isOperation, hop])] at hdefects
    simp only [Surroundings.defects, hop] at hdefects
    obtain ⟨-, source, -, hsource, -, -, htype⟩ := assignDefects_eq_nil.1 hdefects
    have hnarrows : Narrows _ (ins.refAt 1) ((substitute st ins).2.1.refAt 1) :=
      narrows_substitute h (by simp [Instruction.isCall, hop]) 1
    have haccepts := hnarrows.accepts (typeOf (ins.refAt 0)) (by rwa [hsource])
    rwa [typeOf_of_literalOf hl, typeOf_of_varOf hv] at haccepts
  · rw [asAssignment_operation hoperation] at hdefects
    obtain ⟨-, source, -, hsource, -, -, htype⟩ := assignDefects_eq_nil.1 hdefects
    obtain rfl := Option.some.inj hsource
    have hsample : around.classes.accepts (typeOf (ins.refAt 0)) (.data (computedType ins)) = true := by
      rw [← type_sampleOf (computedType ins)]
      exact htype
    rwa [typeOf_of_varOf hv, ← computedType_substitute h hoperation, ← type_of_evaluate hl] at hsample

/-- The value of an operation may stand for any other value of its type. -/
theorem refines_evaluated (hoperation : isOperation ins = true) {l : Literal}
    (hl : l.type = computedType ins) :
    Refines classes ins ((Instruction.assign (ins.refAt 0) (some (.literal l))).located ins.loc) := by
  refine refines_of_assignments ?_ rfl ?_ ?_
  · rw [asAssignment_operation hoperation]
    rfl
  · rw [asAssignment_operation hoperation]
    rfl
  · rw [asAssignment_operation hoperation]
    have htype : typeOf (some (.literal l)) = typeOf (some (.literal (sampleOf (computedType ins)))) :=
      congrArg Ty.data (hl.trans (type_sampleOf _).symm)
    refine ⟨rfl, fun T hT => ?_, ?_⟩
    · exact htype ▸ hT
    · exact htype ▸ Iff.rfl

/-- The jump that is left of a decided conditional jump leads where one of its branches led. -/
theorem refines_decided (hop : ins.op = .condJump) {truth : Bool} (hname : taken ins truth ≠ "") :
    Refines classes ins ((Instruction.jump (taken ins truth)).located ins.loc) := by
  have htaken : taken ins truth ∈ [ins.onTrue, ins.onFalse].filter (· ≠ "") := by
    refine List.mem_filter.2 ⟨?_, decide_eq_true hname⟩
    cases truth <;> simp [taken]
  refine .of_unknowing (by simp [isOperation, hop]) ⟨rfl, Opcode.noConfusion, Opcode.noConfusion⟩
    (fun x hx => ?_) fun e k n _ hdefects => ?_
  · obtain rfl := List.mem_singleton.1 hx
    rwa [Instruction.jumpTargets, hop]
  · simp only [Surroundings.defects, hop, Surroundings.condJumpDefects, List.append_eq_nil_iff,
      List.flatMap_eq_nil_iff] at hdefects
    exact hdefects.2 _ htaken

/-- A step puts nothing worse in place of an instruction. -/
theorem refines_emitted (h : Typed classes st) (e : Surroundings)
    (hemitted : (step e st ins).2.emitted ins = [new]) : Refines classes ins new := by
  by_cases hop : ins.op = .condJump
  · rcases emitted_condJump e st hop with ⟨-, hopen⟩ | ⟨truth, -, hdecided⟩
    · obtain rfl := List.singleton_inj.1 (hemitted.symm.trans hopen)
      exact refines_substitute h ins
    · rw [hdecided] at hemitted
      split at hemitted
      · exact absurd hemitted (by simp)
      · next hname =>
          obtain rfl := List.singleton_inj.1 hemitted
          exact refines_decided hop hname
  · rcases emitted_plain e st hop with ⟨-, hsubstituted⟩ | ⟨l, hl, hevaluated⟩
    · obtain rfl := List.singleton_inj.1 (hemitted.symm.trans hsubstituted)
      exact refines_substitute h ins
    · obtain rfl := List.singleton_inj.1 (hemitted.symm.trans hevaluated)
      have hoperation := (isOperation_substitute st ins).symm.trans (isOperation_of_evaluate hl)
      exact refines_evaluated hoperation ((type_of_evaluate hl).trans (computedType_substitute h hoperation))

/-- Only a conditional jump leaves nothing behind. -/
theorem op_of_removed (e : Surroundings) (hemitted : (step e st ins).2.emitted ins = []) :
    ins.op = .condJump := by
  by_contra hop
  rcases emitted_plain e st hop with ⟨-, hsubstituted⟩ | ⟨l, -, hevaluated⟩
  · exact absurd (hemitted.symm.trans hsubstituted) (by simp)
  · exact absurd (hemitted.symm.trans hevaluated) (by simp)

end Step

section Run

variable {classes : Hierarchy} {s : Stream} {t : ScopeTree}

/-- In a tidy stream every known value is one its variable may hold. -/
theorem typed_walk (h : Tidy classes s t) (e : Surroundings) {pre post : Stream} (hs : s = pre ++ post) :
    Typed classes (walk e .initial pre) := by
  induction pre using List.reverseRecOn generalizing post with
  | nil => exact .initial
  | append_singleton pre ins ih =>
      rw [List.append_assoc, List.singleton_append] at hs
      rw [walk_append]
      exact @typed_step _ ins (surroundings classes s t) (ih hs) e _ _ (h.clean pre ins post hs)

/-- Folding drops conditional jumps only and puts nothing worse in place of anything else. -/
theorem sound_revision (h : Tidy classes s t) (e : Surroundings) :
    Sound classes t (fun _ => false) (revision e .initial s) := by
  have hkept : ∀ {a b : Revision} {ins : Instruction} {o : Option Instruction},
      revision e .initial s = a ++ (ins, o) :: b →
      (ins.op = .scopeBegin ∨ ins.op = .scopeEnd ∨ ins.op = .function) → o = some ins := by
    intro a b ins o hw hop
    rw [(revision_split hw).2, step_keep _ ins e hop]
    rfl
  have hemitted : ∀ {a b : Revision} {ins new : Instruction},
      revision e .initial s = a ++ (ins, some new) :: b →
      (step e (walk e .initial (before a)) ins).2.emitted ins = [new] := by
    intro a b ins new hw
    have hhead := (revision_split hw).2
    rcases emitted_cases (step e (walk e .initial (before a)) ins).2 ins with hnone | ⟨first, hfirst⟩
    · rw [hnone] at hhead
      exact absurd hhead (by simp)
    · rw [hfirst] at hhead ⊢
      rw [Option.some.inj hhead]
  refine ⟨⟨rfl, fun _ _ _ h => Bool.noConfusion h, fun a ins o b hw hdelimiter => ?_,
    fun _ _ _ _ _ h => Bool.noConfusion h, fun ins new hmem hplain => ?_⟩, fun ins new hmem => ?_,
    fun _ _ _ _ _ _ _ _ _ => rfl, fun a d b ins new c hw v hd _ => ?_,
    fun a f o b new c hw hf _ _ => hkept hw (.inr (.inr hf))⟩
  · simp only [isDelimiter, Bool.or_eq_true, decide_eq_true_eq] at hdelimiter
    exact hkept hw (hdelimiter.imp_right .inl)
  · obtain ⟨a, b, hw⟩ := List.append_of_mem hmem
    obtain ⟨hb, he⟩ := isDelimiter_eq_false.1 hplain
    have hnew := op_emitted (walk e .initial (before a)) ins e hb he new
    rw [hemitted hw] at hnew
    exact isDelimiter_eq_false.2 (hnew (List.mem_singleton_self new))
  · obtain ⟨a, b, hw⟩ := List.append_of_mem hmem
    exact refines_emitted (typed_walk h e (revision_split hw).1) e (hemitted hw)
  · -- a declaration is never dropped
    have hhead := (revision_split hw).2
    rcases emitted_cases (step e (walk e .initial (before a)) d).2 d with hnone | ⟨first, hfirst⟩
    · simp [DeadCode.declares?, op_of_removed e hnone] at hd
    · rw [hfirst] at hhead
      exact absurd hhead (by simp)

theorem tidy_run (h : Tidy classes s t) :
    ∃ out t', run s = .ok out ∧ Tidy classes out.code t' := by
  obtain ⟨out, hout, hbalanced⟩ := balanced_run h.tree
  obtain ⟨t', ht'⟩ := exists_tree hbalanced
  obtain rfl := Except.ok.inj ((withTree_eq h.tree _).symm.trans hout)
  rw [← after_revision] at ht'
  refine ⟨_, t', hout, ?_⟩
  rw [← after_revision]
  refine (sound_revision h _).tidy ?_ ht'
  rwa [before_revision]

end Run

end Datapack.Optimize.Folding
