import Datapack.Proofs.Ir.Brackets
import Datapack.Proofs.Ir.Validity

/-!
# Validity is well-formedness

`WellFormed` states the rules of a program over its whole stream and scope tree, without the tables that
validation keeps on its way.  The main result is that validation accepts exactly the programs whose
delimiters match and that are well-formed: what the tables hold at an instruction is what the rules say
about the instructions before it.
-/

namespace Datapack.Ir

open ScopeTree

def Declares (s : Stream) (i : Nat) (v : Variable) : Prop :=
  ∃ ins, s[i]? = some ins ∧ ins.op = .declare ∧ varOf (ins.refAt 0) = some v

def AssignsConstant (s : Stream) (i : Nat) (v : Variable) : Prop :=
  ∃ ins, s[i]? = some ins ∧ ins.op = .assign ∧ ins.refAt 0 = some (.const v)

/-- A region is the body of a function: the function is defined right before it. -/
def IsBody (s : Stream) (t : ScopeTree) (n : Nat) (f : Function) : Prop :=
  ∃ (k : Nat) (a : Instruction), s[k]? = some a ∧ a.op = .function ∧ a.function? = some f ∧
    (t.node n).first = k + 1

structure CallFits (classes : Hierarchy) (ins : Instruction) (f : Function) : Prop where
  required : ∀ p ∈ f.params, p.optional = false → ∃ a ∈ ins.arguments, a.name = p.name
  known : ∀ a ∈ ins.arguments,
    (∃ p ∈ f.params, p.name = a.name) ∨ (ins.op = .callMethod ∧ a.name = "self")
  accepted : ∀ p ∈ f.params, ∀ a, ins.arguments.find? (·.name = p.name) = some a →
    ∀ v, a.value = some v → classes.accepts p.type v.type = true
  result : ∀ r, ins.result = some r → f.returnType ≠ Ty.null ∧ classes.accepts r.type f.returnType = true

structure ReturnFits (classes : Hierarchy) (ins : Instruction) (f : Function) : Prop where
  present : ins.refAt 0 = none ↔ f.returnType = Ty.null
  accepted : ∀ v, ins.refAt 0 = some v → classes.accepts f.returnType v.type = true

theorem returnFits_iff {classes : Hierarchy} {ins : Instruction} {f : Function} :
    ReturnFits classes ins f ↔ (ins.refAt 0 = none ↔ f.returnType = Ty.null) ∧
      ∀ v, ins.refAt 0 = some v → classes.accepts f.returnType v.type = true :=
  ⟨fun h => ⟨h.present, h.accepted⟩, fun h => ⟨h.1, h.2⟩⟩

/-- The rules of a program, given the scope tree of its stream. -/
structure WellFormed (p : Program) (t : ScopeTree) : Prop where
  declare : ∀ (i : Nat) (ins : Instruction), p.code[i]? = some ins → ins.op = .declare → ∃ v, varOf (ins.refAt 0) = some v
  fresh : ∀ i j v w, Declares p.code i v → Declares p.code j w →
    t.enclosingAt i = t.enclosingAt j → v.name = w.name → i = j
  assign : ∀ (i : Nat) (ins : Instruction), p.code[i]? = some ins → ins.op = .assign →
    ∃ v source, varOf (ins.refAt 0) = some v ∧ ins.refAt 1 = some source ∧
      (v.kind = .parameter ∨ v.kind = .ret ∨
        ∃ j < i, Declares p.code j v ∧ t.enclosingAt j ∈ t.ancestors (t.enclosingAt i)) ∧
      p.classes.accepts v.type source.type = true
  once : ∀ i j v, AssignsConstant p.code i v → AssignsConstant p.code j v → i = j
  condJump : ∀ (i : Nat) (ins : Instruction), p.code[i]? = some ins → ins.op = .condJump →
    ins.condition.isSome = true ∧ (ins.onTrue ≠ "" ∨ ins.onFalse ≠ "") ∧
      ∀ x ∈ [ins.onTrue, ins.onFalse], x ≠ "" → ∃ m, t.resolve (t.enclosingAt i) x = some m
  jump : ∀ (i : Nat) (ins : Instruction), p.code[i]? = some ins → ins.op = .jump →
    ∃ m, t.resolve (t.enclosingAt i) ins.jumpTarget = some m
  exit : ∀ (i : Nat) (ins : Instruction), p.code[i]? = some ins → ins.op = .breakLoop ∨ ins.op = .continueLoop →
    ∃ n ∈ t.ancestors (t.enclosingAt i),
      (t.node n).name = ins.jumpTarget ∧ (t.node n).kind.isLoop = true
  call : ∀ (i : Nat) (ins : Instruction), p.code[i]? = some ins → ins.op = .call →
    ∃ f, ins.function? = some f ∧ CallFits p.classes ins f
  callMethod : ∀ (i : Nat) (ins : Instruction), p.code[i]? = some ins → ins.op = .callMethod →
    ∃ c f, ins.class? = some c ∧ ins.function? = some f ∧ p.classes.method? c f.name = some f ∧
      CallFits p.classes ins f
  ret : ∀ (i : Nat) (ins : Instruction), p.code[i]? = some ins → ins.op = .ret →
    ∃ n, t.enclosing (t.enclosingAt i) [.function] = some n ∧
      ∀ f, IsBody p.code t n f → ReturnFits p.classes ins f
  property : ∀ (i : Nat) (ins : Instruction), p.code[i]? = some ins → ins.op = .getProperty ∨ ins.op = .setProperty →
    ∃ c prop, typeOf ins.propertyObject = .object c ∧
      p.classes.property? c ins.propertyName = some prop ∧
      (ins.op = .setProperty → ∀ v, ins.propertyOther = some v →
        p.classes.accepts prop.type v.type = true)
  classDef : ∀ (i : Nat) (ins : Instruction), p.code[i]? = some ins → ins.op = .classDef →
    ∀ c, ins.class? = some c → p.classes.acyclic c = .ok ()

/-! ## What the tables hold -/

section Advance

variable {a : Instruction} {k : Progress} {n m : Nat} {v : Variable} {x : String}

theorem declares_iff : k.declares n x = true ↔ ∃ v, (n, v) ∈ k.declared ∧ v.name = x := by
  simp only [Progress.declares, List.any_eq_true, Bool.and_eq_true, decide_eq_true_eq, Prod.exists]
  constructor
  · rintro ⟨_, v, hmem, rfl, hname⟩
    exact ⟨v, hmem, hname⟩
  · rintro ⟨v, hmem, hname⟩
    exact ⟨n, v, hmem, rfl, hname⟩

theorem mem_declared_advance_iff :
    (n, v) ∈ (k.advance m a).declared ↔ (n, v) ∈ k.declared ∨
      (m = n ∧ a.op = .declare ∧ varOf (a.refAt 0) = some v ∧ k.declares n v.name = false) := by
  by_cases hop : a.op = .declare
  · rw [(advance_declare k m hop).2]
    cases hv : varOf (a.refAt 0) with
    | none => simp
    | some w =>
        cases hold : k.declares m w.name with
        | false =>
            simp only [hold, Bool.false_eq_true, if_false, List.mem_cons, Prod.mk.injEq, hop, true_and,
              Option.some.injEq]
            constructor
            · rintro (⟨rfl, rfl⟩ | hmem)
              · exact .inr ⟨rfl, rfl, hold⟩
              · exact .inl hmem
            · rintro (hmem | ⟨rfl, rfl, -⟩)
              · exact .inr hmem
              · exact .inl ⟨rfl, rfl⟩
        | true =>
            simp only [hold, if_true, Option.some.injEq]
            refine ⟨.inl, ?_⟩
            rintro (hmem | ⟨rfl, -, rfl, hfresh⟩)
            · exact hmem
            · exact absurd (hold.symm.trans hfresh) Bool.noConfusion
  · have hkept : (k.advance m a).declared = k.declared := by
      by_cases hassign : a.op = .assign
      · exact (advance_assign k m hassign).1
      · rw [advance_of_ne k m hop hassign]
    rw [hkept]
    exact ⟨.inl, fun h => h.resolve_right fun hnew => hop hnew.2.1⟩

theorem declares_advance_iff :
    (k.advance m a).declares n x = true ↔ k.declares n x = true ∨
      (m = n ∧ a.op = .declare ∧ ∃ v, varOf (a.refAt 0) = some v ∧ v.name = x) := by
  rw [declares_iff]
  simp only [mem_declared_advance_iff]
  constructor
  · rintro ⟨v, hmem | ⟨hscope, hop, hv, -⟩, hname⟩
    · exact .inl (declares_iff.2 ⟨v, hmem, hname⟩)
    · exact .inr ⟨hscope, hop, v, hv, hname⟩
  · rintro (hold | ⟨hscope, hop, v, hv, rfl⟩)
    · obtain ⟨v, hmem, hname⟩ := declares_iff.1 hold
      exact ⟨v, .inl hmem, hname⟩
    · -- a name that is declared again is in the table already
      cases hold : k.declares n v.name with
      | false => exact ⟨v, .inr ⟨hscope, hop, hv, hold⟩, rfl⟩
      | true =>
          obtain ⟨w, hmem, hname⟩ := declares_iff.1 hold
          exact ⟨w, .inl hmem, hname⟩

theorem constant?_eq_some : constant? a = some v ↔ a.refAt 0 = some (.const v) ∧ a.refAt 1 ≠ none := by
  rw [constant?]
  rcases a.refAt 0 with - | l | w | w | f | c <;>
    simp [isConstantRef, Reference.isConstant, varOf, Reference.var?, Option.isSome_iff_ne_none, and_comm]

theorem mem_assigned_advance_iff :
    v ∈ (k.advance m a).assigned ↔ v ∈ k.assigned ∨
      (a.op = .assign ∧ a.refAt 0 = some (.const v) ∧ a.refAt 1 ≠ none) := by
  by_cases hop : a.op = .assign
  · rw [(advance_assign k m hop).2, List.mem_append, Option.mem_toList, constant?_eq_some, or_comm]
    simp only [hop, true_and]
  · have hkept : (k.advance m a).assigned = k.assigned := by
      by_cases hdeclare : a.op = .declare
      · exact (advance_declare k m hdeclare).1
      · rw [advance_of_ne k m hdeclare hop]
    rw [hkept]
    exact ⟨.inl, fun h => h.resolve_right fun hnew => hop hnew.1⟩

end Advance

section Tables

variable {s pre post : Stream} {t : ScopeTree} {a : Instruction}

theorem getElem?_snoc_iff {P : Instruction → Prop} {i : Nat} (hs : s = pre ++ a :: post) :
    (i < (pre ++ [a]).length ∧ ∃ ins, s[i]? = some ins ∧ P ins) ↔
      (i < pre.length ∧ ∃ ins, s[i]? = some ins ∧ P ins) ∨ (i = pre.length ∧ P a) := by
  have hget : s[pre.length]? = some a := by simp [hs]
  rw [List.length_append, List.length_singleton]
  constructor
  · rintro ⟨hlt, ins, hins, hP⟩
    rcases Nat.lt_succ_iff_lt_or_eq.1 hlt with hlt | rfl
    · exact .inl ⟨hlt, ins, hins, hP⟩
    · rw [hget, Option.some.injEq] at hins
      exact .inr ⟨rfl, hins ▸ hP⟩
  · rintro (⟨hlt, hins⟩ | ⟨rfl, hP⟩)
    · exact ⟨Nat.lt_succ_of_lt hlt, hins⟩
    · exact ⟨Nat.lt_succ_self _, a, hget, hP⟩

theorem declares_snoc_iff {i : Nat} {v : Variable} (hs : s = pre ++ a :: post) :
    (i < (pre ++ [a]).length ∧ Declares s i v) ↔
      (i < pre.length ∧ Declares s i v) ∨
        (i = pre.length ∧ a.op = .declare ∧ varOf (a.refAt 0) = some v) :=
  getElem?_snoc_iff hs

theorem enclosingAt_of_declare (h : ofStream s = .ok t) (hs : s = pre ++ a :: post)
    (hop : a.op = .declare) : t.enclosingAt pre.length = (Position.start.after pre).top :=
  enclosingAt_plain h hs (isDelimiter_eq_false.2 ⟨by simp [hop], by simp [hop]⟩)

/-- A name is in the table of a scope exactly when an instruction before declares it there. -/
theorem declares_track_iff (h : ofStream s = .ok t) (hs : s = pre ++ post) {n : Nat} {x : String} :
    (track pre).declares n x = true ↔
      ∃ i v, (i < pre.length ∧ Declares s i v) ∧ t.enclosingAt i = n ∧ v.name = x := by
  induction pre using List.reverseRecOn generalizing post with
  | nil => simp [track, trackFrom, Progress.declares]
  | append_singleton pre a ih =>
      rw [List.append_assoc, List.singleton_append] at hs
      rw [track_snoc, declares_advance_iff, ih hs]
      constructor
      · rintro (⟨i, v, hi, hscope, hname⟩ | ⟨hscope, hop, v, hv, hname⟩)
        · exact ⟨i, v, (declares_snoc_iff hs).2 (.inl hi), hscope, hname⟩
        · refine ⟨pre.length, v, (declares_snoc_iff hs).2 (.inr ⟨rfl, hop, hv⟩), ?_, hname⟩
          rw [enclosingAt_of_declare h hs hop, hscope]
      · rintro ⟨i, v, hi, hscope, hname⟩
        rcases (declares_snoc_iff hs).1 hi with hi | ⟨rfl, hop, hv⟩
        · exact .inl ⟨i, v, hi, hscope, hname⟩
        · rw [enclosingAt_of_declare h hs hop] at hscope
          exact .inr ⟨hscope, hop, v, hv, hname⟩

/-- As long as no scope declares a name twice, the table holds just what is declared. -/
theorem mem_declared_track_iff (h : ofStream s = .ok t) (hs : s = pre ++ post)
    (hfresh : ∀ i j v w, j < pre.length → i < j → Declares s i v → Declares s j w →
      t.enclosingAt i = t.enclosingAt j → v.name ≠ w.name) {n : Nat} {v : Variable} :
    (n, v) ∈ (track pre).declared ↔ ∃ i, (i < pre.length ∧ Declares s i v) ∧ t.enclosingAt i = n := by
  induction pre using List.reverseRecOn generalizing post with
  | nil => simp [track, trackFrom]
  | append_singleton pre a ih =>
      rw [List.append_assoc, List.singleton_append] at hs
      have hpre := ih hs fun i j v w hj =>
        hfresh i j v w (by rw [List.length_append]; exact Nat.lt_add_right _ hj)
      rw [track_snoc, mem_declared_advance_iff, hpre]
      constructor
      · rintro (⟨i, hi, hscope⟩ | ⟨hscope, hop, hv, -⟩)
        · exact ⟨i, (declares_snoc_iff hs).2 (.inl hi), hscope⟩
        · refine ⟨pre.length, (declares_snoc_iff hs).2 (.inr ⟨rfl, hop, hv⟩), ?_⟩
          rw [enclosingAt_of_declare h hs hop, hscope]
      · rintro ⟨i, hi, hscope⟩
        rcases (declares_snoc_iff hs).1 hi with hi | ⟨rfl, hop, hv⟩
        · exact .inl ⟨i, hi, hscope⟩
        · refine .inr ⟨by rw [← hscope, enclosingAt_of_declare h hs hop], hop, hv, ?_⟩
          rw [Bool.eq_false_iff, ne_eq, declares_track_iff h hs]
          rintro ⟨j, w, ⟨hj, hw⟩, hscope', hname⟩
          have hnew : Declares s pre.length v := ⟨a, by simp [hs], hop, hv⟩
          exact hfresh j pre.length w v (by simp) hj hw hnew (hscope'.trans hscope.symm) hname

theorem mem_assigned_track_iff (hs : s = pre ++ post) {v : Variable} :
    v ∈ (track pre).assigned ↔ ∃ i, i < pre.length ∧ ∃ ins, s[i]? = some ins ∧ ins.op = .assign ∧
      ins.refAt 0 = some (.const v) ∧ ins.refAt 1 ≠ none := by
  induction pre using List.reverseRecOn generalizing post with
  | nil => simp [track, trackFrom]
  | append_singleton pre a ih =>
      rw [List.append_assoc, List.singleton_append] at hs
      rw [track_snoc, mem_assigned_advance_iff, ih hs]
      simp only [getElem?_snoc_iff hs, exists_or, exists_eq_left]

end Tables

/-! ## What is asked of an instruction -/

section Defects

variable {e : Surroundings} {k : Progress} {n : Nat} {ins : Instruction} {f : Function}

theorem declareDefects_eq_nil :
    e.declareDefects k n ins = [] ↔
      ∃ v, varOf (ins.refAt 0) = some v ∧ k.declares n v.name = false := by
  rw [Surroundings.declareDefects]
  cases varOf (ins.refAt 0) <;> simp

theorem condJumpDefects_eq_nil :
    e.condJumpDefects n ins = [] ↔
      ins.condition.isSome = true ∧ (ins.onTrue ≠ "" ∨ ins.onFalse ≠ "") ∧
        ∀ x ∈ [ins.onTrue, ins.onFalse], x ≠ "" → ∃ m, e.tree.resolve n x = some m := by
  simp only [Surroundings.condJumpDefects, List.append_eq_nil_iff, List.flatMap_eq_nil_iff,
    List.mem_filter, decide_eq_true_eq, and_imp, targetDefects_eq_nil, ite_eq_right_iff,
    List.cons_ne_nil, imp_false, Bool.and_eq_true, not_and, Option.isNone_iff_eq_none,
    Option.isSome_iff_ne_none]
  tauto

theorem exitDefects_eq_nil :
    e.exitDefects n ins = [] ↔
      ∃ m ∈ e.tree.ancestors n,
        (e.tree.node m).name = ins.jumpTarget ∧ (e.tree.node m).kind.isLoop = true := by
  simp [Surroundings.exitDefects]

theorem paramDefects_eq_nil {args : List Argument} {p : Parameter} :
    e.paramDefects f args p = [] ↔
      (p.optional = false → ∃ a ∈ args, a.name = p.name) ∧
        ∀ a, args.find? (·.name = p.name) = some a →
          ∀ v, a.value = some v → e.classes.accepts p.type v.type = true := by
  rw [Surroundings.paramDefects]
  cases hfind : args.find? (·.name = p.name) with
  | none =>
      rw [List.find?_eq_none] at hfind
      simp only [decide_eq_true_eq] at hfind
      cases p.optional
      · simpa using hfind
      · simp
  | some a =>
      have hbound : ∃ a ∈ args, a.name = p.name :=
        ⟨a, List.mem_of_find?_eq_some hfind, by simpa using List.find?_some hfind⟩
      cases hvalue : a.value <;> simp [hbound, hvalue]

theorem argumentDefects_eq_nil {a : Argument} :
    Surroundings.argumentDefects f ins a = [] ↔
      (∃ p ∈ f.params, p.name = a.name) ∨ (ins.op = .callMethod ∧ a.name = "self") := by
  simp [Surroundings.argumentDefects, Function.param?, or_iff_not_imp_left]

theorem resultDefects_eq_nil :
    e.resultDefects f ins = [] ↔
      ∀ r, ins.result = some r →
        f.returnType ≠ Ty.null ∧ e.classes.accepts r.type f.returnType = true := by
  rw [Surroundings.resultDefects]
  cases ins.result with
  | none => simp
  | some r =>
      by_cases hnull : f.returnType = Ty.null
      · simp [hnull]
      · simp [hnull]

theorem callDefects_eq_nil {callee : Option Function} :
    e.callDefects ins callee = [] ↔ ∃ f, callee = some f ∧ CallFits e.classes ins f := by
  cases callee with
  | none => simp [Surroundings.callDefects]
  | some f =>
      simp only [Surroundings.callDefects, List.append_eq_nil_iff, List.flatMap_eq_nil_iff,
        paramDefects_eq_nil, argumentDefects_eq_nil, resultDefects_eq_nil, Option.some.injEq,
        exists_eq_left']
      constructor
      · rintro ⟨⟨hparams, hknown⟩, hresult⟩
        exact ⟨fun p hp => (hparams p hp).1, hknown, fun p hp => (hparams p hp).2, hresult⟩
      · rintro ⟨hrequired, hknown, haccepted, hresult⟩
        exact ⟨⟨fun p hp => ⟨hrequired p hp, haccepted p hp⟩, hknown⟩, hresult⟩

theorem callMethodDefects_eq_nil :
    e.callMethodDefects ins = [] ↔
      ∃ c f, ins.class? = some c ∧ ins.function? = some f ∧ e.classes.method? c f.name = some f ∧
        CallFits e.classes ins f := by
  rw [Surroundings.callMethodDefects]
  cases ins.class? with
  | none => simp
  | some c =>
      cases ins.function? with
      | none => simp
      | some f =>
          by_cases hmethod : e.classes.method? c f.name = some f
          · simp [hmethod, callDefects_eq_nil]
          · simp [hmethod]

theorem returnDefects_eq_nil :
    e.returnDefects n ins = [] ↔
      ∃ m, e.tree.enclosing n [.function] = some m ∧
        ∀ f, (e.functions.lookup m).join = some f → ReturnFits e.classes ins f := by
  rw [Surroundings.returnDefects]
  cases e.tree.enclosing n [.function] with
  | none => simp
  | some m =>
      simp only [Option.some.injEq, exists_eq_left']
      cases (e.functions.lookup m).join with
      | none => simp
      | some f =>
          by_cases hnull : f.returnType = Ty.null
          · cases hvalue : ins.refAt 0 <;> simp [hnull, returnFits_iff, hvalue]
          · cases hvalue : ins.refAt 0 <;> simp [hnull, returnFits_iff, hvalue]

theorem propertyDefects_eq_nil (hop : ins.op = .getProperty ∨ ins.op = .setProperty) :
    e.propertyDefects ins = [] ↔
      ∃ c prop, typeOf ins.propertyObject = .object c ∧
        e.classes.property? c ins.propertyName = some prop ∧
        (ins.op = .setProperty → ∀ v, ins.propertyOther = some v →
          e.classes.accepts prop.type v.type = true) := by
  rw [Surroundings.propertyDefects]
  cases typeOf ins.propertyObject with
  | data d => simp
  | object c =>
      cases hprop : e.classes.property? c ins.propertyName with
      | none => simp [hprop]
      | some prop =>
          rcases hop with hop | hop
          · simp [hop, hprop]
          · cases hother : ins.propertyOther <;> simp [hop, hprop]

theorem classDefects_eq_nil :
    e.classDefects ins = [] ↔ ∀ c, ins.class? = some c → e.classes.acyclic c = .ok () := by
  rw [Surroundings.classDefects]
  cases ins.class? with
  | none => simp
  | some c => cases hacyclic : e.classes.acyclic c <;> simp [hacyclic]

end Defects

/-! ## Bodies -/

theorem exists_of_mem_bodiesFrom {p : Position} {s : Stream} {n : Nat} {callee : Option Function}
    (h : (n, callee) ∈ bodiesFrom p s) :
    ∃ pre a b post, s = pre ++ a :: b :: post ∧ a.op = .function ∧ a.function? = callee ∧
      b.op = .scopeBegin ∧ b.scopeKind = .function ∧ n = (p.after pre).opened + 1 := by
  induction s generalizing p with
  | nil => simp [bodiesFrom] at h
  | cons a s ih =>
      cases s with
      | nil => simp [bodiesFrom] at h
      | cons b rest =>
          rw [bodiesFrom, List.mem_append] at h
          rcases h with hhere | htail
          · split at hhere
            · next hbody =>
                simp only [Bool.and_eq_true, decide_eq_true_eq] at hbody
                rw [List.mem_singleton, Prod.mk.injEq] at hhere
                refine ⟨[], a, b, rest, rfl, hbody.1.1, hhere.2.symm, hbody.1.2, hbody.2, ?_⟩
                rw [hhere.1, Position.advance_other _ (by simp [hbody]) (by simp [hbody])]
                rfl
            · exact absurd hhere List.not_mem_nil
          · obtain ⟨pre, a', b', post, hsplit, hrest⟩ := ih htail
            exact ⟨a :: pre, a', b', post, by rw [hsplit]; rfl, hrest⟩

theorem isBody_of_mem {s : Stream} {t : ScopeTree} (h : ofStream s = .ok t) {n : Nat} {f : Function}
    (hmem : (n, some f) ∈ functionScopes s t) :
    n ∈ t.inner ∧ (t.node n).kind = .function ∧ IsBody s t n f := by
  rw [functionScopes_eq h] at hmem
  obtain ⟨pre, a, b, post, hs, ha, hf, hb, hkind, hn⟩ := exists_of_mem_bodiesFrom hmem
  have hs' : s = (pre ++ [a]) ++ b :: post := by simp [hs]
  have hopened : (Position.start.after (pre ++ [a])).opened + 1 = n := by
    rw [hn, Position.after_append, Position.after_cons, Position.after_nil,
      Position.advance_other _ (by simp [ha]) (by simp [ha])]
  have hlt := opened_lt_length_nodes h hs' hb
  have hfirst := first_begin h hs' hb
  have hsig := sig_node_begin h hs' hb
  rw [hopened] at hlt hfirst hsig
  simp only [ScopeNode.sig, Prod.mk.injEq] at hsig
  have hroot : n ≠ root := by
    rw [hn]
    exact Nat.succ_ne_zero _
  exact ⟨mem_inner_iff.2 ⟨hroot, hlt⟩, hsig.2.1.trans hkind, pre.length, a, by simp [hs], ha, hf,
    by simpa using hfirst⟩

/-- The table of bodies holds what stands right before each function region. -/
theorem isBody_iff {s : Stream} {t : ScopeTree} (h : ofStream s = .ok t) {n : Nat} (hn : n ∈ t.inner)
    (hkind : (t.node n).kind = .function) {f : Function} :
    ((functionScopes s t).lookup n).join = some f ↔ IsBody s t n f := by
  constructor
  · intro hlookup
    obtain ⟨front, back, hsplit, -⟩ := List.lookup_eq_some_iff.1 (Option.join_eq_some_iff.1 hlookup)
    exact (isBody_of_mem h (by simp [hsplit])).2.2
  · rintro ⟨k, a, hk, ha, hf, hfirst⟩
    obtain ⟨pre, b, body, e, post, hs, hb, -, -, -, rfl⟩ := exists_matched h hn
    rw [first_begin h hs hb] at hfirst
    have hlen : k < pre.length := by omega
    rw [hs, List.getElem?_append_left hlen] at hk
    -- the definition is the last instruction in front of the region
    obtain ⟨front, back, rfl, hfront⟩ := exists_split hk
    have hback : back = [] := by
      rw [List.length_append, List.length_cons] at hfirst
      exact List.length_eq_zero_iff.1 (by omega)
    subst hback
    have hsig := sig_node_begin h hs hb
    simp only [ScopeNode.sig, Prod.mk.injEq] at hsig
    rw [List.append_assoc, List.singleton_append] at hs
    have hlookup := lookup_functionScopes h hs ha hb (hsig.2.1.symm.trans hkind)
    rw [Position.after_append, Position.after_cons, Position.after_nil,
      Position.advance_other _ (by simp [ha]) (by simp [ha]), hlookup, hf]
    rfl

/-! ## The rules -/

theorem Program.isValid_iff_at (p : Program) :
    p.isValid = true ↔ ∃ t, ofStream p.code = .ok t ∧
      ∀ (i : Nat) (ins : Instruction), p.code[i]? = some ins →
        (surroundings p.classes p.code t).defects (track (p.code.take i)) (t.enclosingAt i) ins = [] := by
  rw [Program.isValid_iff]
  have hscope : ∀ {t pre ins post k}, ofStream p.code = .ok t → p.code = pre ++ ins :: post →
      (surroundings p.classes p.code t).defects k (Position.start.after pre).top ins =
        (surroundings p.classes p.code t).defects k (t.enclosingAt pre.length) ins := by
    intro t pre ins post k ht hs
    cases hplain : isDelimiter ins with
    | true => rw [defects_delimiter _ _ _ hplain, defects_delimiter _ _ _ hplain]
    | false => rw [enclosingAt_plain ht hs hplain]
  constructor
  · rintro ⟨t, ht, hall⟩
    refine ⟨t, ht, fun i ins hi => ?_⟩
    obtain ⟨pre, post, hs, rfl⟩ := exists_split hi
    rw [← hscope ht hs, hs, List.take_left, ← hs]
    exact hall pre ins post hs
  · rintro ⟨t, ht, hall⟩
    refine ⟨t, ht, fun pre ins post hs => ?_⟩
    have hat := hall pre.length ins (by simp [hs])
    rw [hscope ht hs]
    rwa [hs, List.take_left, ← hs] at hat

theorem length_take_of_getElem? {s : Stream} {i : Nat} {ins : Instruction} (h : s[i]? = some ins) :
    (s.take i).length = i :=
  List.length_take_of_le (Nat.le_of_lt (List.getElem?_eq_some_iff.1 h).1)

theorem typeOf_of_varOf {r : Option Reference} {v : Variable} (h : varOf r = some v) : typeOf r = v.type := by
  rcases r with - | l | w | w | f | c
  all_goals cases h
  all_goals rfl

theorem isConstantRef_iff {r : Option Reference} {v : Variable} (h : varOf r = some v) :
    isConstantRef r = true ↔ r = some (.const v) := by
  rcases r with - | l | w | w | f | c
  all_goals cases h
  all_goals simp [isConstantRef, Reference.isConstant]

theorem le_of_mem_ancestors {s : Stream} {t : ScopeTree} (h : ofStream s = .ok t) {n m : Nat}
    (hn : n < t.nodes.length) (hm : m ∈ t.ancestors n) : m ≤ n := by
  induction n using Nat.strongRecOn with
  | ind n ih =>
      rcases List.mem_cons.1 hm with rfl | hm
      · exact Nat.le_refl _
      · by_cases hroot : n = root
        · rw [hroot, outer_root h] at hm
          exact absurd hm List.not_mem_nil
        · obtain ⟨q, hq, houter⟩ := outer_node h hroot hn
          rw [houter] at hm
          exact Nat.le_trans (ih q hq (Nat.lt_trans hq hn) hm) (Nat.le_of_lt hq)

theorem kind_root {s : Stream} {t : ScopeTree} (h : ofStream s = .ok t) : (t.node root).kind = .global := by
  have hsigs := congrArg List.head? (ofStream_sig h)
  rw [List.head?_map, List.head?_cons, Option.map_eq_some_iff] at hsigs
  obtain ⟨node, hnode, hsig⟩ := hsigs
  rw [List.head?_eq_getElem?] at hnode
  rw [ScopeTree.node, root, hnode]
  exact (Prod.mk.inj (Prod.mk.inj hsig).2).1

theorem ne_root_of_kind {s : Stream} {t : ScopeTree} (h : ofStream s = .ok t) {n : Nat}
    (hn : (t.node n).kind ≠ .global) : n ≠ root := by
  rintro rfl
  exact hn (kind_root h)

theorem inner_of_enclosing {s : Stream} {t : ScopeTree} (h : ofStream s = .ok t) {i : Int} {n : Nat}
    (hn : t.enclosing (t.enclosingAt i) [.function] = some n) :
    n ∈ t.inner ∧ (t.node n).kind = .function := by
  have hkind : (t.node n).kind = .function := by simpa using List.find?_some hn
  have hle := le_of_mem_ancestors h (enclosingAt_lt h i) (List.mem_of_find?_eq_some hn)
  have hroot : n ≠ root := ne_root_of_kind h (by simp [hkind])
  exact ⟨mem_inner_iff.2 ⟨hroot, Nat.lt_of_le_of_lt hle (enclosingAt_lt h i)⟩, hkind⟩

section Rules

variable {p : Program} {t : ScopeTree} {i : Nat} {ins : Instruction}

/-- In a program in which no scope declares a name twice, validation knows the variables that are
declared around an instruction. -/
theorem isDeclared_iff (h : ofStream p.code = .ok t)
    (hfresh : ∀ i j v w, Declares p.code i v → Declares p.code j w →
      t.enclosingAt i = t.enclosingAt j → v.name = w.name → i = j)
    (hi : p.code[i]? = some ins) {v : Variable} :
    (track (p.code.take i)).isDeclared t (t.enclosingAt i) v = true ↔
      v.kind = .parameter ∨ v.kind = .ret ∨
        ∃ j < i, Declares p.code j v ∧ t.enclosingAt j ∈ t.ancestors (t.enclosingAt i) := by
  have htable := fun n => mem_declared_track_iff h (List.take_append_drop i p.code).symm (n := n) (v := v)
    fun i j v w _ hlt hv hw hscope hname => Nat.ne_of_lt hlt (hfresh i j v w hv hw hscope hname)
  simp only [Progress.isDeclared, Bool.or_eq_true, decide_eq_true_eq, List.any_eq_true,
    List.contains_iff_mem, htable, length_take_of_getElem? hi, or_assoc]
  refine or_congr_right (or_congr_right ⟨?_, ?_⟩)
  · rintro ⟨_, hscope, j, ⟨hlt, hj⟩, rfl⟩
    exact ⟨j, hlt, hj, hscope⟩
  · rintro ⟨j, hlt, hj, hscope⟩
    exact ⟨_, hscope, j, ⟨hlt, hj⟩, rfl⟩

theorem fresh_of_defects (h : ofStream p.code = .ok t)
    (hall : ∀ (i : Nat) (ins : Instruction), p.code[i]? = some ins →
      (surroundings p.classes p.code t).defects (track (p.code.take i)) (t.enclosingAt i) ins = []) :
    ∀ i j v w, Declares p.code i v → Declares p.code j w →
      t.enclosingAt i = t.enclosingAt j → v.name = w.name → i = j := by
  -- the later of two declarations would be a defect
  have hlater : ∀ i j v w, i < j → Declares p.code i v → Declares p.code j w →
      t.enclosingAt i = t.enclosingAt j → v.name ≠ w.name := by
    intro i j v w hlt hv hw hscope hname
    obtain ⟨ins, hj, hop, hvar⟩ := hw
    have hins := hall j ins hj
    rw [Surroundings.defects, hop] at hins
    obtain ⟨w', hvar', hnew⟩ := declareDefects_eq_nil.1 hins
    obtain rfl : w = w' := Option.some.inj (hvar.symm.trans hvar')
    refine Bool.eq_false_iff.1 hnew ?_
    rw [declares_track_iff h (List.take_append_drop j p.code).symm, length_take_of_getElem? hj]
    exact ⟨i, v, ⟨hlt, hv⟩, hscope, hname⟩
  intro i j v w hv hw hscope hname
  rcases Nat.lt_trichotomy i j with hij | hij | hij
  · exact absurd hname (hlater i j v w hij hv hw hscope)
  · exact hij
  · exact absurd hname.symm (hlater j i w v hij hw hv hscope.symm)

theorem once_of_defects
    (hall : ∀ (i : Nat) (ins : Instruction), p.code[i]? = some ins →
      (surroundings p.classes p.code t).defects (track (p.code.take i)) (t.enclosingAt i) ins = []) :
    ∀ i j v, AssignsConstant p.code i v → AssignsConstant p.code j v → i = j := by
  have hassign : ∀ (i : Nat) (ins : Instruction), p.code[i]? = some ins → ins.op = .assign →
      ∀ v, ins.refAt 0 = some (.const v) →
        v ∉ (track (p.code.take i)).assigned ∧ ins.refAt 1 ≠ none := by
    intro i ins hi hop v hv
    have hins := hall i ins hi
    rw [Surroundings.defects, hop] at hins
    obtain ⟨v', source, hv', hsource, -, honce, -⟩ := assignDefects_eq_nil.1 hins
    have hvar : varOf (ins.refAt 0) = some v := by rw [hv]; rfl
    obtain rfl : v = v' := Option.some.inj (hvar.symm.trans hv')
    exact ⟨honce ((isConstantRef_iff hvar).2 hv), by simp [hsource]⟩
  have hlater : ∀ i j v, i < j → AssignsConstant p.code i v → ¬AssignsConstant p.code j v := by
    rintro i j v hlt ⟨a, hi, ha, hva⟩ ⟨b, hj, hb, hvb⟩
    refine (hassign j b hj hb v hvb).1 ?_
    rw [mem_assigned_track_iff (List.take_append_drop j p.code).symm, length_take_of_getElem? hj]
    exact ⟨i, hlt, a, hi, ha, hva, (hassign i a hi ha v hva).2⟩
  intro i j v hi hj
  rcases Nat.lt_trichotomy i j with hij | hij | hij
  · exact absurd hj (hlater i j v hij hi)
  · exact hij
  · exact absurd hi (hlater j i v hij hj)

theorem wellFormed_of_defects (h : ofStream p.code = .ok t)
    (hall : ∀ (i : Nat) (ins : Instruction), p.code[i]? = some ins →
      (surroundings p.classes p.code t).defects (track (p.code.take i)) (t.enclosingAt i) ins = []) :
    WellFormed p t where
  declare i ins hi hop := by
    have hins := hall i ins hi
    rw [Surroundings.defects, hop] at hins
    obtain ⟨v, hv, -⟩ := declareDefects_eq_nil.1 hins
    exact ⟨v, hv⟩
  fresh := fresh_of_defects h hall
  assign i ins hi hop := by
    have hins := hall i ins hi
    rw [Surroundings.defects, hop] at hins
    obtain ⟨v, source, hv, hsource, hdeclared, -, htype⟩ := assignDefects_eq_nil.1 hins
    rw [typeOf_of_varOf hv] at htype
    exact ⟨v, source, hv, hsource, (isDeclared_iff h (fresh_of_defects h hall) hi).1 hdeclared, htype⟩
  once := once_of_defects hall
  condJump i ins hi hop := by
    have hins := hall i ins hi
    rw [Surroundings.defects, hop] at hins
    exact condJumpDefects_eq_nil.1 hins
  jump i ins hi hop := by
    have hins := hall i ins hi
    rw [Surroundings.defects, hop] at hins
    exact targetDefects_eq_nil.1 hins
  exit i ins hi hop := by
    have hins := hall i ins hi
    rcases hop with hop | hop
    · rw [Surroundings.defects, hop] at hins
      exact exitDefects_eq_nil.1 hins
    · rw [Surroundings.defects, hop] at hins
      exact exitDefects_eq_nil.1 hins
  call i ins hi hop := by
    have hins := hall i ins hi
    rw [Surroundings.defects, hop] at hins
    exact callDefects_eq_nil.1 hins
  callMethod i ins hi hop := by
    have hins := hall i ins hi
    rw [Surroundings.defects, hop] at hins
    exact callMethodDefects_eq_nil.1 hins
  ret i ins hi hop := by
    have hins := hall i ins hi
    rw [Surroundings.defects, hop] at hins
    obtain ⟨n, hn, hfits⟩ := returnDefects_eq_nil.1 hins
    obtain ⟨hinner, hkind⟩ := inner_of_enclosing h hn
    exact ⟨n, hn, fun f hf => hfits f ((isBody_iff h hinner hkind).2 hf)⟩
  property i ins hi hop := by
    have hins := hall i ins hi
    refine (propertyDefects_eq_nil (e := surroundings p.classes p.code t) hop).1 ?_
    rcases hop with hop | hop
    · rwa [Surroundings.defects, hop] at hins
    · rwa [Surroundings.defects, hop] at hins
  classDef i ins hi hop := by
    have hins := hall i ins hi
    rw [Surroundings.defects, hop] at hins
    exact classDefects_eq_nil.1 hins

theorem WellFormed.defects (hwell : WellFormed p t) (h : ofStream p.code = .ok t)
    (hi : p.code[i]? = some ins) :
    (surroundings p.classes p.code t).defects (track (p.code.take i)) (t.enclosingAt i) ins = [] := by
  have htake := (List.take_append_drop i p.code).symm
  have hlen := length_take_of_getElem? hi
  unfold Surroundings.defects
  cases hop : ins.op with
  | declare =>
      obtain ⟨v, hv⟩ := hwell.declare i ins hi hop
      refine declareDefects_eq_nil.2 ⟨v, hv, Bool.eq_false_iff.2 fun hold => ?_⟩
      obtain ⟨j, w, ⟨hj, hw⟩, hscope, hname⟩ := (declares_track_iff h htake).1 hold
      rw [hlen] at hj
      exact Nat.ne_of_lt hj (hwell.fresh j i w v hw ⟨ins, hi, hop, hv⟩ hscope hname)
  | assign =>
      obtain ⟨v, source, hv, hsource, hdeclared, htype⟩ := hwell.assign i ins hi hop
      refine assignDefects_eq_nil.2 ⟨v, source, hv, hsource, ?_, fun hconst hmem => ?_, ?_⟩
      · exact (isDeclared_iff h hwell.fresh hi).2 hdeclared
      · obtain ⟨j, hj, a, ha, hopa, hva, -⟩ := (mem_assigned_track_iff htake).1 hmem
        rw [hlen] at hj
        have hvi := (isConstantRef_iff hv).1 hconst
        exact Nat.ne_of_lt hj (hwell.once j i v ⟨a, ha, hopa, hva⟩ ⟨ins, hi, hop, hvi⟩)
      · rwa [typeOf_of_varOf hv]
  | condJump => exact condJumpDefects_eq_nil.2 (hwell.condJump i ins hi hop)
  | jump => exact targetDefects_eq_nil.2 (hwell.jump i ins hi hop)
  | breakLoop => exact exitDefects_eq_nil.2 (hwell.exit i ins hi (.inl hop))
  | continueLoop => exact exitDefects_eq_nil.2 (hwell.exit i ins hi (.inr hop))
  | call => exact callDefects_eq_nil.2 (hwell.call i ins hi hop)
  | callMethod => exact callMethodDefects_eq_nil.2 (hwell.callMethod i ins hi hop)
  | ret =>
      obtain ⟨n, hn, hfits⟩ := hwell.ret i ins hi hop
      obtain ⟨hinner, hkind⟩ := inner_of_enclosing h hn
      exact returnDefects_eq_nil.2 ⟨n, hn, fun f hf => hfits f ((isBody_iff h hinner hkind).1 hf)⟩
  | getProperty => exact (propertyDefects_eq_nil (.inl hop)).2 (hwell.property i ins hi (.inl hop))
  | setProperty => exact (propertyDefects_eq_nil (.inr hop)).2 (hwell.property i ins hi (.inr hop))
  | classDef => exact classDefects_eq_nil.2 (hwell.classDef i ins hi hop)
  | _ => rfl

/-- What validation accepts follows the rules. -/
theorem Program.wellFormed (hvalid : p.isValid = true) (h : ofStream p.code = .ok t) : WellFormed p t := by
  obtain ⟨t', ht', hall⟩ := p.isValid_iff_at.1 hvalid
  obtain rfl : t = t' := Except.ok.inj (h.symm.trans ht')
  exact wellFormed_of_defects h hall

end Rules

/-- Validation accepts exactly the well-formed programs. -/
theorem Program.isValid_iff_wellFormed (p : Program) :
    p.isValid = true ↔ ∃ t, ofStream p.code = .ok t ∧ WellFormed p t := by
  rw [Program.isValid_iff_at]
  constructor
  · rintro ⟨t, ht, hall⟩
    exact ⟨t, ht, wellFormed_of_defects ht hall⟩
  · rintro ⟨t, ht, hwell⟩
    exact ⟨t, ht, fun _ _ hi => hwell.defects ht hi⟩

end Datapack.Ir
