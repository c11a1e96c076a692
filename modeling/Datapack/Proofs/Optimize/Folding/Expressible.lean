import Datapack.Proofs.Generation.Reporting
import Datapack.Proofs.Optimize.Folding.Replacements
import Datapack.Proofs.Optimize.Folding.Stability

/-!
# Expressing a folded program

Folding leaves everything an instruction of an expressible program refers to where it was, so the only
thing that can keep a folded program from being expressed is a value that folding put in place of a
variable or of an operation: `suits` says what is asked of the values of an instruction.
-/

namespace Datapack.Generation

open Ir Command

variable {g g' : Generation}

/-! ## Values -/

def suitsTemplate (name : String) (args : Arguments) : Bool :=
  (builtinTemplates.find? (·.name = name)).all fun t =>
    (t.objection (t.known (args.map fun x => (x.1, templateArg x.2)))).isNone

/-- Whether the slots of the parameters of a function can hold the values bound to them. -/
def suitsParameters (f : Function) (args : List Argument) : Bool :=
  f.params.all fun p => stores p.type (valueFor args p)

def suitsFunction (f : Function) (args : List Argument) : Bool :=
  match f.kind with
  | .builtin => suitsTemplate f.name (shapesOf args)
  | .library => true
  | _ => suitsParameters f args

/-- Whether an instruction can be expressed with the values it works on. -/
def suits (g : Generation) (ins : Instruction) : Bool :=
  match ins.op with
  | .assign => stores (typeOf (ins.refAt 0)) (ins.refAt 1)
  | .binaryOp => joinsTexts ins || computes (spaceOf (ins.refAt 0)) ins.binaryOperator (shapeOf (ins.refAt 2))
    (shapeOf (ins.refAt 3))
  | .compare => compares ins.compareOperator (shapeOf (ins.refAt 2)) (shapeOf (ins.refAt 3))
  | .unaryOp => transforms (spaceOf (ins.refAt 0)) ins.unaryOperator (shapeOf (ins.refAt 2))
  | .cast => converts (spaceOf (ins.refAt 0)) ins.castTarget (ins.refAt 2)
  | .ret => (g.regions.enclosing g.current [.function]).all fun body =>
    (g.ownerOf? body).all fun f => stores f.returnType (ins.refAt 0)
  | .call => ins.function?.all fun f => suitsFunction f ins.arguments
  | .callMethod => ins.function?.all fun f => suitsParameters f ins.arguments
  | _ => true

end Datapack.Generation

namespace Datapack.Optimize.Folding

open Ir Generation

variable {g g' : Generation} {st : State} {ins new : Instruction}

namespace Valued

variable {r r' : Option Reference}

theorem isReadable (h : Valued r r') : Generation.isReadable r' = Generation.isReadable r := by
  cases h with
  | kept => rfl
  | known h l =>
      rw [Generation.isReadable, Generation.isReadable, h]
      exact (Bool.or_true _).symm

end Valued

/-! ### Arguments -/

section Arguments

variable {args args' : List Argument} {f : Function} {result : Option Reference}

theorem isReadable_arguments (h : List.Forall₂ (RelatesArgument Valued) args args') :
    args'.all (isReadable ·.value) = args.all (isReadable ·.value) := by
  induction h with
  | nil => rfl
  | cons hab _ ih => rw [List.all_cons, List.all_cons, hab.2.isReadable, ih]

theorem keys_shapesOf (h : List.Forall₂ (RelatesArgument Valued) args args') :
    (shapesOf args').map Prod.fst = (shapesOf args).map Prod.fst := by
  have hnames : args'.map (·.name) = args.map (·.name) := by
    induction h with
    | nil => rfl
    | cons hab _ ih => rw [List.map_cons, List.map_cons, hab.1, ih]
  simpa [shapesOf, Function.comp_def] using congrArg List.reverse hnames

theorem valued_valueFor (h : List.Forall₂ (RelatesArgument Valued) args args') (p : Parameter) :
    Valued (valueFor args p) (valueFor args' p) := by
  have hfind := find?_related h p.name
  unfold valueFor
  generalize args.find? (·.name = p.name) = found at *
  generalize args'.find? (·.name = p.name) = found' at *
  cases hfind with
  | none => exact .kept _
  | some hab => exact hab.2

theorem bodyOf?_mono (hbodies : ∀ x ∈ g.functions, x ∈ g'.functions) (h : (g.bodyOf? f).isSome = true) :
    (g'.bodyOf? f).isSome = true := by
  simp only [bodyOf?, Option.isSome_map, List.find?_isSome, decide_eq_true_eq] at h ⊢
  obtain ⟨x, hx, hf⟩ := h
  exact ⟨x, hbodies x hx, hf⟩

theorem ownerOf?_mono (hbodies : ∀ x ∈ g.functions, x ∈ g'.functions) {n : Nat}
    (h : (g.ownerOf? n).isSome = true) : (g'.ownerOf? n).isSome = true := by
  simp only [ownerOf?, isSome_lookup, decide_eq_true_eq] at h ⊢
  obtain ⟨x, hx, hn⟩ := List.mem_map.1 h
  exact List.mem_map.2 ⟨x, hbodies x hx, hn⟩

theorem callsBody_valued (hbodies : ∀ x ∈ g.functions, x ∈ g'.functions)
    (hargs : List.Forall₂ (RelatesArgument Valued) args args') (h : callsBody g result f args = true) :
    callsBody g' result f args' = suitsParameters f args' := by
  simp only [callsBody, Bool.and_eq_true, List.all_eq_true] at h
  obtain ⟨hbody, hparams, hresult⟩ := h
  have hbinds : f.params.all (binds args') = suitsParameters f args' := by
    rw [Bool.eq_iff_iff, suitsParameters, List.all_eq_true, List.all_eq_true]
    refine forall₂_congr fun p hp => ?_
    have hread := hparams p hp
    rw [binds, Bool.and_eq_true] at hread
    rw [binds, (valued_valueFor hargs p).isReadable, hread.1, Bool.true_and]
  rw [callsBody, bodyOf?_mono hbodies hbody, hresult, hbinds, Bool.true_and, Bool.and_true]

theorem isSome_lookup_shapesOf (hargs : List.Forall₂ (RelatesArgument Valued) args args') (p : String) :
    ((shapesOf args).lookup p).isSome = ((shapesOf args').lookup p).isSome := by
  rw [isSome_lookup, isSome_lookup, keys_shapesOf hargs]

theorem callsLibraryFunction_valued (hargs : List.Forall₂ (RelatesArgument Valued) args args') :
    callsLibraryFunction result f args' = callsLibraryFunction result f args := by
  simp only [callsLibraryFunction, isReadable_arguments hargs, isSome_lookup_shapesOf hargs]

theorem rendersTemplate_valued {name : String} (hargs : List.Forall₂ (RelatesArgument Valued) args args')
    (h : rendersTemplate name (shapesOf args) = true) :
    rendersTemplate name (shapesOf args') = suitsTemplate name (shapesOf args') := by
  unfold rendersTemplate suitsTemplate at *
  cases hfind : Command.builtinTemplates.find? (·.name = name) with
  | none =>
      rw [hfind] at h
      cases h
  | some t =>
      rw [hfind] at h
      refine Command.takes_of_takes (fun p => ?_) h
      rw [lookup_map, lookup_map, Option.isSome_map, Option.isSome_map, isSome_lookup_shapesOf hargs]

theorem callsBuiltin_valued (hargs : List.Forall₂ (RelatesArgument Valued) args args')
    (h : callsBuiltin f args = true) : callsBuiltin f args' = suitsTemplate f.name (shapesOf args') := by
  rw [callsBuiltin, Bool.and_eq_true] at h
  rw [callsBuiltin, isReadable_arguments hargs, h.1, Bool.true_and]
  by_cases hprint : f.name = "print"
  · -- printing takes no template
    rw [hprint]
    rfl
  · rw [decide_eq_false hprint, Bool.false_or, Bool.and_eq_true] at h
    rw [decide_eq_false hprint, Bool.false_or, h.2.1, Bool.true_and, rendersTemplate_valued hargs h.2.2]

theorem callsFunction_valued (hbodies : ∀ x ∈ g.functions, x ∈ g'.functions)
    (hargs : List.Forall₂ (RelatesArgument Valued) args args') (h : callsFunction g result f args = true) :
    callsFunction g' result f args' = suitsFunction f args' := by
  unfold callsFunction at h ⊢
  unfold suitsFunction
  cases hkind : f.kind with
  | builtin =>
      rw [hkind] at h
      exact callsBuiltin_valued hargs h
  | library =>
      rw [hkind] at h
      exact (callsLibraryFunction_valued hargs).trans h
  | _ =>
      rw [hkind] at h
      exact callsBody_valued hbodies hargs h

end Arguments

/-! ### Instructions -/

theorem returns_valued (hbodies : ∀ x ∈ g.functions, x ∈ g'.functions) {body : Nat} {r r' : Option Reference}
    (hr : Valued r r') (h : returns g body r = true) :
    returns g' body r' = (g'.ownerOf? body).all fun f => stores f.returnType r' := by
  unfold returns at h ⊢
  rw [hr.isNone, hr.isReadable]
  cases hnone : r.isNone with
  | true =>
      obtain rfl := Option.isNone_iff_eq_none.1 (hr.isNone.trans hnone)
      simp [stores, shapeOf, literalOf, Command.Operand.isNumeric, Command.Operand.literal?]
  | false =>
      rw [hnone, Bool.false_or] at h
      obtain ⟨f, hf, hread⟩ := (Option.any_eq_true _ _).1 h
      obtain ⟨f', hf'⟩ := Option.isSome_iff_exists.1 (ownerOf?_mono hbodies (Option.isSome_of_eq_some hf))
      rw [hf', Bool.false_or, Option.any_some, Option.all_some, (Bool.and_eq_true_iff.1 hread).1, Bool.true_and]

theorem branches_substitute (hop : ins.op = .condJump) {x : String}
    (h : x ∈ branches (substitute st ins).2.1) : x ∈ branches ins := by
  have hvalued : Valued ins.condition (substitute st ins).2.1.condition :=
    valued_substitute (by simp [Instruction.isCall, hop]) 0
  unfold branches at h ⊢
  rw [onTrue_substitute hop, onFalse_substitute hop] at h
  generalize ins.condition = c at *
  generalize (substitute st ins).2.1.condition = c' at *
  cases hvalued with
  | kept => exact h
  | known hv l =>
      -- a variable leaves both branches open
      simp only [List.mem_filter, List.mem_singleton] at h
      refine List.mem_filter.2 ⟨?_, h.2⟩
      split
      · cases hv
      · rw [h.1]
        split <;> simp

theorem accepts_substitute (hviews : Views g g') (hbodies : ∀ x ∈ g.functions, x ∈ g'.functions)
    (h : accepts g ins = true) :
    accepts g' (substitute st ins).2.1 = suits g' (substitute st ins).2.1 := by
  have hvalued : ins.isCall = false → ∀ i, Valued (ins.refAt i) ((substitute st ins).2.1.refAt i) :=
    fun hcall i => valued_substitute hcall i
  unfold accepts suits
  rw [substitute_op]
  unfold accepts at h
  cases hop : ins.op with
  | assign | unaryOp | cast =>
      have hdata : ins.isData = true := by simp [Instruction.isData, hop]
      simp only [hop, Bool.and_eq_true] at h
      simp only [refAt_zero_substitute st hdata, (hvalued (isData_isCall hdata) _).isReadable, h.1, h.2.1,
        Bool.true_and]
  | binaryOp | compare =>
      have hdata : ins.isData = true := by simp [Instruction.isData, hop]
      simp only [hop, Bool.and_eq_true] at h
      simp only [refAt_zero_substitute st hdata, (hvalued (isData_isCall hdata) _).isReadable, h.1, h.2.1,
        h.2.2.1, Bool.true_and]
  | condJump =>
      simp only [hop, Bool.and_eq_true, List.all_eq_true] at h ⊢
      refine ⟨(hvalued (by simp [Instruction.isCall, hop]) 0).isReadable.trans h.1, fun x hx => ?_⟩
      rw [hviews.resolve]
      exact h.2 x (branches_substitute hop hx)
  | setProperty =>
      have hobject : (substitute st ins).2.1.refAt 0 = ins.refAt 0 :=
        Instruction.refAt_congr (substitute_operand st ins (by simp [valueSlots, hop])
          (by simp [Instruction.isCall, hop]))
      have hother := (hvalued (by simp [Instruction.isCall, hop]) 2).isReadable
      simp only [hop, Instruction.propertyObject, Instruction.propertyOther, Bool.and_eq_true] at h
      simp only [Instruction.propertyObject, Instruction.propertyOther, substitute_op, hop, hobject, hother, h.1,
        h.2, Bool.and_self]
  | ret =>
      simp only [hop] at h
      simp only [hviews.enclosing, hviews.current]
      cases hfunction : g.regions.enclosing g.current [.function] with
      | none => rfl
      | some body =>
          rw [hfunction] at h
          exact returns_valued hbodies (hvalued (by simp [Instruction.isCall, hop]) 0) h
  | call =>
      have hcall : ins.isCall = true := by simp [Instruction.isCall, hop]
      simp only [hop] at h
      simp only [function?_substitute_call st ins hcall, result_substitute_call st ins hcall]
      cases hfunction : ins.function? with
      | none =>
          rw [hfunction] at h
          cases h
      | some f =>
          rw [hfunction] at h
          exact callsFunction_valued hbodies (valued_arguments hcall) h
  | callMethod =>
      have hcall : ins.isCall = true := by simp [Instruction.isCall, hop]
      simp only [hop] at h
      simp only [function?_substitute_call st ins hcall, result_substitute_call st ins hcall]
      cases hfunction : ins.function? with
      | none =>
          rw [hfunction] at h
          cases h
      | some f =>
          rw [hfunction] at h
          exact callsBody_valued hbodies (valued_arguments hcall) h
  | scopeBegin | scopeEnd | function | classDef | undefined => rfl
  | _ =>
      rw [substitute_of_noValues st (by simp [valueSlots, hop]) (by simp [Instruction.isCall, hop])]
      simp only [hop] at h
      simpa only [hviews.resolve, hviews.loopAt?, hviews.bodyOfLoop?] using h

theorem taken_mem_branches (hop : ins.op = .condJump) {truth : Bool} (htruth : verdict st ins = some truth)
    (hname : taken ins truth ≠ "") : taken ins truth ∈ branches ins := by
  have hvalued : Valued ins.condition (substitute st ins).2.1.condition :=
    valued_substitute (by simp [Instruction.isCall, hop]) 0
  unfold verdict at htruth
  unfold branches
  refine List.mem_filter.2 ⟨?_, decide_eq_true hname⟩
  split
  · next l hl =>
    rw [hl] at hvalued
    rw [hvalued.of_literal] at htruth
    have htruthy : l.truthy? = some truth := htruth
    rw [htruthy]
    exact List.mem_singleton_self _
  · cases truth <;> simp [taken]

/-- Folding keeps everything an expressible instruction needs except for its values. -/
theorem accepts_becomes (hviews : Views g g') (hbodies : ∀ x ∈ g.functions, x ∈ g'.functions)
    (hbecomes : Becomes st ins new) (h : accepts g ins = true) : accepts g' new = suits g' new := by
  cases hbecomes with
  | substituted => exact accepts_substitute hviews hbodies h
  | evaluated hoperation l =>
      have hwrite : isWritable (ins.refAt 0) = true := by
        simp only [isOperation, Bool.or_eq_true, decide_eq_true_eq] at hoperation
        unfold accepts at h
        rcases hoperation with ((hop | hop) | hop) | hop <;>
          · rw [hop] at h
            exact (Bool.and_eq_true_iff.1 h).1
      change (isWritable (ins.refAt 0) && (true && stores (typeOf (ins.refAt 0)) (some (.literal l))))
        = stores (typeOf (ins.refAt 0)) (some (.literal l))
      rw [hwrite, Bool.true_and, Bool.true_and]
  | @decided hop truth htruth hname =>
      unfold accepts at h
      simp only [hop, Bool.and_eq_true, List.all_eq_true] at h
      exact (congrArg Option.isSome (hviews.resolve _)).trans (h.2 _ (taken_mem_branches hop htruth hname))

/-! ## Programs -/

section Programs

variable {e : Surroundings} {config : Config} {p : Program} {diagnostics : Bag} {newId : Nat → String}

theorem mem_of_mem_foldFrom {s : Stream} (h : new ∈ (foldFrom e st s).code) (hop : new.op = .function) :
    new ∈ s := by
  obtain ⟨j, hj⟩ := List.mem_iff_getElem?.1 h
  obtain ⟨pre, ins, post, rfl, -, hemitted⟩ := exists_source hj
  have hbecomes := becomes_of_emitted hemitted
  generalize walk e st pre = st' at hbecomes
  cases hbecomes with
  | substituted =>
      rw [substitute_op] at hop
      rw [substitute_of_noValues st' (by simp [valueSlots, hop]) (by simp [Instruction.isCall, hop])]
      simp
  | evaluated => cases hop
  | decided => cases hop

theorem isDelimiter_of_emitted (h : (step e st ins).2.emitted ins = [new]) :
    isDelimiter ins = isDelimiter new := by
  have hdelimiters := delimiters_emitted st ins e
  rw [h] at hdelimiters
  have hlengths := congrArg List.length hdelimiters
  change ([new].filter isDelimiter).length = ([ins].filter isDelimiter).length at hlengths
  cases hins : isDelimiter ins <;> cases hnew : isDelimiter new <;> simp [hins, hnew] at hlengths ⊢

theorem suits_delimiter (h : isDelimiter ins = true) : suits g ins = true := by
  simp only [isDelimiter, Bool.or_eq_true, decide_eq_true_eq] at h
  unfold suits
  rcases h with hop | hop <;> rw [hop]

/-- Where a program is expressed, an instruction of the folded one is expressed if its values suit it. -/
theorem accepts_foldFrom {s : Stream} {t u : ScopeTree} (ht : ScopeTree.ofStream s = .ok t) (htree : g.tree = t)
    (hu : ScopeTree.ofStream (foldFrom e st s).code = .ok u) (htree' : g'.tree = u) (halike : u.Alike t)
    (hlike : Like g.regions g'.regions) (hbodies : ∀ x ∈ g.functions, x ∈ g'.functions)
    (haccepts : ∀ (i : Nat) (ins : Instruction), s[i]? = some ins → accepts (g.seenFrom i) ins = true)
    {j : Nat} (hnew : (foldFrom e st s).code[j]? = some new) :
    accepts (g'.seenFrom j) new = suits (g'.seenFrom j) new := by
  obtain ⟨pre, ins, post, rfl, rfl, hemitted⟩ := exists_source hnew
  cases hplain : isDelimiter new with
  | true => rw [accepts_delimiter hplain, suits_delimiter hplain]
  | false =>
      have hplain' : isDelimiter ins = false := (isDelimiter_of_emitted hemitted).trans hplain
      have hcode : (foldFrom e st (pre ++ ins :: post)).code = (foldFrom e st pre).code
          ++ new :: (foldFrom e (step e (walk e st pre) ins).1 post).code := by
        rw [code_append, code_cons, hemitted]
        rfl
      have henclosing : g'.tree.enclosingAt (foldFrom e st pre).code.length = g.tree.enclosingAt pre.length := by
        rw [htree, htree', ScopeTree.enclosingAt_plain hu hcode hplain, ScopeTree.enclosingAt_plain ht rfl hplain',
          after_foldFrom]
      have hnode : g'.tree.nodeAt (foldFrom e st pre).code.length = g.tree.nodeAt pre.length := by
        rw [htree, htree', ScopeTree.nodeAt_plain hu hcode hplain, ScopeTree.nodeAt_plain ht rfl hplain',
          ← htree, ← htree', henclosing]
      have hviews := Views.of_alike (htree ▸ htree' ▸ halike) hlike hnode henclosing
      exact accepts_becomes hviews hbodies (becomes_of_emitted hemitted) (haccepts pre.length ins (by simp))

/-- The folded version of an expressible program is expressible exactly if the values it works on suit its
instructions. -/
theorem expressible_run_iff (hdefined : ∀ ins ∈ p.code, ins.op = .function → ins.function?.isSome = true)
    (hdebug : config.debug = false) (hns : config.ns ≠ "") (hstart : start config p diagnostics newId = .ok g)
    (hexpressible : (lower g).1.diagnostics.hasErrors = false) :
    ∃ out g', run p.code = .ok out ∧ start config { p with code := out.code } diagnostics newId = .ok g' ∧
      ((lower g').1.diagnostics.hasErrors = false ↔
        ∀ (i : Nat) (ins : Instruction), out.code[i]? = some ins → suits (g'.seenFrom i) ins = true) := by
  obtain ⟨t, ht⟩ := Generation.exists_tree hstart
  obtain ⟨u, hu, hextends⟩ := extends_foldFrom ht ⟨t, functionScopes p.code t⟩ .initial
  generalize hout : foldFrom ⟨t, functionScopes p.code t⟩ .initial p.code = out at hu hextends
  have hrun : run p.code = .ok out := by
    rw [run, withTree, ht, ← hout]
    rfl
  have hdefined' : ∀ x ∈ functionScopes out.code u, x.2.isSome = true := by
    rintro ⟨n, callee⟩ hx
    rw [functionScopes_eq hu] at hx
    obtain ⟨pre, a, b, post, hs, hop, rfl, -⟩ := exists_of_mem_bodiesFrom hx
    have hmem : a ∈ out.code := by simp [hs]
    rw [← hout] at hmem
    exact hdefined a (mem_of_mem_foldFrom hmem hop) hop
  obtain ⟨g', hstart'⟩ : ∃ g', start config { p with code := out.code } diagnostics newId = .ok g' :=
    exists_start hu hdefined'
  refine ⟨out, g', hrun, hstart', ?_⟩
  obtain ⟨hstarts, -, -, hfunctions, -⟩ := starts_of_start hstart ht
  obtain ⟨hstarts', -, -, hfunctions', -⟩ := starts_of_start hstart' hu
  have hbodies : ∀ x ∈ g.functions, x ∈ g'.functions := fun x hx =>
    (mem_bodies_iff hfunctions').2 (hextends.bodies _ ((mem_bodies_iff hfunctions).1 hx))
  have hlike := like_of_alike hextends.tree hstart ht hstart' hu
  obtain ⟨hbag, haccepts⟩ := (hasErrors_lower_iff hstart hdebug hns).1 hexpressible
  rw [diagnostics_of_start hstart, ← diagnostics_of_start hstart'] at hbag
  rw [hasErrors_lower_iff hstart' hdebug hns, and_iff_right hbag]
  refine forall₃_congr fun i ins hins => ?_
  subst hout
  rw [accepts_foldFrom ht hstarts.tree hu hstarts'.tree hextends.tree hlike hbodies haccepts hins]

end Programs

/-- A known value is added, passed to a function that gives it back, and decides a jump. -/
def knownNumber : Stream :=
  let x : Variable := { id := "x", name := "x", type := .data .int }
  let y : Variable := { id := "y", name := "y", type := .data .int }
  let n := Parameter.ofDefault "f.n" "n" (.data .int) none
  let f : Function := { id := "f", name := "f", params := [n], returnType := .data .int, kind := .function }
  [.function f, .scopeBegin "f" .function, .ret (some (.var n.var)), .scopeEnd "f" .function,
    .declare (some (.var x)), .declare (some (.var y)), .assign (some (.var x)) (some (.literal (.int 5))),
    .binaryOp (some (.var y)) .add (some (.var x)) (some (.var x)),
    .call (some (.var x)) f [⟨"n", some (.var y)⟩],
    .assign (some (.var y)) (some (.literal (.int 0))),
    .scopeBegin "a" .conditional, .assign (some (.var y)) (some (.var x)), .scopeEnd "a" .conditional,
    .condJump (some (.var y)) "a" ""]

theorem expressible_run_knownNumber :
    (∀ ins ∈ knownNumber, ins.op = .function → ins.function?.isSome = true) ∧
      ∃ g, start {} { code := knownNumber } [] toString = .ok g ∧ (lower g).1.diagnostics.hasErrors = false ∧
        ∃ out g', run knownNumber = .ok out ∧ start {} { code := out.code } [] toString = .ok g' ∧
          ((lower g').1.diagnostics.hasErrors = false ↔
            ∀ (i : Nat) (ins : Instruction), out.code[i]? = some ins → suits (g'.seenFrom i) ins = true) := by
  have hdefined : ∀ ins ∈ knownNumber, ins.op = .function → ins.function?.isSome = true := by decide
  refine ⟨hdefined, _, rfl, ?_,
    expressible_run_iff (p := { code := knownNumber }) hdefined rfl (by decide) rfl ?_⟩
  all_goals decide +kernel

/-- A number is converted to a truth value while the program runs, but not beforehand. -/
def undecidedTruth : Stream :=
  let x : Variable := { id := "x", name := "x", type := .data .int }
  let b : Variable := { id := "b", name := "b", type := .data .boolean, retain := true }
  [.declare (some (.var x)), .declare (some (.var b)), .assign (some (.var x)) (some (.literal (.int 5))),
    .cast (some (.var b)) .boolean (some (.var x))]

/-- Folding puts the number in place of the variable that is converted, and leaves the conversion. -/
theorem inexpressible_run_undecidedTruth : Program.isValid { code := undecidedTruth } = true ∧
    ∃ g out g', start {} { code := undecidedTruth } [] toString = .ok g ∧
      (lower g).1.diagnostics.hasErrors = false ∧ run undecidedTruth = .ok out ∧
      start {} { code := out.code } [] toString = .ok g' ∧ (lower g').1.diagnostics.hasErrors = true := by
  refine ⟨by decide +kernel, _, _, _, rfl, ?_, rfl, rfl, ?_⟩
  all_goals decide +kernel

end Datapack.Optimize.Folding
