import Datapack.Proofs.Generation.Routine
import Datapack.Proofs.Generation.Turns
import Datapack.Proofs.Ir.WellFormed

/-!
# The walk over a stream

Where the generator stands between two instructions of any stream: in the regions that the delimiters so
far have opened, over the regions of the tree.  Every instruction but a delimiter and a declaration
changes only what is generated.
-/

namespace Datapack.Generation

open Ir Command

/-! ## What stays of the regions -/

/-- Regions that differ at most in what is declared in them and generated for them. -/
structure Like (rs rs' : Regions) : Prop where
  length : rs'.length = rs.length
  outer : ∀ n, (rs'.at? n).outer = (rs.at? n).outer
  kind : ∀ n, (rs'.at? n).kind = (rs.at? n).kind
  segment : ∀ n, (rs'.at? n).segment = (rs.at? n).segment

namespace Like

variable {rs rs' rs'' : Regions}

theorem refl (rs : Regions) : Like rs rs := ⟨rfl, fun _ => rfl, fun _ => rfl, fun _ => rfl⟩

theorem trans (h : Like rs rs') (h' : Like rs' rs'') : Like rs rs'' :=
  ⟨h'.length.trans h.length, fun n => (h'.outer n).trans (h.outer n),
    fun n => (h'.kind n).trans (h.kind n), fun n => (h'.segment n).trans (h.segment n)⟩

theorem symm (h : Like rs rs') : Like rs' rs :=
  ⟨h.length.symm, fun n => (h.outer n).symm, fun n => (h.kind n).symm, fun n => (h.segment n).symm⟩

theorem of_update {f : Region → Region} (houter : ∀ r, (f r).outer = r.outer)
    (hkind : ∀ r, (f r).kind = r.kind) (hsegment : ∀ r, (f r).segment = r.segment) (rs : Regions)
    (n : Nat) : Like rs (rs.update n f) := by
  have hat : ∀ m, (rs.update n f).at? m = rs.at? m ∨ (rs.update n f).at? m = f (rs.at? m) := by
    intro m
    by_cases hm : m = n
    · by_cases hlt : n < rs.length
      · rw [hm]
        exact .inr (Regions.at?_update_self f hlt)
      · refine .inl ?_
        unfold Regions.update Regions.at?
        rw [List.getElem?_eq_none (by rw [List.length_modify]; omega), List.getElem?_eq_none (by omega)]
    · exact .inl (Regions.at?_update_ne f hm)
  refine ⟨Regions.length_update rs n f, fun m => ?_, fun m => ?_, fun m => ?_⟩
  · rcases hat m with h | h <;> rw [h]
    exact houter _
  · rcases hat m with h | h <;> rw [h]
    exact hkind _
  · rcases hat m with h | h <;> rw [h]
    exact hsegment _

theorem of_sketch (h : rs'.sketch = rs.sketch) : Like rs rs' := by
  have hat : ∀ n, (rs'.at? n).bare = (rs.at? n).bare := by
    intro n
    rw [← Regions.at?_sketch, h, Regions.at?_sketch]
  refine ⟨?_, fun n => ?_, fun n => ?_, fun n => ?_⟩
  · rw [← Regions.length_sketch, h, Regions.length_sketch]
  · exact (congrArg Region.outer (hat n) :)
  · exact (congrArg Region.kind (hat n) :)
  · exact (congrArg Region.segment (hat n) :)

theorem ancestors (h : Like rs rs') (n : Nat) : rs'.ancestors n = rs.ancestors n := by
  rw [Regions.ancestors, h.outer, Regions.ancestors]

theorem parent? (h : Like rs rs') (n : Nat) : rs'.parent? n = rs.parent? n := by
  rw [Regions.parent?, h.outer, Regions.parent?]

theorem segments (h : Like rs rs') (n : Nat) : rs'.segments n = rs.segments n := by
  simp only [Regions.segments, h.ancestors, h.segment]

theorem absolutePath (h : Like rs rs') (n : Nat) : rs'.absolutePath n = rs.absolutePath n := by
  rw [Regions.absolutePath, h.segments, Regions.absolutePath]

theorem functionRef (h : Like rs rs') (ns : String) (n : Nat) :
    rs'.functionRef ns n = rs.functionRef ns n := by
  simp only [Regions.functionRef, Regions.functionPath, h.segments]

end Like

theorem Alike.like {g g' : Generation} (h : Alike g g') : Like g.regions g'.regions := .of_sketch h.sketch

/-! ## The regions of a tree -/

/-- A region that stands where a node does and for which nothing has been generated. -/
structure Copies (r : Region) (node : ScopeNode) : Prop where
  outer : r.outer = node.outer
  kind : r.kind = node.kind
  symbols : r.symbols = []
  commands : r.commands = []
  flags : r.flags = []

theorem copies_foldl {s : Stream} {t : ScopeTree} (h : ScopeTree.ofStream s = .ok t) (ns : String)
    {k : Nat} (hk : k + 1 ≤ t.nodes.length) :
    ∃ rs : Regions, (List.range' 1 k).foldl
        (fun rs n => rs.addChild ((t.node n).parent?.getD 0) (t.node n).name (t.node n).kind)
        (Regions.ofRoot ns) = rs ∧
      rs.length = k + 1 ∧ ∀ n, n < k + 1 → Copies (rs.at? n) (t.node n) := by
  induction k with
  | zero =>
      refine ⟨_, rfl, rfl, fun n hn => ?_⟩
      obtain rfl : n = ScopeTree.root := Nat.lt_one_iff.1 hn
      exact ⟨(ScopeTree.outer_root h).symm, (kind_root h).symm, rfl, rfl, rfl⟩
  | succ k ih =>
      obtain ⟨rs, hfold, hlength, hcopies⟩ := ih (by omega)
      obtain ⟨p, hp, houter⟩ := @ScopeTree.outer_node _ _ h (1 + k) (by simp [ScopeTree.root]) (by omega)
      have hparent : (t.node (1 + k)).parent?.getD 0 = p := by simp [ScopeNode.parent?, houter]
      rw [List.range'_1_concat, List.foldl_append, hfold]
      refine ⟨_, rfl, by simp [Regions.addChild, hlength], fun n hn => ?_⟩
      simp only [List.foldl_cons, List.foldl_nil, Regions.addChild, hparent]
      by_cases hlt : n < k + 1
      · rw [Regions.at?_append_left (by omega)]
        exact hcopies n hlt
      · obtain rfl : n = 1 + k := by omega
        rw [show 1 + k = rs.length by omega, Regions.at?_append_length, hlength, Nat.add_comm k 1]
        exact ⟨by rw [(hcopies p (by omega)).outer, houter], rfl, rfl, rfl, rfl⟩

theorem copies_regionsOf {s : Stream} {t : ScopeTree} (h : ScopeTree.ofStream s = .ok t) (ns : String) :
    (regionsOf ns t).length = t.nodes.length ∧
      ∀ n, n < t.nodes.length → Copies ((regionsOf ns t).at? n) (t.node n) := by
  have hpos := ScopeTree.root_lt h
  obtain ⟨rs, hfold, hlength, hcopies⟩ := copies_foldl h ns (k := t.nodes.length - 1) (by omega)
  have hinner : t.inner = List.range' 1 (t.nodes.length - 1) := by
    rw [ScopeTree.inner, List.range_eq_range', List.tail_range']
  have heq : regionsOf ns t = rs := by
    rw [regionsOf, hinner, ← hfold]
  rw [heq]
  exact ⟨by omega, fun n hn => hcopies n (by omega)⟩

theorem like_declare (v : Variable) (rs : Regions) (n : Nat) : Like rs (rs.update n (·.declare v)) :=
  .of_update (f := (·.declare v)) (fun _ => rfl) (fun _ => rfl) (fun _ => rfl) rs n

theorem declareParams_rest (rs : Regions) (bodies : List (Nat × Function)) :
    Like rs (bodies.foldl declareParams rs) ∧
      ∀ n, ((bodies.foldl declareParams rs).at? n).commands = (rs.at? n).commands ∧
        ((bodies.foldl declareParams rs).at? n).flags = (rs.at? n).flags := by
  have hparams : ∀ (m : Nat) (ps : List Parameter) (rs : Regions),
      Like rs (ps.foldl (fun rs p => rs.update m (·.declare p.var)) rs) ∧
        ∀ n, ((ps.foldl (fun rs p => rs.update m (·.declare p.var)) rs).at? n).commands
            = (rs.at? n).commands ∧
          ((ps.foldl (fun rs p => rs.update m (·.declare p.var)) rs).at? n).flags = (rs.at? n).flags := by
    intro m ps
    induction ps with
    | nil => exact fun rs => ⟨.refl rs, fun _ => ⟨rfl, rfl⟩⟩
    | cons p ps ih =>
        intro rs
        obtain ⟨hlike, hrest⟩ := ih (rs.update m (·.declare p.var))
        refine ⟨(like_declare p.var rs m).trans hlike, fun n => ?_⟩
        rw [List.foldl_cons, (hrest n).1, (hrest n).2]
        exact ⟨Regions.commands_update (f := (·.declare p.var)) (fun _ => rfl) rs m n,
          flags_update (f := (·.declare p.var)) (fun _ => rfl) rs m n⟩
  induction bodies generalizing rs with
  | nil => exact ⟨.refl rs, fun _ => ⟨rfl, rfl⟩⟩
  | cons body bodies ih =>
      obtain ⟨hlike, hrest⟩ := ih (declareParams rs body)
      obtain ⟨hlike', hrest'⟩ := hparams body.1 body.2.params rs
      refine ⟨hlike'.trans hlike, fun n => ?_⟩
      rw [List.foldl_cons, (hrest n).1, (hrest n).2]
      exact hrest' n

/-- What a generation starts from. -/
structure Starts (t : ScopeTree) (g : Generation) : Prop where
  tree : g.tree = t
  position : g.current :: g.stack = Position.start.stack
  exits : g.exits = []
  length : g.regions.length = t.nodes.length
  outer : ∀ n, n < t.nodes.length → (g.regions.at? n).outer = (t.node n).outer
  kind : ∀ n, n < t.nodes.length → (g.regions.at? n).kind = (t.node n).kind
  commands : ∀ n, n < t.nodes.length → g.commandsAt n = []
  flags : ∀ n, n < t.nodes.length → g.flagsAt n = []

theorem exists_tree {config : Config} {p : Program} {diagnostics : Bag} {newId : Nat → String}
    {g : Generation} (h : start config p diagnostics newId = .ok g) : ∃ t, ScopeTree.ofStream p.code = .ok t := by
  unfold start at h
  split at h
  · cases h
  · next t ht => exact ⟨t, ht⟩

theorem starts_of_start {config : Config} {p : Program} {diagnostics : Bag} {newId : Nat → String}
    {g : Generation} {t : ScopeTree} (h : start config p diagnostics newId = .ok g)
    (ht : ScopeTree.ofStream p.code = .ok t) :
    Starts t g ∧ g.config = config ∧ g.program = p ∧
      bodies (functionScopes p.code t) = some g.functions ∧
      g.regions = g.functions.foldl declareParams (regionsOf config.ns t) := by
  unfold start at h
  rw [ht] at h
  dsimp only at h
  split at h
  · cases h
  · next functions hfunctions =>
    cases h
    obtain ⟨hlength, hcopies⟩ := copies_regionsOf ht config.ns
    obtain ⟨hlike, hrest⟩ := declareParams_rest (regionsOf config.ns t) functions
    refine ⟨⟨rfl, rfl, rfl, ?_, fun n hn => ?_, fun n hn => ?_, fun n hn => ?_, fun n hn => ?_⟩,
      rfl, rfl, hfunctions, rfl⟩
    · exact hlike.length.trans hlength
    · exact (hlike.outer n).trans (hcopies n hn).outer
    · exact (hlike.kind n).trans (hcopies n hn).kind
    · exact (hrest n).1.trans (hcopies n hn).commands
    · exact (hrest n).2.trans (hcopies n hn).flags

theorem mem_bodies_iff {callees : List (Nat × Option Function)} {functions : List (Nat × Function)}
    (h : bodies callees = some functions) {n : Nat} {f : Function} :
    (n, f) ∈ functions ↔ (n, some f) ∈ callees := by
  induction callees generalizing functions with
  | nil =>
      obtain rfl := Option.some.inj h
      simp
  | cons callee callees ih =>
      obtain ⟨m, _ | g⟩ := callee
      · cases h
      · obtain ⟨rest, hrest, rfl⟩ := Option.map_eq_some_iff.1 h
        simp [ih hrest]

theorem body_of_mem {config : Config} {p : Program} {diagnostics : Bag} {newId : Nat → String}
    {g : Generation} (h : start config p diagnostics newId = .ok g) {t : ScopeTree}
    (ht : ScopeTree.ofStream p.code = .ok t) {n : Nat} {f : Function} (hmem : (n, f) ∈ g.functions) :
    n ∈ t.inner ∧ (t.node n).kind = .function ∧ IsBody p.code t n f := by
  obtain ⟨-, -, -, hfunctions, -⟩ := starts_of_start h ht
  exact isBody_of_mem ht ((mem_bodies_iff hfunctions).1 hmem)

/-! ## The walk -/

/-- What processing one instruction makes of a state; a failure is only reported. -/
def StepsTo (i : Nat) (ins : Instruction) (g g' : Generation) : Prop :=
  Yields (processors.find ins.op ins) { g with index := i } () g' ∨
    ∃ e g₁, (processors.find ins.op ins).run { g with index := i } = (.error e, g₁) ∧
      g' = g₁.report (failureReport ins e)

theorem StepsTo.of_yields {i : Nat} {ins : Instruction} {g g' g₁ : Generation}
    (h : StepsTo i ins g g') (hyields : Yields (processors.find ins.op ins) { g with index := i } () g₁) :
    g' = g₁ := by
  unfold Yields at hyields
  rcases h with h | ⟨e, g₂, hrun, -⟩
  · exact (Prod.mk.inj (h.symm.trans hyields)).2
  · rw [hyields] at hrun
    cases (Prod.mk.inj hrun).1

/-- A failure is reported behind the changes made so far. -/
theorem StepsTo.reaches {C : Generation → Generation → Prop} {i : Nat} {ins : Instruction}
    {g g' : Generation} {Q : Unit → Generation → Prop} (h : StepsTo i ins g g')
    (hmakes : Makes C { g with index := i } (processors.find ins.op ins) Q)
    (hreport : ∀ g d, C g (g.report d)) : Reaches C { g with index := i } g' := by
  have hreach := hmakes.1
  rcases h with h | ⟨e, g₁, hrun, rfl⟩
  · unfold Yields at h
    rwa [h] at hreach
  · rw [hrun] at hreach
    exact hreach.tail (hreport g₁ _)

theorem processFrom_append (ps : Processors) (i : Nat) (g : Generation) (s s' : Stream) :
    processFrom ps i g (s ++ s') =
      match processFrom ps i g s with
      | (g', none) => processFrom ps (i + s.length) g' s'
      | (g', some e) => (g', some e) := by
  induction s generalizing i g with
  | nil => rfl
  | cons ins s ih =>
      have hindex : i + (ins :: s).length = i + 1 + s.length := by
        rw [List.length_cons]
        omega
      rw [hindex, List.cons_append, processFrom, processFrom]
      rcases (ps.find ins.op ins).run { g with index := i } with ⟨_ | _, g'⟩
      · dsimp only
        split
        · rfl
        · exact ih _ _
      · exact ih _ _

theorem exists_of_processFrom_append {ps : Processors} {i : Nat} {g g' : Generation} {s s' : Stream}
    (h : processFrom ps i g (s ++ s') = (g', none)) :
    ∃ g₁, processFrom ps i g s = (g₁, none) ∧ processFrom ps (i + s.length) g₁ s' = (g', none) := by
  rw [processFrom_append] at h
  rcases hs : processFrom ps i g s with ⟨g₁, _ | e⟩
  · rw [hs] at h
    exact ⟨g₁, rfl, h⟩
  · rw [hs] at h
    cases (Prod.mk.inj h).2

theorem stepsTo_of_processFrom {i : Nat} {ins : Instruction} {g g' : Generation}
    (h : processFrom processors i g [ins] = (g', none)) : StepsTo i ins g g' := by
  unfold processFrom at h
  rcases hrun : (processors.find ins.op ins).run { g with index := i } with ⟨e | a, g₁⟩
  · rw [hrun] at h
    dsimp only at h
    split at h
    · cases h
    · exact .inr ⟨e, g₁, hrun, (Prod.mk.inj h).1.symm⟩
  · rw [hrun] at h
    obtain rfl : g₁ = g' := (Prod.mk.inj h).1
    exact .inl hrun

/-- What holds behind a part of a stream and is kept by every instruction behind it holds from there on. -/
theorem walk_induction {g₀ g₁ : Generation} {s pre₀ : Stream} {P : Stream → Generation → Prop}
    (hwalk : processFrom processors 0 g₀ pre₀ = (g₁, none)) (hbase : P pre₀ g₁)
    (hstep : ∀ pre ins post g g', s = pre ++ ins :: post → pre₀.length ≤ pre.length →
      processFrom processors 0 g₀ pre = (g, none) → StepsTo pre.length ins g g' → P pre g →
      P (pre ++ [ins]) g')
    {mid post : Stream} {g : Generation} (hs : s = pre₀ ++ mid ++ post)
    (h : processFrom processors 0 g₀ (pre₀ ++ mid) = (g, none)) : P (pre₀ ++ mid) g := by
  induction mid using List.reverseRecOn generalizing post g with
  | nil =>
      rw [List.append_nil] at h ⊢
      obtain rfl : g₁ = g := (Prod.mk.inj (hwalk.symm.trans h)).1
      exact hbase
  | append_singleton mid ins ih =>
      -- the last instruction is the step, what is before it comes from the induction
      rw [← List.append_assoc] at hs h ⊢
      have hs' : s = (pre₀ ++ mid) ++ ins :: post := by rw [hs, List.append_assoc, List.singleton_append]
      obtain ⟨g₂, hpre, hlast⟩ := exists_of_processFrom_append h
      rw [Nat.zero_add] at hlast
      have hle : pre₀.length ≤ (pre₀ ++ mid).length := by
        rw [List.length_append]
        exact Nat.le_add_right _ _
      exact hstep _ ins post g₂ g hs' hle hpre (stepsTo_of_processFrom hlast) (ih hs' hpre)

/-! ## Instructions -/

/-- A change by any instruction but a delimiter and a declaration. -/
inductive Step (Ends Leads : Nat → Prop) : Generation → Generation → Prop
  | turn {g g' : Generation} (h : Turn Ends Leads g g') : Step Ends Leads g g'
  | invocation {g g' : Generation} (h : Invocation g g') : Step Ends Leads g g'

theorem Step.alike {Ends Leads : Nat → Prop} {g g' : Generation} (h : Step Ends Leads g g') :
    Alike g g' := by
  cases h with
  | turn h => exact h.alike
  | invocation h => exact h.alike

/-- What an instruction asks for so that its changes are bounded: where its jumps lead and where its
exits end. -/
structure Bounded (Ends Leads : Nat → Prop) (g : Generation) (ins : Instruction) : Prop where
  jump : ins.op = .jump → ∀ n, g.resolve ins.jumpTarget = some n →
    g.regions.isAncestor n g.current = false → Leads n
  condJump : ins.op = .condJump → ∀ x ∈ [ins.onTrue, ins.onFalse], x ≠ "" →
    ∃ n, g.resolve x = some n ∧ Leads n
  breakLoop : ins.op = .breakLoop → ∀ n, (g.regions.at? n).kind = .loop → Ends n
  exit : ∀ n, n ≠ g.current → n < g.regions.length → Ends n

section Instructions

variable {Ends Leads : Nat → Prop} {g : Generation} {ins : Instruction}

theorem makes_turn (h : Bounded Ends Leads g ins) (hop : ins.op = .jump ∨ ins.op = .condJump) :
    Makes (Turn Ends Leads) g (processors.find ins.op ins) fun _ _ => True := by
  rcases hop with hop | hop
  · rw [hop]
    exact makes_jumpTo _ (h.jump hop)
  · rw [hop]
    exact makes_condJump ins (h.condJump hop)

theorem makes_step (h : Bounded Ends Leads g ins) (hplain : isDelimiter ins = false)
    (hdeclare : ins.op ≠ .declare) :
    Makes (Step Ends Leads) g (processors.find ins.op ins) fun _ _ => True := by
  have hturn : ∀ {m : Gen Unit}, Makes (Turn Ends Leads) g m (fun _ _ => True) →
      Makes (Step Ends Leads) g m fun _ _ => True := fun h => h.mono fun _ _ => .turn
  have hinvocation : ∀ {m : Gen Unit}, Makes Invocation g m (fun _ _ => True) →
      Makes (Step Ends Leads) g m fun _ _ => True := fun h => h.mono fun _ _ => .invocation
  obtain ⟨hbegin, hend⟩ := isDelimiter_eq_false.1 hplain
  cases hop : ins.op with
  | jump => exact hturn (hop ▸ makes_turn h (.inl hop))
  | condJump => exact hturn (hop ▸ makes_turn h (.inr hop))
  | breakLoop => exact hturn (makes_breakLoop ins (h.breakLoop hop))
  | continueLoop => exact hturn (makes_continueLoop ins h.exit)
  | ret => exact hturn (makes_ret ins h.exit)
  | function => exact hturn (makes_functionDef ins).turn
  | call => exact hinvocation (makes_call ins)
  | callMethod => exact hinvocation (makes_callMethod ins)
  | assign => exact hturn (makes_assignment ins).turn
  | unaryOp => exact hturn (makes_unary ins).turn
  | binaryOp => exact hturn (makes_binary ins).turn
  | compare => exact hturn (makes_comparison ins).turn
  | cast => exact hturn (makes_conversion ins).turn
  | newObject => exact hturn (makes_newObject ins).turn
  | getProperty => exact hturn (makes_getProperty ins).turn
  | setProperty => exact hturn (makes_setProperty ins).turn
  | classDef => exact .pure trivial
  | undefined code => exact hturn (makes_fallback ins).turn
  | scopeBegin => exact absurd hop hbegin
  | scopeEnd => exact absurd hop hend
  | declare => exact absurd hop hdeclare

end Instructions

/-- What processing an instruction comes to. -/
inductive Moves (Ends Leads : Nat → Prop) (i : Nat) (ins : Instruction) (g : Generation) :
    Generation → Prop
  | enter (hop : ins.op = .scopeBegin) : Moves Ends Leads i ins g (push { g with index := i } (g.tree.nodeAt i))
  | leave (hop : ins.op = .scopeEnd) {n : Nat} {stack : List Nat} (h : g.stack = n :: stack) :
      Moves Ends Leads i ins g { g with index := i, current := n, stack }
  | declare (hop : ins.op = .declare) {v : Variable} (hv : varOf (ins.refAt 0) = some v) :
      Moves Ends Leads i ins g
        { g with index := i, regions := g.regions.update g.current (·.declare v) }
  | step {g' : Generation} (hplain : isDelimiter ins = false) (hop : ins.op ≠ .declare)
      (h : Reaches (Step Ends Leads) { g with index := i } g') : Moves Ends Leads i ins g g'

theorem StepsTo.moves {Ends Leads : Nat → Prop} {i : Nat} {ins : Instruction} {g g' : Generation}
    (h : StepsTo i ins g g')
    (hbounded : isDelimiter ins = false → Bounded Ends Leads { g with index := i } ins)
    (hstack : ins.op = .scopeEnd → g.stack ≠ [])
    (hdeclare : ins.op = .declare → ∃ v, varOf (ins.refAt 0) = some v) : Moves Ends Leads i ins g g' := by
  rcases ins.delimiter_cases with hop | hop | ⟨hb, he⟩
  · have hyields : Yields (processors.find ins.op ins) { g with index := i } ()
        (push { g with index := i } (g.tree.nodeAt i)) := by
      rw [hop]
      exact .change _
    rw [h.of_yields hyields]
    exact .enter hop
  · obtain ⟨n, stack, hopen⟩ := List.exists_cons_of_ne_nil (hstack hop)
    have hyields : Yields (processors.find ins.op ins) { g with index := i } ()
        { g with index := i, current := n, stack } := by
      rw [hop]
      exact .pop hopen
    rw [h.of_yields hyields]
    exact .leave hop hopen
  · by_cases hop : ins.op = .declare
    · obtain ⟨v, hv⟩ := hdeclare hop
      have hyields : Yields (processors.find ins.op ins) { g with index := i } ()
          { g with index := i, regions := g.regions.update g.current (·.declare v) } := by
        rw [hop]
        change Yields (Generation.declare ins) _ _ _
        rw [Generation.declare, hv]
        exact .change _
      rw [h.of_yields hyields]
      exact .declare hop hv
    · have hplain := isDelimiter_eq_false.2 ⟨hb, he⟩
      refine .step hplain hop (h.reaches (makes_step (hbounded hplain) hplain hop) fun g d => ?_)
      exact .turn (.change (change_report d))

/-! ## Positions -/

/-- What all instructions but delimiters leave alone. -/
structure Stays (g g' : Generation) : Prop where
  config : g'.config = g.config
  tree : g'.tree = g.tree
  functions : g'.functions = g.functions
  current : g'.current = g.current
  stack : g'.stack = g.stack
  like : Like g.regions g'.regions

theorem Stays.of_index {i : Nat} {g g' : Generation} (h : Stays { g with index := i } g') : Stays g g' :=
  ⟨h.config, h.tree, h.functions, h.current, h.stack, h.like⟩

theorem Alike.stays {g g' : Generation} (h : Alike g g') : Stays g g' :=
  ⟨h.config, h.tree, h.functions, h.current, h.stack, h.like⟩

/-- Where the generator stands behind a part of a stream. -/
structure StandsAt (g₀ : Generation) (pre : Stream) (g : Generation) : Prop where
  config : g.config = g₀.config
  tree : g.tree = g₀.tree
  functions : g.functions = g₀.functions
  position : g.current :: g.stack = (Position.start.after pre).stack
  like : Like g₀.regions g.regions

theorem Starts.standsAt {t : ScopeTree} {g : Generation} (h : Starts t g) : StandsAt g [] g :=
  ⟨rfl, rfl, rfl, h.position, .refl _⟩

namespace StandsAt

variable {g₀ g g' : Generation} {pre post : Stream} {ins : Instruction} {p : Program} {t : ScopeTree}

theorem current (h : StandsAt g₀ pre g) : g.current = (Position.start.after pre).top := by
  rw [Position.top, ← h.position]
  rfl

theorem ns (h : StandsAt g₀ pre g) : g.ns = g₀.ns := by
  rw [Generation.ns, h.config, Generation.ns]

/-- At an instruction that delimits nothing, the innermost region is the one around it. -/
theorem current_eq (h : StandsAt g₀ pre g) (ht : ScopeTree.ofStream p.code = .ok t)
    (hs : p.code = pre ++ ins :: post) (hplain : isDelimiter ins = false) :
    g.current = t.enclosingAt pre.length := by
  rw [h.current, ScopeTree.enclosingAt_plain ht hs hplain]

theorem outer (h : StandsAt g₀ pre g) (hstarts : Starts t g₀) {n : Nat} (hn : n < t.nodes.length) :
    (g.regions.at? n).outer = (t.node n).outer :=
  (h.like.outer n).trans (hstarts.outer n hn)

theorem current_lt (h : StandsAt g₀ pre g) (ht : ScopeTree.ofStream p.code = .ok t) (hstarts : Starts t g₀)
    (hs : p.code = pre ++ ins :: post) (hplain : isDelimiter ins = false) :
    g.current < g.regions.length := by
  rw [h.current_eq ht hs hplain, h.like.length, hstarts.length]
  exact ScopeTree.enclosingAt_lt ht _

theorem ancestors_current (h : StandsAt g₀ pre g) (ht : ScopeTree.ofStream p.code = .ok t)
    (hstarts : Starts t g₀) (hs : p.code = pre ++ ins :: post) (hplain : isDelimiter ins = false) :
    g.regions.ancestors g.current = t.ancestors (t.enclosingAt pre.length) := by
  rw [h.current_eq ht hs hplain, Regions.ancestors, h.outer hstarts (ScopeTree.enclosingAt_lt ht _),
    ScopeTree.ancestors]

theorem parent?_eq (h : StandsAt g₀ pre g) (hstarts : Starts t g₀) {n q : Nat}
    (hq : (t.node n).parent? = some q) : g.regions.parent? n = some q := by
  have hlt : n < t.nodes.length := by
    by_contra hge
    rw [ScopeTree.node_of_length_le (Nat.le_of_not_lt hge)] at hq
    cases hq
  rw [Regions.parent?, h.outer hstarts hlt]
  exact hq

theorem resolve (h : StandsAt g₀ pre g) (ht : ScopeTree.ofStream p.code = .ok t) (htree : g₀.tree = t)
    (hs : p.code = pre ++ ins :: post) (hplain : isDelimiter ins = false) {x : String} {n : Nat}
    (hn : t.resolve (t.enclosingAt pre.length) x = some n) :
    Generation.resolve { g with index := pre.length } x = some n := by
  have htree' : g.tree = t := h.tree.trans htree
  simp only [Generation.resolve, htree', ScopeTree.nodeAt_plain ht hs hplain, hn]

/-- In a well-formed program a conditional jump finds its regions. -/
theorem bounded (h : StandsAt g₀ pre g) (ht : ScopeTree.ofStream p.code = .ok t) (htree : g₀.tree = t)
    (hwf : WellFormed p t) (hs : p.code = pre ++ ins :: post) (hplain : isDelimiter ins = false) :
    Bounded (fun _ => True) (fun _ => True) { g with index := pre.length } ins := by
  refine ⟨fun _ _ _ _ => trivial, fun hop x hx hne => ?_, fun _ _ _ => trivial, fun _ _ _ => trivial⟩
  have hget : p.code[pre.length]? = some ins := by simp [hs]
  obtain ⟨n, hn⟩ := (hwf.condJump pre.length ins hget hop).2.2 x hx hne
  exact ⟨n, h.resolve ht htree hs hplain hn, trivial⟩

/-- No region is closed that is not open. -/
theorem stack_ne_nil (h : StandsAt g₀ pre g) (ht : ScopeTree.ofStream p.code = .ok t)
    (hs : p.code = pre ++ ins :: post) (hop : ins.op = .scopeEnd) : g.stack ≠ [] := by
  -- a stack of the global region only would leave the rest of the stream unbalanced
  have hcloses := (ScopeTree.ofStream_isOk_iff p.code).1 ⟨t, ht⟩
  rw [hs] at hcloses
  obtain ⟨names, hnames, hdepth⟩ := @ScopeTree.closes_after [] Position.start pre _ hcloses rfl
  rw [← h.position, List.length_cons] at hdepth
  intro hnil
  rw [hnil, List.length_nil] at hdepth
  rw [List.length_eq_zero_iff.1 (show names.length = 0 by omega), closes_end_nil hop] at hnames
  exact Bool.noConfusion hnames

theorem moves {Ends Leads : Nat → Prop} (h : StandsAt g₀ pre g) (ht : ScopeTree.ofStream p.code = .ok t)
    (hwf : WellFormed p t) (hs : p.code = pre ++ ins :: post) (hstep : StepsTo pre.length ins g g')
    (hbounded : isDelimiter ins = false → Bounded Ends Leads { g with index := pre.length } ins) :
    Moves Ends Leads pre.length ins g g' :=
  hstep.moves hbounded (h.stack_ne_nil ht hs) (hwf.declare pre.length ins (by simp [hs]))

/-- An instruction that moves no region is passed where the generator stands. -/
theorem stay (h : StandsAt g₀ pre g) (hplain : isDelimiter ins = false) (hstays : Stays g g') :
    StandsAt g₀ (pre ++ [ins]) g' := by
  refine ⟨hstays.config.trans h.config, hstays.tree.trans h.tree, hstays.functions.trans h.functions, ?_,
    h.like.trans hstays.like⟩
  rw [hstays.current, hstays.stack, h.position, Position.after_append, Position.after_cons,
    Position.after_nil, Position.advance_plain _ hplain]

theorem advance {Ends Leads : Nat → Prop} (h : StandsAt g₀ pre g) (ht : ScopeTree.ofStream p.code = .ok t)
    (htree : g₀.tree = t) (hs : p.code = pre ++ ins :: post) (hmoves : Moves Ends Leads pre.length ins g g') :
    StandsAt g₀ (pre ++ [ins]) g' := by
  have hposition : (Position.start.after (pre ++ [ins])).stack =
      ((Position.start.after pre).advance ins).stack := by
    rw [Position.after_append, Position.after_cons, Position.after_nil]
  cases hmoves with
  | enter hop =>
      refine ⟨h.config, h.tree, h.functions, ?_, h.like⟩
      have hnode : g.tree.nodeAt pre.length = (Position.start.after pre).opened + 1 := by
        rw [h.tree, htree, ScopeTree.nodeAt_length ht hs, Position.owner, if_pos hop]
      rw [hposition, Position.advance_begin _ hop]
      change g.tree.nodeAt pre.length :: g.current :: g.stack = _
      rw [hnode, h.position]
  | leave hop hopen =>
      refine ⟨h.config, h.tree, h.functions, ?_, h.like⟩
      rw [hposition, Position.advance_end _ hop, ← h.position]
      exact hopen.symm
  | declare hop _ =>
      exact h.stay (isDelimiter_eq_false.2 (by simp [hop])) ⟨rfl, rfl, rfl, rfl, rfl, like_declare _ _ _⟩
  | step hplain _ hreach => exact h.stay hplain (hreach.alike fun _ _ => Step.alike).stays.of_index

end StandsAt

end Datapack.Generation
