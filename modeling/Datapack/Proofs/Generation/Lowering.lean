import Datapack.Proofs.Generation.Routine

/-!
# Generating routines

The run of the generator over the program of a routine, from its start to its end.  In front of the
body only the variables are declared, and behind it the regions stay as they are; so what the body has
been laid out as is what runs.  The main result, `exec_lowered_routine`, says that whenever the body of
a routine ends, so do the commands of its function, with the same values and no flag raised.
-/

namespace Datapack.Generation

open Ir Ir.Structured Command

namespace Routine

variable {R : Routine} {config : Config} {t : ScopeTree} {rs : Regions} {g : Generation} {i : Nat}
  (hholders : (R.vars.map fun v => holder v.name).Nodup)

/-- The generation of a routine before its body, with the given regions open. -/
structure Blank (R : Routine) (config : Config) (t : ScopeTree) (rs : Regions) (opened : List Nat)
    (g : Generation) : Prop where
  config : g.config = config
  tree : g.tree = t
  functions : g.functions = [(1, R.function)]
  regions : g.regions = rs
  stack : g.current :: g.stack = opened
  exits : g.exits = []
  resets : g.resets = []

theorem exists_start (h : ScopeTree.ofStream R.code = .ok t) (config : Config) (classes : Hierarchy)
    (diagnostics : Bag) (newId : Nat → String) :
    ∃ g, start config ⟨classes, R.code⟩ diagnostics newId = .ok g ∧ g.program.code = R.code ∧
      R.Blank config t
        ((regionsOf config.ns t).update 1 (declareAll (R.function.params.map (·.var)))) [0] g := by
  have hparams : declareParams (regionsOf config.ns t) (1, R.function)
      = (regionsOf config.ns t).update 1 (declareAll (R.function.params.map (·.var))) := by
    rw [declareParams, ← foldl_declare, List.foldl_map]
  unfold start
  simp only [h, R.functionScopes_code h, bodies, Option.map_some, List.foldl_cons, List.foldl_nil, hparams]
  exact ⟨_, rfl, rfl, rfl, rfl, rfl, rfl, rfl, rfl, rfl⟩

theorem Blank.bodyOf? {opened : List Nat} (hb : R.Blank config t rs opened g) :
    g.bodyOf? R.function = some 1 := by
  rw [Generation.bodyOf?, hb.functions]
  simp

/-- The state behind the definition of a function: the hooks it asked for are noted. -/
def noteHooks (f : Function) (i : Nat) (g : Generation) : Generation :=
  let ref := g.regions.functionRef g.ns 1
  { g with
    index := i
    onLoad := if f.hasAnnotation "load" then g.onLoad ++ [ref] else g.onLoad
    onTick := if f.hasAnnotation "tick" then g.onTick ++ [ref] else g.onTick }

theorem Blank.processes_function {opened : List Nat} (hb : R.Blank config t rs opened g) (i : Nat) :
    Processes i g [.function R.function] (noteHooks R.function i g) ∧
      R.Blank config t rs opened (noteHooks R.function i g) := by
  constructor
  · refine .single (p := functionDef) rfl ?_
    have hdef : Instruction.function? (.function R.function) = some R.function := rfl
    have hbody : Generation.bodyOf? { g with index := i } R.function = some 1 := hb.bodyOf?
    unfold functionDef
    simp only [hdef]
    refine .bind .get ?_
    simp only [hbody]
    exact .change _
  · exact ⟨hb.config, hb.tree, hb.functions, hb.regions, hb.stack, hb.exits, hb.resets⟩

/-- The region of the function is the first to be opened. -/
theorem Blank.processes_begin (h : ScopeTree.ofStream R.code = .ok t)
    (hb : R.Blank config t rs [0] g) :
    ∃ g', Processes 1 g [.scopeBegin R.name .function] g' ∧ R.Blank config t rs [1, 0] g' := by
  have hnode : regionAt { g with index := 1 } 1 = 1 := by
    have htree : Generation.tree { g with index := 1 } = t := hb.tree
    rw [regionAt, htree]
    exact @ScopeTree.nodeAt_length _ _ h [.function R.function] _ _ rfl
  refine ⟨push { g with index := 1 } 1, .single (p := scopeBegin) rfl ?_, ?_⟩
  · have hchange := Yields.change (g := { g with index := 1 }) fun g => g.push (g.regionAt g.index)
    have hindex : regionAt { g with index := 1 } (Generation.index { g with index := 1 }) = 1 := hnode
    simp only [hindex] at hchange
    exact hchange
  · refine ⟨hb.config, hb.tree, hb.functions, hb.regions, ?_, hb.exits, hb.resets⟩
    rw [← hb.stack]
    rfl

theorem Blank.processes_declare {v : Variable} (hb : R.Blank config t rs [1, 0] g) (i : Nat) :
    ∃ g', Processes i g [.declare (some (.var v))] g' ∧
      R.Blank config t (rs.update 1 (·.declare v)) [1, 0] g' := by
  have hcurrent : g.current = 1 := (List.cons.inj hb.stack).1
  refine ⟨_, .single (p := declare) rfl (.change _), ?_⟩
  refine ⟨hb.config, hb.tree, hb.functions, ?_, hb.stack, hb.exits, hb.resets⟩
  rw [← hb.regions, ← hcurrent]

theorem Blank.processes_declarations (vs : List Variable) (hb : R.Blank config t rs [1, 0] g) (i : Nat) :
    ∃ g', Processes i g (vs.map fun v => .declare (some (.var v))) g' ∧
      R.Blank config t (rs.update 1 (declareAll vs)) [1, 0] g' := by
  induction vs generalizing rs g i with
  | nil =>
      refine ⟨g, .nil, ?_⟩
      rwa [← foldl_declare]
  | cons v vs ih =>
      obtain ⟨g₁, hfirst, hb₁⟩ := hb.processes_declare i
      obtain ⟨g₂, hrest, hb₂⟩ := ih hb₁ (i + 1)
      refine ⟨g₂, hfirst.append hrest, ?_⟩
      rw [← foldl_declare] at hb₂ ⊢
      exact hb₂

theorem Blank.stands (h : ScopeTree.ofStream R.code = .ok t)
    (hb : R.Blank config t (R.regions config.ns t) [1, 0] g) :
    Stands (R.plan hholders config h) .function 1 (2 + R.declarations.length) g R.body.stream := by
  have hempty := at?_regions_empty h config.ns
  refine ⟨trivial, ?_, ?_, ⟨hb.stack, hb.config, hb.tree, ?_, ?_, ?_⟩, ?_⟩
  · simp [Frame.stack]
  · refine ⟨.function R.function :: .scopeBegin R.name .function :: R.declarations,
      [.scopeEnd R.name .function], ?_, ?_, ?_⟩
    · simp [plan, code, region]
    · simp only [List.length_cons]
      omega
    · exact R.after_declarations ⟨[1, 0], 1⟩
  · rw [hb.regions]
    rfl
  · intro flag x hx
    rw [hb.exits] at hx
    exact absurd hx (by simp)
  · intro n flag hflag
    rw [flagsAt, hb.regions, (hempty n).2] at hflag
    exact absurd hflag (by simp)
  · intro m _
    rw [commandsAt, hb.regions, hb.resets]
    exact ⟨(hempty m).1, by simp⟩

/-- The state behind the end of the function. -/
def close (i : Nat) (g : Generation) : Generation := { g with index := i, current := 0, stack := [] }

/-- The commands of the function, with those of the regions inside, are laid out for the body. -/
theorem exists_processed (h : ScopeTree.ofStream R.code = .ok t) (config : Config) (classes : Hierarchy)
    (diagnostics : Bag) (newId : Nat → String) :
    ∃ g₀ g, start config ⟨classes, R.code⟩ diagnostics newId = .ok g₀ ∧
      g₀.bodyOf? R.function = some 1 ∧ process processors g₀ = (g, none) ∧ g.config = config ∧
      g.regions.sketch = (R.plan hholders config h).base ∧
      (R.plan hholders config h).target.Laid
        (fun x => g.commandsAt ((R.plan hholders config h).place x)) .function (g.fresh + 1) R.body
        (g.commandsAt 1) := by
  obtain ⟨g₀, hstart, hcode, hb₀⟩ := exists_start h config classes diagnostics newId
  obtain ⟨hfunction, hb₁⟩ := hb₀.processes_function 0
  obtain ⟨g₂, hbegin, hb₂⟩ := hb₁.processes_begin h
  obtain ⟨g₃, hdeclarations, hb₃⟩ := hb₂.processes_declarations R.vars 2
  have hstands := hb₃.stands hholders h
  obtain ⟨g₄, cs, hbody⟩ := generates R.body _ _ _ _ hstands (by simp) R.fits
  have hready := hbody.advances.ready
  have hstack : g₄.stack = [0] := (List.cons.inj hready.stack).2
  have hend : Processes (2 + R.declarations.length + R.body.stream.length) g₄
      [.scopeEnd R.name .function] (close _ g₄) := .single (p := scopeEnd) rfl (.pop hstack)
  have hcommands : g₄.commandsAt 1 = cs := by
    have hinitial : g₃.commandsAt 1 = [] := by
      rw [commandsAt, hb₃.regions]
      exact (at?_regions_empty h config.ns 1).1
    have hreset : ¬(1 ∈ g₄.resets ∧ 1 ∉ g₃.resets) := by
      rintro ⟨hmem, hnew⟩
      rcases hbody.advances.grown.added 1 hmem with hold | hlt | hcheck
      · exact hnew hold
      · omega
      · simp [Frame.check?] at hcheck
    rw [hbody.advances.grown.commands 1 (Nat.le_refl 1), if_neg hreset, hinitial]
    rfl
  have hlaid := hbody.laid (fun x => g₄.commandsAt ((R.plan hholders config h).place x)) false
    (fun _ _ _ => rfl) (by simp [Frame.check?])
  rw [← hcommands] at hlaid
  refine ⟨g₀, close (2 + R.declarations.length + R.body.stream.length) g₄, hstart, hb₀.bodyOf?,
    Processes.process ?_, hready.config, hready.regions, hlaid⟩
  have hparts : R.code = [.function R.function] ++ ([.scopeBegin R.name .function]
      ++ (R.declarations ++ (R.body.stream ++ [.scopeEnd R.name .function]))) := by
    simp [code, region]
  rw [hcode, hparts]
  exact hfunction.append (hbegin.append (hdeclarations.append (hbody.processes.append hend)))

end Routine

/-! ## The end of a generation -/

theorem regions_finish (g : Generation) : (finish g).regions = g.regions ∧ (finish g).config = g.config := by
  obtain ⟨helpers, tags, hfinish⟩ := finish_eq g
  rw [hfinish]
  exact ⟨rfl, rfl⟩

/-! ## Running what is generated -/

/-- The variables of the function with the given body have the values of a store. -/
def HoldsValues (g : Generation) (body : Nat) (vars : List Variable) (S : Scores) (σ : Values) : Prop :=
  ∀ v ∈ vars, S (place g.ns (g.regions.absolutePath body ++ "." ++ v.name) v.type) = some (σ v)

/-- No flag of an exit is raised, of this function or of another. -/
def NoFlagRaised (g : Generation) (S : Scores) : Prop :=
  ∀ (kind : ExitKind) (x : String), S (Layout.flag g (Plan.stem kind ++ x)) ≠ some 1

theorem Regions.Distinct.of_sketch {rs : Regions} (h : rs.sketch.Distinct) : rs.Distinct := by
  have hbare : ∀ n, rs.sketch.at? n = (rs.at? n).bare := rs.at?_sketch
  refine ⟨?_, ?_, ?_⟩
  · have hroot := h.root
    rwa [hbare] at hroot
  · intro n hn hlt
    obtain ⟨hinner, hidentifier, hfirst⟩ := h.named n hn (by rwa [Regions.length_sketch])
    rw [hbare] at hinner hidentifier hfirst
    exact ⟨hinner, hidentifier, hfirst⟩
  · intro n m hn hlt hm hlt' hname
    refine h.injective n m hn (by rwa [Regions.length_sketch]) hm (by rwa [Regions.length_sketch]) ?_
    rw [hbare, hbare]
    exact hname

theorem Plan.callable_place (W : Plan) {g : Generation} (hregions : g.regions.sketch = W.base)
    {x : String} (hx : x ∈ regionNames W.stream) :
    g.regions.callable W.ns (W.target.ref x) = some (g.commandsAt (W.place x)) := by
  have hdistinct : g.regions.Distinct := .of_sketch (hregions ▸ W.distinct)
  have hlength : g.regions.length = W.base.length := by rw [← hregions, Regions.length_sketch]
  have hne : W.place x ≠ 0 := by simp [place]
  have hlt : W.place x < g.regions.length := by
    have hidx := List.idxOf_lt_length_of_mem hx
    have hnodes := congrArg List.length (ScopeTree.ofStream_sig W.tree_eq)
    have hnames := congrArg List.length (map_fst_outline Position.start W.stream)
    simp only [List.length_map, List.length_cons] at hnodes hnames
    rw [hlength, W.length_eq, place]
    omega
  have href : W.target.ref x = g.regions.functionRef W.ns (W.place x) := by
    show W.base.functionRef W.ns (W.place x) = _
    rw [← hregions, Regions.functionRef_sketch]
  rw [href]
  exact Regions.callable_functionRef hdistinct W.ns hne hlt

/-- What is laid out for the body of a planned function does what the body does. -/
theorem Plan.exec_laid (W : Plan) {g : Generation} {a : Stmt} {hi : Nat} {σ τ : Values}
    {o : Option Escape} {S : Scores} (hconfig : g.config = W.config)
    (hregions : g.regions.sketch = W.base) (hfits : a.fits W.vars [] = true)
    (hnames : ∀ x ∈ a.names, x ∈ regionNames W.stream)
    (hlaid : W.target.Laid (fun x => g.commandsAt (W.place x)) .function hi a (g.commandsAt 1))
    (heval : Eval a σ o τ) (hholds : HoldsValues g 1 W.vars S σ) (hquiet : NoFlagRaised g S) :
    ∃ T, Exec (g.regions.callable g.ns) (g.commandsAt 1) S T ∧ HoldsValues g 1 W.vars T τ ∧
      NoFlagRaised g T := by
  have hns : g.ns = W.ns := congrArg Config.ns hconfig
  have hslot : ∀ v ∈ W.vars, Generation.place g.ns (g.regions.absolutePath 1 ++ "." ++ v.name) v.type
      = W.target.slot v := by
    intro v hv
    show _ = W.slot v
    rw [hns, ← Regions.absolutePath_sketch, hregions, Generation.place, W.integral v hv]
    rfl
  have hcalls : ∀ x ∈ a.names, g.regions.callable g.ns (W.target.ref x)
      = some (g.commandsAt (W.place x)) := by
    intro x hx
    rw [hns]
    exact W.callable_place hregions (hnames x hx)
  have hexits : ∀ e ∈ a.exits, e = .ret := by
    intro e he
    rcases Stmt.exits_of_fits hfits e he with hret | ⟨l, hl, -⟩
    · exact hret
    · exact absurd hl List.not_mem_nil
  have hstart : W.target.Holds S σ := by
    intro v hv
    rw [← hslot v hv]
    exact hholds v hv
  have hinitial : W.target.Quiet S := by
    rintro s ⟨kind, x, rfl⟩
    rw [← hns]
    exact hquiet kind x
  obtain ⟨T, hexec, hT, hquietT⟩ := Target.exec_body heval hexits hlaid hcalls hstart hinitial
  refine ⟨T, hexec, ?_, ?_⟩
  · intro v hv
    rw [hslot v hv]
    exact hT v hv
  · intro kind x
    refine hquietT _ ⟨kind, x, ?_⟩
    rw [← hns]
    rfl

/-- A routine whose variables have distinct score holders is generated without a failure, and whenever its
body ends, running the commands of the function ends with the values of the body in the variables and with
no flag raised. -/
theorem exec_lowered_routine (R : Routine) (hholders : (R.vars.map fun v => holder v.name).Nodup)
    (config : Config) (classes : Hierarchy) (diagnostics : Bag) (newId : Nat → String) :
    ∃ g₀ g body, start config ⟨classes, R.code⟩ diagnostics newId = .ok g₀ ∧ lower g₀ = (g, none) ∧
      g₀.bodyOf? R.function = some body ∧
      ∀ (σ τ : Values) (o : Option Escape) (S : Scores), Eval R.body σ o τ →
        HoldsValues g body R.vars S σ → NoFlagRaised g S →
        ∃ T, Exec (g.regions.callable g.ns) (g.commandsAt body) S T ∧
          HoldsValues g body R.vars T τ ∧ NoFlagRaised g T := by
  obtain ⟨t, h⟩ := (ScopeTree.ofStream_isOk_iff R.code).mpr R.closes_code
  obtain ⟨g₀, g, hstart, hbody, hprocess, hconfig, hregions, hlaid⟩ :=
    R.exists_processed hholders h config classes diagnostics newId
  obtain ⟨hregions', hconfig'⟩ := regions_finish g
  have hcommands : (finish g).commandsAt = g.commandsAt := by
    funext n
    rw [commandsAt, commandsAt, hregions']
  have hnames : ∀ x ∈ R.body.names, x ∈ regionNames (R.plan hholders config h).stream := by
    intro x hx
    show x ∈ regionNames R.code
    rw [R.regionNames_code]
    exact List.mem_cons_of_mem _ hx
  refine ⟨g₀, finish g, 1, hstart, ?_, hbody, ?_⟩
  · unfold lower
    rw [hprocess]
  · intro σ τ o S heval hholds hquiet
    rw [← hcommands] at hlaid
    exact (R.plan hholders config h).exec_laid (hconfig'.trans hconfig) (by rw [hregions', hregions]) R.fits
      hnames hlaid heval hholds hquiet

private def counter (id : String) : Variable := { id, name := id, type := .data .int }

/-- A function that counts down from two in a loop and returns out of the loop at zero. -/
def countdown : Routine where
  function := { id := "f", name := "f", params := [], returnType := .data .null, kind := .function }
  name := "f"
  vars := [counter "n", counter "t"]
  body :=
    .seq (.data (.assign (counter "n") (.lit 2)))
      (.loop "l" "k" "b" [.compare (counter "t") .ge (.var (counter "n")) (.lit 0)] (counter "t")
        (.seq (.data (.sub (counter "n") (.var (counter "n")) (.lit 1)))
          (.branch (counter "n") "" .skip "c" .ret)))
  fits := by decide +kernel
  identifiers := by decide +kernel
  nodup := by decide +kernel
  integral := by decide
  common := by decide

/-- From scores that are all zero, the counter ends at zero and no flag is left raised. -/
theorem exec_lowered_countdown :
    (countdown.vars.map fun v => holder v.name).Nodup ∧
    (∃ τ, Eval countdown.body (fun _ => 0) (some .ret) τ ∧ τ (counter "n") = 0) ∧
      ∃ g body T, Exec (Regions.callable g.regions g.ns) (commandsAt g body) (fun _ => some 0) T ∧
        T (place g.ns (g.regions.absolutePath body ++ "." ++ "n") (.data .int)) = some 0 ∧
        NoFlagRaised g T := by
  have heval : ∃ τ, Eval countdown.body (fun _ => 0) (some .ret) τ ∧ τ (counter "n") = 0 := by
    refine ⟨_, .seq .data (.again ?_ (.seq .data (.yes ?_ .skip)) (.inl rfl)
      (.exit ?_ (.seq .data (.no ?_ .ret)) nofun nofun)), ?_⟩
    all_goals decide +kernel
  obtain ⟨τ, hrun, hzero⟩ := heval
  have hholders : (countdown.vars.map fun v => holder v.name).Nodup := by decide +kernel
  obtain ⟨g₀, g, body, -, -, -, hexec⟩ := exec_lowered_routine countdown hholders {} [] [] toString
  obtain ⟨T, hT, hholds, hquiet⟩ := hexec _ τ _ (fun _ => some 0) hrun (fun _ _ => rfl)
    (fun _ _ => by simp)
  refine ⟨hholders, ⟨τ, hrun, hzero⟩, g, body, T, hT, ?_, hquiet⟩
  have hn := hholds (counter "n") (by decide)
  rw [hzero] at hn
  exact hn

/-- A function with two variables whose names differ only in signs that holders do not tell apart. -/
def namesakes : Routine where
  function := { id := "f", name := "f", params := [], returnType := .data .null, kind := .function }
  name := "f"
  vars := [counter "x$", counter "x-"]
  body := .seq (.data (.assign (counter "x$") (.lit 1))) (.data (.assign (counter "x-") (.lit 2)))
  fits := by decide +kernel
  identifiers := by decide +kernel
  nodup := by decide +kernel
  integral := by decide
  common := by decide

/-- The two variables share a score. The body leaves one in the first, and the commands leave two. -/
theorem exec_lowered_namesakes :
    ∃ τ, Eval namesakes.body (fun _ => 0) none τ ∧ τ (counter "x$") = 1 ∧
      ∃ g₀ g, start {} ⟨[], namesakes.code⟩ [] toString = .ok g₀ ∧ lower g₀ = (g, none) ∧
        g₀.bodyOf? namesakes.function = some 1 ∧ HoldsValues g 1 namesakes.vars (fun _ => some 0) (fun _ => 0) ∧
        NoFlagRaised g (fun _ => some 0) ∧
        ∃ T, Exec (g.regions.callable g.ns) (g.commandsAt 1) (fun _ => some 0) T ∧
          T (place g.ns (g.regions.absolutePath 1 ++ "." ++ "x$") (.data .int)) = some 2 ∧
          ∀ U, Exec (g.regions.callable g.ns) (g.commandsAt 1) (fun _ => some 0) U →
            ¬ HoldsValues g 1 namesakes.vars U τ := by
  obtain ⟨τ, heval, hone⟩ : ∃ τ, Eval namesakes.body (fun _ => 0) none τ ∧ τ (counter "x$") = 1 := by
    refine ⟨_, .seq .data .data, ?_⟩
    decide +kernel
  obtain ⟨g₀, g, hstart, hlower, hbody, hcommands, hslot⟩ :
      ∃ g₀ g, start {} ⟨[], namesakes.code⟩ [] toString = .ok g₀ ∧ lower g₀ = (g, none) ∧
        g₀.bodyOf? namesakes.function = some 1 ∧
        g.commandsAt 1 = [.setScore (.score "mcfc.f.x-" "mcfc") 1, .setScore (.score "mcfc.f.x-" "mcfc") 2] ∧
        place g.ns (g.regions.absolutePath 1 ++ "." ++ "x$") (.data .int) = .score "mcfc.f.x-" "mcfc" := by
    refine ⟨_, _, rfl, Prod.ext rfl (Option.isNone_iff_eq_none.1 ?_), ?_, ?_, ?_⟩
    all_goals decide +kernel
  let slot : Slot := .score "mcfc.f.x-" "mcfc"
  let T : Scores := Scores.set (Scores.set (fun _ => some 0) slot 1) slot 2
  have hexec : Exec (g.regions.callable g.ns) (g.commandsAt 1) (fun _ => some 0) T := by
    rw [hcommands]
    exact .plain rfl (.plain rfl .nil)
  have htwo : T (place g.ns (g.regions.absolutePath 1 ++ "." ++ "x$") (.data .int)) = some 2 := by
    rw [hslot]
    exact Scores.set_self _ slot 2
  refine ⟨τ, heval, hone, g₀, g, hstart, hlower, hbody, fun _ _ => rfl, fun _ _ => by simp, T, hexec,
    htwo, ?_⟩
  intro U hU hholds
  obtain rfl := hU.deterministic hexec
  have hvalue := htwo.symm.trans (hholds (counter "x$") (by decide))
  rw [hone] at hvalue
  exact absurd hvalue (by decide)

end Datapack.Generation
