import Datapack.Proofs.Generation.ControlFlow

/-!
# Functions with structured bodies

A program of one function that declares its variables and then runs a structured body.  The generator
takes it without a failure, and the commands of the function do what the body does: whenever the body
ends, so does the function, the variables have the values of the body and no flag is left raised.
-/

namespace Datapack.Generation

open Ir Ir.Structured Command

/-! ## The shape of statements -/

theorem regionNames_region (x : String) (kind : ScopeKind) (s : Stream) :
    regionNames (region x kind s) = x :: regionNames s := by
  rw [region, regionNames_cons_begin rfl, regionNames_append,
    regionNames_cons_other (by simp [Instruction.scopeEnd]), regionNames_nil, List.append_nil]
  rfl

theorem regionNames_datas (ds : List Data) : regionNames (ds.map Data.ins) = [] := by
  induction ds with
  | nil => rfl
  | cons d ds ih =>
      rw [List.map_cons, regionNames_cons_other, ih]
      cases d <;> exact nofun

theorem regionNames_side (x : String) (s : Stream) :
    regionNames (side x s) = if x = "" then [] else x :: regionNames s := by
  unfold side
  split
  · rfl
  · exact regionNames_region x _ s

theorem regionNames_stream (a : Stmt) : regionNames a.stream = a.names := by
  induction a with
  | skip | leave l | next l | ret => rfl
  | data d => exact regionNames_datas [d]
  | seq a b iha ihb => rw [Stmt.stream, regionNames_append, iha, ihb, Stmt.names]
  | branch c t a u b iha ihb =>
      rw [Stmt.stream, regionNames_append, regionNames_append, regionNames_side, regionNames_side, iha,
        ihb, Stmt.names]
      exact List.append_nil _
  | loop l k b test c a ih =>
      simp only [Stmt.stream, regionNames_append, regionNames_region, regionNames_datas, ih, Stmt.names]
      simp [regionNames, Instruction.jump, Instruction.condJump]

theorem closes_region {s : Stream} (h : ∀ names rest, closes names (s ++ rest) = closes names rest)
    (x : String) (kind : ScopeKind) (names : List String) (rest : Stream) :
    closes names (region x kind s ++ rest) = closes names rest := by
  rw [region, List.cons_append, closes_begin rfl, List.append_assoc, h, List.singleton_append,
    closes_end rfl]
  have hname : (Instruction.scopeBegin x kind).scopeName = (Instruction.scopeEnd x kind).scopeName := rfl
  rw [decide_eq_true hname, Bool.true_and]

theorem closes_datas (ds : List Data) (names : List String) (rest : Stream) :
    closes names (ds.map Data.ins ++ rest) = closes names rest := by
  induction ds with
  | nil => rfl
  | cons d ds ih =>
      rw [List.map_cons, List.cons_append, closes_other, ih]
      · cases d <;> exact nofun
      · cases d <;> exact nofun

theorem closes_side {s : Stream} (h : ∀ names rest, closes names (s ++ rest) = closes names rest)
    (x : String) (names : List String) (rest : Stream) :
    closes names (side x s ++ rest) = closes names rest := by
  unfold side
  split
  · rfl
  · exact closes_region h x _ names rest

theorem closes_stream (a : Stmt) (names : List String) (rest : Stream) :
    closes names (a.stream ++ rest) = closes names rest := by
  induction a generalizing names rest with
  | skip | leave l | next l | ret => rfl
  | data d => exact closes_datas [d] names rest
  | seq a b iha ihb => rw [Stmt.stream, List.append_assoc, iha, ihb]
  | branch c t a u b iha ihb =>
      rw [Stmt.stream, List.append_assoc, List.append_assoc, closes_side iha, closes_side ihb]
      exact closes_other (by simp [Instruction.condJump]) (by simp [Instruction.condJump]) names rest
  | loop l k b test c a ih =>
      have hjump : ∀ (x : String) (names : List String) (rest : Stream),
          closes names ([.jump x] ++ rest) = closes names rest :=
        fun x names rest => closes_other (by simp [Instruction.jump]) (by simp [Instruction.jump]) names rest
      have hbody : ∀ names rest, closes names ((a.stream ++ [.jump k]) ++ rest) = closes names rest := by
        intro names rest
        rw [List.append_assoc, ih, hjump]
      have hcheck : ∀ names rest, closes names ((test.map Data.ins
          ++ region b .loopBody (a.stream ++ [.jump k]) ++ [.condJump (some (.var c)) b ""]) ++ rest)
          = closes names rest := by
        intro names rest
        rw [List.append_assoc, List.append_assoc, closes_datas, closes_region hbody]
        exact closes_other (by simp [Instruction.condJump]) (by simp [Instruction.condJump]) names rest
      rw [Stmt.stream, List.append_assoc, closes_region, hjump]
      intro names rest
      rw [List.append_assoc, closes_region hcheck, hjump]

theorem op_ne_function_region {s : Stream} (h : ∀ ins ∈ s, ins.op ≠ .function) (x : String)
    (kind : ScopeKind) : ∀ ins ∈ region x kind s, ins.op ≠ .function := by
  simp only [region, List.forall_mem_cons, List.forall_mem_append]
  refine ⟨?_, h, ?_⟩
  · simp [Instruction.scopeBegin]
  · simp [Instruction.scopeEnd]

theorem op_ne_function_side {s : Stream} (h : ∀ ins ∈ s, ins.op ≠ .function) (x : String) :
    ∀ ins ∈ side x s, ins.op ≠ .function := by
  unfold side
  split
  · exact nofun
  · exact op_ne_function_region h x _

theorem op_ne_function_datas (ds : List Data) : ∀ ins ∈ ds.map Data.ins, ins.op ≠ .function := by
  simp only [List.forall_mem_map]
  intro d _
  cases d <;> exact nofun

theorem op_ne_function (a : Stmt) : ∀ ins ∈ a.stream, ins.op ≠ .function := by
  induction a with
  | skip => exact nofun
  | data d => exact op_ne_function_datas [d]
  | leave l | next l | ret =>
      simp [Stmt.stream, Instruction.breakLoop, Instruction.continueLoop, Instruction.ret]
  | seq a b iha ihb =>
      simp only [Stmt.stream, List.forall_mem_append]
      exact ⟨iha, ihb⟩
  | branch c t a u b iha ihb =>
      simp only [Stmt.stream, List.forall_mem_append]
      refine ⟨⟨op_ne_function_side iha t, op_ne_function_side ihb u⟩, ?_⟩
      simp [Instruction.condJump]
  | loop l k b test c a ih =>
      have hjump : ∀ x : String, ∀ ins ∈ [Instruction.jump x], ins.op ≠ .function := by
        simp [Instruction.jump]
      simp only [Stmt.stream, List.forall_mem_append]
      refine ⟨op_ne_function_region ?_ l _, hjump l⟩
      simp only [List.forall_mem_append]
      refine ⟨op_ne_function_region ?_ k _, hjump k⟩
      simp only [List.forall_mem_append]
      refine ⟨⟨op_ne_function_datas test, op_ne_function_region ?_ b _⟩, ?_⟩
      · simp only [List.forall_mem_append]
        exact ⟨ih, hjump k⟩
      · simp [Instruction.condJump]

theorem bodiesFrom_eq_nil {p : Ir.Position} {s : Stream} (h : ∀ ins ∈ s, ins.op ≠ .function) :
    bodiesFrom p s = [] := by
  induction s generalizing p with
  | nil => rfl
  | cons ins s ih =>
      have hrest := @ih (p.advance ins) fun x hx => h x (by simp [hx])
      cases s with
      | nil => rfl
      | cons b rest => simp [bodiesFrom, h ins (by simp), hrest]

/-! ## Routines -/

/-- A function that declares its variables and runs a structured body whose regions have distinct names. -/
structure Routine where
  function : Function
  name : String
  vars : List Variable
  body : Stmt
  fits : body.fits vars [] = true
  identifiers : ∀ x ∈ name :: body.names, isIdentifier x = true
  nodup : (name :: body.names).Nodup
  integral : ∀ v ∈ vars, v.type = .data .int ∨ v.type = .data .boolean
  common : ∀ v ∈ vars, v.kind ≠ .ret

namespace Routine

variable (R : Routine)

def declarations : Stream := R.vars.map fun v => .declare (some (.var v))

/-- The program of a routine. -/
def code : Stream :=
  .function R.function :: region R.name .function (R.declarations ++ R.body.stream)

theorem declarations_plain : ∀ ins ∈ R.declarations,
    ins.op ≠ .scopeBegin ∧ ins.op ≠ .scopeEnd ∧ ins.op ≠ .function := by
  simp [declarations, Instruction.declare]

theorem regionNames_code : regionNames R.code = R.name :: R.body.names := by
  have hdeclarations : regionNames R.declarations = [] := by
    simp [regionNames, declarations, Instruction.declare]
  rw [code, regionNames_cons_other (by simp [Instruction.function]), regionNames_region,
    regionNames_append, hdeclarations, List.nil_append, regionNames_stream]

theorem closes_declarations (names : List String) (rest : Stream) :
    closes names (R.declarations ++ rest) = closes names rest := by
  unfold declarations
  induction R.vars with
  | nil => rfl
  | cons v vs ih =>
      rw [List.map_cons, List.cons_append, closes_other, ih]
      · simp [Instruction.declare]
      · simp [Instruction.declare]

theorem closes_code : closes [] R.code = true := by
  have hinner : ∀ names rest, closes names ((R.declarations ++ R.body.stream) ++ rest)
      = closes names rest := by
    intro names rest
    rw [List.append_assoc, closes_declarations, closes_stream]
  have hregion := closes_region hinner R.name .function [] []
  rw [List.append_nil] at hregion
  rw [code, closes_other (by simp [Instruction.function]) (by simp [Instruction.function]), hregion]
  rfl

theorem after_declarations (p : Ir.Position) : p.after R.declarations = p := by
  unfold declarations
  induction R.vars with
  | nil => rfl
  | cons v vs ih => exact ih

theorem functionScopes_code {t : ScopeTree} (h : ScopeTree.ofStream R.code = .ok t) :
    functionScopes R.code t = [(1, some R.function)] := by
  have hbody : ∀ ins ∈ region R.name .function (R.declarations ++ R.body.stream), ins.op ≠ .function := by
    refine op_ne_function_region ?_ _ _
    simp only [List.forall_mem_append]
    exact ⟨fun ins hins => (R.declarations_plain ins hins).2.2, op_ne_function R.body⟩
  rw [functionScopes_eq h, code]
  have hhead : bodiesFrom Position.start
      (.function R.function :: region R.name .function (R.declarations ++ R.body.stream))
      = [(1, some R.function)] ++ bodiesFrom Position.start
        (region R.name .function (R.declarations ++ R.body.stream)) := rfl
  rw [hhead, bodiesFrom_eq_nil hbody, List.append_nil]

end Routine

/-! ## Declarations -/

def declareAll (vs : List Variable) (r : Region) : Region := vs.foldl Region.declare r

theorem declareAll_eq (vs : List Variable) (r : Region) :
    declareAll vs r = { r with symbols := (declareAll vs r).symbols } := by
  induction vs generalizing r with
  | nil => rfl
  | cons v vs ih => exact ih (r.declare v)

theorem isSome_lookup_declare {r : Region} {v : Variable} {x : String}
    (h : x = v.name ∨ (r.symbols.lookup x).isSome = true) :
    ((r.declare v).symbols.lookup x).isSome = true := by
  rw [Region.declare, List.lookup_isSome_iff]
  by_cases hx : x = v.name
  · exact ⟨(v.name, v), by simp, by simp [hx]⟩
  · obtain ⟨q, hq, hqx⟩ := List.lookup_isSome_iff.mp (h.resolve_left hx)
    have hname : x = q.1 := by simpa using hqx
    refine ⟨q, ?_, hqx⟩
    simp only [List.mem_append, List.mem_filter, decide_eq_true_eq]
    exact .inl ⟨hq, fun h => hx (hname.trans h)⟩

theorem isSome_lookup_declareAll {vs : List Variable} {r : Region} {x : String}
    (h : (∃ v ∈ vs, x = v.name) ∨ (r.symbols.lookup x).isSome = true) :
    ((declareAll vs r).symbols.lookup x).isSome = true := by
  induction vs generalizing r with
  | nil => simpa [declareAll] using h
  | cons v vs ih =>
      refine @ih (r.declare v) ?_
      rcases h with ⟨w, hw, rfl⟩ | h
      · rcases List.mem_cons.mp hw with rfl | hw
        · exact .inr (isSome_lookup_declare (.inl rfl))
        · exact .inl ⟨w, hw, rfl⟩
      · exact .inr (isSome_lookup_declare (.inr h))

theorem foldl_declare (vs : List Variable) (rs : Regions) (n : Nat) :
    vs.foldl (fun rs v => rs.update n (·.declare v)) rs = rs.update n (declareAll vs) := by
  induction vs generalizing rs with
  | nil => exact (List.modify_id n rs).symm
  | cons v vs ih =>
      rw [List.foldl_cons, ih, Regions.update, Regions.update, List.modify_modify_eq]
      rfl

namespace Routine

variable (R : Routine)

/-- The regions of a routine once its variables are declared. -/
def regions (ns : String) (t : ScopeTree) : Regions :=
  ((regionsOf ns t).update 1 (declareAll (R.function.params.map (·.var)))).update 1 (declareAll R.vars)

variable {R} {t : ScopeTree} (h : ScopeTree.ofStream R.code = .ok t)

include h

theorem node_one : (t.node 1).sig = (R.name, .function, [0]) :=
  @ScopeTree.sig_node_begin _ _ h [.function R.function] _ _ rfl rfl

theorem length_nodes : t.nodes.length = R.body.names.length + 2 := by
  have hafter : Position.start.after R.code = ⟨[0], R.body.names.length + 1⟩ := by
    have hinner : Position.after ⟨[1, 0], 1⟩ (R.declarations ++ R.body.stream)
        = ⟨[1, 0], R.body.names.length + 1⟩ := by
      rw [Position.after_append, R.after_declarations, after_stream, Nat.add_comm]
    exact after_region (p := Position.start) hinner
  rw [ScopeTree.length_nodes h, hafter]

theorem name_mem {n : Nat} (hn : n ≠ 0) (hlt : n < t.nodes.length) :
    (t.node n).name ∈ regionNames R.code :=
  List.mem_of_getElem? (ScopeTree.regionNames_getElem? h hn hlt)

theorem regionsOf_code (ns : String) :
    (regionsOf ns t).length = t.nodes.length ∧
      (regionsOf ns t).at? 0 = { name := ns, kind := .global } ∧
      ∀ n, n ≠ 0 → n < t.nodes.length → (regionsOf ns t).at? n = regionOf (t.node n) := by
  refine at?_regionsOf h ?_ ?_ ns
  · rw [R.regionNames_code]
    exact R.nodup
  · intro n hn hlt
    have hmem := name_mem h hn hlt
    rw [R.regionNames_code] at hmem
    exact isIdentifier_ne_empty (R.identifiers _ hmem)

/-- The regions before anything is generated for them. -/
theorem at?_regions (ns : String) :
    (R.regions ns t).length = t.nodes.length ∧
      (R.regions ns t).at? 0 = { name := ns, kind := .global } ∧
      (∀ n, n ≠ 0 → n ≠ 1 → n < t.nodes.length → (R.regions ns t).at? n = regionOf (t.node n)) ∧
      ∃ symbols, (R.regions ns t).at? 1 = { regionOf (t.node 1) with symbols } ∧
        ∀ v ∈ R.vars, (symbols.lookup v.name).isSome = true := by
  obtain ⟨hlength, hroot, hnode⟩ := regionsOf_code h ns
  have hnodes := length_nodes h
  have hne : ∀ n, n ≠ 1 → (R.regions ns t).at? n = (regionsOf ns t).at? n := by
    intro n hn
    rw [regions, Regions.at?_update_ne _ hn, Regions.at?_update_ne _ hn]
  refine ⟨?_, ?_, ?_, ?_⟩
  · rw [regions, Regions.length_update, Regions.length_update, hlength]
  · rw [hne 0 (by omega), hroot]
  · intro n hn hn' hlt
    rw [hne n hn', hnode n hn hlt]
  · have hone : (R.regions ns t).at? 1
        = declareAll (R.function.params.map (·.var) ++ R.vars) (regionOf (t.node 1)) := by
      rw [regions, Regions.at?_update_self, Regions.at?_update_self, hnode 1 (by omega) (by omega),
        declareAll, declareAll, declareAll, List.foldl_append]
      · omega
      · rw [Regions.length_update]
        omega
    refine ⟨_, hone.trans (declareAll_eq _ _), ?_⟩
    intro v hv
    exact isSome_lookup_declareAll (.inl ⟨v, List.mem_append_right _ hv, rfl⟩)

theorem at?_regions_empty (ns : String) (n : Nat) :
    ((R.regions ns t).at? n).commands = [] ∧ ((R.regions ns t).at? n).flags = [] := by
  obtain ⟨hlength, hroot, hnode, symbols, hone, -⟩ := at?_regions h ns
  by_cases hlt : n < t.nodes.length
  · by_cases hn : n = 0
    · rw [hn, hroot]
      exact ⟨rfl, rfl⟩
    · by_cases hn' : n = 1
      · rw [hn', hone]
        exact ⟨rfl, rfl⟩
      · rw [hnode n hn hn' hlt]
        exact ⟨rfl, rfl⟩
  · rw [Regions.at?, List.getElem?_eq_none (by omega)]
    exact ⟨rfl, rfl⟩

omit h

theorem space_vars (R : Routine) : ∀ v ∈ R.vars, Space.ofType v.type = .score := by
  intro v hv
  rcases R.integral v hv with hv | hv
  · rw [hv]
    rfl
  · rw [hv]
    rfl

theorem code_nodup (R : Routine) : (regionNames R.code).Nodup := by
  rw [R.regionNames_code]
  exact R.nodup

theorem code_identifiers (R : Routine) : ∀ x ∈ regionNames R.code, isIdentifier x = true := by
  rw [R.regionNames_code]
  exact R.identifiers

section Sketch

variable (config : Config)

/-- The regions of a routine without what is generated for them. -/
def base (R : Routine) (config : Config) (t : ScopeTree) : Regions := (R.regions config.ns t).sketch

include h

theorem length_base : (R.base config t).length = t.nodes.length := by
  rw [base, Regions.length_sketch]
  exact (at?_regions h config.ns).1

theorem base_root : ((R.base config t).at? 0).outer = [] := by
  rw [base, Regions.at?_sketch, (at?_regions h config.ns).2.1]
  rfl

theorem base_node : ∀ n, n ≠ 0 → n < (R.base config t).length →
    ((R.base config t).at? n).name = (t.node n).name ∧
      ((R.base config t).at? n).kind = (t.node n).kind ∧
      ((R.base config t).at? n).outer = (t.node n).outer ∧
      ((R.base config t).at? n).occurrence = 0 := by
  obtain ⟨hlength, -, hnode, symbols, hone, -⟩ := at?_regions h config.ns
  intro n hn hlt
  rw [base, Regions.length_sketch] at hlt
  rw [base, Regions.at?_sketch]
  by_cases hn' : n = 1
  · rw [hn', hone]
    exact ⟨rfl, rfl, rfl, rfl⟩
  · rw [hnode n hn hn' (by omega)]
    exact ⟨rfl, rfl, rfl, rfl⟩

theorem base_symbols : ∀ n, n ≠ 1 → ((R.base config t).at? n).symbols = [] := by
  obtain ⟨hlength, hroot, hnode, -⟩ := at?_regions h config.ns
  intro n hn
  rw [base, Regions.at?_sketch]
  by_cases hlt : n < t.nodes.length
  · by_cases hn' : n = 0
    · rw [hn', hroot]
      rfl
    · rw [hnode n hn' hn hlt]
      rfl
  · rw [Regions.at?, List.getElem?_eq_none (by omega)]
    rfl

theorem base_declared : ∀ v ∈ R.vars, (((R.base config t).at? 1).symbols.lookup v.name).isSome = true := by
  obtain ⟨-, -, -, symbols, hone, hdeclared⟩ := at?_regions h config.ns
  intro v hv
  rw [base, Regions.at?_sketch, hone]
  exact hdeclared v hv

theorem base_functionKind : ((R.base config t).at? 1).kind = .function := by
  obtain ⟨-, -, -, symbols, hone, -⟩ := at?_regions h config.ns
  rw [base, Regions.at?_sketch, hone]
  exact congrArg (·.2.1) (node_one h)

theorem base_functionOuter : ((R.base config t).at? 1).outer = [0] := by
  obtain ⟨-, -, -, symbols, hone, -⟩ := at?_regions h config.ns
  rw [base, Regions.at?_sketch, hone]
  exact congrArg (·.2.2) (node_one h)

theorem one_lt_length_base : 1 < (R.base config t).length := by
  rw [length_base h, length_nodes h]
  omega

end Sketch

/-- The plan of a routine whose variables have distinct score holders. -/
def plan (R : Routine) (hholders : (R.vars.map fun v => holder v.name).Nodup) (config : Config)
    {t : ScopeTree} (h : ScopeTree.ofStream R.code = .ok t) : Plan where
  config := config
  vars := R.vars
  stream := R.code
  tree := t
  base := R.base config t
  integral := R.space_vars
  common := R.common
  holders := hholders
  tree_eq := h
  nodup := R.code_nodup
  identifiers := R.code_identifiers
  length_eq := length_base h config
  root := base_root h config
  node := base_node h config
  symbols := base_symbols h config
  declared := base_declared h config
  functionKind := base_functionKind h config
  functionOuter := base_functionOuter h config
  functionLt := one_lt_length_base h config

end Routine

end Datapack.Generation
