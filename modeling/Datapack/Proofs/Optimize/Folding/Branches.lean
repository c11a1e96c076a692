import Datapack.Proofs.Optimize.Folding.Groups

/-!
# Folding keeps the meaning of conditional code

Over streams of data instructions and conditional groups the folded stream takes every store to the
store that the original takes it to.
-/

namespace Datapack.Optimize.Folding

open Ir

/-! ## Streams of groups -/

theorem Met.declare {st : State} {r : Option Reference} {v : Variable} (h : Met (st.declare r) v) :
    Met st v ∨ varOf r = some v := by
  unfold Met at h
  rw [hit_declare] at h
  by_cases hv : varOf r = some v
  · exact .inr hv
  · rw [if_neg hv] at h
    unfold State.declare at h
    have hnoted := noted_noteConstant st r
    cases hr : varOf r with
    | none =>
        rw [hr] at h
        exact .inl h
    | some w =>
        rw [hr] at h
        simp only [Frame.declare, hnoted.top, hnoted.pending] at h
        exact .inl h

theorem Met.write {st : State} {r : Option Reference} {x : Value} {v : Variable}
    (h : Met (st.write r x) v) : Met st v ∨ varOf r = some v := by
  unfold Met at h
  rw [hit_write] at h
  by_cases hv : varOf r = some v
  · exact .inr hv
  · rw [if_neg hv] at h
    unfold State.write at h
    have hnoted := noted_noteConstant st r
    cases hr : varOf r with
    | none =>
        rw [hr] at h
        exact .inl h
    | some w =>
        rw [hr] at h hv
        have hne : v ≠ w := fun heq => hv (by rw [heq])
        simp only [State.mem_store_written, State.store_pending, State.store_node, hnoted.top,
          hnoted.pending, hne, false_or] at h
        exact .inl h

theorem mem_vars_of_data {ins : Instruction} (h : ins.isData = true) (hop : ins.op ≠ .declare)
    {v : Variable} (hv : varOf (ins.refAt 0) = some v) : v ∈ ins.vars := by
  have hresult : ins.result = ins.refAt 0 := by
    unfold Instruction.isData at h
    unfold Instruction.result
    split at h <;> simp_all
  obtain ⟨r, hr, hvar⟩ := Option.bind_eq_some_iff.1 hv
  unfold Instruction.vars Instruction.refs
  rw [List.mem_filterMap]
  exact ⟨r, by simp [hresult, hr], hvar⟩

theorem simulable_of_branching {prog out : Stream} {e : Surroundings} (hset : Setting prog out e)
    {D V : List Variable} {s : Stream} (h : Branching D V s) : Simulable prog out e D V s := by
  induction h with
  | nil =>
      intro pre post pre' post' st hprog hout hready _ _ _
      refine ⟨.refl hready.opened, fun v hv hD => .inl (hready.visible v hv hD), fun σ hσ => ?_⟩
      exact ⟨σ, .nil, .nil, hσ, fun v => .inl rfl⟩
  | @declare V ins rest hop _ ih =>
      intro pre post pre' post' st hprog hout hready hfree hnodup hfresh
      have hstep : step e st ins = (st.declare (ins.refAt 0), .keep) := by simp only [step, hop]
      have hadvance : (Ir.Position.start.after pre).advance ins = Ir.Position.start.after pre :=
        Position.advance_other _ (by simp [hop]) (by simp [hop])
      have hafter : Ir.Position.start.after (pre ++ [ins]) = Ir.Position.start.after pre := by
        rw [Position.after_append]
        exact hadvance
      rw [declarations_cons_declare hop] at hnodup hfresh
      have hpasses := passes_declare hop hready.opened hadvance e
      have hready' : Ready D ((varOf (ins.refAt 0)).toList ++ V)
          (Ir.Position.start.after (pre ++ [ins])) (step e st ins).1 := by
        rw [Position.after_append]
        refine hready.passed hpasses ?_ ?_
        · rw [closes_other (by simp [hop]) (by simp [hop])]
          rfl
        · intro v hv hD
          rw [hstep] at hv
          rcases hv.declare with hv | hv
          · exact List.mem_append_right _ (hready.visible v hv hD)
          · exact List.mem_append_left _ (by simp [hv])
      refine simulates_declare hop hready.opened ?_
      rw [← hafter]
      rw [code_cons] at hout
      refine ih (pre ++ [ins]) post (pre' ++ (step e st ins).2.emitted ins) post' _ (by simp [hprog])
        (by simp [hout]) hready' ?_ ?_ ?_
      · rw [hpasses.bases, hpasses.node]
        exact hfree
      · exact (List.nodup_append.1 hnodup).2.1
      · intro v hv
        have hv' := hfresh v (List.mem_append_right _ hv)
        refine ⟨hv'.1, fun hmem => ?_⟩
        rcases List.mem_append.1 hmem with hnew | hV
        · exact (List.nodup_append.1 hnodup).2.2 v hnew v hv rfl
        · exact hv'.2 hV
  | @data V ins rest hdata hop hvars _ ih =>
      intro pre post pre' post' st hprog hout hready hfree hnodup hfresh
      have hadvance := Position.advance_other (Ir.Position.start.after pre)
        (isData_ne hdata (.inl rfl)) (isData_ne hdata (.inr (.inl rfl)))
      have hafter : Ir.Position.start.after (pre ++ [ins]) = Ir.Position.start.after pre := by
        rw [Position.after_append]
        exact hadvance
      rw [declarations_cons_other hop] at hnodup hfresh
      have hpasses := passes_data hdata hop hready.opened hadvance e
      have hready' : Ready D V (Ir.Position.start.after (pre ++ [ins])) (step e st ins).1 := by
        rw [Position.after_append]
        refine hready.passed hpasses ?_ ?_
        · rw [closes_other (isData_ne hdata (.inl rfl)) (isData_ne hdata (.inr (.inl rfl)))]
          rfl
        · intro v hv hD
          obtain ⟨st', x, _, hnoted, hstate, _⟩ := step_data e st hdata hop
          rw [hstate] at hv
          rcases hv.write with hv | hv
          · refine hready.visible v ?_ hD
            unfold Met at hv ⊢
            rwa [hnoted.frames, hnoted.top, hnoted.pending] at hv
          · exact hvars v (mem_vars_of_data hdata hop hv) hD
      refine simulates_data hdata hop hready.opened ?_
      rw [← hafter]
      rw [code_cons] at hout
      refine ih (pre ++ [ins]) post (pre' ++ (step e st ins).2.emitted ins) post' _ (by simp [hprog])
        (by simp [hout]) hready' ?_ hnodup hfresh
      rw [hpasses.bases, hpasses.node]
      exact hfree
  | one hregion hbody hop _ hnamed honly _ ihbody ihrest =>
      exact .one hset hregion hbody.closes ihbody hop hnamed honly ihrest
  | two hregion hbody hregion' hbody' hop _ hnamed hnamed' _ ihbody ihbody' ihrest =>
      exact .two hset hregion hbody.closes ihbody hregion' hbody'.closes ihbody' hop hnamed hnamed'
        ihrest

theorem ready_initial (D : List Variable) : Ready D [] Ir.Position.start State.initial where
  opened := rfl
  nodes := rfl
  kinds := by
    intro f hf
    rw [List.mem_singleton.1 hf]
    rfl
  visible := by
    rintro v (hv | hv | ⟨q, hq, _⟩)
    · exact absurd hv (by simp [State.initial, State.frames, State.hit, Env.get?])
    · exact absurd hv (by simp [State.initial])
    · exact absurd hq (by simp [State.initial])
  node_le := Nat.le_refl _
  bases := by simp [State.initial]
  pending := by simp [State.initial]

theorem regionNames_foldFrom (e : Surroundings) (st : State) (s : Stream) :
    regionNames (foldFrom e st s).code = regionNames s := by
  rw [← map_fst_outline Ir.Position.start, ← map_fst_outline Ir.Position.start s,
    ← outline_delimiters, delimiters_foldFrom, outline_delimiters]

/-- Folding keeps the meaning of a stream of conditional groups: from every store the stream and what
it is folded to run to the end, to one and the same store. -/
theorem run_runs_iff {s : Stream} (hshape : Branching (declarations s) [] s)
    (hdeclared : (declarations s).Nodup) (hnames : (regionNames s).Nodup)
    (hnonempty : "" ∉ regionNames s) :
    ∃ out, run s = .ok out ∧ ∀ σ, ∃ τ, (∀ υ, Runs s s σ υ ↔ υ = τ) ∧
      ∀ υ, Runs out.code out.code σ υ ↔ υ = τ := by
  obtain ⟨t, ht⟩ := (ScopeTree.ofStream_isOk_iff s).2 hshape.closes
  refine ⟨foldFrom ⟨t, functionScopes s t⟩ .initial s, by rw [run, withTree, ht]; rfl, fun σ => ?_⟩
  have hset : Setting s (foldFrom ⟨t, functionScopes s t⟩ .initial s).code ⟨t, functionScopes s t⟩ := by
    refine ⟨ht, hnames, hnonempty, ?_⟩
    rw [regionNames_foldFrom]
    exact hnames
  have hsim := simulable_of_branching hset hshape [] [] [] [] .initial (by simp) (by simp) (ready_initial _)
    (by simp [State.initial]) hdeclared (by simp)
  have hσ : Satisfies σ State.initial.frames := by
    intro v l hv
    simp [State.initial, State.frames, State.hit, Env.get?] at hv
  obtain ⟨τ, hrun, hrun', _⟩ := hsim.runs σ hσ
  refine ⟨τ, fun υ => ⟨fun h => h.deterministic hrun, ?_⟩, fun υ => ⟨fun h => h.deterministic hrun', ?_⟩⟩
  · rintro rfl
    exact hrun
  · rintro rfl
    exact hrun'

/-! ## A nested group -/

private def cell (id : String) : Variable := { id, name := id, type := .data .int }

private def load (id : String) : Option Reference := some (.var (cell id))

private def word (n : Int64) : Option Reference := some (.literal (.int n))

/-- An open jump between two branches, one of which declares a variable of its own and holds a decided
jump. -/
def nestedGroups : Stream :=
  [.assign (load "z") (word 1),
    .scopeBegin "a" .conditional,
    .declare (load "x"),
    .assign (load "x") (load "z"),
    .scopeBegin "c" .conditional, .assign (load "y") (load "x"), .scopeEnd "c" .conditional,
    .condJump (load "x") "" "c",
    .scopeEnd "a" .conditional,
    .scopeBegin "b" .conditional, .binaryOp (load "y") .add (load "z") (word 1),
    .scopeEnd "b" .conditional,
    .condJump (load "u") "a" "b",
    .assign (load "w") (load "y")]

theorem branching_nestedGroups : Branching (declarations nestedGroups) [] nestedGroups := by
  have hinner : Branching (declarations nestedGroups) [cell "x"]
      [.scopeBegin "c" .conditional, .assign (load "y") (load "x"), .scopeEnd "c" .conditional,
        .condJump (load "x") "" "c"] := by
    exact @Branching.one _ _ _ _ _ [.assign (load "y") (load "x")] [] ⟨rfl, rfl, rfl, rfl⟩
      (.data rfl (by decide) (by decide) .nil) rfl (by decide) (by decide) (by decide) .nil
  refine .data rfl (by decide) (by decide) ?_
  exact @Branching.two _ _ _ _ _ _ _
    [.declare (load "x"), .assign (load "x") (load "z"),
      .scopeBegin "c" .conditional, .assign (load "y") (load "x"), .scopeEnd "c" .conditional,
      .condJump (load "x") "" "c"] [.binaryOp (load "y") .add (load "z") (word 1)] _
    ⟨rfl, rfl, rfl, rfl⟩ (.declare rfl (.data rfl (by decide) (by decide) hinner))
    ⟨rfl, rfl, rfl, rfl⟩ (.data rfl (by decide) (by decide) .nil) rfl (by decide) (by decide)
    (by decide) (.data rfl (by decide) (by decide) .nil)

theorem run_runs_iff_nestedGroups :
    Branching (declarations nestedGroups) [] nestedGroups ∧ (declarations nestedGroups).Nodup ∧
      (regionNames nestedGroups).Nodup ∧ "" ∉ regionNames nestedGroups ∧
      ∃ out, run nestedGroups = .ok out ∧ ∀ σ, ∃ τ, (∀ υ, Runs nestedGroups nestedGroups σ υ ↔ υ = τ) ∧
        ∀ υ, Runs out.code out.code σ υ ↔ υ = τ := by
  have hdeclared : (declarations nestedGroups).Nodup := by decide
  have hnames : (regionNames nestedGroups).Nodup := by decide
  have hnonempty : "" ∉ regionNames nestedGroups := by decide
  exact ⟨branching_nestedGroups, hdeclared, hnames, hnonempty,
    run_runs_iff branching_nestedGroups hdeclared hnames hnonempty⟩

end Datapack.Optimize.Folding
