import Datapack.Optimize.Run
import Datapack.Proofs.Optimize.Edits

/-!
# What a run of passes does

The invocations a run makes are listed with the state each of them meets.  A run is atomic per pass: the
stream, the executed passes, their features and their findings are at every moment those of the
successful invocations so far, in their order, and a failing invocation leaves a diagnostic only.
-/

namespace Datapack.Optimize

open Ir

variable {σ : Type}

namespace RunState

variable (st : RunState σ) (mode : RunMode) (line : TraceLine)

@[simp] theorem tell_code : (st.tell mode line).code = st.code := by
  unfold tell
  split <;> rfl

@[simp] theorem tell_dirty : (st.tell mode line).dirty = st.dirty := by
  unfold tell
  split <;> rfl

@[simp] theorem tell_diagnostics : (st.tell mode line).diagnostics = st.diagnostics := by
  unfold tell
  split <;> rfl

section Step

variable {st mode} {p : Pass σ} {world : σ} {code : Stream}

theorem step_skip (hmode : mode.cancelled = false) (hready : p.shouldRun st.context = false) :
    step mode st p = .ok (st.checked.tell mode (.skipped p.name)) := by
  simp [step, hmode, hready]

theorem step_ok {c : Context} {changed : Bool} (hmode : mode.cancelled = false)
    (hready : p.shouldRun st.context = true)
    (hinvoke : p.invoke st.world st.code st.context = (world, code, .ok (c, changed))) :
    step mode st p = .ok (tell
      { st.checked with
        world, code
        context := c.withExecuted p.name p.info.provides
        ran := st.ran ++ [p.name]
        dirty := st.dirty || changed } mode (.ran p.info.title changed)) := by
  simp [step, checked, hmode, hready, hinvoke]

theorem step_error {failure : Failure} (hmode : mode.cancelled = false) (hdebug : mode.debug = false)
    (hready : p.shouldRun st.context = true)
    (hinvoke : p.invoke st.world st.code st.context = (world, code, .error failure)) :
    step mode st p = .ok
      { st.checked with
        world
        ran := st.ran ++ [p.name]
        diagnostics := st.diagnostics ++ [Diagnostic.passFailed p.name failure.message] } := by
  simp [step, checked, hmode, hdebug, hready, hinvoke]

end Step

/-- The state at the start of iteration `i`. -/
def renewed (i : Nat) : RunState σ := { st with context := st.context.withIteration i, dirty := false }

/-- One iteration: every pass gets a turn. -/
def sweep (s : Schedule σ) (i : Nat) : Except (RunError × RunState σ) (RunState σ) :=
  (s.passes.foldlM (step mode) ((st.renewed i).tell mode (.iteration i s.maxIterations))).map
    fun st => st.tell mode (.context (mode.dump st.context))

theorem iterate_succ (s : Schedule σ) (left i : Nat) {after : RunState σ}
    (h : st.sweep mode s i = .ok after) :
    st.iterate mode s (left + 1) i =
      if after.dirty then after.iterate mode s left (i + 1) else .ok after := by
  rw [iterate]
  unfold sweep renewed at h
  cases hfold : s.passes.foldlM (step mode)
      (tell { st with context := st.context.withIteration i, dirty := false } mode
        (.iteration i s.maxIterations)) with
  | error e =>
      rw [hfold] at h
      exact absurd h (by simp [Except.map])
  | ok st' =>
      rw [hfold] at h
      obtain rfl : st'.tell mode (.context (mode.dump st'.context)) = after := Except.ok.inj h
      simp only [bind, Except.bind, pure, Except.pure]

end RunState

/-! ## Invocations -/

/-- An invocation of a pass with the state it meets. -/
structure Invocation (σ : Type) where
  pass : Pass σ
  world : σ
  code : Stream
  context : Context

namespace Invocation

variable (v : Invocation σ)

def result : Except Failure (Context × Bool) := (v.pass.invoke v.world v.code v.context).2.2

def failure? : Option Failure :=
  match v.result with
  | .error failure => some failure
  | .ok _ => none

def succeeds : Bool := v.failure?.isNone

def reportsChange : Bool :=
  match v.result with
  | .ok (_, changed) => changed
  | .error _ => false

/-- What the invocation makes of a stream. -/
def applied (s : Stream) : Stream := (v.pass.invoke v.world s v.context).2.1

def findings : List (String × Finding) :=
  match v.pass.analyze with
  | none => []
  | some f => (f v.world v.code v.context).2.toOption.getD []

def record (c : Context) : Context :=
  (c.withAnalysis v.findings).withExecuted v.pass.name v.pass.info.provides

variable {v}

theorem succeeds_of_reportsChange (h : v.reportsChange = true) : v.succeeds = true := by
  rw [reportsChange] at h
  rw [succeeds, failure?]
  cases hresult : v.result with
  | ok r => rfl
  | error failure =>
      rw [hresult] at h
      exact Bool.noConfusion h

theorem context_of_ok {c : Context} {changed : Bool} (h : v.result = .ok (c, changed)) :
    c = v.context.withAnalysis v.findings := by
  rw [result, Pass.invoke] at h
  rw [findings]
  cases hanalyze : v.pass.analyze with
  | none =>
      simp only [hanalyze] at h
      cases hexecute : (v.pass.execute v.world v.code v.context).2.2 with
      | error failure =>
          rw [hexecute] at h
          exact absurd h (by simp [Except.map])
      | ok b =>
          rw [hexecute] at h
          exact (Prod.mk.inj (Except.ok.inj h)).1.symm
  | some f =>
      simp only [hanalyze] at h
      cases hfound : f v.world v.code v.context with
      | mk w r =>
          cases r with
          | error failure =>
              rw [hfound] at h
              exact absurd h (by simp)
          | ok found =>
              rw [hfound] at h
              simp only [hfound, Except.toOption, Option.getD_some] at h ⊢
              cases hexecute : (v.pass.execute w v.code (v.context.withAnalysis found)).2.2 with
              | error failure =>
                  rw [hexecute] at h
                  exact absurd h (by simp [Except.map])
              | ok b =>
                  rw [hexecute] at h
                  exact (Prod.mk.inj (Except.ok.inj h)).1.symm

end Invocation

def successes (log : List (Invocation σ)) : List (Invocation σ) := log.filter Invocation.succeeds

/-- A stream behind the successful invocations of a log, applied in order. -/
def codeAfter (code : Stream) (log : List (Invocation σ)) : Stream :=
  (successes log).foldl (fun s v => v.applied s) code

/-- A context behind the successful invocations of a log. -/
def contextAfter (c : Context) (log : List (Invocation σ)) : Context :=
  (successes log).foldl (fun c v => v.record c) c

def failureReports (log : List (Invocation σ)) : Bag :=
  log.filterMap fun v => v.failure?.map fun f => Diagnostic.passFailed v.pass.name f.message

/-- The run condition of a pass, read off the invocations so far. -/
structure Admitted (i : PassInfo) (earlier : List (Invocation σ)) : Prop where
  requires : ∀ f ∈ i.requires, ∃ u ∈ successes earlier, f ∈ u.pass.info.provides
  incompatible : ∀ n ∈ i.incompatibleWith, ∀ u ∈ successes earlier, u.pass.name ≠ n
  repeatable : i.repeatable = false → ∀ u ∈ successes earlier, u.pass.name ≠ i.name

namespace RunState

/-- The invocation a pass gets at its turn, if any. -/
def turn (st : RunState σ) (p : Pass σ) : List (Invocation σ) :=
  if p.shouldRun st.context then [⟨p, st.world, st.code, st.context⟩] else []

def turns : RunState σ → List (Pass σ) → List (Invocation σ)
  | _, [] => []
  | st, p :: ps =>
    st.turn p ++
      match step {} st p with
      | .ok st => turns st ps
      | .error _ => []

/-- The invocations of the iterations from `i` on, `left` of them at most. -/
def invocations (s : Schedule σ) : Nat → Nat → RunState σ → List (Invocation σ)
  | 0, _, _ => []
  | left + 1, i, st =>
    (st.renewed i).turns s.passes ++
      match sweep st {} s i with
      | .ok st => if st.dirty then invocations s left (i + 1) st else []
      | .error _ => []

end RunState

/-- The context a run starts with. -/
def Schedule.context (s : Schedule σ) : Context := { maxIterations := s.maxIterations }

def Schedule.invocations (s : Schedule σ) (w : σ) (code : Stream) : List (Invocation σ) :=
  RunState.invocations s s.maxIterations 1 { world := w, code, context := s.context }

/-! ## The context of the successes -/

namespace Context

variable (c : Context) (i : Int) (found : List (String × Finding))

@[simp] theorem withAnalysis_executed : (c.withAnalysis found).executed = c.executed := by
  induction found generalizing c with
  | nil => rfl
  | cons x found ih => exact ih (c.withFinding x)

@[simp] theorem withAnalysis_features : (c.withAnalysis found).features = c.features := by
  induction found generalizing c with
  | nil => rfl
  | cons x found ih => exact ih (c.withFinding x)

@[simp] theorem withAnalysis_iteration : (c.withAnalysis found).iteration = c.iteration := by
  induction found generalizing c with
  | nil => rfl
  | cons x found ih => exact ih (c.withFinding x)

theorem withAnalysis_withIteration :
    (c.withIteration i).withAnalysis found = (c.withAnalysis found).withIteration i := by
  induction found generalizing c with
  | nil => rfl
  | cons x found ih => exact ih (c.withFinding x)

end Context

theorem Invocation.record_withIteration (v : Invocation σ) (c : Context) (i : Int) :
    v.record (c.withIteration i) = (v.record c).withIteration i := by
  rw [record, Context.withAnalysis_withIteration]
  rfl

section Append

variable (log : List (Invocation σ)) {v : Invocation σ}

theorem successes_append (log' : List (Invocation σ)) :
    successes (log ++ log') = successes log ++ successes log' := List.filter_append log log'

theorem successes_of_succeeds (h : v.succeeds = true) : successes [v] = [v] := by
  simp [successes, h]

theorem successes_of_fails (h : v.succeeds = false) : successes [v] = [] := by
  simp [successes, h]

theorem executed_contextAfter (c : Context) :
    (contextAfter c log).executed = c.executed ++ (successes log).map (·.pass.name) := by
  unfold contextAfter
  induction successes log generalizing c with
  | nil => simp
  | cons v vs ih =>
      rw [List.foldl_cons, ih]
      simp [Invocation.record, Context.withExecuted]

theorem mem_features_contextAfter (c : Context) (f : String) :
    f ∈ (contextAfter c log).features ↔
      f ∈ c.features ∨ ∃ u ∈ successes log, f ∈ u.pass.info.provides := by
  unfold contextAfter
  induction successes log generalizing c with
  | nil => simp
  | cons v vs ih =>
      rw [List.foldl_cons, ih]
      simp only [Invocation.record, Context.withExecuted, Context.withAnalysis_features,
        List.mem_append, List.mem_filter, List.mem_eraseDups, List.mem_cons, decide_eq_true_eq]
      by_cases hf : f ∈ c.features
      · simp [hf]
      · simp [hf]

/-- The general run condition on the successes of a log. -/
theorem admitted_of_isReady {c : Context} (hexecuted : c.executed = []) (hfeatures : c.features = [])
    {k : Int} {i : PassInfo} (h : Pass.isReady i ((contextAfter c log).withIteration k) = true) :
    Admitted i log := by
  have hran : ∀ n, ((contextAfter c log).withIteration k).hasExecuted n = true ↔
      ∃ u ∈ successes log, u.pass.name = n := by
    intro n
    have hlist := executed_contextAfter log c
    rw [Context.hasExecuted, List.contains_iff_mem, Context.withIteration, hlist, hexecuted]
    simp
  have hprovided : ∀ f, ((contextAfter c log).withIteration k).hasFeature f = true ↔
      ∃ u ∈ successes log, f ∈ u.pass.info.provides := by
    intro f
    have hmem := mem_features_contextAfter log c f
    rw [Context.hasFeature, List.contains_iff_mem, Context.withIteration, hmem, hfeatures]
    simp
  rw [Pass.isReady, Bool.and_eq_true, Bool.and_eq_true, List.all_eq_true, Bool.not_eq_true',
    List.any_eq_false, Bool.or_eq_true, Bool.not_eq_true', Bool.eq_false_iff] at h
  obtain ⟨⟨hrequires, hincompatible⟩, hrepeat⟩ := h
  refine ⟨fun f hf => (hprovided f).1 (hrequires f hf), ?_, ?_⟩
  · intro n hn u hu hname
    exact hincompatible n hn ((hran n).2 ⟨u, hu, hname⟩)
  · intro honce u hu hname
    rw [honce] at hrepeat
    exact (hrepeat.resolve_left Bool.false_ne_true) ((hran i.name).2 ⟨u, hu, hname⟩)

end Append

/-! ## From a turn to a run -/

/-- A state and the invocations that led to it, from a stream and a context. -/
structure Tracks (input : Stream) (c : Context) (log : List (Invocation σ)) (st : RunState σ) :
    Prop where
  code : st.code = codeAfter input log
  context : st.context = (contextAfter c log).withIteration st.context.iteration
  ran : st.ran = log.map (·.pass.name)
  diagnostics : st.diagnostics = failureReports log
  earlier : ∀ pre v post, log = pre ++ v :: post →
    v.code = codeAfter input pre ∧
      v.context = (contextAfter c pre).withIteration v.context.iteration ∧ Admitted v.pass.info pre

/-- What holds of every member of a list and the part before it holds of a list with one more. -/
theorem forall_split_concat {α : Type} {P : List α → α → Prop} {l : List α} {a : α}
    (h : ∀ pre x post, l = pre ++ x :: post → P pre x) (ha : P l a) :
    ∀ pre x post, l ++ [a] = pre ++ x :: post → P pre x := by
  intro pre x post heq
  rcases List.eq_nil_or_concat post with rfl | ⟨rest, last, rfl⟩
  · obtain ⟨rfl, hlast⟩ := List.append_inj' heq rfl
    obtain rfl : a = x := by simpa using hlast
    exact ha
  · rw [List.concat_eq_append, ← List.cons_append, ← List.append_assoc] at heq
    obtain ⟨hfront, -⟩ := List.append_inj' heq rfl
    exact h pre x rest hfront

namespace Tracks

variable {input : Stream} {c : Context} {log : List (Invocation σ)} {st st' : RunState σ}

theorem renewed (h : Tracks input c log st) (i : Nat) : Tracks input c log (st.renewed i) where
  code := h.code
  context := by
    have hcontext := h.context
    simp only [RunState.renewed]
    rw [hcontext]
    rfl
  ran := h.ran
  diagnostics := h.diagnostics
  earlier := h.earlier

theorem checked (h : Tracks input c log st) : Tracks input c log st.checked :=
  ⟨h.code, h.context, h.ran, h.diagnostics, h.earlier⟩

theorem success (h : Tracks input c log st) {v : Invocation σ} (hcode : v.code = st.code)
    (hcontext : v.context = st.context) (hadmitted : Admitted v.pass.info log)
    (hv : v.succeeds = true) (hcode' : st'.code = v.applied st.code)
    (hcontext' : st'.context = v.record st.context) (hran : st'.ran = st.ran ++ [v.pass.name])
    (hdiagnostics : st'.diagnostics = st.diagnostics) : Tracks input c (log ++ [v]) st' where
  code := by
    rw [hcode', codeAfter, successes_append, successes_of_succeeds hv, List.foldl_append,
      ← codeAfter, ← h.code]
    rfl
  context := by
    have hrecord : contextAfter c (log ++ [v]) = v.record (contextAfter c log) := by
      rw [contextAfter, successes_append, successes_of_succeeds hv, List.foldl_append]
      rfl
    have hiteration : (v.record st.context).iteration = st.context.iteration :=
      Context.withAnalysis_iteration _ _
    rw [hcontext', hrecord, hiteration, ← Invocation.record_withIteration]
    exact congrArg v.record h.context
  ran := by
    rw [hran, h.ran, List.map_append]
    rfl
  diagnostics := by
    rw [Invocation.succeeds, Option.isNone_iff_eq_none] at hv
    rw [hdiagnostics, h.diagnostics, failureReports, failureReports, List.filterMap_append]
    simp [hv]
  earlier := by
    refine forall_split_concat h.earlier ⟨?_, ?_, hadmitted⟩
    · rw [hcode, h.code]
    · rw [hcontext]
      exact h.context

theorem failure (h : Tracks input c log st) {v : Invocation σ} (hcode : v.code = st.code)
    (hcontext : v.context = st.context) (hadmitted : Admitted v.pass.info log)
    {f : Failure} (hv : v.failure? = some f) (hcode' : st'.code = st.code)
    (hcontext' : st'.context = st.context) (hran : st'.ran = st.ran ++ [v.pass.name])
    (hdiagnostics : st'.diagnostics =
      st.diagnostics ++ [Diagnostic.passFailed v.pass.name f.message]) :
    Tracks input c (log ++ [v]) st' := by
  have hfails : v.succeeds = false := by rw [Invocation.succeeds, hv]; rfl
  have hsame : successes (log ++ [v]) = successes log := by
    rw [successes_append, successes_of_fails hfails, List.append_nil]
  refine ⟨?_, ?_, ?_, ?_, ?_⟩
  · rw [hcode', h.code, codeAfter, codeAfter, hsame]
  · rw [hcontext', contextAfter, hsame]
    exact h.context
  · rw [hran, h.ran, List.map_append]
    rfl
  · rw [hdiagnostics, h.diagnostics, failureReports, failureReports, List.filterMap_append]
    simp [hv]
  · refine forall_split_concat h.earlier ⟨?_, ?_, hadmitted⟩
    · rw [hcode, h.code]
    · rw [hcontext]
      exact h.context

/-- What one turn adds. -/
theorem step (h : Tracks input c log st) {p : Pass σ} (hgate : p.gate = none)
    (hexecuted : c.executed = []) (hfeatures : c.features = []) :
    ∃ st', RunState.step {} st p = .ok st' ∧ Tracks input c (log ++ st.turn p) st' ∧
      st'.context.iteration = st.context.iteration ∧
      st'.dirty = (st.dirty || (st.turn p).any Invocation.reportsChange) := by
  have hshould : p.shouldRun st.context = Pass.isReady p.info st.context := by
    rw [Pass.shouldRun, hgate]
  cases hready : p.shouldRun st.context with
  | false =>
      refine ⟨st.checked, RunState.step_skip rfl hready, ?_, rfl, ?_⟩
      · have hturn : st.turn p = [] := by simp [RunState.turn, hready]
        rw [hturn, List.append_nil]
        exact h.checked
      · simp [RunState.turn, hready, RunState.checked]
  | true =>
      let v : Invocation σ := ⟨p, st.world, st.code, st.context⟩
      have hturn : st.turn p = [v] := by simp [RunState.turn, hready, v]
      have hadmitted : Admitted p.info log := by
        rw [hshould, h.context] at hready
        exact admitted_of_isReady log hexecuted hfeatures hready
      rw [hturn]
      cases hinvoke : p.invoke st.world st.code st.context with
      | mk world rest =>
          obtain ⟨code, result⟩ := rest
          have hresult : v.result = result := congrArg (·.2.2) hinvoke
          have happlied : v.applied st.code = code := congrArg (·.2.1) hinvoke
          cases result with
          | ok r =>
              obtain ⟨c', changed⟩ := r
              have hsucceeds : v.succeeds = true := by
                simp [Invocation.succeeds, Invocation.failure?, hresult]
              have hrecord : c'.withExecuted p.name p.info.provides = v.record st.context := by
                rw [Invocation.context_of_ok hresult]
                rfl
              refine ⟨_, RunState.step_ok rfl hready hinvoke, ?_, ?_, ?_⟩
              · exact h.success rfl rfl hadmitted hsucceeds happlied.symm hrecord rfl rfl
              · rw [hrecord]
                exact Context.withAnalysis_iteration _ _
              · simp [Invocation.reportsChange, hresult, RunState.tell]
          | error failure =>
              have hfails : v.failure? = some failure := by simp [Invocation.failure?, hresult]
              refine ⟨_, RunState.step_error rfl rfl hready hinvoke, ?_, rfl, ?_⟩
              · exact h.failure rfl rfl hadmitted hfails rfl rfl rfl rfl
              · simp [Invocation.reportsChange, hresult, RunState.checked]

theorem turns (h : Tracks input c log st) {ps : List (Pass σ)} (hgates : ∀ p ∈ ps, p.gate = none)
    (hexecuted : c.executed = []) (hfeatures : c.features = []) :
    ∃ st', ps.foldlM (RunState.step {}) st = .ok st' ∧ Tracks input c (log ++ st.turns ps) st' ∧
      st'.context.iteration = st.context.iteration ∧
      st'.dirty = (st.dirty || (st.turns ps).any Invocation.reportsChange) ∧
      ∀ v ∈ st.turns ps, v.context.iteration = st.context.iteration := by
  induction ps generalizing log st with
  | nil => exact ⟨st, rfl, by simpa [RunState.turns] using h, rfl, by simp [RunState.turns],
      by simp [RunState.turns]⟩
  | cons p ps ih =>
      obtain ⟨st₁, hstep, h₁, hiteration₁, hdirty₁⟩ :=
        h.step (hgates p List.mem_cons_self) hexecuted hfeatures
      obtain ⟨st₂, hfold, h₂, hiteration₂, hdirty₂, hall⟩ :=
        ih h₁ fun q hq => hgates q (List.mem_cons_of_mem p hq)
      have hturns : st.turns (p :: ps) = st.turn p ++ st₁.turns ps := by
        rw [RunState.turns, hstep]
      refine ⟨st₂, ?_, ?_, hiteration₂.trans hiteration₁, ?_, ?_⟩
      · rw [List.foldlM_cons, hstep]
        exact hfold
      · rwa [hturns, ← List.append_assoc]
      · rw [hdirty₂, hdirty₁, hturns, List.any_append, Bool.or_assoc]
      · intro v hv
        rw [hturns, List.mem_append] at hv
        rcases hv with hv | hv
        · unfold RunState.turn at hv
          split at hv
          · rw [List.mem_singleton] at hv
            rw [hv]
          · exact absurd hv List.not_mem_nil
        · rw [hall v hv, hiteration₁]

/-- What the iterations from `i` on add, and which of them take place: the context holds the number of
the last one. -/
theorem iterate (h : Tracks input c log st) {s : Schedule σ} (hgates : ∀ p ∈ s.passes, p.gate = none)
    (hexecuted : c.executed = []) (hfeatures : c.features = []) (left i : Nat)
    (hi : st.context.iteration < i) :
    ∃ st', st.iterate {} s left i = .ok st' ∧
      Tracks input c (log ++ RunState.invocations s left i st) st' ∧
      (st.context.iteration ≤ st'.context.iteration ∧ (left ≠ 0 → i ≤ st'.context.iteration) ∧
        st'.context.iteration < i + left) ∧
      (∀ v ∈ RunState.invocations s left i st, i ≤ v.context.iteration) ∧
      ∀ k : Nat, i ≤ k → ((k : Int) + 1 ≤ st'.context.iteration ↔ k + 1 < i + left ∧
        ∃ v ∈ RunState.invocations s left i st, v.context.iteration = k ∧ v.reportsChange = true) := by
  induction left generalizing log st i with
  | zero =>
      refine ⟨st, rfl, by simpa [RunState.invocations] using h, ⟨by omega, by omega, by omega⟩,
        by simp [RunState.invocations], fun k hk => ?_⟩
      constructor
      · intro hle
        omega
      · intro hlt
        omega
  | succ left ih =>
      obtain ⟨after, hfold, hafter, hiteration, hdirty, hall⟩ :=
        (h.renewed i).turns hgates hexecuted hfeatures
      have hsweep : st.sweep {} s i = .ok after := by
        have htold : ∀ (u : RunState σ) line, u.tell {} line = u := fun _ _ => rfl
        rw [RunState.sweep, htold, hfold]
        rfl
      replace hiteration : after.context.iteration = i := hiteration
      replace hall : ∀ v ∈ (st.renewed i).turns s.passes, v.context.iteration = i := hall
      replace hdirty : after.dirty = ((st.renewed i).turns s.passes).any Invocation.reportsChange :=
        hdirty
      rw [RunState.iterate_succ _ _ _ _ _ hsweep, RunState.invocations, hsweep]
      simp only
      cases hd : after.dirty with
      | false =>
          rw [hdirty, List.any_eq_false] at hd
          simp only [Bool.false_eq_true, if_false, List.append_nil]
          refine ⟨after, rfl, hafter, ⟨by omega, by omega, by omega⟩,
            fun v hv => Int.le_of_eq (hall v hv).symm, fun k hk => ?_⟩
          constructor
          · intro hle
            omega
          · rintro ⟨-, v, hv, -, hchange⟩
            exact absurd hchange (hd v hv)
      | true =>
          rw [hdirty, List.any_eq_true] at hd
          obtain ⟨u, hu, hchange⟩ := hd
          obtain ⟨st', hrest, htracks, ⟨hmono, hlast, hbound⟩, hlater, hiff⟩ :=
            ih hafter (i + 1) (by omega)
          simp only [if_true]
          refine ⟨st', hrest, by rwa [← List.append_assoc], ⟨by omega, by omega, by omega⟩, ?_, ?_⟩
          · intro v hv
            rcases List.mem_append.1 hv with hv | hv
            · exact Int.le_of_eq (hall v hv).symm
            · have := hlater v hv
              omega
          · intro k hk
            by_cases hki : k = i
            · subst hki
              constructor
              · intro hle
                exact ⟨by omega, u, List.mem_append_left _ hu, hall u hu, hchange⟩
              · rintro ⟨hlt, -⟩
                have := hlast (by omega)
                omega
            · rw [hiff k (by omega)]
              constructor
              · rintro ⟨hlt, v, hv, hk⟩
                exact ⟨by omega, v, List.mem_append_right _ hv, hk⟩
              · rintro ⟨hlt, v, hv, hvk, hvchange⟩
                refine ⟨by omega, v, (List.mem_append.1 hv).resolve_left fun hturn => ?_, hvk, hvchange⟩
                have := hall v hturn
                omega

end Tracks

/-- A run is atomic per pass. -/
theorem Schedule.run_applies_successes (s : Schedule σ) (w : σ) (input : Stream)
    (hgates : ∀ p ∈ s.passes, p.gate = none) (hcap : 1 ≤ s.maxIterations)
    (hinput : input.balanced = true) :
    ∃ st, s.run {} w input = (st, none) ∧
      let log := s.invocations w input
      (st.code = codeAfter input log ∧
        st.context = (contextAfter s.context log).withIteration st.context.iteration ∧
        st.context.executed = (successes log).map (·.pass.name)) ∧
      (∀ pre v post, log = pre ++ v :: post →
        v.code = codeAfter input pre ∧
          v.context = (contextAfter s.context pre).withIteration v.context.iteration ∧
          Admitted v.pass.info pre) ∧
      (∀ k : Nat, 1 ≤ k → (k + 1 ≤ st.context.iteration ↔ k < s.maxIterations ∧
        ∃ v ∈ log, v.context.iteration = k ∧ v.succeeds = true ∧ v.reportsChange = true)) ∧
      st.diagnostics = failureReports log ++
        (s.names.filter (· ∉ log.map (·.pass.name))).map Diagnostic.passSkipped := by
  let start : RunState σ := { world := w, code := input, context := s.context }
  obtain ⟨t, ht⟩ := ScopeTree.ofStream_isOk_iff input |>.2 ((balanced_iff input).1 hinput)
  have hstart : Tracks input s.context ([] : List (Invocation σ)) start :=
    ⟨rfl, rfl, rfl, rfl, by simp⟩
  by_cases hempty : s.passes = []
  · have hlog : s.invocations w input = [] := by
      obtain ⟨m, hm⟩ := Nat.exists_eq_add_of_le' hcap
      rw [Schedule.invocations, hm, RunState.invocations, RunState.sweep, hempty]
      rfl
    refine ⟨start, ?_, ?_⟩
    · simp [run, hempty, start, Schedule.context]
    · rw [hlog]
      refine ⟨⟨rfl, rfl, rfl⟩, by simp, fun k hk => ?_, ?_⟩
      · simp [start, Schedule.context]
      · simp [start, Schedule.names, hempty, failureReports]
  · obtain ⟨st, hiterate, htracks, -, -, hiff⟩ :=
      hstart.iterate hgates rfl rfl s.maxIterations 1 Int.one_pos
    rw [List.nil_append] at htracks
    refine ⟨st.reportSkipped s, ?_, ⟨htracks.code, htracks.context, ?_⟩, htracks.earlier, ?_, ?_⟩
    · have hcap' : s.maxIterations ≠ 0 := by omega
      have hiterate' : RunState.iterate {} s s.maxIterations 1
          { world := w, code := input, context := { maxIterations := s.maxIterations } } = .ok st :=
        hiterate
      simp [run, hempty, hcap', ht, hiterate']
    · have hexecuted := congrArg Context.executed htracks.context
      exact hexecuted.trans (executed_contextAfter _ s.context)
    · intro k hk
      have hk' := hiff k hk
      rw [Nat.add_comm 1 s.maxIterations, Nat.add_lt_add_iff_right] at hk'
      refine hk'.trans (and_congr_right fun _ => exists_congr fun v => and_congr_right fun _ => ?_)
      refine and_congr_right fun _ => ⟨fun hchange => ?_, And.right⟩
      exact ⟨Invocation.succeeds_of_reportsChange hchange, hchange⟩
    · rw [RunState.reportSkipped, htracks.ran, htracks.diagnostics]
      rfl

/-- A pass that takes instructions away one by one, one that fails half-way and one that waits for a
feature nobody provides. -/
def trimming : Schedule Unit where
  passes :=
    [{ info := { name := "trim", level := ⟨1⟩, phase := .transform, provides := ["trimmed"] }
       execute := fun w s _ => (w, s.tail, .ok !s.isEmpty) },
     { info := { name := "spoil", level := ⟨1⟩, phase := .transform, requires := ["trimmed"] }
       execute := fun w _ _ => (w, [Instruction.jump ""], .error (.failed "spoilt")) },
     { info := { name := "wait", level := ⟨1⟩, phase := .cleanup, requires := ["never"] }
       execute := fun w s _ => (w, s, .ok true) }]
  maxIterations := 5

theorem run_trimming :
    ∃ st, trimming.run {} () [Instruction.jump "a", Instruction.jump "b"] = (st, none) ∧
      st.code = [] ∧ st.context.executed = ["trim", "trim", "trim"] ∧
      st.diagnostics = List.replicate 3 (Diagnostic.passFailed "spoil" "spoilt") ++
        [Diagnostic.passSkipped "wait"] := by
  obtain ⟨st, hrun, ⟨hcode, -, hexecuted⟩, -, -, hdiagnostics⟩ :=
    trimming.run_applies_successes () [Instruction.jump "a", Instruction.jump "b"]
      (by simp [trimming]) (by decide) (by decide)
  exact ⟨st, hrun, hcode, hexecuted, hdiagnostics⟩

end Datapack.Optimize
