import Datapack.Ir.Validity
import Datapack.Proofs.Optimize.Convergence
import Datapack.Proofs.Optimize.Exits
import Datapack.Proofs.Optimize.Folding.Types

/-!
# Validity behind the passes

A tidy program is valid, every built-in pass keeps it tidy, and so it is tidy and valid behind a whole run.
A program that is valid but not tidy need not stay valid: what follows an exit of a region is cut off
without a look at the jumps that lead there.
-/

namespace Datapack.Optimize

open Ir Config

variable {σ : Type}

/-! ## What a run keeps -/

/-- Whatever a pass does, it keeps a property of the stream. -/
def Pass.Keeps (P : Stream → Prop) (p : Pass σ) : Prop :=
  ∀ w s c, P s → P (p.execute w s c).2.1

/-- The state a part of a run ends with, early or not. -/
def RunState.reached : Except (RunError × RunState σ) (RunState σ) → RunState σ
  | .ok st => st
  | .error e => e.2

section Keeps

variable {P : Stream → Prop} {mode : RunMode} {st : RunState σ}

theorem Pass.Keeps.invoke {p : Pass σ} (hp : p.Keeps P) (w : σ) {s : Stream} (c : Context) (hs : P s) :
    P (p.invoke w s c).2.1 := by
  unfold Pass.invoke
  split
  · exact hp w s c hs
  · next f _ =>
      rcases f w s c with ⟨w', found | found⟩
      · exact hs
      · exact hp w' s _ hs

namespace RunState

theorem keeps_step {p : Pass σ} (hp : p.Keeps P) (hst : P st.code) : P (reached (step mode st p)).code := by
  unfold step
  split
  · exact hst
  · split
    · show P (st.checked.tell mode _).code
      rwa [tell_code]
    · have hinvoke := hp.invoke st.world st.context hst
      rcases hresult : p.invoke st.world st.code st.context with ⟨w, code, failure | ⟨c, changed⟩⟩
      · rw [hresult] at hinvoke
        dsimp only
        split
        · exact hinvoke
        · exact hst
      · rw [hresult] at hinvoke
        show P (tell _ mode _).code
        rwa [tell_code]

theorem keeps_turns {ps : List (Pass σ)} (hps : ∀ p ∈ ps, p.Keeps P) (hst : P st.code) :
    P (reached (ps.foldlM (step mode) st)).code := by
  induction ps generalizing st with
  | nil => exact hst
  | cons p ps ih =>
      have hstep : P (reached (step mode st p)).code := keeps_step (hps p List.mem_cons_self) hst
      rw [List.foldlM_cons]
      cases h : step mode st p with
      | error e =>
          rw [h] at hstep
          exact hstep
      | ok st' =>
          rw [h] at hstep
          exact ih (fun q hq => hps q (List.mem_cons_of_mem p hq)) hstep

theorem keeps_iterate {s : Schedule σ} (hs : ∀ p ∈ s.passes, p.Keeps P) (left i : Nat) (hst : P st.code) :
    P (reached (st.iterate mode s left i)).code := by
  induction left generalizing st i with
  | zero => exact hst
  | succ left ih =>
      have hstart : P ((st.renewed i).tell mode (.iteration i s.maxIterations)).code := by
        rw [tell_code]
        exact hst
      have hturns : P (reached (s.passes.foldlM (step mode) _)).code := keeps_turns hs hstart
      unfold renewed at hturns
      rw [iterate]
      dsimp only
      cases h : s.passes.foldlM (step mode) (tell { st with
          context := st.context.withIteration i, dirty := false } mode (.iteration i s.maxIterations)) with
      | error e =>
          rw [h] at hturns
          exact hturns
      | ok st' =>
          rw [h] at hturns
          have hsweep : P (st'.tell mode (.context (mode.dump st'.context))).code := by
            rw [tell_code]
            exact hturns
          show P (reached (if _ then _ else _)).code
          split
          · exact ih (i + 1) hsweep
          · exact hsweep

end RunState

theorem Schedule.run_keeps {s : Schedule σ} (hs : ∀ p ∈ s.passes, p.Keeps P) (mode : RunMode) (w : σ)
    {code : Stream} (hcode : P code) : P (s.run mode w code).1.code := by
  unfold Schedule.run
  dsimp only
  split
  · exact hcode
  · split
    · exact hcode
    · next t _ =>
        let start : RunState σ :=
          { world := w, code, context := { maxIterations := s.maxIterations, debug := mode.debug } }
        have hiterate : P (RunState.reached (start.iterate mode s s.maxIterations 1)).code :=
          RunState.keeps_iterate hs s.maxIterations 1 hcode
        split
        · next st h =>
            rw [h] at hiterate
            exact hiterate
        · next e st h =>
            rw [h] at hiterate
            exact hiterate

end Keeps

/-! ## Tidy programs -/

namespace Builtin

theorem keeps_stateless {P : Stream → Prop} {info : PassInfo} {f : Stream → Except ScopeFault Outcome}
    (h : ∀ s out, P s → f s = .ok out → P out.code) : (stateless info f : Pass σ).Keeps P := by
  intro w s c hs
  cases hf : f s with
  | error fault => simpa only [stateless, hf] using hs
  | ok out => simpa only [stateless, hf] using h s out hs hf

end Builtin

open Builtin in
theorem keeps_tidy_of_mem_builtins {p : Pass σ} (hp : p ∈ (builtins : Registry σ)) (classes : Hierarchy) :
    p.Keeps fun s => ∃ t, Tidy classes s t := by
  have hkeeps : ∀ {info : PassInfo} {f : Stream → Except ScopeFault Outcome},
      (∀ s t, Tidy classes s t → ∃ out t', f s = .ok out ∧ Tidy classes out.code t') →
        (stateless info f : Pass σ).Keeps fun s => ∃ t, Tidy classes s t := by
    intro info f h
    refine keeps_stateless fun s out hs hout => ?_
    obtain ⟨t, ht⟩ := hs
    obtain ⟨out', t', hout', ht'⟩ := h s t ht
    obtain rfl := Except.ok.inj (hout.symm.trans hout')
    exact ⟨t', ht'⟩
  simp only [builtins, List.mem_cons, List.not_mem_nil, or_false] at hp
  rcases hp with rfl | rfl | rfl | rfl | rfl | rfl | rfl | rfl
  · exact fun _ _ _ hs => hs
  · exact hkeeps fun s t h => Folding.tidy_run h
  · exact hkeeps fun s t h => tidy_withTree h (DeadCode.balanced_run h.tree) rfl DeadCode.fits
  · exact hkeeps fun s t h => tidy_withTree h (Declarations.balanced_run h.tree) rfl Declarations.fits
  · refine hkeeps fun s t h => ?_
    obtain ⟨t', ht'⟩ := (Unreachable.fits h).tidy h (Unreachable.balanced_run (balanced_of_tree h.tree))
    exact ⟨_, t', rfl, ht'⟩
  · exact hkeeps fun s t h =>
      tidy_withTree h (UnusedFunctions.balanced_run h.tree) rfl (UnusedFunctions.fits h)
  · exact hkeeps fun s t h =>
      tidy_withTree h (UselessScopes.balanced_run h.tree) rfl (UselessScopes.fits h)
  · refine hkeeps fun s t h => ?_
    cases hempty : EmptyScopes.emptyNodes s t with
    | nil => exact ⟨⟨s, false⟩, t, by rw [EmptyScopes.run, withTree_eq h.tree, hempty], h⟩
    | cons n ns =>
        refine tidy_withTree h (EmptyScopes.balanced_run h.tree) ?_ (EmptyScopes.fits h)
        rw [hempty]

theorem isValid_of_isTidy {p : Program} (h : isTidy p = true) : p.isValid = true := by
  rw [isTidy, Bool.and_eq_true] at h
  exact isValid_of_strict h.1

/-- A tidy program is valid, and it is tidy and valid behind a run of the built-in passes at any level. -/
theorem run_builtins_tidy (level : OptLevel) (mode : RunMode) (hmode : mode.cancelled = false) (w : σ)
    (p : Program) (h : isTidy p = true) :
    p.isValid = true ∧
      ∃ (schedule : Schedule σ) (st : RunState σ), Schedule.build builtins level = .ok schedule ∧
        schedule.run mode w p.code = (st, none) ∧ isTidy { p with code := st.code } = true ∧
        Program.isValid { p with code := st.code } = true := by
  obtain ⟨t, htidy⟩ := (isTidy_iff p).1 h
  obtain ⟨schedule, hbuild⟩ := @exists_build_builtins σ level
  have hbuiltin : ∀ q ∈ schedule.passes, q ∈ (builtins : Registry σ) :=
    fun q hq => Schedule.mem_of_build hbuild hq
  obtain ⟨st, hrun, -, -⟩ :=
    Schedule.run_reliable hmode (fun q hq => reliable_of_mem_builtins (hbuiltin q hq)) w
      (balanced_of_tree htidy.tree)
  have hkept := Schedule.run_keeps (fun q hq => keeps_tidy_of_mem_builtins (hbuiltin q hq) p.classes)
    mode w ⟨t, htidy⟩
  rw [hrun] at hkept
  have htidy' : isTidy { p with code := st.code } = true := (isTidy_iff _).2 hkept
  exact ⟨isValid_of_isTidy h, schedule, st, hbuild, hrun, htidy', isValid_of_isTidy htidy'⟩

/-- A function nobody calls, and a sum that decides whether a region is entered. -/
def decidedSum : Stream :=
  let x : Option Reference := some (.var { id := "x", name := "x", type := .data .int })
  let r : Option Reference := some (.var { id := "r", name := "r", type := .data .int, retain := true })
  [Instruction.function ⟨"f", "f", [], Ty.null, .function, []⟩, Instruction.scopeBegin "f" .function,
    Instruction.ret none, Instruction.scopeEnd "f" .function,
    Instruction.declare x, Instruction.declare r,
    Instruction.binaryOp x .add (some (.literal (.int 1))) (some (.literal (.int 2))),
    Instruction.scopeBegin "a" .conditional, Instruction.assign r x,
    Instruction.scopeEnd "a" .conditional, Instruction.condJump x "a" ""]

theorem run_builtins_tidy_decidedSum :
    isTidy { code := decidedSum } = true ∧ Program.isValid { code := decidedSum } = true ∧
      ∃ (schedule : Schedule Unit) (st : RunState Unit), Schedule.build builtins .o3 = .ok schedule ∧
        schedule.run {} () decidedSum = (st, none) ∧ isTidy { code := st.code } = true ∧
        Program.isValid { code := st.code } = true :=
  ⟨by decide, run_builtins_tidy .o3 {} rfl () { code := decidedSum } (by decide)⟩

/-! ## A region behind an exit -/

/-- The variable the region below writes. -/
def marker : Option Reference :=
  some (.var { id := "r", name := "r", type := .data .int, retain := true })

/-- A loop that enters a region which stands behind an exit of the loop. -/
def exitBeforeRegion : Stream :=
  [Instruction.declare marker, Instruction.scopeBegin "l" .loop, Instruction.jump "a",
    Instruction.breakLoop "l", Instruction.scopeBegin "a" .block,
    Instruction.assign marker (some (.literal (.int 1))), Instruction.scopeEnd "a" .block,
    Instruction.scopeEnd "l" .loop, Instruction.jump "l"]

/-- The same loop without the region. -/
def exitBeforeNothing : Stream :=
  [Instruction.declare marker, Instruction.scopeBegin "l" .loop, Instruction.jump "a",
    Instruction.breakLoop "l", Instruction.scopeEnd "l" .loop, Instruction.jump "l"]

open Builtin in
theorem run_exitBeforeRegion {schedule : Schedule Unit}
    (h : Schedule.build builtins .o1 = .ok schedule) :
    (schedule.run {} () exitBeforeRegion).2 = none ∧
      (schedule.run {} () exitBeforeRegion).1.code = exitBeforeNothing := by
  obtain ⟨t, ht⟩ : ∃ t, ScopeTree.ofStream exitBeforeRegion = .ok t := ⟨_, rfl⟩
  have hfold : Folding.run exitBeforeRegion = .ok ⟨exitBeforeRegion, false⟩ := rfl
  have hlive : DeadCode.live exitBeforeRegion = [{ id := "r", name := "r", type := .data .int, retain := true }] :=
    closure_nil _ _
  have hdead : DeadCode.run exitBeforeRegion = .ok ⟨exitBeforeRegion, false⟩ := by
    rw [DeadCode.run, hlive]
    rfl
  have hdeclared : Declarations.run exitBeforeRegion = .ok ⟨exitBeforeRegion, false⟩ := rfl
  have hcut : Unreachable.run exitBeforeRegion = ⟨exitBeforeNothing, true⟩ := rfl
  have hunused : UnusedFunctions.run exitBeforeNothing = .ok ⟨exitBeforeNothing, false⟩ := rfl
  have hempty : EmptyScopes.run exitBeforeNothing = .ok ⟨exitBeforeNothing, false⟩ := by
    obtain ⟨t', ht'⟩ : ∃ t', ScopeTree.ofStream exitBeforeNothing = .ok t' := ⟨_, rfl⟩
    have hnone : EmptyScopes.emptyNodes exitBeforeNothing t' = [] := by
      obtain rfl := Except.ok.inj (ht'.symm.trans rfl)
      exact closure_nil _ _
    rw [EmptyScopes.run, withTree_eq ht', hnone]
  have hschedule : schedule = ⟨[scopeAnalysis, constantFolding, deadCode, Builtin.declarations, unreachable,
      unusedFunctions, emptyScopes], 1⟩ := Except.ok.inj (h.symm.trans rfl)
  subst hschedule
  simp [Schedule.run, ht, RunState.iterate, RunState.step, RunState.tell, RunState.checked,
    RunState.reportSkipped,
    Pass.shouldRun, Pass.isReady, Pass.invoke, Pass.name, bind, Except.bind, Except.map, pure,
    Except.pure, scopeAnalysis, constantFolding, deadCode, Builtin.declarations, unreachable, unusedFunctions,
    emptyScopes, stateless, cleanup, balancedScopes, Context.hasFeature, Context.withExecuted,
    Context.withAnalysis, Context.withFinding, Context.withIteration, hfold, hdead, hdeclared, hcut,
    hunused, hempty]

/-- The region is cut off together with the rest of the loop while the jump into it stays. -/
theorem invalid_exitBeforeRegion :
    Program.isValid { code := exitBeforeRegion } = true ∧
      ∃ (schedule : Schedule Unit) (st : RunState Unit),
        Schedule.build builtins .o1 = .ok schedule ∧
        schedule.run {} () exitBeforeRegion = (st, none) ∧
        Program.isValid { code := st.code } = false := by
  obtain ⟨schedule, hbuild⟩ := @exists_build_builtins Unit .o1
  obtain ⟨herror, hcode⟩ := run_exitBeforeRegion hbuild
  refine ⟨by decide, schedule, (schedule.run {} () exitBeforeRegion).1, hbuild, ?_, ?_⟩
  · exact Prod.ext rfl herror
  · rw [hcode]
    decide

end Datapack.Optimize
