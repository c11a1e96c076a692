import Datapack.Proofs.Optimize.Measure
import Datapack.Proofs.Optimize.Run

/-!
# Running the built-in passes

On a balanced stream no built-in pass fails, and each leaves a balanced stream with an honest report.
Both carry over from one turn of a pass to an iteration and from there to a whole run, so a run of
built-in passes never fails, and since every iteration that changes something lowers the measure, the
iterations come to an end by themselves.
-/

namespace Datapack.Optimize

open Ir Config

variable {σ : Type}

/-- On a balanced stream the pass succeeds, leaves a balanced stream and reports honestly. -/
structure Reliable (p : Pass σ) : Prop where
  analyze : ∀ f, p.analyze = some f → ∀ w s c, s.balanced = true → ∃ found, f w s c = (w, .ok found)
  execute : ∀ w s c, s.balanced = true →
    ∃ out : Outcome, p.execute w s c = (w, out.code, .ok out.changed) ∧ out.code.balanced = true ∧
      Honest s out

theorem Reliable.invoke {p : Pass σ} (hp : Reliable p) (w : σ) {s : Stream} (c : Context)
    (hs : s.balanced = true) :
    ∃ (out : Outcome) (c' : Context), p.invoke w s c = (w, out.code, .ok (c', out.changed)) ∧
      out.code.balanced = true ∧ Honest s out := by
  rw [Pass.invoke]
  cases hanalyze : p.analyze with
  | none =>
      obtain ⟨out, hout, hrest⟩ := hp.execute w s c hs
      exact ⟨out, c, by simp only [hout, Except.map], hrest⟩
  | some f =>
      obtain ⟨found, hfound⟩ := hp.analyze f hanalyze w s c hs
      obtain ⟨out, hout, hrest⟩ := hp.execute w s (c.withAnalysis found) hs
      exact ⟨out, c.withAnalysis found, by simp only [hfound, hout, Except.map], hrest⟩

/-! ## The built-in passes -/

namespace Builtin

theorem reliable_stateless {info : PassInfo} {f : Stream → Except ScopeFault Outcome}
    (hbalanced : ∀ s t, ScopeTree.ofStream s = .ok t →
      ∃ out, f s = .ok out ∧ out.code.balanced = true)
    (hhonest : ∀ s out, f s = .ok out → Honest s out) : Reliable (stateless info f : Pass σ) where
  analyze g hg := absurd hg (by simp [stateless])
  execute w s c hs := by
    obtain ⟨t, ht⟩ := exists_tree hs
    obtain ⟨out, hout, hcode⟩ := hbalanced s t ht
    refine ⟨out, ?_, hcode, hhonest s out hout⟩
    simp only [stateless, hout]

theorem honest_of_withTree {s : Stream} {g : ScopeTree → Outcome} {out : Outcome}
    (hg : ∀ t, Honest s (g t)) (h : withTree s g = .ok out) : Honest s out := by
  rw [withTree] at h
  cases ht : ScopeTree.ofStream s with
  | error fault =>
      rw [ht] at h
      exact absurd h (by simp [Except.map])
  | ok t =>
      rw [ht] at h
      obtain rfl : g t = out := Except.ok.inj h
      exact hg t

theorem reliable_scopeAnalysis : Reliable (scopeAnalysis : Pass σ) where
  analyze f hf w s c hs := by
    obtain ⟨t, ht⟩ := exists_tree hs
    obtain rfl := Option.some.inj hf
    exact ⟨[(scopeTreeKey, .scopes t)], by simp only [ht]⟩
  execute w s c hs := ⟨⟨s, false⟩, rfl, hs, fun _ => rfl, fun h => Bool.noConfusion h⟩

theorem honest_emptyScopes {s : Stream} {out : Outcome} (h : EmptyScopes.run s = .ok out) :
    Honest s out := by
  refine honest_of_withTree (fun t => ?_) h
  split
  · exact ⟨fun _ => rfl, fun h => Bool.noConfusion h⟩
  · refine Edits.honest_apply fun k ins new hk hnew => ?_
    rw [EmptyScopes.replace_edits hk] at hnew
    exact EmptyScopes.weight_narrowed hnew

end Builtin

open Builtin in
theorem reliable_of_mem_builtins {p : Pass σ} (hp : p ∈ (builtins : Registry σ)) : Reliable p := by
  simp only [builtins, List.mem_cons, List.not_mem_nil, or_false] at hp
  rcases hp with rfl | rfl | rfl | rfl | rfl | rfl | rfl | rfl
  · exact reliable_scopeAnalysis
  · exact reliable_stateless (fun _ _ ht => Folding.balanced_run ht)
      (fun _ _ => honest_of_withTree fun _ => Folding.honest_foldFrom _ _ _)
  · exact reliable_stateless (fun _ _ ht => DeadCode.balanced_run ht)
      (fun _ _ => honest_of_withTree fun _ => Edits.honest_drop _ _)
  · exact reliable_stateless (fun _ _ ht => Declarations.balanced_run ht)
      (fun _ _ => honest_of_withTree fun _ => Edits.honest_drop _ _)
  · refine reliable_stateless
      (fun s t ht => ⟨_, rfl, Unreachable.balanced_run (balanced_of_tree ht)⟩) ?_
    rintro s out ⟨⟩
    exact Edits.honest_drop _ _
  · exact reliable_stateless (fun _ _ ht => UnusedFunctions.balanced_run ht)
      (fun _ _ => honest_of_withTree fun _ => Edits.honest_drop _ _)
  · exact reliable_stateless (fun _ _ ht => UselessScopes.balanced_run ht)
      (fun _ _ => honest_of_withTree fun _ => Edits.honest_drop _ _)
  · exact reliable_stateless (fun _ _ ht => EmptyScopes.balanced_run ht)
      (fun _ _ => honest_emptyScopes)

/-! ## From a turn to a run -/

/-- What reliable passes make of a state: the stream stays balanced, the measure sinks when the state
becomes dirty, and nothing is reported. -/
structure Progress (st st' : RunState σ) : Prop where
  balanced : st'.code.balanced = true
  le : measure st'.code ≤ measure st.code
  clean : st'.dirty = false → st.dirty = false ∧ st'.code = st.code
  lower : st'.dirty = true → st.dirty = true ∨ measure st'.code < measure st.code
  diagnostics : st'.diagnostics = st.diagnostics

namespace Progress

variable {mode : RunMode} {st st' st'' : RunState σ}

theorem refl (h : st.code.balanced = true) : Progress st st :=
  ⟨h, Nat.le_refl _, fun hd => ⟨hd, rfl⟩, .inl, rfl⟩

theorem tell (h : Progress st st') (line : TraceLine) : Progress st (st'.tell mode line) := by
  obtain ⟨hbalanced, hle, hclean, hlower, hdiagnostics⟩ := h
  refine ⟨?_, ?_, ?_, ?_, ?_⟩ <;> simpa

theorem checked (h : Progress st st') : Progress st st'.checked :=
  ⟨h.balanced, h.le, h.clean, h.lower, h.diagnostics⟩

theorem trans (h : Progress st st') (h' : Progress st' st'') : Progress st st'' where
  balanced := h'.balanced
  le := Nat.le_trans h'.le h.le
  clean hd := by
    obtain ⟨hd', hcode⟩ := h'.clean hd
    obtain ⟨hd'', hcode'⟩ := h.clean hd'
    exact ⟨hd'', hcode.trans hcode'⟩
  lower hd := by
    rcases h'.lower hd with hd' | hlt
    · rcases h.lower hd' with hd'' | hlt
      · exact .inl hd''
      · exact .inr (Nat.lt_of_le_of_lt h'.le hlt)
    · exact .inr (Nat.lt_of_lt_of_le hlt h.le)
  diagnostics := h'.diagnostics.trans h.diagnostics

theorem step {p : Pass σ} (hmode : mode.cancelled = false) (hp : Reliable p)
    (hst : st.code.balanced = true) : ∃ st', RunState.step mode st p = .ok st' ∧ Progress st st' := by
  cases hready : p.shouldRun st.context with
  | false => exact ⟨_, RunState.step_skip hmode hready, (refl hst).checked.tell _⟩
  | true =>
      obtain ⟨out, c, hinvoke, hbalanced, hhonest⟩ := hp.invoke st.world st.context hst
      refine ⟨_, RunState.step_ok hmode hready hinvoke, tell ?_ _⟩
      refine ⟨hbalanced, hhonest.le, fun hd => ?_, fun hd => ?_, rfl⟩
      · obtain ⟨hdirty, hchanged⟩ := Bool.or_eq_false_iff.1 hd
        exact ⟨hdirty, hhonest.1 hchanged⟩
      · exact (Bool.or_eq_true_iff.1 hd).imp id hhonest.2

theorem turns {ps : List (Pass σ)} (hmode : mode.cancelled = false) (hps : ∀ p ∈ ps, Reliable p)
    (hst : st.code.balanced = true) :
    ∃ st', ps.foldlM (RunState.step mode) st = .ok st' ∧ Progress st st' := by
  induction ps generalizing st with
  | nil => exact ⟨st, rfl, refl hst⟩
  | cons p ps ih =>
      obtain ⟨mid, hstep, hmid⟩ := step hmode (hps p List.mem_cons_self) hst
      obtain ⟨st', hfold, hst'⟩ := ih (fun q hq => hps q (List.mem_cons_of_mem p hq)) hmid.balanced
      refine ⟨st', ?_, hmid.trans hst'⟩
      rw [List.foldlM_cons, hstep]
      exact hfold

/-- An iteration either settles with the stream it met or lowers the measure. -/
theorem sweep {s : Schedule σ} (hmode : mode.cancelled = false) (hs : ∀ p ∈ s.passes, Reliable p)
    (hst : st.code.balanced = true) (i : Nat) :
    ∃ st', st.sweep mode s i = .ok st' ∧ st'.code.balanced = true ∧
      (st'.dirty = false → st'.code = st.code) ∧
      (st'.dirty = true → measure st'.code < measure st.code) ∧ st'.diagnostics = st.diagnostics := by
  have hstart : Progress (st.renewed i)
      ((st.renewed i).tell mode (.iteration i s.maxIterations)) :=
    tell (refl (show (st.renewed i).code.balanced = true from hst)) _
  obtain ⟨st', hfold, hst'⟩ := turns hmode hs hstart.balanced
  have hall : Progress (st.renewed i) (st'.tell mode (.context (mode.dump st'.context))) :=
    (hstart.trans hst').tell _
  refine ⟨st'.tell mode (.context (mode.dump st'.context)), ?_, hall.balanced, fun hd => (hall.clean hd).2, fun hd => ?_,
    hall.diagnostics⟩
  · rw [RunState.sweep, hfold]
    rfl
  · rcases hall.lower hd with hdirty | hlt
    · exact Bool.noConfusion hdirty
    · exact hlt

/-- Reliable passes do not fail, whatever the iteration cap. -/
theorem iterate {s : Schedule σ} (hmode : mode.cancelled = false) (hs : ∀ p ∈ s.passes, Reliable p)
    (hst : st.code.balanced = true) (left i : Nat) :
    ∃ st', st.iterate mode s left i = .ok st' ∧ st'.code.balanced = true ∧
      st'.diagnostics = st.diagnostics := by
  induction left generalizing st i with
  | zero => exact ⟨st, rfl, hst, rfl⟩
  | succ left ih =>
      obtain ⟨after, hsweep, hbalanced, -, -, hdiagnostics⟩ := sweep hmode hs hst i
      rw [RunState.iterate_succ _ _ _ _ _ hsweep]
      cases after.dirty with
      | false => exact ⟨after, rfl, hbalanced, hdiagnostics⟩
      | true =>
          obtain ⟨st', hrest, hbalanced', hdiagnostics'⟩ := ih hbalanced (i + 1)
          exact ⟨st', hrest, hbalanced', hdiagnostics'.trans hdiagnostics⟩

/-- Some iteration settles, and no iteration cap beyond it matters. -/
theorem settles {s : Schedule σ} (hmode : mode.cancelled = false) (hs : ∀ p ∈ s.passes, Reliable p)
    (hst : st.code.balanced = true) (i : Nat) :
    ∃ k before after, k ≤ measure st.code ∧ st.iterate mode s k i = .ok before ∧
      before.sweep mode s (i + k) = .ok after ∧ after.dirty = false ∧ after.code = before.code ∧
      ∀ left, k < left → st.iterate mode s left i = .ok after := by
  induction hm : measure st.code using Nat.strongRecOn generalizing st i with
  | ind m ih =>
      obtain ⟨next, hsweep, hbalanced, hclean, hlower, -⟩ := sweep hmode hs hst i
      have hiterate := fun left => RunState.iterate_succ st mode s left i hsweep
      cases hdirty : next.dirty with
      | false =>
          refine ⟨0, st, next, Nat.zero_le _, rfl, hsweep, hdirty, hclean hdirty, fun left hleft => ?_⟩
          obtain ⟨left, rfl⟩ := Nat.exists_eq_add_of_le' hleft
          rw [hiterate, hdirty]
          rfl
      | true =>
          have hlt := hlower hdirty
          obtain ⟨k, before, after, hk, hbefore, hafter, hsettled, hsame, hrest⟩ :=
            ih _ (hm ▸ hlt) hbalanced (i + 1) rfl
          refine ⟨k + 1, before, after, by omega, ?_, ?_, hsettled, hsame, fun left hleft => ?_⟩
          · rw [hiterate, hdirty]
            exact hbefore
          · rw [← Nat.add_assoc, Nat.add_right_comm]
            exact hafter
          · obtain ⟨left, rfl⟩ := Nat.exists_eq_add_of_le' (Nat.zero_lt_of_lt hleft)
            rw [hiterate, hdirty]
            exact hrest left (by omega)

end Progress

/-- A run of reliable passes ends without an error and reports no failure. -/
theorem Schedule.run_reliable {s : Schedule σ} {mode : RunMode} (hmode : mode.cancelled = false)
    (hs : ∀ p ∈ s.passes, Reliable p) (w : σ) {code : Stream} (hcode : code.balanced = true) :
    ∃ st, s.run mode w code = (st, none) ∧ (∀ d ∈ st.diagnostics, d.code ≠ Code.passFailed) ∧
      st.code.balanced = true := by
  obtain ⟨t, ht⟩ := exists_tree hcode
  unfold run
  split
  · exact ⟨_, rfl, fun d hd => absurd hd List.not_mem_nil, hcode⟩
  · let start : RunState σ :=
      { world := w, code, context := { maxIterations := s.maxIterations, debug := mode.debug } }
    obtain ⟨st, hiterate, hbalanced, hdiagnostics⟩ :=
      Progress.iterate hmode hs (show start.code.balanced = true from hcode) s.maxIterations 1
    refine ⟨st.reportSkipped s, ?_, ?_, hbalanced⟩
    · simp only [ht]
      rw [hiterate]
    · intro d hd
      rw [RunState.reportSkipped, hdiagnostics] at hd
      obtain ⟨n, -, rfl⟩ := List.mem_map.1 hd
      exact ne_of_beq_false rfl

/-! ## Schedules of built-in passes -/

theorem Schedule.mem_of_build {r : Registry σ} {level : OptLevel} {s : Schedule σ} {p : Pass σ}
    (h : build r level = .ok s) (hp : p ∈ s.passes) : p ∈ r := by
  rw [build] at h
  split at h
  · obtain rfl := Except.ok.inj h
    exact absurd hp List.not_mem_nil
  · dsimp only at h
    split at h
    · exact absurd h (by simp)
    · generalize order ((r.filter fun p => p.info.level.rank ≤ level.rank).map Pass.info) = sorted at h
      cases sorted with
      | error e => exact absurd h (by simp [bind, Except.bind])
      | ok sorted =>
          obtain rfl := Except.ok.inj h
          obtain ⟨phase, -, hp⟩ := List.mem_flatMap.1 hp
          obtain ⟨i, -, hi⟩ := List.mem_filterMap.1 (List.mem_filter.1 hp).1
          exact (List.mem_filter.1 (List.mem_of_find?_eq_some hi)).1

theorem rank_of_mem_builtins {p : Pass σ} (hp : p ∈ (builtins : Registry σ)) :
    p.info.level.rank = 1 ∨ p.info.level.rank = 2 := by
  simp only [builtins, List.mem_cons, List.not_mem_nil, or_false] at hp
  rcases hp with rfl | rfl | rfl | rfl | rfl | rfl | rfl | rfl
  · exact .inl rfl
  · exact .inl rfl
  · exact .inl rfl
  · exact .inl rfl
  · exact .inl rfl
  · exact .inl rfl
  · exact .inr rfl
  · exact .inl rfl

/-- There are three selections: none of the passes, those of the first level and all of them. -/
theorem filter_builtins (level : OptLevel) :
    ((builtins : Registry σ).filter fun p => p.info.level.rank ≤ level.rank) =
      if level.rank < 1 then []
      else if level.rank < 2 then builtins.filter fun p => p.info.level.rank ≤ 1 else builtins := by
  split
  · rw [List.filter_eq_nil_iff]
    intro p hp
    have := rank_of_mem_builtins hp
    rw [decide_eq_true_eq]
    omega
  · split
    · refine List.filter_congr fun p hp => ?_
      have := rank_of_mem_builtins hp
      rw [decide_eq_decide]
      omega
    · rw [List.filter_eq_self]
      intro p hp
      have := rank_of_mem_builtins hp
      rw [decide_eq_true_eq]
      omega

theorem exists_build_builtins (level : OptLevel) :
    ∃ s, Schedule.build (builtins : Registry σ) level = .ok s := by
  rw [Schedule.build]
  split
  · exact ⟨_, rfl⟩
  · rw [filter_builtins]
    split
    · exact ⟨_, rfl⟩
    · split
      · exact ⟨_, rfl⟩
      · exact ⟨_, rfl⟩

/-- No built-in pass fails or unbalances a stream, and neither does a run of them at any level. -/
theorem run_builtins_balanced :
    (∀ p ∈ (builtins : Registry σ), ∀ (w : σ) (s : Stream) (c : Context), s.balanced = true →
      (∀ f, p.analyze = some f → ∃ found, f w s c = (w, .ok found)) ∧
      ∃ code changed, p.execute w s c = (w, code, .ok changed) ∧ code.balanced = true) ∧
    ∀ (level : OptLevel) (mode : RunMode) (w : σ) (s : Stream), mode.cancelled = false →
      s.balanced = true →
      ∃ (schedule : Schedule σ) (st : RunState σ), Schedule.build builtins level = .ok schedule ∧
        schedule.run mode w s = (st, none) ∧ (∀ d ∈ st.diagnostics, d.code ≠ Code.passFailed) ∧
        st.code.balanced = true := by
  refine ⟨fun p hp w s c hs => ?_, fun level mode w s hmode hs => ?_⟩
  · have hreliable := reliable_of_mem_builtins hp
    obtain ⟨out, hout, hbalanced, -⟩ := hreliable.execute w s c hs
    exact ⟨fun f hf => hreliable.analyze f hf w s c hs, out.code, out.changed, hout, hbalanced⟩
  · obtain ⟨schedule, hbuild⟩ := @exists_build_builtins σ level
    have hpasses : ∀ p ∈ schedule.passes, Reliable p :=
      fun p hp => reliable_of_mem_builtins (Schedule.mem_of_build hbuild hp)
    obtain ⟨st, hrun, hdiagnostics, hbalanced⟩ := Schedule.run_reliable hmode hpasses w hs
    exact ⟨schedule, st, hbuild, hrun, hdiagnostics, hbalanced⟩

/-- A region with an exit, and a region behind the exit. -/
def strayExit : Stream :=
  [Instruction.scopeBegin "a" .block, Instruction.breakLoop "a",
    Instruction.scopeBegin "b" .conditional, Instruction.scopeEnd "b" .conditional,
    Instruction.scopeEnd "a" .block]

theorem run_builtins_strayExit :
    strayExit.balanced = true ∧
      ∃ (schedule : Schedule Unit) (st : RunState Unit),
        Schedule.build builtins .o3 = .ok schedule ∧
        schedule.run {} () strayExit = (st, none) ∧
        (∀ d ∈ st.diagnostics, d.code ≠ Code.passFailed) ∧ st.code.balanced = true :=
  ⟨by decide, run_builtins_balanced.2 .o3 {} () strayExit rfl (by decide)⟩

/-- The built-in passes report changes honestly, and every schedule of them settles by itself. -/
theorem iterate_builtins_settles :
    (∀ p ∈ (builtins : Registry σ), ∀ (w : σ) (s : Stream) (c : Context), s.balanced = true →
      ∃ code changed, p.execute w s c = (w, code, .ok changed) ∧ (changed = false → code = s) ∧
        (changed = true → measure code < measure s)) ∧
    ∀ (s : Schedule σ) (mode : RunMode) (st : RunState σ), (∀ p ∈ s.passes, p ∈ (builtins : Registry σ)) →
      mode.cancelled = false → st.code.balanced = true →
      ∃ k before after, k + 1 ≤ measure st.code + 1 ∧ st.iterate mode s k 1 = .ok before ∧
        before.sweep mode s (k + 1) = .ok after ∧ after.dirty = false ∧ after.code = before.code ∧
        ∀ cap, k < cap → st.iterate mode s cap 1 = .ok after := by
  refine ⟨fun p hp w s c hs => ?_, fun s mode st hs hmode hst => ?_⟩
  · obtain ⟨out, hout, -, hhonest⟩ := (reliable_of_mem_builtins hp).execute w s c hs
    exact ⟨out.code, out.changed, hout, hhonest⟩
  · obtain ⟨k, before, after, hk, hbefore, hafter, hrest⟩ :=
      Progress.settles hmode (fun p hp => reliable_of_mem_builtins (hs p hp)) hst 1
    rw [Nat.add_comm 1 k] at hafter
    exact ⟨k, before, after, Nat.succ_le_succ hk, hbefore, hafter, hrest⟩

theorem iterate_builtins_strayExit :
    measure strayExit = 5 ∧
      ∃ k before after, k + 1 ≤ 6 ∧
        RunState.iterate {} ⟨builtins, 1⟩ k 1 { world := (), code := strayExit, context := {} } =
          .ok before ∧
        before.sweep {} ⟨builtins, 1⟩ (k + 1) = .ok after ∧ after.dirty = false ∧
        after.code = before.code ∧
        ∀ cap, k < cap → RunState.iterate {} ⟨builtins, 1⟩ cap 1
          { world := (), code := strayExit, context := {} } = .ok after :=
  ⟨rfl, iterate_builtins_settles.2 ⟨builtins, 1⟩ {} { world := (), code := strayExit, context := {} }
    (fun _ hp => hp) rfl (by decide)⟩

end Datapack.Optimize
