import Datapack.Proofs.Optimize.Folding.Meaning

/-!
# Folding the jump of a conditional group

The pending branch of a region is right when it tells the truth about every store the body of the
region can end in.  A conditional jump between branches that are right runs, folded or not, to the same
store, and the state behind it is satisfied there: a decided jump takes over one branch, an open jump
keeps what both branches agree on.
-/

namespace Datapack.Optimize.Folding

open Ir

/-! ## Walks -/

def walk (e : Surroundings) (st : State) (s : Stream) : State :=
  s.foldl (fun st ins => (step e st ins).1) st

theorem walk_cons (e : Surroundings) (st : State) (ins : Instruction) (s : Stream) :
    walk e st (ins :: s) = walk e (step e st ins).1 s := rfl

theorem walk_append (e : Surroundings) (st : State) (s t : Stream) :
    walk e st (s ++ t) = walk e (walk e st s) t := by
  simp [walk, List.foldl_append]

theorem code_cons (e : Surroundings) (st : State) (ins : Instruction) (s : Stream) :
    (foldFrom e st (ins :: s)).code =
      (step e st ins).2.emitted ins ++ (foldFrom e (step e st ins).1 s).code := by
  rw [foldFrom_cons]

theorem code_append (e : Surroundings) (st : State) (s t : Stream) :
    (foldFrom e st (s ++ t)).code =
      (foldFrom e st s).code ++ (foldFrom e (walk e st s) t).code := by
  induction s generalizing st with
  | nil => rfl
  | cons ins s ih => rw [List.cons_append, code_cons, code_cons, ih, List.append_assoc, walk_cons]

/-! ## The jump behind a group -/

/-- The pending branch `b` is right about the body of its region, run from a store that satisfies the
frames around it: what it leaves known is the case behind the body, and what the body changes it wrote
or declares. Both versions of the body end in the same store. -/
def Means (prog out : Stream) (fs : List Frame) (ds : List Variable) (b : Branch)
    (body folded : Stream) : Prop :=
  ∀ σ, Satisfies σ fs → ∃ τ, Runs prog body σ τ ∧ Runs out folded σ τ ∧
    (∀ v l, b.valueOf v = .known l → τ v = some l) ∧
    ∀ v, τ v = σ v ∨ v ∈ b.written ∨ v ∈ ds

/-- A name of a conditional jump is empty or leads to a pending branch that is right. -/
def Leads (prog out : Stream) (e : Surroundings) (st : State) (ds : List Variable)
    (name : String) : Prop :=
  name = "" ∨ name ≠ "" ∧ ∃ n b body folded, target? e st name = some n ∧
    st.branch? (some n) = some b ∧ bodyOf name prog = some body ∧ bodyOf name out = some folded ∧
    Means prog out st.frames ds b body folded

def branchWrites (e : Surroundings) (st : State) (name : String) : List Variable :=
  ((st.branch? (target? e st name)).map Branch.written).getD []

/-- The state behind a jump: only the innermost frame has changed, and branches that the jump names
may have been settled. -/
structure Lands (e : Surroundings) (st st' : State) (j : Instruction) : Prop where
  outer : st'.outer = st.outer
  node : st'.top.node = st.top.node
  kind : st'.top.kind = st.top.kind
  declared : st'.top.declared = st.top.declared
  written : ∀ v ∈ st.top.written, v ∈ st'.top.written
  opened : st'.opened = st.opened
  bases : st'.bases = st.bases.filter (·.1 ≠ st.top.node)
  pending : ∃ f : Nat × Branch → Bool, st'.pending = st.pending.filter f ∧
    ∀ q, f q = false → some q.1 = target? e st j.onTrue ∨ some q.1 = target? e st j.onFalse
  met : ∀ v, (State.hit v st'.frames).isSome = true ∨ v ∈ st'.top.written →
    ((State.hit v st.frames).isSome = true ∨ v ∈ st.top.written) ∨
      v ∈ branchWrites e st j.onTrue ∨ v ∈ branchWrites e st j.onFalse

section Jumps

variable {prog out : Stream} {e : Surroundings} {st : State} {ds : List Variable} {σ : Store}

/-- Taking the branch of a name, or passing over it when it is empty, ends in a store about which the
outcome recorded for that name is right. -/
theorem Leads.taken {name : String} (h : Leads prog out e st ds name)
    (hkinds : ∀ f ∈ st.frames, State.isBoundary f.kind = false) (hσ : Satisfies σ st.frames) :
    ∃ τ, (name = "" ∧ τ = σ ∨ name ≠ "" ∧ ∃ body folded, bodyOf name prog = some body ∧
        bodyOf name out = some folded ∧ Runs prog body σ τ ∧ Runs out folded σ τ) ∧
      (∀ v l, st.outcomeOf (st.branch? (target? e st name)) v = some (.known l) → τ v = some l) ∧
      ∀ v, τ v = σ v ∨ v ∈ branchWrites e st name ∨ v ∈ ds := by
  rcases h with hname | ⟨hname, n, b, body, folded, htarget, hbranch, hprog, hout, hmeans⟩
  · refine ⟨σ, .inl ⟨hname, rfl⟩, fun v l hv => ?_, fun v => .inl rfl⟩
    have hnone : st.branch? (target? e st name) = none := by
      rw [target?, if_pos hname]
      rfl
    rw [hnone, State.outcomeOf, State.lookup_eq_hit st hkinds] at hv
    exact hσ v l hv
  · obtain ⟨τ, hrun, hrun', hknown, hchanged⟩ := hmeans σ hσ
    have hsome : st.branch? (target? e st name) = some b := by rw [htarget, hbranch]
    refine ⟨τ, .inr ⟨hname, body, folded, hprog, hout, hrun, hrun'⟩, fun v l hv => ?_, ?_⟩
    · rw [hsome, State.outcomeOf, Option.some.injEq] at hv
      exact hknown v l hv
    · rw [branchWrites, hsome]
      exact hchanged

/-- Storing outcomes that are right about `τ`, for at least the variables that changed. -/
theorem Satisfies.storeAll {τ : Store} (hσ : Satisfies σ st.frames) {vs : List Variable}
    {x : Variable → Value} (hx : ∀ v ∈ vs, ∀ l, x v = .known l → τ v = some l)
    (hchanged : ∀ v, τ v = σ v ∨ v ∈ vs ∨ v ∈ ds)
    (hfresh : ∀ v ∈ ds, State.hit v st.frames = none) :
    Satisfies τ (st.storeAll vs x).frames := by
  intro v l hv
  rw [hit_storeAll] at hv
  by_cases hvs : v ∈ vs
  · rw [if_pos hvs, Option.some.injEq] at hv
    exact hx v hvs l hv
  · rw [if_neg hvs] at hv
    rcases hchanged v with hsame | hmem | hds
    · rw [hsame]
      exact hσ v l hv
    · exact absurd hmem hvs
    · rw [hfresh v hds] at hv
      simp at hv

theorem runs_selected {s : Stream} {j : Instruction} (hop : j.op = .condJump) {τ : Store}
    (h : σ.selects j = "" ∧ τ = σ ∨ σ.selects j ≠ "" ∧ ∃ body, bodyOf (σ.selects j) s = some body ∧
      Runs s body σ τ) {rest : Stream} {υ : Store} (hrest : Runs s rest τ υ) :
    Runs s (j :: rest) σ υ := by
  rcases h with ⟨hname, rfl⟩ | ⟨hname, body, hbody, hrun⟩
  · exact .skip hop hname hrest
  · exact .branch hop hname hbody hrun hrest

theorem selects_substitute (hσ : Satisfies σ st.frames) {j : Instruction} (hop : j.op = .condJump) :
    σ.selects (substitute st j).2.1 = σ.selects j := by
  have hcall : j.isCall = false := by simp [Instruction.isCall, hop]
  have hvalue : σ.value (substitute st j).2.1.condition = σ.value j.condition :=
    value_substitute hσ hcall 0
  rw [Store.selects, Store.selects, hvalue, onTrue_substitute hop, onFalse_substitute hop]

/-- A jump that is decided selects the branch it is decided for, whatever the store. -/
theorem selects_eq_taken (hσ : Satisfies σ st.frames) {j : Instruction} (hop : j.op = .condJump)
    {truth : Bool} (htruth : verdict st j = some truth) : σ.selects j = taken j truth := by
  obtain ⟨l, hl, htruthy⟩ := Option.bind_eq_some_iff.1 htruth
  rw [← selects_substitute hσ hop, Store.selects, value_of_literalOf hl, Option.bind_some, htruthy,
    onTrue_substitute hop, onFalse_substitute hop, taken]
  cases truth <;> simp

theorem lands_storeAll {j : Instruction} {st' : State} (hnoted : Noted st st') {vs : List Variable}
    (hvs : ∀ v ∈ vs, v ∈ branchWrites e st j.onTrue ∨ v ∈ branchWrites e st j.onFalse)
    (x : Variable → Value) {f : Nat × Branch → Bool}
    (hf : ∀ q, f q = false → some q.1 = target? e st j.onTrue ∨ some q.1 = target? e st j.onFalse) :
    Lands e st
      { st'.storeAll vs x with
        bases := st'.bases.filter (·.1 ≠ st.top.node), pending := st'.pending.filter f } j where
  outer := by simp [hnoted.outer]
  node := by simp [hnoted.top]
  kind := by simp [hnoted.top]
  declared := by simp [hnoted.top]
  written := by
    intro v hv
    rw [State.mem_storeAll_written, hnoted.top]
    exact .inr hv
  opened := by simp [hnoted.opened]
  bases := by rw [hnoted.bases]
  pending := ⟨f, by rw [hnoted.pending], hf⟩
  met := by
    intro v hv
    have hhit := hit_storeAll st' vs x v
    rw [hnoted.frames] at hhit
    rw [State.mem_storeAll_written, hnoted.top] at hv
    by_cases hmem : v ∈ vs
    · exact .inr (hvs v hmem)
    · rw [if_neg hmem] at hhit
      refine .inl (hv.imp (fun h => ?_) fun h => h.resolve_left hmem)
      rw [← hhit]
      exact h

/-- What a decided jump commits: the outcome of the branch it takes. -/
theorem commit_eq (name : String) {st' : State} (hnoted : Noted st st') :
    ∃ f : Nat × Branch → Bool, (∀ q, f q = false → some q.1 = target? e st name) ∧
      ∃ x : Variable → Value, st'.commit (target? e st name) =
        { st'.storeAll (branchWrites e st name) x with pending := st'.pending.filter f } ∧
      ∀ v ∈ branchWrites e st name,
        st.outcomeOf (st.branch? (target? e st name)) v = some (x v) := by
  have hbranch : st'.branch? (target? e st name) = st.branch? (target? e st name) := by
    simp only [State.branch?, hnoted.pending]
  unfold State.commit branchWrites
  rw [hbranch]
  cases hb : st.branch? (target? e st name) with
  | none =>
      refine ⟨fun _ => true, by simp, fun _ => .unknown, ?_, by simp⟩
      rw [List.filter_eq_self.2 fun _ _ => rfl]
      rfl
  | some b =>
      refine ⟨fun q => decide (some q.1 ≠ target? e st name), by simp, b.valueOf, ?_, ?_⟩
      · simp [State.settle]
      · intro v _
        rfl

/-- What an open jump merges: the outcomes on which both branches agree. -/
theorem merge_eq {onTrue onFalse : Option Nat}
    (hsome : (st.branch? onTrue).isSome = true ∨ (st.branch? onFalse).isSome = true) :
    st.merge onTrue onFalse =
      { st.storeAll ((((st.branch? onTrue).map Branch.written).getD [] ++
            ((st.branch? onFalse).map Branch.written).getD []).eraseDups)
          (fun v => State.agree (st.outcomeOf (st.branch? onTrue) v)
            (st.outcomeOf (st.branch? onFalse) v)) with
        bases := st.bases.filter (·.1 ≠ st.top.node)
        pending := st.pending.filter fun q => decide (some q.1 ≠ onTrue) && decide (some q.1 ≠ onFalse) } := by
  have hnone : ((st.branch? onTrue).isNone && (st.branch? onFalse).isNone) = false := by
    rcases hsome with h | h
    · simp [Option.isNone_eq_false_iff.2 h]
    · simp [Option.isNone_eq_false_iff.2 h]
  unfold State.merge
  simp only [hnone, Bool.false_eq_true, if_false, State.settle, State.dropBase, State.storeAll_bases,
    State.storeAll_pending, State.storeAll_node, List.filter_filter]
  congr 2
  funext q
  rw [Bool.and_comm]

/-- The jump behind a group, in the program and in what it is folded to. -/
structure Crosses (prog out : Stream) (e : Surroundings) (st : State) (ds : List Variable)
    (j : Instruction) : Prop where
  lands : Lands e st (step e st j).1 j
  runs : ∀ σ, Satisfies σ st.frames → ∃ τ, Satisfies τ (step e st j).1.frames ∧
    (∀ v, τ v = σ v ∨ v ∈ (step e st j).1.top.written ∨ v ∈ ds) ∧
    (∀ rest υ, Runs prog rest τ υ → Runs prog (j :: rest) σ υ) ∧
    ∀ rest υ, Runs out rest τ υ → Runs out ((step e st j).2.emitted j ++ rest) σ υ

theorem crosses_decided {j : Instruction} (hop : j.op = .condJump)
    (hkinds : ∀ f ∈ st.frames, State.isBoundary f.kind = false) {truth : Bool}
    (htruth : verdict st j = some truth) (hleads : Leads prog out e st ds (taken j truth))
    (hfresh : ∀ v ∈ ds, State.hit v st.frames = none) : Crosses prog out e st ds j := by
  have hnoted := noted_substitute st j
  obtain ⟨f, hf, x, hcommit, hx⟩ := commit_eq (e := e) (taken j truth) hnoted
  have hstep := step_decided e hop htruth
  rw [hcommit] at hstep
  have hf' : ∀ q, f q = false →
      some q.1 = target? e st j.onTrue ∨ some q.1 = target? e st j.onFalse := by
    intro q hq
    have htarget := hf q hq
    cases truth
    · exact .inr htarget
    · exact .inl htarget
  refine ⟨?_, ?_⟩
  · rw [hstep]
    have hvs : ∀ v ∈ branchWrites e st (taken j truth),
        v ∈ branchWrites e st j.onTrue ∨ v ∈ branchWrites e st j.onFalse := by
      intro v hv
      cases truth
      · exact .inr hv
      · exact .inl hv
    simpa [State.dropBase] using lands_storeAll hnoted hvs x hf'
  · intro σ hσ
    have hselects := selects_eq_taken hσ hop htruth
    obtain ⟨τ, hrun, hknown, hchanged⟩ := hleads.taken hkinds hσ
    have hσ' : Satisfies σ (substitute st j).1.frames := by
      rw [hnoted.frames]
      exact hσ
    refine ⟨τ, ?_, ?_, ?_, ?_⟩
    · rw [hstep]
      refine hσ'.storeAll (fun v hv l hl => ?_) hchanged ?_
      · exact hknown v l (by rw [hx v hv, hl])
      · rw [hnoted.frames]
        exact hfresh
    · intro v
      rw [hstep]
      simp only [State.dropBase, State.mem_storeAll_written]
      rcases hchanged v with h | h | h
      · exact .inl h
      · exact .inr (.inl (.inl h))
      · exact .inr (.inr h)
    · intro rest υ hrest
      refine runs_selected hop ?_ hrest
      rw [hselects]
      rcases hrun with hskip | ⟨hname, body, folded, hbody, _, hrun, _⟩
      · exact .inl hskip
      · exact .inr ⟨hname, body, hbody, hrun⟩
    · intro rest υ hrest
      rw [hstep]
      rcases hrun with ⟨hname, hτ⟩ | ⟨hname, body, folded, _, hfolded, _, hrun⟩
      · rw [if_pos hname, ← hτ]
        exact hrest
      · rw [if_neg hname]
        exact .jump rfl hfolded hrun hrest

theorem crosses_open {j : Instruction} (hop : j.op = .condJump)
    (hkinds : ∀ f ∈ st.frames, State.isBoundary f.kind = false) (htruth : verdict st j = none)
    (htrue : Leads prog out e st ds j.onTrue) (hfalse : Leads prog out e st ds j.onFalse)
    (hsome : j.onTrue ≠ "" ∨ j.onFalse ≠ "")
    (hfresh : ∀ v ∈ ds, State.hit v st.frames = none) : Crosses prog out e st ds j := by
  have hnoted := noted_substitute st j
  have hbranch : ∀ n, (substitute st j).1.branch? n = st.branch? n := by
    intro n
    simp only [State.branch?, hnoted.pending]
  have hisSome : ∀ name, Leads prog out e st ds name → name ≠ "" →
      ((substitute st j).1.branch? (target? e st name)).isSome = true := by
    intro name hleads hname
    obtain ⟨_, n, b, _, _, htarget, hb, _⟩ := hleads.resolve_left hname
    rw [hbranch, htarget, hb]
    rfl
  have hstep := step_open e hop htruth
  rw [merge_eq (hsome.imp (hisSome _ htrue) (hisSome _ hfalse))] at hstep
  simp only [hbranch] at hstep
  have houtcome : ∀ b v, (substitute st j).1.outcomeOf b v = st.outcomeOf b v := by
    intro b v
    cases b with
    | some b => rfl
    | none =>
        rw [State.outcomeOf, State.outcomeOf, State.lookup_eq_hit st hkinds,
          State.lookup_eq_hit _ (by rw [hnoted.frames]; exact hkinds), hnoted.frames]
  simp only [houtcome] at hstep
  refine ⟨?_, ?_⟩
  · rw [hstep]
    have hf : ∀ q : Nat × Branch, (decide (some q.1 ≠ target? e st j.onTrue) &&
        decide (some q.1 ≠ target? e st j.onFalse)) = false →
        some q.1 = target? e st j.onTrue ∨ some q.1 = target? e st j.onFalse := by
      intro q hq
      rw [Bool.and_eq_false_iff] at hq
      exact hq.imp (fun h => by simpa using h) fun h => by simpa using h
    have hvs : ∀ v ∈ (branchWrites e st j.onTrue ++ branchWrites e st j.onFalse).eraseDups,
        v ∈ branchWrites e st j.onTrue ∨ v ∈ branchWrites e st j.onFalse := by
      intro v hv
      rwa [List.mem_eraseDups, List.mem_append] at hv
    simpa [hnoted.top, branchWrites] using lands_storeAll hnoted hvs
      (fun v => State.agree (st.outcomeOf (st.branch? (target? e st j.onTrue)) v)
        (st.outcomeOf (st.branch? (target? e st j.onFalse)) v)) hf
  · intro σ hσ
    have hselects := selects_substitute hσ hop
    -- Whichever branch the store selects, both recorded outcomes are right about what they agree on.
    have htaken : ∃ τ, (σ.selects j = "" ∧ τ = σ ∨ σ.selects j ≠ "" ∧ ∃ body folded,
          bodyOf (σ.selects j) prog = some body ∧ bodyOf (σ.selects j) out = some folded ∧
          Runs prog body σ τ ∧ Runs out folded σ τ) ∧
        (∀ v l, st.outcomeOf (st.branch? (target? e st j.onTrue)) v = some (.known l) →
          st.outcomeOf (st.branch? (target? e st j.onFalse)) v = some (.known l) → τ v = some l) ∧
        ∀ v, τ v = σ v ∨ v ∈ (branchWrites e st j.onTrue ++ branchWrites e st j.onFalse).eraseDups ∨
          v ∈ ds := by
      rw [Store.selects]
      split
      · obtain ⟨τ, hrun, hknown, hchanged⟩ := htrue.taken hkinds hσ
        refine ⟨τ, hrun, fun v l hl _ => hknown v l hl, fun v => ?_⟩
        rw [List.mem_eraseDups, List.mem_append]
        exact (hchanged v).imp_right fun h => h.imp_left .inl
      · obtain ⟨τ, hrun, hknown, hchanged⟩ := hfalse.taken hkinds hσ
        refine ⟨τ, hrun, fun v l _ hl => hknown v l hl, fun v => ?_⟩
        rw [List.mem_eraseDups, List.mem_append]
        exact (hchanged v).imp_right fun h => h.imp_left .inr
    obtain ⟨τ, hrun, hknown, hchanged⟩ := htaken
    have hσ' : Satisfies σ (substitute st j).1.frames := by
      rw [hnoted.frames]
      exact hσ
    refine ⟨τ, ?_, ?_, ?_, ?_⟩
    · rw [hstep]
      refine hσ'.storeAll (fun v _ l hl => ?_) hchanged ?_
      · obtain ⟨hx, hy⟩ := State.agree_eq_known hl
        exact hknown v l hx hy
      · rw [hnoted.frames]
        exact hfresh
    · intro v
      rw [hstep]
      simp only [State.mem_storeAll_written]
      exact (hchanged v).imp_right fun h => h.imp_left .inl
    · intro rest υ hrest
      refine runs_selected hop (hrun.imp_right ?_) hrest
      rintro ⟨hname, body, folded, hbody, _, hrun, _⟩
      exact ⟨hname, body, hbody, hrun⟩
    · intro rest υ hrest
      rw [hstep]
      simp only [emitted_substitute, List.singleton_append]
      refine runs_selected (by rw [substitute_op, hop]) ?_ hrest
      rw [hselects]
      refine hrun.imp_right ?_
      rintro ⟨hname, body, folded, _, hfolded, _, hrun⟩
      exact ⟨hname, folded, hfolded, hrun⟩

theorem crosses {j : Instruction} (hop : j.op = .condJump)
    (hkinds : ∀ f ∈ st.frames, State.isBoundary f.kind = false)
    (htrue : Leads prog out e st ds j.onTrue) (hfalse : Leads prog out e st ds j.onFalse)
    (hsome : j.onTrue ≠ "" ∨ j.onFalse ≠ "")
    (hfresh : ∀ v ∈ ds, State.hit v st.frames = none) : Crosses prog out e st ds j := by
  cases htruth : verdict st j with
  | none => exact crosses_open hop hkinds htruth htrue hfalse hsome hfresh
  | some truth =>
      refine crosses_decided hop hkinds htruth ?_ hfresh
      cases truth
      · exact hfalse
      · exact htrue

end Jumps

end Datapack.Optimize.Folding
