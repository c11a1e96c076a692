import Datapack.Proofs.Optimize.Folding.Regions

/-!
# Walking over conditional groups

The regions of a group are gathered as pending branches, all of which start from the snapshot taken
before the first; the jump behind them then leads to branches that are right.
-/

namespace Datapack.Optimize.Folding

open Ir

/-! ## Groups -/

/-- A program with distinct names for its regions, its tree, and what it is folded to. -/
structure Setting (prog out : Stream) (e : Surroundings) : Prop where
  tree : ScopeTree.ofStream prog = .ok e.tree
  names : (regionNames prog).Nodup
  nonempty : "" ∉ regionNames prog
  outNames : (regionNames out).Nodup

section Groups

variable {prog out : Stream} {e : Surroundings} {D V : List Variable} {p : Ir.Position} {st : State}
  {b x j : Instruction} {body rest : Stream}

theorem Setting.kind (hset : Setting prog out e) {pre post : Stream}
    (hprog : prog = pre ++ b :: post) (hop : b.op = .scopeBegin) :
    (e.tree.node ((Ir.Position.start.after pre).opened + 1)).kind = b.scopeKind :=
  congrArg (·.2.1) (ScopeTree.sig_node_begin hset.tree hprog hop)

/-- The name of a region leads to it from the region around it. -/
theorem Setting.target? (hset : Setting prog out e) {pre post : Stream}
    (hprog : prog = pre ++ b :: post) (hop : b.op = .scopeBegin)
    (hnodes : st.frames.map Frame.node = (Ir.Position.start.after pre).stack) :
    Folding.target? e st b.scopeName = some ((Ir.Position.start.after pre).opened + 1) := by
  have hsig := ScopeTree.sig_node_begin hset.tree hprog hop
  have hname : (e.tree.node ((Ir.Position.start.after pre).opened + 1)).name = b.scopeName :=
    congrArg Prod.fst hsig
  have hparent : (e.tree.node ((Ir.Position.start.after pre).opened + 1)).parent? =
      some st.top.node := by
    have houter : (e.tree.node ((Ir.Position.start.after pre).opened + 1)).outer =
      (Ir.Position.start.after pre).stack := congrArg (·.2.2) hsig
    rw [ScopeNode.parent?, houter, ← hnodes]
    rfl
  have hne : b.scopeName ≠ "" := by
    intro hempty
    apply hset.nonempty
    rw [← hempty, hprog, regionNames_append, regionNames_cons_begin hop]
    simp
  unfold Folding.target?
  rw [if_neg hne, ← hname]
  refine ScopeTree.resolve_eq_some hset.tree hset.names (by simp [ScopeTree.root]) ?_ ?_
  · rwa [hname]
  · exact .inr ⟨st.top.node, by simp [ScopeTree.ancestors], hparent⟩

/-- A region that is met is passed over. -/
theorem runs_region {s : Stream} (hregion : Encloses b x) (hbody : closes [] body = true)
    {σ τ : Store} (hrest : Runs s rest σ τ) : Runs s (b :: (body ++ x :: rest)) σ τ := by
  refine .region hregion.opens ?_
  rw [splitRegion_region hbody hregion.closes]
  exact hrest

theorem closes_folded (st : State) (hbody : closes [] body = true) :
    closes [] (foldFrom e st body).code = true := by
  rw [← closes_delimiters, delimiters_foldFrom, closes_delimiters, hbody]

theorem snapshot_of_free (hkinds : ∀ f ∈ st.frames, State.isBoundary f.kind = false)
    (hfree : ∀ q ∈ st.bases, q.1 ≠ st.top.node) (v : Variable) :
    st.snapshot.get? v = State.hit v st.frames ∧ st.bases.lookup st.top.node = none := by
  have hnone : st.bases.lookup st.top.node = none := by
    rw [← Option.not_isSome_iff_eq_none, lookup_isSome_iff]
    intro hmem
    obtain ⟨q, hq, hkey⟩ := List.mem_map.1 hmem
    exact hfree q hq hkey
  refine ⟨?_, hnone⟩
  rw [State.snapshot, hnone, Option.getD_none, State.flatten_get?, State.lookup_eq_hit st hkinds]
  cases State.hit v st.frames <;> simp

/-- The regions of a group are behind, and the jump has still to come. -/
structure Gathered (p : Ir.Position) (st st' : State) (regions : Stream) : Prop where
  top : st'.top = st.top
  outer : st'.outer = st.outer
  opened : st'.opened = (p.after regions).opened
  bases : st'.bases = (st.top.node, st.flatten) :: st.bases
  pending : ∃ mine, st'.pending = mine ++ st.pending ∧
    ∀ q ∈ mine, st.opened < q.1 ∧ q.1 ≤ st'.opened ∧ q.2.parent = st.top.node

theorem Gathered.frames {st' : State} {regions : Stream} (h : Gathered p st st' regions) :
    st'.frames = st.frames := by
  rw [State.frames, State.frames, h.top, h.outer]

theorem Gathered.passes {st' : State} {regions : Stream} (hready : Ready D V p st)
    (hfree : ∀ q ∈ st.bases, q.1 ≠ st.top.node) (hg : Gathered p st st' regions)
    (hop : j.op = .condJump) (hlands : Lands e st' (step e st' j).1 j)
    (htargets : ∀ n, some n = target? e st' j.onTrue ∨ some n = target? e st' j.onFalse →
      st.opened < n) :
    Passes p st (step e st' j).1 (regions ++ [j]) where
  outer := by rw [hlands.outer, hg.outer]
  node := by rw [hlands.node, hg.top]
  kind := by rw [hlands.kind, hg.top]
  declared := by
    intro v hv
    rw [hlands.declared, hg.top] at hv
    exact .inl hv
  declares := by
    intro v hv
    rwa [hlands.declared, hg.top]
  written := by
    intro v hv
    rw [← hg.top] at hv
    exact hlands.written v hv
  opened := by
    rw [hlands.opened, hg.opened, Position.after_append, Position.after_cons, Position.after_nil,
      Position.advance_other _ (by simp [hop]) (by simp [hop])]
  bases := by
    rw [hlands.bases, hg.bases, hg.top, List.filter_cons_of_neg (by simp)]
    refine List.filter_eq_self.2 fun q hq => ?_
    simpa using hfree q hq
  pending := by
    obtain ⟨f, hf, hgone⟩ := hlands.pending
    obtain ⟨mine, hmine, hids⟩ := hg.pending
    refine ⟨mine.filter f, ?_, ?_⟩
    · rw [hf, hmine, List.filter_append, List.filter_eq_self (p := f) (l := st.pending) |>.2]
      intro q hq
      cases hfq : f q with
      | true => rfl
      | false =>
          have hlt := htargets q.1 (hgone q hfq)
          have hle := (hready.pending q hq).1
          omega
    · intro q hq
      rw [hlands.opened]
      exact (hids q (List.mem_filter.1 hq).1).2

/-- Behind the jump nothing has been met whose declaration is not visible. -/
theorem Gathered.visible {st' : State} {regions : Stream} (hready : Ready D V p st)
    (hg : Gathered p st st' regions) (hlands : Lands e st' (step e st' j).1 j)
    (htargets : ∀ n, some n = target? e st' j.onTrue ∨ some n = target? e st' j.onFalse →
      st.opened < n)
    (hwrites : ∀ q ∈ st'.pending, st.opened < q.1 → ∀ v ∈ q.2.written, v ∈ D → v ∈ V) :
    ∀ v, Met (step e st' j).1 v → v ∈ D → v ∈ V := by
  have hbranch : ∀ v name, name = j.onTrue ∨ name = j.onFalse →
      v ∈ branchWrites e st' name → v ∈ D → v ∈ V := by
    intro v name hname hv
    obtain ⟨q, hq, hv⟩ := (State.mem_written_iff _ _).1 hv
    obtain ⟨n, hn, hlookup⟩ := Option.bind_eq_some_iff.1 hq
    obtain ⟨before, after, hsplit, _⟩ := List.lookup_eq_some_iff.1 hlookup
    have hlt : st.opened < n := by
      apply htargets n
      rcases hname with rfl | rfl
      · exact .inl hn.symm
      · exact .inr hn.symm
    exact hwrites (n, q) (by simp [hsplit]) hlt v hv
  have hold : ∀ v, (State.hit v (step e st' j).1.frames).isSome = true ∨
      v ∈ (step e st' j).1.top.written → v ∈ D → v ∈ V := by
    intro v hv
    rcases hlands.met v hv with hmet | hv | hv
    · rw [hg.frames, hg.top] at hmet
      rcases hmet with hmet | hmet
      · exact hready.visible v (.inl hmet)
      · exact hready.visible v (.inr (.inl hmet))
    · exact hbranch v _ (.inl rfl) hv
    · exact hbranch v _ (.inr rfl) hv
  rintro v (hv | hv | ⟨q, hq, hparent, hv⟩)
  · exact hold v (.inl hv)
  · exact hold v (.inr hv)
  · obtain ⟨f, hf, _⟩ := hlands.pending
    obtain ⟨mine, hmine, hids⟩ := hg.pending
    rw [hf] at hq
    have hq' := (List.mem_filter.1 hq).1
    rw [hmine, List.mem_append] at hq'
    rcases hq' with hq' | hq'
    · exact hwrites q (by simp [hmine, hq']) (hids q hq').1 v hv
    · rw [hlands.node, hg.top] at hparent
      exact hready.visible v (.inr (.inr ⟨q, hq', hparent, hv⟩))

theorem simulates_group {st' : State} {regions folded : Stream} (hready : Ready D V p st)
    (hfree : ∀ q ∈ st.bases, q.1 ≠ st.top.node) (hwalk : walk e st regions = st')
    (hcode : (foldFrom e st regions).code = folded) (hg : Gathered p st st' regions)
    (hop : j.op = .condJump)
    (htargets : ∀ n, some n = target? e st' j.onTrue ∨ some n = target? e st' j.onFalse →
      st.opened < n)
    (hskip : ∀ t σ τ, Runs prog t σ τ → Runs prog (regions ++ t) σ τ)
    (hskip' : ∀ t σ τ, Runs out t σ τ → Runs out (folded ++ t) σ τ)
    (hcross : Crosses prog out e st' (declarations regions) j)
    (hrest : Simulates prog out e D V (p.after (regions ++ [j])) (step e st' j).1 rest) :
    Simulates prog out e D V p st (regions ++ j :: rest) := by
  have hpasses := (hg.passes hready hfree hop hcross.lands htargets).trans hrest.passes
  have hwalk' : walk e st (regions ++ j :: rest) = walk e (step e st' j).1 rest := by
    rw [walk_append, hwalk, walk_cons]
  have hcode' : (foldFrom e st (regions ++ j :: rest)).code =
      folded ++ ((step e st' j).2.emitted j ++ (foldFrom e (step e st' j).1 rest).code) := by
    rw [code_append, hcode, hwalk, code_cons]
  refine ⟨?_, by rw [hwalk']; exact hrest.visible, ?_⟩
  · rw [hwalk']
    simpa using hpasses
  · intro σ hσ
    rw [hwalk', hcode']
    obtain ⟨ρ, hρ, hchanged, hrun, hrun'⟩ := hcross.runs σ (by rw [hg.frames]; exact hσ)
    obtain ⟨τ, hprog, hout, hτ, hchanged'⟩ := hrest.runs ρ hρ
    refine ⟨τ, hskip _ _ _ (hrun _ _ hprog), hskip' _ _ _ (hrun' _ _ hout), hτ, fun v => ?_⟩
    rw [declarations_append, declarations_cons_other (by simp [hop]), List.mem_append]
    rcases hchanged' v with hsame | hwritten | hdecl
    · rcases hchanged v with hsame' | hwritten | hdecl
      · exact .inl (hsame.trans hsame')
      · exact .inr (.inl (hrest.passes.written v hwritten))
      · exact .inr (.inr (.inl hdecl))
    · exact .inr (.inl hwritten)
    · exact .inr (.inr (.inr hdecl))

theorem Means.mono {fs : List Frame} {ds ds' : List Variable} {q : Branch} {s t : Stream}
    (h : Means prog out fs ds q s t) (hsub : ∀ v ∈ ds, v ∈ ds') : Means prog out fs ds' q s t := by
  intro σ hσ
  obtain ⟨τ, hrun, hrun', hknown, hchanged⟩ := h σ hσ
  exact ⟨τ, hrun, hrun', hknown, fun v => (hchanged v).imp_right fun h => h.imp_right (hsub v)⟩

/-- The region `b … x` with the body `body` has been walked over from `st` to `st'`. -/
structure Region (prog out : Stream) (e : Surroundings) (p : Ir.Position) (st st' : State)
    (b x : Instruction) (body : Stream) (q : Branch) (folded : Stream) : Prop where
  leaves : Leaves p st st' (b :: (body ++ [x])) q
  means : Means prog out st.frames (declarations body) q body folded
  target : target? e st b.scopeName = some (st.opened + 1)
  named : b.scopeName ≠ ""
  prog : bodyOf b.scopeName prog = some body
  out : bodyOf b.scopeName out = some folded

theorem Region.leads {st' st'' : State} {q : Branch} {folded : Stream} {ds : List Variable}
    (h : Region prog out e p st st' b x body q folded) (hframes : st''.frames = st.frames)
    (hbranch : st''.branch? (some (st.opened + 1)) = some q)
    (hds : ∀ v ∈ declarations body, v ∈ ds) : Leads prog out e st'' ds b.scopeName := by
  have htop : st''.top.node = st.top.node := by
    have hhead := congrArg List.head? hframes
    simp only [State.frames, List.head?_cons, Option.some.injEq] at hhead
    rw [hhead]
  refine .inr ⟨h.named, st.opened + 1, q, body, folded, ?_, hbranch, h.prog, h.out, ?_⟩
  · rw [target?_congr e htop, h.target]
  · rw [hframes]
    exact h.means.mono hds

theorem region_walked (hset : Setting prog out e) (hready : Ready D V p st)
    (hsnap : ∀ v, st.snapshot.get? v = State.hit v st.frames) (hregion : Encloses b x)
    (hbody : closes [] body = true) {pre post pre' post' : Stream}
    (hp : p = Ir.Position.start.after pre) (hprog : prog = pre ++ b :: (body ++ x :: post))
    (hout : out = pre' ++
      b :: ((foldFrom e (st.enter (st.opened + 1) .conditional) body).code ++ x :: post'))
    (hsim : Simulates prog out e D V (p.advance b) (st.enter (st.opened + 1) .conditional) body) :
    Region prog out e p st (walk e st (b :: (body ++ [x]))) b x body
      (closingBranch (walk e (st.enter (st.opened + 1) .conditional) body) st.top.node)
      (foldFrom e (st.enter (st.opened + 1) .conditional) body).code := by
  subst hp
  have hkind : (e.tree.node (st.opened + 1)).kind = .conditional := by
    rw [hready.opened, hset.kind hprog hregion.opens, hregion.kind]
  refine ⟨leaves_region hready hregion hkind hsim, means_region hsnap _ hsim, ?_, ?_, ?_, ?_⟩
  · rw [hset.target? hprog hregion.opens hready.nodes, hready.opened]
  · intro hempty
    apply hset.nonempty
    rw [← hempty, hprog, regionNames_append, regionNames_cons_begin hregion.opens]
    simp
  · exact bodyOf_region hprog hset.names hregion.opens hregion.closes hbody
  · exact bodyOf_region hout hset.outNames hregion.opens hregion.closes (closes_folded _ hbody)

theorem code_region (body : Stream) (hregion : Encloses b x)
    (hkind : (e.tree.node (st.opened + 1)).kind = .conditional) :
    (foldFrom e st (b :: (body ++ [x]))).code =
      b :: ((foldFrom e (st.enter (st.opened + 1) .conditional) body).code ++ [x]) := by
  rw [code_cons, step_begin hregion.opens hkind, code_append, code_cons, step_end hregion.closes]
  rfl

theorem mem_jumpTargets (hop : j.op = .condJump) {name : String} :
    name ∈ j.jumpTargets ↔ name ≠ "" ∧ (name = j.onTrue ∨ name = j.onFalse) := by
  simp only [Instruction.jumpTargets, hop, List.mem_filter, List.mem_cons, List.not_mem_nil,
    or_false, decide_eq_true_eq]
  exact and_comm

/-- What the branch of a region writes is visible where the region stands. -/
theorem visible_closingBranch {st' : State} (hvisible : ∀ v, Met st' v → v ∈ D →
    v ∈ V ∨ v ∈ st'.top.declared) (parent : Nat) :
    ∀ v ∈ (closingBranch st' parent).written, v ∈ D → v ∈ V := by
  intro v hv hD
  unfold closingBranch Frame.escaping at hv
  simp only [State.storeAll_declared, List.mem_filter, State.mem_storeAll_written,
    List.mem_flatMap, decide_eq_true_eq] at hv
  obtain ⟨hv, hnot⟩ := hv
  have hmet : Met st' v := by
    rcases hv with ⟨q, ⟨hq, hparent⟩, hv⟩ | hv
    · exact .inr (.inr ⟨q, hq, hparent, hv⟩)
    · exact .inr (.inl hv)
  exact (hvisible v hmet hD).resolve_right hnot

theorem Leaves.frames {st' : State} {s : Stream} {q : Branch} (h : Leaves p st st' s q) :
    st'.frames = st.frames := by
  rw [State.frames, State.frames, h.top, h.outer]

/-- Behind a region a walk is ready again. -/
theorem Leaves.ready {st' : State} {s : Stream} {q : Branch} (hready : Ready D V p st)
    (h : Leaves p st st' s q) (hs : closes [] s = true) (hlt : st.opened < st'.opened)
    (hvisible : ∀ v ∈ q.written, v ∈ D → v ∈ V) : Ready D V (p.after s) st' where
  opened := h.opened
  nodes := by
    have hstack := Position.stack_after hs p
    simp only [List.length_nil, List.drop_zero] at hstack
    rw [hstack, h.frames, hready.nodes]
  kinds := by
    rw [h.frames]
    exact hready.kinds
  visible := by
    rintro v (hv | hv | ⟨r, hr, hparent, hv⟩)
    · exact hready.visible v (.inl (by rwa [h.frames] at hv))
    · exact hready.visible v (.inr (.inl (by rwa [h.top] at hv)))
    · rw [h.pending, List.mem_cons] at hr
      rcases hr with rfl | hr
      · exact hvisible v hv
      · rw [h.top] at hparent
        exact hready.visible v (.inr (.inr ⟨r, hr, hparent, hv⟩))
  node_le := by
    have hle := hready.node_le
    rw [h.top]
    omega
  bases := by
    intro r hr
    rw [h.bases, State.enter_conditional] at hr
    simp only at hr
    have hnode := hready.node_le
    split at hr
    · have hle := hready.bases r hr
      omega
    · rcases List.mem_cons.1 hr with rfl | hr
      · simp only
        omega
      · have hle := hready.bases r hr
        omega
  pending := by
    intro r hr
    have hnode := hready.node_le
    rw [h.pending, List.mem_cons] at hr
    rcases hr with rfl | hr
    · rw [h.parent]
      exact ⟨by simp only; omega, by omega⟩
    · have hle := hready.pending r hr
      exact ⟨by omega, by omega⟩

theorem Leaves.opened_lt {st' : State} {q : Branch} (hopened : st.opened = p.opened)
    (hop : b.op = .scopeBegin) (h : Leaves p st st' (b :: rest) q) : st.opened < st'.opened := by
  have hle := Position.opened_le_after (p.advance b) rest
  rw [Position.advance_begin p hop] at hle
  have heq := h.opened
  rw [Position.after_cons, Position.advance_begin p hop] at heq
  simp only at hle
  omega

/-- Wherever the stream `s` stands in the program, what it is folded to runs beside it. -/
def Simulable (prog out : Stream) (e : Surroundings) (D V : List Variable) (s : Stream) : Prop :=
  ∀ (pre post pre' post' : Stream) (st : State), prog = pre ++ (s ++ post) →
    out = pre' ++ ((foldFrom e st s).code ++ post') → Ready D V (Ir.Position.start.after pre) st →
    (∀ q ∈ st.bases, q.1 ≠ st.top.node) → (declarations s).Nodup →
    (∀ v ∈ declarations s, v ∈ D ∧ v ∉ V) →
    Simulates prog out e D V (Ir.Position.start.after pre) st s

theorem Simulable.region (hset : Setting prog out e) (hbody : Simulable prog out e D V body)
    (hclosed : closes [] body = true) (hregion : Encloses b x) {pre post pre' post' : Stream}
    (hprog : prog = pre ++ (b :: (body ++ [x]) ++ post))
    (hout : out = pre' ++ ((foldFrom e st (b :: (body ++ [x]))).code ++ post'))
    (hready : Ready D V (Ir.Position.start.after pre) st)
    (hsnap : ∀ v, st.snapshot.get? v = State.hit v st.frames)
    (hnodup : (declarations body).Nodup) (hfresh : ∀ v ∈ declarations body, v ∈ D ∧ v ∉ V) :
    ∃ q folded, Region prog out e (Ir.Position.start.after pre) st (walk e st (b :: (body ++ [x])))
        b x body q folded ∧ (∀ v ∈ q.written, v ∈ D → v ∈ V) ∧
      (foldFrom e st (b :: (body ++ [x]))).code = b :: (folded ++ [x]) ∧
      closes [] folded = true := by
  have hprog' : prog = pre ++ b :: (body ++ x :: post) := by simp [hprog]
  have hkind : (e.tree.node (st.opened + 1)).kind = .conditional := by
    rw [hready.opened, hset.kind hprog' hregion.opens, hregion.kind]
  have hcode := code_region body hregion hkind
  have hout' : out = pre' ++
      b :: ((foldFrom e (st.enter (st.opened + 1) .conditional) body).code ++ x :: post') := by
    rw [hout, hcode]
    simp
  have hafter : Ir.Position.start.after (pre ++ [b]) = (Ir.Position.start.after pre).advance b := by
    rw [Position.after_append]
    rfl
  have henter := hready.enter hregion.opens hsnap
  have hsim := hbody (pre ++ [b]) (x :: post) (pre' ++ [b]) (x :: post')
    (st.enter (st.opened + 1) .conditional) (by simp [hprog]) (by simp [hout'])
    (by rw [hafter]; exact henter)
    (by
      intro q hq
      have hle : q.1 ≤ st.opened := by
        rw [State.enter_conditional] at hq
        simp only at hq
        split at hq
        · exact hready.bases q hq
        · rcases List.mem_cons.1 hq with rfl | hq
          · exact hready.node_le
          · exact hready.bases q hq
      rw [State.enter_conditional]
      simp only
      omega)
    hnodup hfresh
  rw [hafter] at hsim
  exact ⟨_, _, region_walked hset hready hsnap hregion hclosed rfl hprog' hout' hsim,
    visible_closingBranch hsim.visible _, hcode, closes_folded _ hclosed⟩

theorem branch?_cons (st : State) {n m : Nat} {q : Branch} {qs : List (Nat × Branch)}
    (h : st.pending = (m, q) :: qs) :
    st.branch? (some n) = if n = m then some q else qs.lookup n := by
  simp only [State.branch?, Option.bind_some, h, lookup_cons_ite]

theorem leads_of_mem {ds : List Variable} (hop : j.op = .condJump)
    (h : ∀ name ∈ j.jumpTargets, Leads prog out e st ds name) :
    Leads prog out e st ds j.onTrue ∧ Leads prog out e st ds j.onFalse := by
  have hname : ∀ name, name = j.onTrue ∨ name = j.onFalse → Leads prog out e st ds name := by
    intro name hor
    by_cases hempty : name = ""
    · exact .inl hempty
    · exact h name ((mem_jumpTargets hop).2 ⟨hempty, hor⟩)
  exact ⟨hname _ (.inl rfl), hname _ (.inr rfl)⟩

/-- The targets of a jump all of whose names lead to regions opened in the group. -/
theorem target?_lt (hop : j.op = .condJump) {low : Nat}
    (h : ∀ name ∈ j.jumpTargets, ∃ n, target? e st name = some n ∧ low < n) :
    ∀ n, some n = target? e st j.onTrue ∨ some n = target? e st j.onFalse → low < n := by
  have hname : ∀ name, name = j.onTrue ∨ name = j.onFalse → ∀ n, some n = target? e st name →
      low < n := by
    intro name hor n hn
    by_cases hempty : name = ""
    · rw [target?, if_pos hempty] at hn
      simp at hn
    · obtain ⟨m, hm, hlt⟩ := h name ((mem_jumpTargets hop).2 ⟨hempty, hor⟩)
      rw [hm, Option.some.injEq] at hn
      rwa [hn]
  intro n hn
  rcases hn with hn | hn
  · exact hname _ (.inl rfl) n hn
  · exact hname _ (.inr rfl) n hn

/-- Nothing is recorded of the variables that a group declares. -/
theorem hit_of_fresh (hready : Ready D V p st) {ds : List Variable}
    (hfresh : ∀ v ∈ ds, v ∈ D ∧ v ∉ V) : ∀ v ∈ ds, State.hit v st.frames = none := by
  intro v hv
  cases hhit : State.hit v st.frames with
  | none => rfl
  | some y =>
      have hV := hready.visible v (.inl (by simp [hhit])) (hfresh v hv).1
      exact absurd hV (hfresh v hv).2

/-- A group whose regions have been gathered, and what follows it. -/
theorem Simulable.group (hrest : Simulable prog out e D V rest) (hop : j.op = .condJump)
    {regions pre post pre' post' : Stream} (hprog : prog = pre ++ (regions ++ j :: rest ++ post))
    (hout : out = pre' ++ ((foldFrom e st (regions ++ j :: rest)).code ++ post'))
    (hready : Ready D V (Ir.Position.start.after pre) st)
    (hfree : ∀ q ∈ st.bases, q.1 ≠ st.top.node)
    (hnodup : (declarations (regions ++ j :: rest)).Nodup)
    (hfresh : ∀ v ∈ declarations (regions ++ j :: rest), v ∈ D ∧ v ∉ V)
    (hclosed : closes [] regions = true)
    (hg : Gathered (Ir.Position.start.after pre) st (walk e st regions) regions)
    (hwrites : ∀ q ∈ (walk e st regions).pending, st.opened < q.1 →
      ∀ v ∈ q.2.written, v ∈ D → v ∈ V)
    (hnamed : ∃ name, name ∈ j.jumpTargets)
    (hleads : ∀ name ∈ j.jumpTargets,
      Leads prog out e (walk e st regions) (declarations regions) name)
    (htargets : ∀ name ∈ j.jumpTargets, ∃ n, target? e (walk e st regions) name = some n ∧
      st.opened < n)
    (hskip : ∀ t σ τ, Runs prog t σ τ → Runs prog (regions ++ t) σ τ)
    (hskip' : ∀ t σ τ, Runs out t σ τ → Runs out ((foldFrom e st regions).code ++ t) σ τ) :
    Simulates prog out e D V (Ir.Position.start.after pre) st (regions ++ j :: rest) := by
  rw [declarations_append, declarations_cons_other (by simp [hop])] at hnodup hfresh
  have hsome : j.onTrue ≠ "" ∨ j.onFalse ≠ "" := by
    obtain ⟨name, hname⟩ := hnamed
    obtain ⟨hne, h | h⟩ := (mem_jumpTargets hop).1 hname
    · exact .inl (h ▸ hne)
    · exact .inr (h ▸ hne)
  have hlow := target?_lt hop htargets
  obtain ⟨htrue, hfalse⟩ := leads_of_mem hop hleads
  have hcross := crosses hop (by rw [hg.frames]; exact hready.kinds) htrue hfalse hsome
    (by
      rw [hg.frames]
      exact hit_of_fresh hready fun v hv => hfresh v (List.mem_append_left _ hv))
  have hpasses := hg.passes hready hfree hop hcross.lands hlow
  have hclosed' : closes [] (regions ++ [j]) = true := by
    have happend := closes_append hclosed [] [j]
    rw [List.append_nil] at happend
    rw [happend, closes_other (by simp [hop]) (by simp [hop])]
    rfl
  have hready' := hready.passed hpasses hclosed' (hg.visible hready hcross.lands hlow hwrites)
  refine simulates_group hready hfree rfl rfl hg hop hlow hskip hskip' hcross ?_
  have hafter : Ir.Position.start.after (pre ++ (regions ++ [j])) =
      (Ir.Position.start.after pre).after (regions ++ [j]) := Position.after_append _ _ _
  rw [← hafter] at hready' ⊢
  rw [code_append, code_cons] at hout
  refine hrest (pre ++ (regions ++ [j])) post
    (pre' ++ ((foldFrom e st regions).code ++ (step e (walk e st regions) j).2.emitted j)) post' _
    (by simp [hprog]) (by simp [hout]) hready' ?_ ?_ ?_
  · intro q hq
    rw [hpasses.bases] at hq
    rw [hpasses.node]
    exact hfree q hq
  · exact (List.nodup_append.1 hnodup).2.1
  · exact fun v hv => hfresh v (List.mem_append_right _ hv)

theorem declarations_region (hregion : Encloses b x) (body : Stream) :
    declarations (b :: (body ++ [x])) = declarations body := by
  rw [declarations_cons_other (by simp [hregion.opens]), declarations_append,
    declarations_cons_other (by simp [hregion.closes])]
  simp [declarations]

theorem bases_enter (hkinds : ∀ f ∈ st.frames, State.isBoundary f.kind = false)
    (hfree : ∀ q ∈ st.bases, q.1 ≠ st.top.node) (n : Nat) :
    (st.enter n .conditional).bases = (st.top.node, st.flatten) :: st.bases := by
  rw [State.enter_conditional, (snapshot_of_free hkinds hfree default).2]
  rfl

theorem closes_region_nil (hregion : Encloses b x) (hclosed : closes [] body = true) :
    closes [] (b :: (body ++ [x])) = true := by
  rw [closes_region hregion hclosed]
  rfl

theorem Gathered.one {st' : State} {s : Stream} {q : Branch} (hready : Ready D V p st)
    (hfree : ∀ q ∈ st.bases, q.1 ≠ st.top.node) (h : Leaves p st st' s q) (hlt : st.opened < st'.opened) :
    Gathered p st st' s where
  top := h.top
  outer := h.outer
  opened := h.opened
  bases := by rw [h.bases, bases_enter hready.kinds hfree]
  pending := by
    refine ⟨[(st.opened + 1, q)], h.pending, fun r hr => ?_⟩
    rw [List.mem_singleton.1 hr]
    exact ⟨Nat.lt_succ_self _, hlt, h.parent⟩

/-- Another region is gathered. It starts from the snapshot that is there already. -/
theorem Gathered.snoc {st₁ st₂ : State} {s s' : Stream} {q : Branch} (hg : Gathered p st st₁ s)
    (h : Leaves (p.after s) st₁ st₂ s' q) (hle : st.opened ≤ st₁.opened) (hlt : st₁.opened < st₂.opened) :
    Gathered p st st₂ (s ++ s') where
  top := h.top.trans hg.top
  outer := h.outer.trans hg.outer
  opened := by rw [h.opened, Position.after_append]
  bases := by
    have hbase : (st₁.bases.lookup st₁.top.node).isSome = true := by
      rw [hg.bases, hg.top, lookup_cons_ite, if_pos rfl]
      rfl
    rw [h.bases, State.enter_conditional, if_pos hbase, hg.bases]
  pending := by
    obtain ⟨mine, hmine, hids⟩ := hg.pending
    refine ⟨(st₁.opened + 1, q) :: mine, by rw [h.pending, hmine]; rfl, fun r hr => ?_⟩
    rcases List.mem_cons.1 hr with rfl | hr
    · refine ⟨Nat.lt_succ_of_le hle, hlt, ?_⟩
      rw [h.parent, hg.top]
    · obtain ⟨hlow, hhigh, hparent⟩ := hids r hr
      exact ⟨hlow, Nat.le_trans hhigh (Nat.le_of_lt hlt), hparent⟩

/-- Behind a region what pending branches write is visible if it was before the region and if what the
branch of the region writes is. -/
theorem Leaves.writes {st' : State} {s : Stream} {q : Branch} (h : Leaves p st st' s q) {low : Nat}
    (hq : ∀ v ∈ q.written, v ∈ D → v ∈ V)
    (hold : ∀ r ∈ st.pending, low < r.1 → ∀ v ∈ r.2.written, v ∈ D → v ∈ V) :
    ∀ r ∈ st'.pending, low < r.1 → ∀ v ∈ r.2.written, v ∈ D → v ∈ V := by
  intro r hmem hlow
  rw [h.pending, List.mem_cons] at hmem
  rcases hmem with rfl | hmem
  · exact hq
  · exact hold r hmem hlow

/-- Before a group no branch of it is pending. -/
theorem Ready.writes (hready : Ready D V p st) :
    ∀ r ∈ st.pending, st.opened < r.1 → ∀ v ∈ r.2.written, v ∈ D → v ∈ V := by
  intro r hmem hlow
  have hle := (hready.pending r hmem).1
  omega

theorem Simulable.one (hset : Setting prog out e) (hregion : Encloses b x)
    (hclosed : closes [] body = true) (hbody : Simulable prog out e D V body)
    (hop : j.op = .condJump) (hnamed : b.scopeName ∈ j.jumpTargets)
    (honly : ∀ n ∈ j.jumpTargets, n = b.scopeName) (hrest : Simulable prog out e D V rest) :
    Simulable prog out e D V (b :: (body ++ x :: j :: rest)) := by
  have hlist : b :: (body ++ x :: j :: rest) = b :: (body ++ [x]) ++ j :: rest := by simp
  rw [hlist]
  intro pre post pre' post' st hprog hout hready hfree hnodup hfresh
  have hparts := hnodup
  rw [declarations_append, declarations_region hregion] at hparts
  have hown : ∀ v ∈ declarations body, v ∈ D ∧ v ∉ V := by
    intro v hv
    apply hfresh v
    rw [declarations_append, declarations_region hregion]
    exact List.mem_append_left _ hv
  have hprog' : prog = pre ++ (b :: (body ++ [x]) ++ (j :: rest ++ post)) := by simp [hprog]
  have hout' : out = pre' ++ ((foldFrom e st (b :: (body ++ [x]))).code ++
      ((foldFrom e (walk e st (b :: (body ++ [x]))) (j :: rest)).code ++ post')) := by
    rw [hout, code_append, List.append_assoc]
  obtain ⟨q, folded, hr, hwrites, hcode, hfolded⟩ := hbody.region hset hclosed hregion hprog' hout'
    hready (fun v => (snapshot_of_free hready.kinds hfree v).1) (List.nodup_append.1 hparts).1 hown
  have hleaves := hr.leaves
  have hlt := hleaves.opened_lt hready.opened hregion.opens
  have hbranch := branch?_cons _ (n := st.opened + 1) hleaves.pending
  rw [if_pos rfl] at hbranch
  refine hrest.group hop hprog hout hready hfree hnodup hfresh (closes_region_nil hregion hclosed)
    (.one hready hfree hleaves hlt) (hleaves.writes hwrites hready.writes) ⟨_, hnamed⟩ ?_ ?_ ?_ ?_
  · intro name hname
    rw [honly name hname]
    refine hr.leads hleaves.frames hbranch ?_
    rw [declarations_region hregion]
    exact fun v hv => hv
  · intro name hname
    refine ⟨st.opened + 1, ?_, Nat.lt_succ_self _⟩
    rw [honly name hname, target?_congr e (congrArg Frame.node hleaves.top), hr.target]
  · intro t σ τ hrun
    have hskipped := runs_region hregion hclosed hrun
    simpa using hskipped
  · intro t σ τ hrun
    rw [hcode]
    have hskipped := runs_region hregion hfolded hrun
    simpa using hskipped

/-- The second region of a group starts from the snapshot taken for the first. -/
theorem Gathered.snapshot {st' : State} {s : Stream} (hg : Gathered p st st' s)
    (hkinds : ∀ f ∈ st.frames, State.isBoundary f.kind = false) (v : Variable) :
    st'.snapshot.get? v = State.hit v st'.frames := by
  have hlookup : st'.bases.lookup st'.top.node = some st.flatten := by
    rw [hg.bases, hg.top, lookup_cons_ite, if_pos rfl]
  rw [State.snapshot, hlookup, Option.getD_some, State.flatten_get?,
    State.lookup_eq_hit st hkinds, hg.frames]
  cases State.hit v st.frames <;> simp

/-- Regions one after the other have different names. -/
theorem Setting.scopeName_ne (hset : Setting prog out e) {b' : Instruction} {pre mid post : Stream}
    (hprog : prog = pre ++ b :: (mid ++ b' :: post)) (hop : b.op = .scopeBegin)
    (hop' : b'.op = .scopeBegin) : b.scopeName ≠ b'.scopeName := by
  have hnames := hset.names
  rw [hprog, regionNames_append, regionNames_cons_begin hop, regionNames_append,
    regionNames_cons_begin hop'] at hnames
  have htail := (List.nodup_cons.1 (List.nodup_append.1 hnames).2.1).1
  intro heq
  apply htail
  rw [heq]
  simp

theorem jumpTargets_of_two (hop : j.op = .condJump) {y z : String} (hne : y ≠ z)
    (hy : y ∈ j.jumpTargets) (hz : z ∈ j.jumpTargets) : ∀ name ∈ j.jumpTargets, name = y ∨ name = z := by
  intro name hname
  have h := ((mem_jumpTargets hop).1 hname).2
  have h₁ := ((mem_jumpTargets hop).1 hy).2
  have h₂ := ((mem_jumpTargets hop).1 hz).2
  grind

theorem Simulable.two (hset : Setting prog out e) {b' x' : Instruction} {body' : Stream}
    (hregion : Encloses b x) (hclosed : closes [] body = true)
    (hbody : Simulable prog out e D V body) (hregion' : Encloses b' x')
    (hclosed' : closes [] body' = true) (hbody' : Simulable prog out e D V body')
    (hop : j.op = .condJump) (hnamed : b.scopeName ∈ j.jumpTargets)
    (hnamed' : b'.scopeName ∈ j.jumpTargets) (hrest : Simulable prog out e D V rest) :
    Simulable prog out e D V (b :: (body ++ x :: b' :: (body' ++ x' :: j :: rest))) := by
  have hlist : b :: (body ++ x :: b' :: (body' ++ x' :: j :: rest)) =
      b :: (body ++ [x]) ++ b' :: (body' ++ [x']) ++ j :: rest := by simp
  rw [hlist]
  intro pre post pre' post' st hprog hout hready hfree hnodup hfresh
  have hdecl : declarations (b :: (body ++ [x]) ++ b' :: (body' ++ [x'])) =
      declarations body ++ declarations body' := by
    rw [declarations_append, declarations_region hregion, declarations_region hregion']
  have hparts := hnodup
  rw [declarations_append, hdecl] at hparts
  have hparts' := List.nodup_append.1 (List.nodup_append.1 hparts).1
  have hown : ∀ v, v ∈ declarations body ∨ v ∈ declarations body' → v ∈ D ∧ v ∉ V := by
    intro v hv
    apply hfresh v
    rw [declarations_append, hdecl]
    exact List.mem_append_left _ (List.mem_append.2 hv)
  have hprog₀ : prog = pre ++ b :: (body ++ [x] ++ b' :: (body' ++ [x'] ++ j :: rest ++ post)) := by
    simp [hprog]
  have honly := jumpTargets_of_two hop
    (hset.scopeName_ne hprog₀ hregion.opens hregion'.opens) hnamed hnamed'
  have hprog₁ : prog = pre ++ (b :: (body ++ [x]) ++
      (b' :: (body' ++ [x']) ++ (j :: rest ++ post))) := by simp [hprog]
  have hcode₀ : (foldFrom e st (b :: (body ++ [x]) ++ b' :: (body' ++ [x']) ++ j :: rest)).code =
      (foldFrom e st (b :: (body ++ [x]))).code ++
        ((foldFrom e (walk e st (b :: (body ++ [x]))) (b' :: (body' ++ [x']))).code ++
          (foldFrom e (walk e (walk e st (b :: (body ++ [x]))) (b' :: (body' ++ [x'])))
            (j :: rest)).code) := by
    rw [code_append, code_append, walk_append, List.append_assoc]
  have hout₁ : out = pre' ++ ((foldFrom e st (b :: (body ++ [x]))).code ++
      ((foldFrom e (walk e st (b :: (body ++ [x]))) (b' :: (body' ++ [x']))).code ++
        ((foldFrom e (walk e (walk e st (b :: (body ++ [x]))) (b' :: (body' ++ [x'])))
          (j :: rest)).code ++ post'))) := by
    rw [hout, hcode₀]
    simp only [List.append_assoc]
  obtain ⟨q, folded, hr, hwrites, hcode, hfolded⟩ := hbody.region hset hclosed hregion hprog₁ hout₁
    hready (fun v => (snapshot_of_free hready.kinds hfree v).1) hparts'.1 fun v hv => hown v (.inl hv)
  have hleaves := hr.leaves
  have hlt := hleaves.opened_lt hready.opened hregion.opens
  have hready' := hleaves.ready hready (closes_region_nil hregion hclosed) hlt hwrites
  rw [← Position.after_append] at hready'
  have hg := Gathered.one hready hfree hleaves hlt
  have hprog₂ : prog = pre ++ b :: (body ++ [x]) ++
      (b' :: (body' ++ [x']) ++ (j :: rest ++ post)) := by simp [hprog]
  rw [← List.append_assoc] at hout₁
  obtain ⟨q', folded', hr', hwrites', hcode', hfolded'⟩ := hbody'.region hset hclosed' hregion' hprog₂
    hout₁ hready' (hg.snapshot hready.kinds) hparts'.2.1 fun v hv => hown v (.inr hv)
  have hleaves' := hr'.leaves
  have hlt' := hleaves'.opened_lt hready'.opened hregion'.opens
  have hframes := hleaves'.frames.trans hleaves.frames
  have htop := hleaves'.top.trans hleaves.top
  have hpending := hleaves'.pending
  rw [hleaves.pending] at hpending
  have hbranch := branch?_cons _ (n := st.opened + 1) hpending
  rw [if_neg (by omega), lookup_cons_ite, if_pos rfl] at hbranch
  have hbranch' := branch?_cons _ (n := (walk e st (b :: (body ++ [x]))).opened + 1) hpending
  rw [if_pos rfl] at hbranch'
  have hwalk := walk_append e st (b :: (body ++ [x])) (b' :: (body' ++ [x']))
  rw [Position.after_append] at hleaves'
  have hg' := hg.snoc hleaves' (Nat.le_of_lt hlt) hlt'
  have hwritten := hleaves'.writes hwrites' (hleaves.writes hwrites hready.writes)
  rw [← hwalk] at hg' hwritten
  refine hrest.group hop hprog hout hready hfree hnodup hfresh ?_ hg' hwritten ⟨_, hnamed⟩ ?_ ?_ ?_ ?_
  · have happend := closes_append (closes_region_nil hregion hclosed) [] (b' :: (body' ++ [x']))
    rw [List.append_nil] at happend
    rw [happend]
    exact closes_region_nil hregion' hclosed'
  · intro name hname
    rw [hwalk, hdecl]
    rcases honly name hname with rfl | rfl
    · exact hr.leads hframes hbranch fun v hv => List.mem_append_left _ hv
    · exact hr'.leads hleaves'.frames hbranch' fun v hv => List.mem_append_right _ hv
  · intro name hname
    rw [hwalk]
    rcases honly name hname with rfl | rfl
    · refine ⟨st.opened + 1, ?_, Nat.lt_succ_self _⟩
      rw [target?_congr e (congrArg Frame.node htop), hr.target]
    · refine ⟨_, ?_, Nat.lt_succ_of_lt hlt⟩
      rw [target?_congr e (congrArg Frame.node hleaves'.top), hr'.target]
  · intro t σ τ hrun
    have hskipped := runs_region hregion hclosed (runs_region hregion' hclosed' hrun)
    simpa using hskipped
  · intro t σ τ hrun
    rw [code_append, hcode, hcode']
    have hskipped := runs_region hregion hfolded (runs_region hregion' hfolded' hrun)
    simpa using hskipped

end Groups

end Datapack.Optimize.Folding
