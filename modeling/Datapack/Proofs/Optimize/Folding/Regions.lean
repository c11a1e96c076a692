import Datapack.Proofs.Ir.Branching
import Datapack.Proofs.Optimize.Folding.Jumps

/-!
# Walking over instructions and regions

What a walk keeps of its state over a stream that closes what it opens, and what a conditional region
adds to it: a pending branch that is right about the body.
-/

namespace Datapack.Optimize.Folding

open Ir

/-! ## What a walk passes through -/

/-- A variable of which something is recorded in the innermost region or around it. -/
def Met (st : State) (v : Variable) : Prop :=
  (State.hit v st.frames).isSome = true ∨ v ∈ st.top.written ∨
    ∃ q ∈ st.pending, q.2.parent = st.top.node ∧ v ∈ q.2.written

/-- What holds of the state of a walk at a position: it stands in the regions that are open there, none
of which is a boundary, and it has met no declared variable whose declaration is not visible. -/
structure Ready (D V : List Variable) (p : Ir.Position) (st : State) : Prop where
  opened : st.opened = p.opened
  nodes : st.frames.map Frame.node = p.stack
  kinds : ∀ f ∈ st.frames, State.isBoundary f.kind = false
  visible : ∀ v, Met st v → v ∈ D → v ∈ V
  node_le : st.top.node ≤ st.opened
  bases : ∀ q ∈ st.bases, q.1 ≤ st.opened
  pending : ∀ q ∈ st.pending, q.1 ≤ st.opened ∧ q.2.parent ≤ st.opened

/-- A walk over the stream `s`, which closes what it opens, from `st` at `p` to `st'`. -/
structure Passes (p : Ir.Position) (st st' : State) (s : Stream) : Prop where
  outer : st'.outer = st.outer
  node : st'.top.node = st.top.node
  kind : st'.top.kind = st.top.kind
  declared : ∀ v ∈ st'.top.declared, v ∈ st.top.declared ∨ v ∈ declarations s
  declares : ∀ v ∈ st.top.declared, v ∈ st'.top.declared
  written : ∀ v ∈ st.top.written, v ∈ st'.top.written
  opened : st'.opened = (p.after s).opened
  bases : st'.bases = st.bases
  pending : ∃ more, st'.pending = more ++ st.pending ∧
    ∀ q ∈ more, q.1 ≤ st'.opened ∧ q.2.parent = st.top.node

namespace Passes

variable {p : Ir.Position} {st st' st'' : State} {s t : Stream}

theorem refl (h : st.opened = p.opened) : Passes p st st [] where
  outer := rfl
  node := rfl
  kind := rfl
  declared := fun _ hv => .inl hv
  declares := fun _ hv => hv
  written := fun _ hv => hv
  opened := h
  bases := rfl
  pending := ⟨[], rfl, by simp⟩

theorem trans (h : Passes p st st' s) (h' : Passes (p.after s) st' st'' t) :
    Passes p st st'' (s ++ t) where
  outer := h'.outer.trans h.outer
  node := h'.node.trans h.node
  kind := h'.kind.trans h.kind
  declared := by
    intro v hv
    rw [declarations_append, List.mem_append]
    rcases h'.declared v hv with hv | hv
    · exact (h.declared v hv).imp_right .inl
    · exact .inr (.inr hv)
  declares := fun v hv => h'.declares v (h.declares v hv)
  written := fun v hv => h'.written v (h.written v hv)
  opened := by rw [h'.opened, Position.after_append]
  bases := h'.bases.trans h.bases
  pending := by
    obtain ⟨more, hmore, hids⟩ := h.pending
    obtain ⟨more', hmore', hids'⟩ := h'.pending
    refine ⟨more' ++ more, by rw [hmore', hmore, List.append_assoc], ?_⟩
    intro q hq
    rcases List.mem_append.1 hq with hq | hq
    · rw [← h.node]
      exact hids' q hq
    · refine ⟨?_, (hids q hq).2⟩
      have hle := Position.opened_le_after (p.after s) t
      rw [h'.opened]
      rw [h.opened] at hids
      exact Nat.le_trans (hids q hq).1 hle

/-- A walk that changes the innermost frame only. -/
theorem of_top {ins : Instruction} (hopened : st.opened = p.opened) (hadvance : p.advance ins = p)
    (houter : st'.outer = st.outer) (hnode : st'.top.node = st.top.node)
    (hkind : st'.top.kind = st.top.kind)
    (hdeclared : ∀ v ∈ st'.top.declared, v ∈ st.top.declared ∨ v ∈ declarations [ins])
    (hdeclares : ∀ v ∈ st.top.declared, v ∈ st'.top.declared)
    (hwritten : ∀ v ∈ st.top.written, v ∈ st'.top.written) (hopened' : st'.opened = st.opened)
    (hbases : st'.bases = st.bases) (hpending : st'.pending = st.pending) :
    Passes p st st' [ins] :=
  ⟨houter, hnode, hkind, hdeclared, hdeclares, hwritten,
    by rw [hopened', hopened, Position.after_cons, Position.after_nil, hadvance], hbases,
    [], hpending, by simp⟩

end Passes

/-- Behind a stream that closes what it opens a walk is ready again. -/
theorem Ready.passed {D V V' : List Variable} {p : Ir.Position} {st st' : State} {s : Stream}
    (h : Ready D V p st) (hp : Passes p st st' s) (hs : closes [] s = true)
    (hvisible : ∀ v, Met st' v → v ∈ D → v ∈ V') :
    Ready D V' (p.after s) st' where
  opened := hp.opened
  nodes := by
    have hstack := Position.stack_after hs p
    simp only [List.length_nil, List.drop_zero] at hstack
    rw [hstack, ← h.nodes]
    simp only [State.frames, List.map_cons, hp.outer, hp.node]
  kinds := by
    intro f hf
    rw [State.frames, hp.outer, List.mem_cons] at hf
    rcases hf with rfl | hf
    · rw [hp.kind]
      exact h.kinds st.top (by simp [State.frames])
    · exact h.kinds f (by simp [State.frames, hf])
  visible := hvisible
  node_le := by
    have hle := Position.opened_le_after p s
    have hnode := h.node_le
    have hopened := h.opened
    rw [hp.node, hp.opened]
    omega
  bases := by
    intro q hq
    rw [hp.bases] at hq
    have hle := Position.opened_le_after p s
    have hq' := h.bases q hq
    have hopened := h.opened
    rw [hp.opened]
    omega
  pending := by
    obtain ⟨more, hmore, hids⟩ := hp.pending
    have hle := Position.opened_le_after p s
    have hnode := h.node_le
    have hopened := h.opened
    have hopened' := hp.opened
    intro q hq
    rw [hmore, List.mem_append] at hq
    rcases hq with hq | hq
    · have hid := hids q hq
      exact ⟨hid.1, by omega⟩
    · have hid := h.pending q hq
      exact ⟨by omega, by omega⟩

/-- The folded stream runs beside the original: from every store that satisfies the frames both end in
the same store, which satisfies the frames behind them. -/
structure Simulates (prog out : Stream) (e : Surroundings) (D V : List Variable) (p : Ir.Position)
    (st : State) (s : Stream) : Prop where
  passes : Passes p st (walk e st s) s
  visible : ∀ v, Met (walk e st s) v → v ∈ D → v ∈ V ∨ v ∈ (walk e st s).top.declared
  runs : ∀ σ, Satisfies σ st.frames → ∃ τ, Runs prog s σ τ ∧ Runs out (foldFrom e st s).code σ τ ∧
    Satisfies τ (walk e st s).frames ∧
    ∀ v, τ v = σ v ∨ v ∈ (walk e st s).top.written ∨ v ∈ declarations s

section Instructions

variable {prog out : Stream} {e : Surroundings} {D V : List Variable} {p : Ir.Position} {st : State}
  {ins : Instruction} {rest : Stream}

theorem mem_declared_declare {st : State} {r : Option Reference} {v : Variable}
    (h : varOf r = some v) : v ∈ (st.declare r).top.declared := by
  simp [State.declare, h, Frame.declare, mem_addOnce]

theorem passes_declare (hop : ins.op = .declare) (hopened : st.opened = p.opened)
    (hadvance : p.advance ins = p) (e : Surroundings) : Passes p st (step e st ins).1 [ins] := by
  have hstep : step e st ins = (st.declare (ins.refAt 0), .keep) := by simp only [step, hop]
  rw [hstep]
  unfold State.declare
  cases hv : varOf (ins.refAt 0) with
  | none =>
      exact .of_top hopened hadvance rfl rfl rfl (fun _ h => .inl h) (fun _ h => h) (fun _ h => h)
        rfl rfl rfl
  | some v =>
      have hnoted := noted_noteConstant st (ins.refAt 0)
      refine .of_top hopened hadvance hnoted.outer ?_ ?_ ?_ ?_ ?_ hnoted.opened hnoted.bases
        hnoted.pending
      · simp [Frame.declare, hnoted.top]
      · simp [Frame.declare, hnoted.top]
      · intro w hw
        rw [declarations_cons_declare hop, hv]
        simp only [Frame.declare, mem_addOnce, hnoted.top] at hw
        rcases hw with rfl | hw
        · exact .inr (by simp)
        · exact .inl hw
      · intro w hw
        simp only [Frame.declare, mem_addOnce, hnoted.top]
        exact .inr hw
      · intro w hw
        simpa [Frame.declare, hnoted.top] using hw

theorem simulates_declare (hop : ins.op = .declare) (hopened : st.opened = p.opened)
    (hrest : Simulates prog out e D ((varOf (ins.refAt 0)).toList ++ V) p (step e st ins).1 rest) :
    Simulates prog out e D V p st (ins :: rest) := by
  have hdata : ins.isData = true := by simp [Instruction.isData, hop]
  have hstep : step e st ins = (st.declare (ins.refAt 0), .keep) := by simp only [step, hop]
  have hadvance : p.advance ins = p := Position.advance_other p (by simp [hop]) (by simp [hop])
  have hafter : p.after [ins] = p := hadvance
  refine ⟨?_, ?_, ?_⟩
  · exact (passes_declare hop hopened hadvance e).trans (by rw [hafter]; exact hrest.passes)
  · intro v hv hD
    rcases hrest.visible v hv hD with hV | hdecl
    · rcases List.mem_append.1 hV with hnew | hV
      · refine .inr (hrest.passes.declares v ?_)
        rw [hstep]
        exact mem_declared_declare (by simpa using hnew)
      · exact .inl hV
    · exact .inr hdecl
  · intro σ hσ
    have hσ' : Satisfies σ (step e st ins).1.frames := by
      rw [hstep]
      exact hσ.declare _
    have hexec : σ.exec ins = σ := by rw [Store.exec, if_pos hop]
    obtain ⟨τ, hrun, hrun', hτ, hchanged⟩ := hrest.runs σ hσ'
    refine ⟨τ, .data hdata (by rwa [hexec]), ?_, hτ, fun v => ?_⟩
    · rw [code_cons, hstep]
      rw [hstep] at hrun'
      exact .data hdata (by rwa [hexec])
    · rw [declarations_cons_declare hop, List.mem_append]
      exact (hchanged v).imp_right fun h => h.imp_right .inr

theorem mem_written_write {st : State} {r : Option Reference} {x : Value} {v : Variable}
    (h : varOf r = some v ∨ v ∈ st.top.written) : v ∈ (st.write r x).top.written := by
  unfold State.write
  cases hr : varOf r with
  | none =>
      rw [hr] at h
      exact h.resolve_left (by simp)
  | some w =>
      rw [hr, Option.some.injEq] at h
      simp only [State.mem_store_written, (noted_noteConstant st r).top]
      exact h.imp_left Eq.symm

theorem passes_data (hdata : ins.isData = true) (hop : ins.op ≠ .declare)
    (hopened : st.opened = p.opened) (hadvance : p.advance ins = p) (e : Surroundings) :
    Passes p st (step e st ins).1 [ins] := by
  obtain ⟨st', x, _, hnoted, hstate, _⟩ := step_data e st hdata hop
  rw [hstate]
  unfold State.write
  have hnoted' := hnoted.trans (noted_noteConstant st' (ins.refAt 0))
  cases hv : varOf (ins.refAt 0) with
  | none =>
      exact .of_top hopened hadvance hnoted.outer (by rw [hnoted.top]) (by rw [hnoted.top])
        (fun v h => .inl (by rwa [hnoted.top] at h)) (fun v h => by rwa [hnoted.top])
        (fun v h => by rwa [hnoted.top]) hnoted.opened hnoted.bases hnoted.pending
  | some v =>
      refine .of_top hopened hadvance hnoted'.outer ?_ ?_ ?_ ?_ ?_ hnoted'.opened hnoted'.bases
        hnoted'.pending
      · exact (congrArg Frame.node hnoted'.top :)
      · exact (congrArg Frame.kind hnoted'.top :)
      · intro w hw
        simp only [State.store_declared, hnoted'.top] at hw
        exact .inl hw
      · intro w hw
        simpa only [State.store_declared, hnoted'.top] using hw
      · intro w hw
        simp only [State.mem_store_written, hnoted'.top]
        exact .inr hw

theorem simulates_data (hdata : ins.isData = true) (hop : ins.op ≠ .declare)
    (hopened : st.opened = p.opened) (hrest : Simulates prog out e D V p (step e st ins).1 rest) :
    Simulates prog out e D V p st (ins :: rest) := by
  obtain ⟨st', x, new, hnoted, hstate, hemitted, hnew, heffect⟩ := step_data e st hdata hop
  have hadvance : p.advance ins = p :=
    Position.advance_other p (isData_ne hdata (by simp)) (isData_ne hdata (by simp))
  have hwritten : ∀ v, varOf (ins.refAt 0) = some v → v ∈ (step e st ins).1.top.written := by
    intro v hv
    rw [hstate]
    exact mem_written_write (.inl hv)
  have hafter : p.after [ins] = p := hadvance
  refine ⟨?_, fun v hv hD => hrest.visible v hv hD, ?_⟩
  · exact (passes_data hdata hop hopened hadvance e).trans (by rw [hafter]; exact hrest.passes)
  · intro σ hσ
    obtain ⟨hexec, hx⟩ := heffect σ hσ
    have hwrite : σ.exec ins = σ.write (ins.refAt 0) (σ.computed ins) := by
      rw [Store.exec, if_neg hop]
    have hσ' : Satisfies (σ.exec ins) (step e st ins).1.frames := by
      rw [hstate, hwrite]
      refine Satisfies.write ?_ _ hx
      rw [hnoted.frames]
      exact hσ
    obtain ⟨τ, hrun, hrun', hτ, hchanged⟩ := hrest.runs _ hσ'
    refine ⟨τ, .data hdata hrun, ?_, hτ, fun v => ?_⟩
    · rw [code_cons, hemitted, List.singleton_append]
      exact .data hnew (by rwa [hexec])
    · rw [declarations_cons_other hop]
      rcases hchanged v with hsame | hmore
      · by_cases hv : varOf (ins.refAt 0) = some v
        · exact .inr (.inl (hrest.passes.written v (hwritten v hv)))
        · refine .inl ?_
          rw [hsame, hwrite, write_apply, if_neg hv]
      · exact .inr hmore

end Instructions

/-! ## Regions -/

/-- The state behind a conditional region: the frames are those before it, and the region's branch is
pending. -/
structure Leaves (p : Ir.Position) (st st' : State) (region : Stream) (b : Branch) : Prop where
  top : st'.top = st.top
  outer : st'.outer = st.outer
  opened : st'.opened = (p.after region).opened
  bases : st'.bases = (st.enter (st.opened + 1) .conditional).bases
  pending : st'.pending = (st.opened + 1, b) :: st.pending
  parent : b.parent = st.top.node

/-- The branch that a conditional region leaves behind in the state at its end. -/
def closingBranch (st : State) (parent : Nat) : Branch :=
  let mine := st.pending.filter (·.2.parent = st.top.node)
  let closed := (st.storeAll (mine.flatMap (·.2.written)) fun _ => .unknown).top
  ⟨parent, closed.values, closed.escaping⟩

theorem leave_conditional {st : State} {next : Frame} {outer : List Frame}
    (hout : st.outer = next :: outer) (hkind : st.top.kind = .conditional) :
    st.leave =
      { st with
        top := next, outer
        bases := st.bases.filter (·.1 ≠ st.top.node)
        pending := (st.top.node, closingBranch st next.node) ::
          st.pending.filter (·.2.parent ≠ st.top.node) } := by
  unfold State.leave
  rw [hout]
  simp only [State.storeAll_kind, hkind, if_true, State.storeAll_bases, State.storeAll_pending,
    State.storeAll_opened, State.storeAll_constants]
  rfl

theorem valueOf_closingBranch {st : State} {parent : Nat} {v : Variable} {l : Literal}
    (h : (closingBranch st parent).valueOf v = .known l) :
    State.hit v st.frames = some (.known l) := by
  unfold closingBranch Branch.valueOf at h
  simp only [State.storeAll_values] at h
  split at h
  · simp at h
  · rw [State.frames, State.hit_cons]
    cases hv : st.top.values.get? v with
    | none => simp [hv] at h
    | some y =>
        rw [hv] at h
        simp only [Option.getD_some] at h
        rw [h]
        rfl

theorem mem_written_closingBranch {st : State} {parent : Nat} {v : Variable}
    (hv : v ∈ st.top.written) (hdecl : v ∉ st.top.declared) :
    v ∈ (closingBranch st parent).written := by
  unfold closingBranch Frame.escaping
  simp only [State.storeAll_declared, List.mem_filter, State.mem_storeAll_written]
  exact ⟨.inr hv, by simpa using hdecl⟩

section Regions

variable {prog out : Stream} {e : Surroundings} {D V : List Variable} {p : Ir.Position} {st : State}
  {b x : Instruction} {body : Stream}

/-- The frame of a conditional region shows what the frames around it show. -/
theorem hit_enter (hsnap : ∀ v, st.snapshot.get? v = State.hit v st.frames) (n : Nat)
    (v : Variable) : State.hit v (st.enter n .conditional).frames = State.hit v st.frames := by
  rw [State.enter_conditional, State.frames, State.hit_cons]
  simp only [hsnap]
  cases State.hit v st.frames <;> rfl

theorem Ready.enter (h : Ready D V p st) (hop : b.op = .scopeBegin)
    (hsnap : ∀ v, st.snapshot.get? v = State.hit v st.frames) :
    Ready D V (p.advance b) (st.enter (st.opened + 1) .conditional) := by
  have hhit := hit_enter hsnap (st.opened + 1)
  refine ⟨?_, ?_, ?_, ?_, ?_, ?_, ?_⟩
  · rw [State.enter_conditional, Position.advance_begin p hop, ← h.opened]
  · rw [State.enter_conditional, Position.advance_begin p hop, ← h.opened, ← h.nodes]
    rfl
  · intro f hf
    rw [State.enter_conditional, State.frames, List.mem_cons] at hf
    rcases hf with rfl | hf
    · rfl
    · exact h.kinds f hf
  · rintro v (hv | hv | ⟨q, hq, hparent, _⟩)
    · exact h.visible v (.inl (by rwa [hhit] at hv))
    · rw [State.enter_conditional] at hv
      simp at hv
    · rw [State.enter_conditional] at hq hparent
      have hle := (h.pending q hq).2
      simp only at hparent
      omega
  · simp only [State.enter_conditional, Nat.le_refl]
  · intro q hq
    rw [State.enter_conditional] at hq ⊢
    simp only at hq ⊢
    have hnode := h.node_le
    split at hq
    · have hle := h.bases q hq
      omega
    · rcases List.mem_cons.1 hq with rfl | hq
      · simp only
        omega
      · have hle := h.bases q hq
        omega
  · intro q hq
    rw [State.enter_conditional] at hq ⊢
    simp only at hq ⊢
    have hle := h.pending q hq
    exact ⟨by omega, by omega⟩

theorem step_begin (hop : b.op = .scopeBegin)
    (hkind : (e.tree.node (st.opened + 1)).kind = .conditional) :
    step e st b = (st.enter (st.opened + 1) .conditional, .keep) := by
  simp only [step, hop, hkind]

theorem step_end (hop : x.op = .scopeEnd) : step e st x = (st.leave, .keep) := by
  simp only [step, hop]

theorem leaves_region (hready : Ready D V p st) (hregion : Encloses b x)
    (hkind : (e.tree.node (st.opened + 1)).kind = .conditional)
    (hsim : Simulates prog out e D V (p.advance b) (st.enter (st.opened + 1) .conditional) body) :
    Leaves p st (walk e st (b :: (body ++ [x]))) (b :: (body ++ [x]))
      (closingBranch (walk e (st.enter (st.opened + 1) .conditional) body) st.top.node) := by
  have hpasses := hsim.passes
  have henter := st.enter_conditional (st.opened + 1)
  have houter : (walk e (st.enter (st.opened + 1) .conditional) body).outer = st.top :: st.outer := by
    rw [hpasses.outer, henter]
    rfl
  have hnode : (walk e (st.enter (st.opened + 1) .conditional) body).top.node = st.opened + 1 := by
    rw [hpasses.node, henter]
  have hkind' : (walk e (st.enter (st.opened + 1) .conditional) body).top.kind = .conditional := by
    rw [hpasses.kind, henter]
  have hwalk : walk e st (b :: (body ++ [x])) =
      (walk e (st.enter (st.opened + 1) .conditional) body).leave := by
    rw [walk_cons, step_begin hregion.opens hkind, walk_append, walk_cons, step_end hregion.closes]
    rfl
  have hleave := leave_conditional houter hkind'
  rw [hwalk, hleave]
  refine ⟨rfl, rfl, ?_, ?_, ?_, rfl⟩
  · simp only [hpasses.opened]
    rw [Position.after_cons, Position.after_append, Position.after_cons, Position.advance_end _
      hregion.closes]
    rfl
  · simp only [hnode, hpasses.bases]
    refine List.filter_eq_self.2 fun q hq => ?_
    rw [henter] at hq
    simp only at hq
    have hle : q.1 ≤ st.opened := by
      split at hq
      · exact hready.bases q hq
      · rcases List.mem_cons.1 hq with rfl | hq
        · exact hready.node_le
        · exact hready.bases q hq
    simp only [ne_eq, decide_eq_true_eq]
    omega
  · obtain ⟨more, hmore, hids⟩ := hpasses.pending
    simp only [hnode]
    congr 1
    rw [hmore, List.filter_append]
    have hgone : more.filter (fun q => q.2.parent ≠ st.opened + 1) = [] := by
      refine List.filter_eq_nil_iff.2 fun q hq => ?_
      have hparent := (hids q hq).2
      rw [henter] at hparent
      simpa using hparent
    have hkept : (st.enter (st.opened + 1) .conditional).pending = st.pending := by
      rw [henter]
    rw [hgone, List.nil_append, hkept]
    refine List.filter_eq_self.2 fun q hq => ?_
    have hle := (hready.pending q hq).2
    simp only [ne_eq, decide_eq_true_eq]
    omega

theorem means_region (hsnap : ∀ v, st.snapshot.get? v = State.hit v st.frames) (parent : Nat)
    (hsim : Simulates prog out e D V (p.advance b) (st.enter (st.opened + 1) .conditional) body) :
    Means prog out st.frames (declarations body)
      (closingBranch (walk e (st.enter (st.opened + 1) .conditional) body) parent) body
      (foldFrom e (st.enter (st.opened + 1) .conditional) body).code := by
  intro σ hσ
  have hσ' : Satisfies σ (st.enter (st.opened + 1) .conditional).frames := by
    intro v l hv
    rw [hit_enter hsnap] at hv
    exact hσ v l hv
  obtain ⟨τ, hrun, hrun', hτ, hchanged⟩ := hsim.runs σ hσ'
  refine ⟨τ, hrun, hrun', fun v l hv => hτ v l (valueOf_closingBranch hv), fun v => ?_⟩
  rcases hchanged v with hsame | hwritten | hdecl
  · exact .inl hsame
  · by_cases hown : v ∈ (walk e (st.enter (st.opened + 1) .conditional) body).top.declared
    · refine .inr (.inr ((hsim.passes.declared v hown).resolve_left ?_))
      rw [st.enter_conditional]
      simp
    · exact .inr (.inl (mem_written_closingBranch hwritten hown))
  · exact .inr (.inr hdecl)

end Regions

end Datapack.Optimize.Folding
