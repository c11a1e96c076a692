import Datapack.Proofs.Generation.Statements

/-!
# Parts of a stream in place

Where a part of the stream of a plan stands: at which index, inside which open regions and behind how
many opened ones.  Delimiters then lead from frame to frame, and what is generated between them stays
in the region they delimit.
-/

namespace Datapack.Generation

open Ir Ir.Structured Command

variable {W : Plan} {f f' : Frame} {n n' i : Nat} {g g' : Generation} {s t : Stream}

/-- The part `s` of the stream of a plan begins at index `i`, inside the regions of a frame and behind
`n` regions opened so far. -/
def Plan.Sits (W : Plan) (f : Frame) (n i : Nat) (s : Stream) : Prop :=
  ∃ pre post, W.stream = pre ++ (s ++ post) ∧ pre.length = i ∧
    Position.start.after pre = ⟨f.stack, n⟩

namespace Plan.Sits

theorem left (h : W.Sits f n i (s ++ t)) : W.Sits f n i s := by
  obtain ⟨pre, post, hstream, hlength, hafter⟩ := h
  exact ⟨pre, t ++ post, by rw [hstream, List.append_assoc], hlength, hafter⟩

theorem right (h : W.Sits f n i (s ++ t)) (hs : Position.after ⟨f.stack, n⟩ s = ⟨f'.stack, n'⟩) :
    W.Sits f' n' (i + s.length) t := by
  obtain ⟨pre, post, hstream, rfl, hafter⟩ := h
  refine ⟨pre ++ s, post, ?_, List.length_append, ?_⟩
  · simp only [hstream, List.append_assoc]
  · rw [Position.after_append, hafter, hs]

/-- What stands behind the start of a region. -/
theorem enter {x : String} {kind : ScopeKind} (h : W.Sits f n i (.scopeBegin x kind :: s))
    (hstack : f'.stack = (n + 1) :: f.stack) : W.Sits f' (n + 1) (i + 1) s := by
  refine right (s := [.scopeBegin x kind]) h ?_
  rw [hstack]
  rfl

theorem nodeAt {x : String} {kind : ScopeKind} (h : W.Sits f n i (.scopeBegin x kind :: s)) :
    W.tree.nodeAt i = n + 1 := by
  obtain ⟨pre, post, hstream, rfl, hafter⟩ := h
  rw [ScopeTree.nodeAt_length W.tree_eq hstream, hafter]
  rfl

theorem hasRegion {x : String} {kind : ScopeKind} (h : W.Sits f n i (.scopeBegin x kind :: s)) :
    (W.base.at? (n + 1)).name = x ∧ W.HasRegion (n + 1) kind f.stack := by
  obtain ⟨pre, post, hstream, rfl, hafter⟩ := h
  have hsig := ScopeTree.sig_node_begin W.tree_eq hstream rfl
  rw [hafter] at hsig
  have hname : (W.tree.node (n + 1)).name = x := congrArg Prod.fst hsig
  have hmem : x ∈ regionNames W.stream := by
    rw [hstream, regionNames_append, List.cons_append, regionNames_cons_begin rfl]
    exact List.mem_append_right _ List.mem_cons_self
  have hlt : n + 1 < W.base.length := by
    rw [W.length_eq]
    by_contra hge
    rw [ScopeTree.node_of_length_le (Nat.le_of_not_lt hge)] at hname
    exact isIdentifier_ne_empty (W.identifiers x hmem) hname.symm
  obtain ⟨hname', hkind', houter', -⟩ := W.node (n + 1) (by omega) hlt
  refine ⟨hname'.trans hname, hlt, ?_, ?_⟩
  · exact hkind'.trans (congrArg (·.2.1) hsig)
  · exact houter'.trans (congrArg (·.2.2) hsig)

theorem place {x : String} {kind : ScopeKind} (h : W.Sits f n i (.scopeBegin x kind :: s)) :
    W.place x = n + 1 := by
  obtain ⟨hname, hregion⟩ := h.hasRegion
  rw [← hname]
  exact W.place_name (by omega) hregion.lt

theorem isRegion {x : String} {kind : ScopeKind} (h : W.Sits f n i (.scopeBegin x kind :: s)) :
    W.IsRegion x := by
  obtain ⟨hname, hregion⟩ := h.hasRegion
  constructor
  · rw [h.place]
    exact hregion.lt
  · rw [h.place, hname]

end Plan.Sits

/-! ## Positions behind statements -/

theorem after_region {p : Ir.Position} {x : String} {kind : ScopeKind} {m : Nat}
    (h : Position.after ⟨(p.opened + 1) :: p.stack, p.opened + 1⟩ s = ⟨(p.opened + 1) :: p.stack, m⟩) :
    p.after (region x kind s) = ⟨p.stack, m⟩ := by
  have hbegin : p.advance (.scopeBegin x kind) = ⟨(p.opened + 1) :: p.stack, p.opened + 1⟩ := rfl
  rw [region, Position.after_cons, hbegin, Position.after_append, h]
  rfl

theorem after_data (p : Ir.Position) (d : Data) : p.advance d.ins = p := by
  cases d <;> rfl

theorem after_datas (p : Ir.Position) (ds : List Data) : p.after (ds.map Data.ins) = p := by
  induction ds with
  | nil => rfl
  | cons d ds ih => rw [List.map_cons, Position.after_cons, after_data, ih]

theorem after_side {p : Ir.Position} {x : String} {m : Nat}
    (h : ∀ q : Ir.Position, q.after s = ⟨q.stack, q.opened + m⟩) :
    p.after (side x s) = ⟨p.stack, p.opened + if x = "" then 0 else m + 1⟩ := by
  unfold side
  split
  · rfl
  · rw [after_region (m := p.opened + 1 + m) (h _)]
    congr 1
    omega

/-- The regions of a statement are open and closed again behind it. -/
theorem after_stream (a : Stmt) (p : Ir.Position) :
    p.after a.stream = ⟨p.stack, p.opened + a.names.length⟩ := by
  induction a generalizing p with
  | skip => rfl
  | data d => exact after_data p d
  | seq a b iha ihb =>
      rw [Stmt.stream, Position.after_append, iha, ihb]
      simp only [Stmt.names, List.length_append, Nat.add_assoc]
  | branch c t a u b iha ihb =>
      rw [Stmt.stream, Position.after_append, Position.after_append, after_side iha, after_side ihb]
      have hlength : ∀ (x : String) (names : List String),
          (if x = "" then [] else x :: names).length = if x = "" then 0 else names.length + 1 := by
        intro x names
        split <;> rfl
      simp only [Stmt.names, List.length_append, hlength, Nat.add_assoc]
      rfl
  | loop l k b test c a ih =>
      rw [Stmt.stream, Position.after_append, after_region (m := p.opened + 3 + a.names.length)]
      · change Ir.Position.mk p.stack _ = _
        simp only [Stmt.names, List.length_cons]
        congr 1
        omega
      · rw [Position.after_append, after_region (m := p.opened + 3 + a.names.length)]
        · rfl
        · rw [Position.after_append, Position.after_append, after_datas,
            after_region (m := p.opened + 3 + a.names.length)]
          · rfl
          · rw [Position.after_append, ih]
            rfl
  | leave l => rfl
  | next l => rfl
  | ret => rfl

/-! ## Delimiters -/

/-- The generator is about to process the part `s` of the stream inside the regions of a frame. -/
structure Stands (W : Plan) (f : Frame) (n i : Nat) (g : Generation) (s : Stream) : Prop where
  shape : W.Shape f
  below : ∀ m ∈ f.stack, m ≤ n
  sits : W.Sits f n i s
  ready : Ready W f g
  pristine : Pristine n g

namespace Stands

theorem left (h : Stands W f n i g (s ++ t)) : Stands W f n i g s :=
  ⟨h.shape, h.below, h.sits.left, h.ready, h.pristine⟩

/-- What stands behind a part that has been generated. -/
theorem right {cs : List Command} (h : Stands W f n i g (s ++ t)) (ha : Advances W f n n' g g' cs)
    (hs : Position.after ⟨f.stack, n⟩ s = ⟨f.stack, n'⟩) :
    Stands W f n' (i + s.length) g' t := by
  have hle : n ≤ n' := by
    have hopened := Position.opened_le_after ⟨f.stack, n⟩ s
    rwa [hs] at hopened
  refine ⟨h.shape, ?_, h.sits.right hs, ha.ready, ha.pristine⟩
  intro m hm
  exact Nat.le_trans (h.below m hm) hle

theorem enter {x : String} {kind : ScopeKind} (h : Stands W f n i g (region x kind s))
    (hstack : f'.stack = (n + 1) :: f.stack) (hshape : W.Shape f') :
    Stands W f' (n + 1) (i + 1) (push { g with index := i } (n + 1)) s := by
  refine ⟨hshape, ?_, (h.sits.enter hstack).left, ?_, ?_⟩
  · intro m hm
    rw [hstack] at hm
    rcases List.mem_cons.mp hm with rfl | hm
    · exact Nat.le_refl _
    · exact Nat.le_succ_of_le (h.below m hm)
  · refine ⟨?_, h.ready.config, h.ready.tree, h.ready.regions, h.ready.exits, h.ready.flags⟩
    rw [hstack, ← h.ready.stack]
    rfl
  · intro m hm
    exact h.pristine m (by omega)

theorem begins {x : String} {kind : ScopeKind} (h : Stands W f n i g (.scopeBegin x kind :: s)) :
    Processes i g [.scopeBegin x kind] (push { g with index := i } (n + 1)) := by
  refine .single (p := scopeBegin) rfl ?_
  have hnode : regionAt { g with index := i } i = n + 1 := by
    unfold regionAt
    have htree : Generation.tree { g with index := i } = W.tree := h.ready.tree
    rw [htree]
    exact h.sits.nodeAt
  have hchange := Yields.change (g := { g with index := i }) fun g => g.push (g.regionAt g.index)
  simp only [hnode] at hchange
  exact hchange

end Stands

/-- The state behind the end of a region. -/
def leaveTo (f : Frame) (i : Nat) (g : Generation) : Generation :=
  { g with index := i, current := f.current, stack := f.stack.tail }

theorem processes_end {x : String} {kind : ScopeKind} (hready : Ready W f' g)
    (hstack : f'.stack = (n + 1) :: f.stack) (i : Nat) :
    Processes i g [.scopeEnd x kind] (leaveTo f i g) := by
  refine .single (p := scopeEnd) rfl (.pop ?_)
  have hopen := hready.stack
  rw [hstack] at hopen
  exact (List.cons.inj hopen).2.trans f.stack_eq

/-- What is generated inside a region stays there, apart from flags and the start of the check. -/
theorem Advances.leave {cs : List Command} {i j : Nat}
    (h : Advances W f' (n + 1) n' (push { g with index := i } (n + 1)) g' cs)
    (hpristine : Pristine n g) (hstack : f'.stack = (n + 1) :: f.stack)
    (hcheck : ∀ m, f'.check? = some m → n < m ∨ f.check? = some m) :
    Advances W f n n' g (leaveTo f j g') [] ∧
      (leaveTo f j g').commandsAt (n + 1) =
        (if n + 1 ∈ (leaveTo f j g').resets then [W.reset (n + 1)] else []) ++ cs := by
  have hcurrent : f'.current = n + 1 := by rw [Frame.current, hstack]; rfl
  obtain ⟨hcommands₀, hresets₀⟩ := hpristine (n + 1) (by omega)
  have hfresh : (push { g with index := i } (n + 1)).commandsAt (n + 1) = [] := hcommands₀
  refine ⟨⟨⟨f.stack_eq.symm, h.ready.config, h.ready.tree, h.ready.regions, h.ready.exits,
    h.ready.flags⟩, ⟨?_, h.grown.marks, h.grown.resets, ?_, h.grown.fresh⟩, h.pristine⟩, ?_⟩
  · intro m hm
    have hinner := h.grown.commands m (by omega)
    have hne : m ≠ f'.current := by omega
    rw [if_neg hne] at hinner
    rw [ite_self]
    exact hinner
  · intro m hm
    rcases h.grown.added m hm with hold | hlt | hopen
    · exact .inl hold
    · exact .inr (.inl (by omega))
    · exact .inr (hcheck m hopen)
  · have hinner := h.grown.commands (n + 1) (Nat.le_refl _)
    rw [if_pos hcurrent.symm, hfresh, List.nil_append] at hinner
    refine hinner.trans ?_
    have hnew : n + 1 ∉ (push { g with index := i } (n + 1)).resets := hresets₀
    simp only [hnew, not_false_eq_true, and_true]
    rfl

/-- Only checks get a command in front. -/
theorem Advances.leave_commands {cs : List Command} {i j : Nat}
    (h : Advances W f' (n + 1) n' (push { g with index := i } (n + 1)) g' cs)
    (hpristine : Pristine n g) (hstack : f'.stack = (n + 1) :: f.stack)
    (hcheck : ∀ m, f'.check? = some m → n < m ∨ f.check? = some m) (hown : f'.check? ≠ some (n + 1)) :
    (leaveTo f j g').commandsAt (n + 1) = cs := by
  have hreset : n + 1 ∉ (leaveTo f j g').resets := by
    intro hmem
    rcases h.grown.added _ hmem with hold | hlt | hopen
    · exact (hpristine _ (Nat.lt_succ_self n)).2 hold
    · omega
    · exact hown hopen
  rw [(h.leave hpristine hstack hcheck).2, if_neg hreset, List.nil_append]

theorem Stands.processes_region {x : String} {kind : ScopeKind} (h : Stands W f n i g (region x kind s))
    (hready : Ready W f' g') (hstack : f'.stack = (n + 1) :: f.stack)
    (hs : Processes (i + 1) (push { g with index := i } (n + 1)) s g') :
    Processes i g (region x kind s) (leaveTo f (i + 1 + s.length) g') := by
  have hbegin := Stands.begins h
  have hend : Processes (i + 1 + s.length) g' [.scopeEnd x kind] _ := processes_end hready hstack _
  exact hbegin.append (hs.append hend)

end Datapack.Generation
