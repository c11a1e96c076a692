import Datapack.Proofs.Optimize.Targets

/-!
# Regions that can be entered

The search for regions that can be entered finds exactly those that some chain of jumps leads to from the
global region or from one that needs no jump (`mem_reached_iff`).  A region that stays only for a
definition inside it is none of them, and what its own jumps lead to may go: a jump that stays leads to
the same region as before unless that region cannot be entered either (`run_keeps_targets`).
-/

namespace Datapack.Optimize.UselessScopes

open Ir ScopeTree

/-- Regions that can be entered: the global one, those that belong to a definition or to a loop header,
and those that a jump directly inside a region that can be entered leads to. -/
inductive Entered (s : Stream) (t : ScopeTree) : Nat → Prop
  | root : Entered s t ScopeTree.root
  | structural {n : Nat} (hn : n ∈ t.inner) (hkind : isStructural (t.node n).kind = true) : Entered s t n
  | jump {i : Nat} {ins : Instruction} {x : String} {m : Nat} (hi : s[i]? = some ins)
      (hx : x ∈ ins.jumpTargets) (hm : t.resolve (t.nodeAt i) x = some m)
      (h : Entered s t (t.nodeAt i)) : Entered s t m

/-- Blocks, conditional regions and loops that cannot be entered and hold no definition. -/
structure Useless (s : Stream) (t : ScopeTree) (n : Nat) : Prop where
  unentered : ¬Entered s t n
  removable : isRemovable (t.node n).kind = true
  plain : holdsDefinition t n = false

variable {s : Stream} {t : ScopeTree} {n m i : Nat} {ins : Instruction}

/-! ## The search -/

theorem mem_successors (ht : ofStream s = .ok t) (h : m ∈ successors s t n) :
    ∃ (i : Nat) (ins : Instruction) (x : String), s[i]? = some ins ∧ t.nodeAt i = n ∧
      x ∈ ins.jumpTargets ∧ t.resolve n x = some m := by
  obtain ⟨i, hi, hm⟩ := List.mem_flatMap.1 h
  obtain ⟨x, hx, hresolve⟩ := List.mem_filterMap.1 hm
  obtain ⟨ins, hins, -, hnode⟩ := exists_of_mem_directly ht hi
  rw [hins] at hx
  exact ⟨i, ins, x, hins, hnode, hx, hresolve⟩

theorem entered_of_mem_reached (ht : ofStream s = .ok t) (h : n ∈ reached s t) : Entered s t n := by
  refine closure_induction (P := Entered s t) (fun k hk => ?_) (fun known k hknown hrule => ?_) h
  · obtain ⟨hmem, hkind⟩ := List.mem_filter.1 hk
    rw [Bool.or_eq_true, decide_eq_true_eq] at hkind
    rcases hkind with rfl | hkind
    · exact .root
    · rcases List.mem_cons.1 hmem with rfl | hinner
      · exact .root
      · exact .structural hinner hkind
  · obtain ⟨⟨q, targets⟩, hq, hboth⟩ := List.any_eq_true.1 hrule
    rw [Bool.and_eq_true, List.contains_iff_mem, List.contains_iff_mem] at hboth
    obtain ⟨q, -, heq⟩ := List.mem_map.1 hq
    obtain ⟨rfl, rfl⟩ := Prod.mk.inj heq
    obtain ⟨i, ins, x, hi, rfl, hx, hm⟩ := mem_successors ht hboth.2
    exact .jump hi hx hm (hknown _ hboth.1)

/-- The search finds the regions that can be entered. -/
theorem mem_reached_iff (ht : ofStream s = .ok t) : n ∈ reached s t ↔ Entered s t n := by
  refine ⟨entered_of_mem_reached ht, fun h => ?_⟩
  induction h with
  | root => exact subset_closure (List.mem_filter.2 ⟨List.mem_cons_self, by simp⟩)
  | structural hn hkind =>
      exact subset_closure (List.mem_filter.2 ⟨List.mem_cons_of_mem _ hn, by simp [hkind]⟩)
  | jump hi hx hm _ ih =>
      obtain ⟨pre, post, hs, rfl⟩ := exists_split hi
      have hnode := nodeAt_length ht hs
      rw [Position.owner_plain _ (isDelimiter_of_jumpTargets hx)] at hnode
      rw [hnode] at hm ih
      exact reached_of_jump ht hs hx hm ih

theorem mem_useless_iff (ht : ofStream s = .ok t) :
    n ∈ useless s t ↔ n ∈ t.inner ∧ Useless s t n := by
  rw [mem_useless, mem_reached_iff ht]
  constructor
  · rintro ⟨hinner, hentered, hkind, hdefinition⟩
    exact ⟨hinner, hentered, hkind, hdefinition⟩
  · rintro ⟨hinner, hentered, hkind, hdefinition⟩
    exact ⟨hinner, hentered, hkind, hdefinition⟩

/-! ## What goes and what stays -/

def removes (s : Stream) (t : ScopeTree) (i : Nat) : Bool := ((useless s t).map t.node).any (inRegion · i)

theorem removes_iff (ht : ofStream s = .ok t) :
    removes s t i = true ↔ ∃ n ∈ t.inner, Useless s t n ∧ inRegion (t.node n) i = true := by
  rw [removes, List.any_map, List.any_eq_true]
  constructor
  · rintro ⟨n, hn, hin⟩
    obtain ⟨hinner, huseless⟩ := (mem_useless_iff ht).1 hn
    exact ⟨n, hinner, huseless, hin⟩
  · rintro ⟨n, hinner, huseless, hin⟩
    exact ⟨n, (mem_useless_iff ht).2 ⟨hinner, huseless⟩, hin⟩

theorem thins (ht : ofStream s = .ok t) :
    Thins t (swept t (useless s t)) (Edits.revision { drop := removes s t } 0 s) :=
  thins_of_regions ht (fun _ hn => mem_inner (mem_useless.1 hn).1) (fun _ hin => hin)
    (fun _ _ _ hdrop _ => hdrop) (sparesDelimiters_of_drop _)

/-- Exactly the regions that cannot be entered go, but for those that hold a definition.  A jump that
stays in a region that can be entered leads to the same region as before; any other one does so unless
the region it leads to goes. -/
theorem run_keeps_targets (hs : s.balanced = true) :
    ∃ t out t', ofStream s = .ok t ∧ run s = .ok out ∧ ofStream out.code = .ok t' ∧
      ∃ removed : Nat → Bool,
        out.code = (s.zipIdx.filter fun x => !removed x.2).map Prod.fst ∧
        (∀ i, removed i = true ↔ ∃ n ∈ t.inner, Useless s t n ∧ inRegion (t.node n) i = true) ∧
        ∀ (i : Nat) (ins : Instruction) (x : String) (m : Nat), s[i]? = some ins → removed i = false →
          x ∈ ins.jumpTargets → t.resolve (t.nodeAt i) x = some m →
            out.code[rank removed i]? = some ins ∧
            (Entered s t (t.nodeAt i) → LeadsStill removed t t' i x m) ∧
            (LeadsStill removed t t' i x m ↔ ¬Useless s t m) := by
  obtain ⟨t, ht⟩ := exists_tree hs
  obtain ⟨out, hrun, hbalanced⟩ := balanced_run ht
  obtain rfl : Edits.apply { drop := removes s t } s = out :=
    Except.ok.inj ((withTree_eq ht _).symm.trans hrun)
  obtain ⟨t', ht'⟩ := exists_tree hbalanced
  refine ⟨t, _, t', ht, hrun, ht', removes s t, ?_, fun i => removes_iff ht, ?_⟩
  · rw [Edits.apply_eq, Edits.edited_drop]
  · intro i ins x m hi hkept hx hm
    rw [Edits.apply_eq] at ht' ⊢
    have hplain := isDelimiter_of_jumpTargets hx
    have hinner := Edits.mem_inner_of_resolve ht hi hplain hm
    have hiff : LeadsStill (removes s t) t t' i x m ↔ ¬Useless s t m := by
      rw [Edits.leadsStill_iff_not_mem (thins ht) ht ht' hi hplain hkept hm, mem_useless_iff ht,
        and_iff_right hinner]
    refine ⟨Edits.getElem?_edited hi hkept, fun hentered => hiff.2 fun huseless => ?_, hiff⟩
    exact huseless.unentered (.jump hi hx hm hentered)

/-- A block that no jump leads to but that holds a definition, and one that only the former leads to. -/
def unentered : Stream :=
  let x := some (Reference.var { id := "x", name := "x", type := .data .int, retain := true })
  let f : Function := { id := "f", name := "f", params := [], returnType := .data .null,
                        kind := .function, annotations := ["load"] }
  [Instruction.declare x, Instruction.scopeBegin "a" .block, Instruction.function f,
    Instruction.scopeBegin "f" .function, Instruction.scopeEnd "f" .function, Instruction.jump "b",
    Instruction.scopeEnd "a" .block, Instruction.scopeBegin "b" .block,
    Instruction.assign x (some (.literal (.int 1))), Instruction.scopeEnd "b" .block]

theorem run_keeps_targets_unentered :
    unentered.balanced = true ∧
      ∃ t out t', ofStream unentered = .ok t ∧ run unentered = .ok out ∧ ofStream out.code = .ok t' ∧
        ∃ removed : Nat → Bool,
          out.code = (unentered.zipIdx.filter fun x => !removed x.2).map Prod.fst ∧
          (∀ i, removed i = true ↔
            ∃ n ∈ t.inner, Useless unentered t n ∧ inRegion (t.node n) i = true) ∧
          ∀ (i : Nat) (ins : Instruction) (x : String) (m : Nat), unentered[i]? = some ins →
            removed i = false → x ∈ ins.jumpTargets → t.resolve (t.nodeAt i) x = some m →
              out.code[rank removed i]? = some ins ∧
              (Entered unentered t (t.nodeAt i) → LeadsStill removed t t' i x m) ∧
              (LeadsStill removed t t' i x m ↔ ¬Useless unentered t m) :=
  ⟨by decide, run_keeps_targets (by decide)⟩

private theorem useless_unentered {t : ScopeTree} (ht : ofStream unentered = .ok t) :
    useless unentered t = [3] := by
  obtain rfl := Except.ok.inj (ht.symm.trans rfl)
  rw [useless, reached, closure_eq_seeds]
  · rfl
  · decide

/-- The jump of the block that stays for the definition leads nowhere behind the run. -/
theorem run_dangles_unentered :
    ∃ t out t', (⟨[], unentered⟩ : Program).isValid = true ∧ ofStream unentered = .ok t ∧
      (∀ p ∈ unentered.zipIdx, ∀ x ∈ p.1.jumpTargets, (t.resolve (t.nodeAt p.2) x).isSome = true) ∧
      run unentered = .ok out ∧ ofStream out.code = .ok t' ∧
      out.code[5]? = some (Instruction.jump "b") ∧ t'.resolve (t'.nodeAt 5) "b" = none ∧
      (⟨[], out.code⟩ : Program).isValid = false := by
  have hrun := withTree_eq (s := unentered) rfl fun t =>
    Edits.apply { drop := fun i => ((useless unentered t).map t.node).any (inRegion · i) } unentered
  rw [useless_unentered rfl] at hrun
  exact ⟨_, _, _, by decide, rfl, by decide, hrun, rfl, rfl, by decide, by decide⟩

end Datapack.Optimize.UselessScopes
