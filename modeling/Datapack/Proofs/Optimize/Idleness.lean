import Datapack.Proofs.Optimize.Targets

/-!
# Regions with nothing to execute

The removal of empty regions takes regions as a whole that hold nothing but delimiters, declarations and
jumps (`op_of_mem_emptyNodes`), and the names by which jumps lead into them.  What stays leads where it led
before.  The regions that are found are closed under the rule that finds them, also when it is asked of
what they leave (`Clears.isEmpty_of_edited`), so that a second run finds none.
-/

namespace Datapack.Optimize.EmptyScopes

open Ir ScopeTree

/-- Names that are blank or lead from a region into one of some regions. -/
def Vain (t : ScopeTree) (regions : List Nat) (n : Nat) (x : String) : Prop :=
  x = "" ∨ ∃ m ∈ regions, t.resolve n x = some m

/-- A jump with no name but vain ones. -/
inductive Vanishes (vain : String → Prop) (ins : Instruction) : Prop
  | jump (hop : ins.op = .jump) (htarget : vain ins.jumpTarget) : Vanishes vain ins
  | branches (hop : ins.op = .condJump) (htrue : vain ins.onTrue) (hfalse : vain ins.onFalse) :
      Vanishes vain ins

/-- An instruction as it is, or a conditional jump with vain names blanked. -/
inductive Narrows (vain : String → Prop) (ins : Instruction) : Instruction → Prop
  | same : Narrows vain ins ins
  | branches {onTrue onFalse : String} (hop : ins.op = .condJump)
      (htrue : onTrue = ins.onTrue ∨ onTrue = "" ∧ vain ins.onTrue)
      (hfalse : onFalse = ins.onFalse ∨ onFalse = "" ∧ vain ins.onFalse) :
      Narrows vain ins ((Instruction.condJump ins.condition onTrue onFalse).located ins.loc)

/-- Blocks and conditional regions that are removed as a whole and hold nothing to execute. -/
structure Empties (s : Stream) (t : ScopeTree) (regions : List Nat) (removed : Nat → Bool) : Prop where
  inner : ∀ n ∈ regions, n ∈ t.inner
  kind : ∀ n ∈ regions, (t.node n).kind = .block ∨ (t.node n).kind = .conditional
  gone : ∀ n ∈ regions, ∀ i, inRegion (t.node n) i = true → removed i = true
  idle : ∀ n ∈ regions, ∀ i ins, s[i]? = some ins → inRegion (t.node n) i = true →
    isDelimiter ins = true ∨ ins.op = .declare ∨ ins.op = .jump ∨ ins.op = .condJump

variable {s : Stream} {t t' : ScopeTree} {regions : List Nat} {n i : Nat} {ins new : Instruction}
  {x : String}

theorem Narrows.isDelimiter_eq {vain : String → Prop} (h : Narrows vain ins new) :
    isDelimiter new = isDelimiter ins := by
  cases h with
  | same => rfl
  | branches hop _ _ => simp [isDelimiter, hop, Instruction.located, Instruction.condJump]

/-! ## Names that lead nowhere -/

theorem leadsNowhere_iff : leadsNowhere t regions n x = true ↔ Vain t regions n x := by
  rw [leadsNowhere, Bool.or_eq_true, decide_eq_true_eq]
  refine or_congr_right ?_
  cases t.resolve n x with
  | none => simp
  | some m => simp

theorem branch_eq_blank_iff : branch t regions n x = "" ↔ Vain t regions n x := by
  rw [← leadsNowhere_iff, branch]
  split
  · next hvain => exact iff_of_true rfl hvain
  · next hvain =>
      refine iff_of_false (fun hblank => hvain ?_) hvain
      simp [leadsNowhere, hblank]

theorem branch_narrows : branch t regions n x = x ∨ branch t regions n x = "" ∧ Vain t regions n x := by
  rcases branch_cases x with hblank | hsame
  · exact .inr ⟨hblank, branch_eq_blank_iff.1 hblank⟩
  · exact .inl hsame

theorem isDropped_iff : isDropped t regions n ins = true ↔ Vanishes (Vain t regions n) ins := by
  constructor
  · intro hdropped
    unfold isDropped at hdropped
    split at hdropped
    · next hop => exact .jump hop (leadsNowhere_iff.1 hdropped)
    · next hop =>
        rw [Bool.and_eq_true, decide_eq_true_eq, decide_eq_true_eq] at hdropped
        exact .branches hop (branch_eq_blank_iff.1 hdropped.1) (branch_eq_blank_iff.1 hdropped.2)
    · contradiction
  · rintro (⟨hop, htarget⟩ | ⟨hop, htrue, hfalse⟩)
    · simp [isDropped, hop, leadsNowhere_iff.2 htarget]
    · simp [isDropped, hop, branch_eq_blank_iff.2 htrue, branch_eq_blank_iff.2 hfalse]

theorem narrows_narrowed : Narrows (Vain t regions n) ins ((narrowed t regions n ins).getD ins) := by
  cases hnew : narrowed t regions n ins with
  | none => exact .same
  | some new =>
      obtain ⟨hop, -, rfl⟩ := narrowed_eq_some hnew
      exact .branches hop branch_narrows branch_narrows

theorem isIdle_iff :
    isIdle t regions n ins = true ↔ ins.op = .declare ∨ Vanishes (Vain t regions n) ins := by
  constructor
  · intro hidle
    unfold isIdle at hidle
    split at hidle
    · next hop => exact .inl hop
    · next hop => exact .inr (.jump hop (leadsNowhere_iff.1 hidle))
    · next hop =>
        rw [Bool.and_eq_true, leadsNowhere_iff, leadsNowhere_iff] at hidle
        exact .inr (.branches hop hidle.1 hidle.2)
    · contradiction
  · rintro (hop | ⟨hop, htarget⟩ | ⟨hop, htrue, hfalse⟩)
    · simp [isIdle, hop]
    · simp [isIdle, hop, leadsNowhere_iff.2 htarget]
    · simp [isIdle, hop, leadsNowhere_iff.2 htrue, leadsNowhere_iff.2 hfalse]

/-- What does nothing although no region is empty did nothing before its vain names were blanked. -/
theorem isIdle_of_narrows (h : Narrows (Vain t regions n) ins new) {n' : Nat}
    (hidle : isIdle t' [] n' new = true) : isIdle t regions n ins = true := by
  have hblank : ∀ y, Vain t' [] n' y → y = "" := fun y hy => hy.resolve_right (by simp)
  rw [isIdle_iff] at hidle ⊢
  cases h with
  | same =>
      rcases hidle with hop | ⟨hop, htarget⟩ | ⟨hop, htrue, hfalse⟩
      · exact .inl hop
      · exact .inr (.jump hop (.inl (hblank _ htarget)))
      · exact .inr (.branches hop (.inl (hblank _ htrue)) (.inl (hblank _ hfalse)))
  | @branches onTrue onFalse hop htrue hfalse =>
      have hvain : ∀ y old, Vain t' [] n' y → y = old ∨ y = "" ∧ Vain t regions n old →
          Vain t regions n old := by
        intro y old hy hold
        rcases hold with rfl | ⟨-, hold⟩
        · exact .inl (hblank y hy)
        · exact hold
      rcases hidle with hdeclare | ⟨hjump, -⟩ | ⟨-, hblankTrue, hblankFalse⟩
      · exact Opcode.noConfusion hdeclare
      · exact Opcode.noConfusion hjump
      · exact .inr (.branches hop (hvain onTrue _ hblankTrue htrue) (hvain onFalse _ hblankFalse hfalse))

/-! ## What empty regions hold -/

/-- An empty region holds nothing to execute, also in the regions inside it. -/
theorem op_of_mem_emptyNodes (ht : ofStream s = .ok t) (hn : n ∈ emptyNodes s t) (hi : s[i]? = some ins)
    (hmem : n ∈ t.ancestors (t.nodeAt i)) :
    isDelimiter ins = true ∨ ins.op = .declare ∨ ins.op = .jump ∨ ins.op = .condJump := by
  refine closure_induction (P := fun n => n ∈ t.ancestors (t.nodeAt i) → _)
    (fun y hy => absurd hy List.not_mem_nil) (fun known y hknown hrule hy => ?_) hn hmem
  rw [isEmpty, Bool.and_eq_true, List.all_eq_true, List.all_eq_true] at hrule
  rcases List.mem_cons.1 hy with rfl | hy
  · refine (Bool.eq_false_or_eq_true (isDelimiter ins)).imp_right fun hplain => ?_
    have hidle := hrule.2 i ((mem_directly_iff ht hi).2 ⟨hplain, rfl⟩)
    rw [hi, Option.map_some, Option.getD_some, isIdle_iff] at hidle
    rcases hidle with hop | ⟨hop, -⟩ | ⟨hop, -, -⟩
    · exact .inl hop
    · exact .inr (.inl hop)
    · exact .inr (.inr hop)
  · obtain ⟨c, hc, hcmem⟩ := exists_child ht (nodeAt_lt ht i) hy
    exact hknown c (List.contains_iff_mem.1 (hrule.1 c hc)) hcmem

theorem kind_of_mem_emptyNodes (hn : n ∈ emptyNodes s t) :
    n ∈ t.inner ∧ isRemovable (t.node n).kind = true :=
  List.mem_filter.1 (List.mem_reverse.1 ((mem_closure hn).resolve_left List.not_mem_nil))

/-! ## What the edits leave -/

/-- Edits that take some regions as a whole, and else only the names that lead into them. -/
structure Clears (e : Edits) (s : Stream) (t : ScopeTree) (regions : List Nat) : Prop where
  inside : ∀ i, (regions.map t.node).any (inRegion · i) = true → e.drop i = true
  drop : ∀ i ins, s[i]? = some ins → e.drop i = true →
    (regions.map t.node).any (inRegion · i) = true ∨ Vanishes (Vain t regions (t.nodeAt i)) ins
  keep : ∀ i ins, s[i]? = some ins → e.drop i = false →
    Narrows (Vain t regions (t.nodeAt i)) ins ((e.replace i).getD ins)
  leads : ∀ i ins, s[i]? = some ins → e.drop i = false →
    ∀ x ∈ ((e.replace i).getD ins).jumpTargets, ∀ m ∈ regions, t.resolve (t.nodeAt i) x ≠ some m
  spares : e.SparesDelimiters 0 s

/-- The changes of a run, none if no region is empty. -/
def plan (s : Stream) (t : ScopeTree) : Edits :=
  if emptyNodes s t = [] then { drop := fun _ => false } else edits s t (emptyNodes s t)

theorem run_eq (ht : ofStream s = .ok t) : run s = .ok ((plan s t).apply s) := by
  rw [run, withTree_eq ht, plan]
  split
  · next hnone => rw [if_pos hnone, Edits.apply_drop_idle fun _ _ => rfl]
  · next hsome => rw [if_neg hsome]

theorem clears_plan (s : Stream) (t : ScopeTree) : Clears (plan s t) s t (emptyNodes s t) := by
  unfold plan
  split
  · next hnone =>
      rw [hnone]
      exact ⟨by simp, fun _ _ _ hdrop => Bool.noConfusion hdrop, fun _ _ _ _ => .same,
        fun _ _ _ _ _ _ _ hm => absurd hm List.not_mem_nil, sparesDelimiters_of_drop _⟩
  · refine ⟨fun i hin => ?_, fun i ins hi hdropped => ?_, fun i ins hi _ => ?_,
      fun i ins hi hkept x hx m hm => ?_, sparesDelimiters_edits _⟩
    · simp only [edits, hin, Bool.true_or]
    · rw [drop_edits hi, Bool.or_eq_true] at hdropped
      exact hdropped.imp_right isDropped_iff.1
    · rw [replace_edits hi]
      exact narrows_narrowed
    · rw [drop_edits hi, Bool.or_eq_false_iff] at hkept
      rw [replace_edits hi] at hx
      exact not_leads_of_kept hkept.2 hx hm

namespace Clears

variable {e : Edits}

theorem thins (h : Clears e s t regions) (ht : ofStream s = .ok t) (hregions : ∀ n ∈ regions, n ∈ t.inner) :
    Thins t (swept t regions) (e.revision 0 s) := by
  refine thins_of_regions ht (fun n hn => mem_inner (hregions n hn)) h.inside ?_ h.spares
  intro i ins hi hdrop hdelimiter
  refine (h.drop i ins hi hdrop).resolve_right fun hvanishes => ?_
  rw [← isDropped_iff, isDropped_delimiter hdelimiter] at hvanishes
  exact Bool.noConfusion hvanishes

/-- A region that stays and does nothing in what the edits leave did nothing before. -/
theorem isEmpty_of_edited (h : Clears e s t regions) (ht : ofStream s = .ok t)
    (ht' : ofStream (e.edited 0 s) = .ok t') (hregions : ∀ n ∈ regions, n ∈ t.inner)
    (hn : swept t regions n = false)
    (hempty : isEmpty (e.edited 0 s) t' [] (rank (swept t regions) n) = true) :
    isEmpty s t regions n = true := by
  have hthins := h.thins ht hregions
  have hrenumbers := Edits.renumbers hthins ht ht'
  rw [isEmpty, Bool.and_eq_true, List.all_eq_true, List.all_eq_true] at hempty ⊢
  obtain ⟨hchildren, hdirect⟩ := hempty
  constructor
  · intro c hc
    rw [List.contains_iff_mem]
    cases hswept : swept t regions c with
    | false => exact absurd (hchildren _ (hrenumbers.mem_children hn hswept hc)) (by simp)
    | true =>
        -- what goes with the child but not with the region around it is the child itself
        obtain ⟨r, hr, hmem⟩ := swept_eq_true.1 hswept
        rw [ancestors, (outer_of_parent ht (mem_children.1 hc).2).2] at hmem
        rcases List.mem_cons.1 hmem with rfl | hmem
        · exact hr
        · rw [swept_eq_true.2 ⟨r, hr, hmem⟩] at hn
          exact Bool.noConfusion hn
  · intro i hi
    obtain ⟨ins, hins, hplain, rfl⟩ := exists_of_mem_directly ht hi
    rw [hins, Option.map_some, Option.getD_some]
    cases hdrop : e.drop i with
    | true =>
        rw [isIdle_iff]
        refine .inr ((h.drop i ins hins hdrop).resolve_left fun hin => ?_)
        obtain ⟨pre, post, hs, rfl⟩ := exists_split hins
        rw [any_inRegion_eq_swept ht (fun n hn => mem_inner (hregions n hn)) hs,
          ← nodeAt_length ht hs, hn] at hin
        exact Bool.noConfusion hin
    | false =>
        have hnarrows := h.keep i ins hins hdrop
        have hget := Edits.getElem?_edited hins hdrop
        have hmoved := (Edits.nodeAt_rank hthins ht ht' hins hplain hdrop).2
        have hidle := hdirect _ ((mem_directly_iff ht' hget).2
          ⟨hnarrows.isDelimiter_eq.trans hplain, hmoved⟩)
        rw [hget, Option.map_some, Option.getD_some] at hidle
        exact isIdle_of_narrows hnarrows hidle

theorem leadsStill (h : Clears e s t regions) (ht : ofStream s = .ok t)
    (ht' : ofStream (e.edited 0 s) = .ok t') (hregions : ∀ n ∈ regions, n ∈ t.inner)
    (hi : s[i]? = some ins) (hdrop : e.drop i = false)
    (hx : x ∈ ((e.replace i).getD ins).jumpTargets) {m : Nat}
    (hm : t.resolve (t.nodeAt i) x = some m) : LeadsStill e.drop t t' i x m := by
  have hplain : isDelimiter ins = false :=
    (h.keep i ins hi hdrop).isDelimiter_eq.symm.trans (isDelimiter_of_jumpTargets hx)
  rw [Edits.leadsStill_iff_not_mem (h.thins ht hregions) ht ht' hi hplain hdrop hm]
  exact fun hmem => h.leads i ins hi hdrop x hx m hmem hm

end Clears

theorem empties_plan (ht : ofStream s = .ok t) : Empties s t (emptyNodes s t) (plan s t).drop where
  inner n hn := (kind_of_mem_emptyNodes hn).1
  kind n hn := by
    have hkind := (kind_of_mem_emptyNodes hn).2
    unfold isRemovable at hkind
    split at hkind
    · next hblock => exact .inl hblock
    · next hconditional => exact .inr hconditional
    · contradiction
  gone n hn i hin := (clears_plan s t).inside i (by
    rw [List.any_map, List.any_eq_true]
    exact ⟨n, hn, hin⟩)
  idle n hn i ins hi hin := by
    refine op_of_mem_emptyNodes ht hn hi ((mem_ancestors_nodeAt_iff ht (kind_of_mem_emptyNodes hn).1 i).2 ?_)
    rwa [inRegion, Bool.and_eq_true, decide_eq_true_eq, decide_eq_true_eq] at hin

theorem emptyNodes_edited (ht : ofStream s = .ok t) (ht' : ofStream ((plan s t).edited 0 s) = .ok t') :
    emptyNodes ((plan s t).edited 0 s) t' = [] := by
  have hregions : ∀ n ∈ emptyNodes s t, n ∈ t.inner := fun n hn => (kind_of_mem_emptyNodes hn).1
  have hrenumbers := Edits.renumbers ((clears_plan s t).thins ht hregions) ht ht'
  refine closure_eq_seeds fun k hk => Bool.eq_false_iff.2 fun hempty => ?_
  obtain ⟨hinner, hkind⟩ := List.mem_filter.1 (List.mem_reverse.1 hk)
  obtain ⟨hroot, hlt⟩ := mem_inner hinner
  rw [hrenumbers.length] at hlt
  obtain ⟨n, hn, hkept, rfl⟩ := exists_rank_eq hlt
  rw [hrenumbers.kind hkept] at hkind
  have hcandidate : n ∈ t.inner := mem_inner_iff.2 ⟨mt (hrenumbers.rank_eq_root_iff hkept).2 hroot, hn⟩
  have hmem : n ∈ emptyNodes s t := by
    refine closure_closed (List.mem_reverse.2 (List.mem_filter.2 ⟨hcandidate, hkind⟩)) ?_
    exact (clears_plan s t).isEmpty_of_edited ht ht' hregions hkept hempty
  rw [swept_eq_true.2 ⟨n, hmem, List.mem_cons_self⟩] at hkept
  exact Bool.noConfusion hkept

/-- A run takes regions with nothing to execute and the names that lead into them, leaves every other
name to lead where it led, and leaves nothing for a second run. -/
theorem run_removes_empty (hs : s.balanced = true) :
    ∃ t out t', ofStream s = .ok t ∧ run s = .ok out ∧ ofStream out.code = .ok t' ∧
      (∃ (regions : List Nat) (removed : Nat → Bool), Empties s t regions removed ∧
        out.code.length = rank removed s.length ∧
        ∀ (i : Nat) (ins : Instruction), s[i]? = some ins →
          (∀ n ∈ regions, inRegion (t.node n) i = false) →
            (removed i = true ∧ Vanishes (Vain t regions (t.nodeAt i)) ins) ∨
            (removed i = false ∧ ∃ new, out.code[rank removed i]? = some new ∧
              Narrows (Vain t regions (t.nodeAt i)) ins new ∧
              ∀ x ∈ new.jumpTargets, ∀ m, t.resolve (t.nodeAt i) x = some m →
                LeadsStill removed t t' i x m)) ∧
      run out.code = .ok ⟨out.code, false⟩ := by
  obtain ⟨t, ht⟩ := exists_tree hs
  obtain ⟨out, hrun, hbalanced⟩ := balanced_run ht
  obtain rfl : (plan s t).apply s = out := Except.ok.inj ((run_eq ht).symm.trans hrun)
  obtain ⟨t', ht'⟩ := exists_tree hbalanced
  refine ⟨t, _, t', ht, hrun, ht', ⟨emptyNodes s t, (plan s t).drop, ?_, ?_, ?_⟩, ?_⟩
  · exact empties_plan ht
  · rw [Edits.apply_eq, Edits.length_edited]
  · intro i ins hi hout
    rw [Edits.apply_eq] at ht' ⊢
    cases hdrop : (plan s t).drop i with
    | true =>
        refine .inl ⟨rfl, ((clears_plan s t).drop i ins hi hdrop).resolve_left fun hin => ?_⟩
        rw [List.any_map, List.any_eq_true] at hin
        obtain ⟨n, hn, hin⟩ := hin
        rw [Function.comp_apply, hout n hn] at hin
        exact Bool.noConfusion hin
    | false =>
        refine .inr ⟨rfl, _, Edits.getElem?_edited hi hdrop, (clears_plan s t).keep i ins hi hdrop, ?_⟩
        intro x hx m hm
        exact (clears_plan s t).leadsStill ht ht' (fun n hn => (kind_of_mem_emptyNodes hn).1) hi hdrop hx hm
  · rw [run_eq ht', plan, if_pos, Edits.apply_drop_idle fun _ _ => rfl]
    rw [Edits.apply_eq] at ht' ⊢
    exact emptyNodes_edited ht ht'

/-- An empty region that is nested and jumped to, one branch that leads to it and one that does not, and
two regions that jump to each other and stay. -/
def idlers : Stream :=
  let c := some (Reference.var { id := "c", name := "c", type := .data .boolean })
  [Instruction.declare c, Instruction.scopeBegin "a" .conditional, Instruction.scopeBegin "b" .block,
    Instruction.declare c, Instruction.scopeEnd "b" .block, Instruction.jump "b",
    Instruction.scopeEnd "a" .conditional, Instruction.scopeBegin "d" .conditional,
    Instruction.assign c (some (.literal (.bool true))), Instruction.scopeEnd "d" .conditional,
    Instruction.condJump c "a" "d", Instruction.scopeBegin "e" .block, Instruction.jump "f",
    Instruction.scopeEnd "e" .block, Instruction.scopeBegin "f" .block, Instruction.jump "e",
    Instruction.scopeEnd "f" .block, Instruction.jump "e", Instruction.jump "a"]

theorem run_removes_empty_idlers :
    idlers.balanced = true ∧
      ∃ t out t', ofStream idlers = .ok t ∧ run idlers = .ok out ∧ ofStream out.code = .ok t' ∧
        (∃ (regions : List Nat) (removed : Nat → Bool), Empties idlers t regions removed ∧
          out.code.length = rank removed idlers.length ∧
          ∀ (i : Nat) (ins : Instruction), idlers[i]? = some ins →
            (∀ n ∈ regions, inRegion (t.node n) i = false) →
              (removed i = true ∧ Vanishes (Vain t regions (t.nodeAt i)) ins) ∨
              (removed i = false ∧ ∃ new, out.code[rank removed i]? = some new ∧
                Narrows (Vain t regions (t.nodeAt i)) ins new ∧
                ∀ x ∈ new.jumpTargets, ∀ m, t.resolve (t.nodeAt i) x = some m →
                  LeadsStill removed t t' i x m)) ∧
        run out.code = .ok ⟨out.code, false⟩ :=
  ⟨by decide, run_removes_empty (by decide)⟩

end Datapack.Optimize.EmptyScopes
