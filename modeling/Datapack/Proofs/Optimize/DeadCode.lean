import Datapack.Proofs.Ir.Brackets
import Datapack.Proofs.Optimize.Balance

/-!
# Dead code and what is still needed

A variable is needed when it can be observed from outside, is read by something other than a pure
instruction, or is read to compute a needed variable.  `mem_live_iff` says that the worklist finds
exactly these, and `isDead_iff` which instructions go: those that write a variable nobody needs, or write
one where no declaration of it is in force.  A definition that something left in the stream still reads
therefore only goes where it is out of the reach of every declaration.
-/

namespace Datapack.Optimize

open Ir

namespace DeadCode

/-- The variables whose values matter. -/
inductive Needed (s : Stream) : Variable → Prop where
  | root {ins : Instruction} {v : Variable} (hins : ins ∈ s) (hv : v ∈ ins.vars)
      (hroot : v.isRoot = true) : Needed s v
  | read {ins : Instruction} {v : Variable} (hins : ins ∈ s) (hv : v ∈ ins.readVars)
      (heffect : ins.op.isPure = false) : Needed s v
  | feeds {ins : Instruction} {v r : Variable} (hins : ins ∈ s) (hv : v ∈ ins.readVars)
      (htarget : pureTarget ins = some r) (hr : Needed s r) : Needed s v

variable {s : Stream} {t : ScopeTree}

theorem pureTarget_eq_some {ins : Instruction} {v : Variable} :
    pureTarget ins = some v ↔ ins.op.isPure = true ∧ varOf ins.result = some v := by
  unfold pureTarget
  split
  · next hpure => simp [hpure]
  · next hpure => simp [hpure]

theorem mem_vars_of_result {ins : Instruction} {v : Variable} (h : varOf ins.result = some v) :
    v ∈ ins.vars := by
  obtain ⟨r, hr, hvar⟩ := Option.bind_eq_some_iff.1 h
  refine List.mem_filterMap.2 ⟨r, ?_, hvar⟩
  simp [Instruction.refs, hr]

theorem readVars_declare {ins : Instruction} (hop : ins.op = .declare) : ins.readVars = [] := by
  simp [Instruction.readVars, Instruction.reads, Instruction.readSlots, Instruction.isCall, hop]

theorem feedsLive_eq_true {known : List Variable} {v : Variable} :
    feedsLive s known v = true ↔
      ∃ ins ∈ s, ∃ r, pureTarget ins = some r ∧ r ∈ known ∧ v ∈ ins.readVars := by
  rw [feedsLive, List.any_eq_true]
  refine exists_congr fun ins => and_congr_right fun _ => ?_
  cases htarget : pureTarget ins with
  | none => simp
  | some r => simp

theorem needed_of_mem_seeds {ins : Instruction} {v : Variable} (hins : ins ∈ s) (hv : v ∈ seeds ins) :
    Needed s v := by
  rcases List.mem_append.1 hv with hv | hv
  · obtain ⟨hv, hroot⟩ := List.mem_filter.1 hv
    exact .root hins hv hroot
  · split at hv
    · exact absurd hv List.not_mem_nil
    · next heffect =>
        simp only [Bool.or_eq_true, not_or, Bool.not_eq_true] at heffect
        exact .read hins hv heffect.1

theorem mem_live_of_mem_seeds {ins : Instruction} {v : Variable} (hins : ins ∈ s) (hv : v ∈ seeds ins) :
    v ∈ live s :=
  subset_closure (List.mem_eraseDups.2 (List.mem_flatMap.2 ⟨ins, hins, hv⟩))

theorem mem_live_iff {v : Variable} : v ∈ live s ↔ Needed s v := by
  constructor
  · refine closure_induction (fun w hw => ?_) (fun known w hknown hfeeds => ?_)
    · obtain ⟨ins, hins, hw⟩ := List.mem_flatMap.1 (List.mem_eraseDups.1 hw)
      exact needed_of_mem_seeds hins hw
    · obtain ⟨ins, hins, r, htarget, hr, hw⟩ := feedsLive_eq_true.1 hfeeds
      exact .feeds hins hw htarget (hknown r hr)
  · intro h
    induction h with
    | root hins hv hroot =>
        exact mem_live_of_mem_seeds hins (List.mem_append_left _ (List.mem_filter.2 ⟨hv, hroot⟩))
    | @read ins v hins hv heffect =>
        refine mem_live_of_mem_seeds hins (List.mem_append_right _ ?_)
        have hop : ins.op ≠ .declare := by
          intro hop
          rw [readVars_declare hop] at hv
          exact absurd hv List.not_mem_nil
        simpa [heffect, hop] using hv
    | feeds hins hv htarget _ ih =>
        refine closure_closed ?_ (feedsLive_eq_true.2 ⟨_, hins, _, htarget, ih, hv⟩)
        exact List.mem_eraseDups.2 (List.mem_flatMap.2 ⟨_, hins, hv⟩)

theorem needed_of_read {ins : Instruction} {i : Nat} {v : Variable}
    (hwrites : ins.op.isPure = true → (varOf ins.result).isSome = true) (hi : s[i]? = some ins)
    (hkept : isDead s t (live s) i = false) (hv : v ∈ ins.readVars) : Needed s v := by
  have hins := List.mem_of_getElem? hi
  cases hpure : ins.op.isPure with
  | false => exact .read hins hv hpure
  | true =>
      obtain ⟨r, hr⟩ := Option.isSome_iff_exists.1 (hwrites hpure)
      have htarget := pureTarget_eq_some.2 ⟨hpure, hr⟩
      have hlive : r ∈ live s := by
        simp only [isDead, hi, Option.bind_some, htarget, Bool.or_eq_false_iff, Bool.not_eq_false',
          List.contains_iff_mem] at hkept
        exact hkept.1
      exact .feeds hins hv htarget (mem_live_iff.1 hlive)

/-! ## Where a declaration is in force -/

/-- A node that directly holds a declaration of a variable. -/
def Declares (s : Stream) (t : ScopeTree) (v : Variable) (n : Nat) : Prop :=
  ∃ j d, s[j]? = some d ∧ declares? d = some v ∧ j ∈ t.directly n

theorem op_of_declares {d : Instruction} {v : Variable} (h : declares? d = some v) :
    d.op = .declare := by
  unfold declares? at h
  split at h
  · assumption
  · cases h

theorem isPure_of_declares {d : Instruction} {v : Variable} (h : declares? d = some v) :
    d.op.isPure = false := by
  rw [op_of_declares h]
  rfl

theorem declares?_plain {d : Instruction} {v : Variable} (h : declares? d = some v) :
    isDelimiter d = false := by
  simp [isDelimiter, op_of_declares h]

theorem mem_directly_iff (ht : ScopeTree.ofStream s = .ok t) {j n : Nat} {d : Instruction}
    (hj : s[j]? = some d) (hplain : isDelimiter d = false) : j ∈ t.directly n ↔ t.nodeAt j = n := by
  rw [ScopeTree.mem_directly_iff ht hj, and_iff_right hplain]

theorem mem_declaredIn_iff (ht : ScopeTree.ofStream s = .ok t) {v : Variable} {n : Nat} :
    n ∈ declaredIn s t v ↔ Declares s t v n := by
  constructor
  · intro hn
    obtain ⟨⟨d, j⟩, hzip, hsome⟩ := List.mem_filterMap.1 hn
    have hj := List.mk_mem_zipIdx_iff_getElem?.1 hzip
    simp only [Option.ite_none_right_eq_some, Option.some.injEq] at hsome
    exact ⟨j, d, hj, hsome.1, (mem_directly_iff ht hj (declares?_plain hsome.1)).2 hsome.2⟩
  · rintro ⟨j, d, hj, hd, hmem⟩
    have hnode := (mem_directly_iff ht hj (declares?_plain hd)).1 hmem
    refine List.mem_filterMap.2 ⟨(d, j), List.mk_mem_zipIdx_iff_getElem?.2 hj, ?_⟩
    simp [hd, hnode]

theorem isDeclared_iff (ht : ScopeTree.ofStream s = .ok t) {i : Nat} {ins : Instruction}
    (hi : s[i]? = some ins) (hplain : isDelimiter ins = false) {v : Variable} :
    isDeclared s t v (t.nodeAt i) = true ↔
      v.isRoot = true ∨ ∃ n, Declares s t v n ∧ (t.node n).contains i = true := by
  rw [isDeclared, Bool.or_eq_true, List.any_eq_true]
  refine or_congr_right (exists_congr fun n => ?_)
  rw [mem_declaredIn_iff ht]
  refine and_congr_right fun hn => ?_
  obtain ⟨j, d, hj, hd, hmem⟩ := hn
  have hnode := (mem_directly_iff ht hj (declares?_plain hd)).1 hmem
  rw [ScopeTree.isAncestor, List.contains_iff_mem]
  exact ScopeTree.mem_ancestors_iff_contains ht (hnode ▸ ScopeTree.nodeAt_lt ht j) hi hplain

theorem isDead_eq_true {i : Nat} {ins : Instruction} (hi : s[i]? = some ins) :
    isDead s t (live s) i = true ↔ ∃ v, pureTarget ins = some v ∧
      (¬Needed s v ∨ ¬isDeclared s t v (t.nodeAt i) = true) := by
  simp only [isDead, hi, Option.bind_some]
  cases htarget : pureTarget ins with
  | none => simp
  | some v => simp [← mem_live_iff]

/-- An instruction is dead when it writes a variable that nobody needs, or one that cannot be observed
from outside and is not declared around it. -/
theorem isDead_iff (ht : ScopeTree.ofStream s = .ok t) {i : Nat} {ins : Instruction}
    (hi : s[i]? = some ins) :
    isDead s t (live s) i = true ↔ ∃ v, pureTarget ins = some v ∧
      (¬Needed s v ∨ v.isRoot = false ∧ ∀ n, Declares s t v n → (t.node n).contains i = false) := by
  rw [isDead_eq_true hi]
  refine exists_congr fun v => and_congr_right fun htarget => or_congr_right ?_
  have hplain := isDelimiter_of_isPure (pureTarget_eq_some.1 htarget).1
  rw [isDeclared_iff ht hi hplain]
  simp only [not_or, not_exists, not_and, Bool.not_eq_true]

/-- Dead-code elimination deletes every definition of a variable that nobody needs.  It deletes pure
instructions only, none that writes a variable which can be observed from outside, and a definition of a
variable that the rest still reads only where no declaration of the variable is in force. -/
theorem run_spares_needed (hs : s.balanced = true)
    (hwrites : ∀ ins ∈ s, ins.op.isPure = true → (varOf ins.result).isSome = true) :
    ∃ t out, ScopeTree.ofStream s = .ok t ∧ run s = .ok out ∧ ∃ removed : Nat → Bool,
      out.code = (s.zipIdx.filter fun x => !removed x.2).map Prod.fst ∧
      (∀ i ins v, s[i]? = some ins → pureTarget ins = some v → ¬Needed s v → removed i = true) ∧
      ∀ i ins, s[i]? = some ins → removed i = true →
        ins.op.isPure = true ∧ ∃ v, varOf ins.result = some v ∧
          v.kind ≠ .parameter ∧ v.kind ≠ .ret ∧ v.retain = false ∧
          ((∃ reader ∈ out.code, v ∈ reader.readVars) →
            ∀ j d n, s[j]? = some d → d.op = .declare → varOf (d.refAt 0) = some v →
              j ∈ t.directly n → (t.node n).contains i = false) := by
  obtain ⟨t, ht⟩ := exists_tree hs
  refine ⟨t, _, ht, withTree_eq ht _, isDead s t (live s), ?_, ?_, ?_⟩
  · rw [Edits.apply_eq, Edits.edited_drop]
  · intro i ins v hi htarget hunneeded
    exact (isDead_iff ht hi).2 ⟨v, htarget, .inl hunneeded⟩
  · intro i ins hi hdead
    obtain ⟨v, htarget, hreason⟩ := (isDead_iff ht hi).1 hdead
    obtain ⟨hpure, hv⟩ := pureTarget_eq_some.1 htarget
    have hroot : v.isRoot = false := by
      rcases hreason with hunneeded | ⟨hroot, -⟩
      · by_contra hroot
        rw [Bool.not_eq_false] at hroot
        exact hunneeded (.root (List.mem_of_getElem? hi) (mem_vars_of_result hv) hroot)
      · exact hroot
    simp only [Variable.isRoot, Bool.or_eq_false_iff, decide_eq_false_iff_not] at hroot
    refine ⟨hpure, v, hv, hroot.1.1, hroot.1.2, hroot.2, ?_⟩
    rintro ⟨reader, hreader, hread⟩ j d n hj hop hd hmem
    rw [Edits.apply_eq] at hreader
    obtain ⟨k, hk, hkept⟩ := Edits.exists_of_mem_edited_drop hreader
    have hneeded := needed_of_read (hwrites reader (List.mem_of_getElem? hk)) hk hkept hread
    have hdeclares : Declares s t v n := ⟨j, d, hj, by simp [declares?, hop, hd], hmem⟩
    exact (hreason.resolve_left (not_not_intro hneeded)).2 n hdeclares

/-- A variable that is defined once more behind the region of its declaration, and two variables that are
only read to compute each other. -/
def strayDefinition : Stream :=
  let x := some (Reference.var { id := "x", name := "x", type := .data .int })
  let y := some (Reference.var { id := "y", name := "y", type := .data .int })
  let z := some (Reference.var { id := "z", name := "z", type := .data .int })
  [Instruction.scopeBegin "a" .block, Instruction.declare x, Instruction.condJump x "a" "",
    Instruction.scopeEnd "a" .block, Instruction.assign x (some (.literal (.int 5))),
    Instruction.assign y z, Instruction.assign z y]

theorem run_spares_needed_stray :
    strayDefinition.balanced = true ∧
      (∀ ins ∈ strayDefinition, ins.op.isPure = true → (varOf ins.result).isSome = true) ∧
      ∃ t out, ScopeTree.ofStream strayDefinition = .ok t ∧ run strayDefinition = .ok out ∧
        ∃ removed : Nat → Bool,
          out.code = (strayDefinition.zipIdx.filter fun x => !removed x.2).map Prod.fst ∧
          (∀ i ins v, strayDefinition[i]? = some ins → pureTarget ins = some v →
            ¬Needed strayDefinition v → removed i = true) ∧
          ∀ i ins, strayDefinition[i]? = some ins → removed i = true →
            ins.op.isPure = true ∧ ∃ v, varOf ins.result = some v ∧
              v.kind ≠ .parameter ∧ v.kind ≠ .ret ∧ v.retain = false ∧
              ((∃ reader ∈ out.code, v ∈ reader.readVars) →
                ∀ j d n, strayDefinition[j]? = some d → d.op = .declare → varOf (d.refAt 0) = some v →
                  j ∈ t.directly n → (t.node n).contains i = false) :=
  ⟨by decide, by decide, run_spares_needed (by decide) (by decide)⟩

end DeadCode

end Datapack.Optimize
