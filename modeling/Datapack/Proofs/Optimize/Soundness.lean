import Datapack.Proofs.Optimize.DeadCode
import Datapack.Proofs.Optimize.Tidy

/-!
# The passes keep programs tidy

A pass that plans edits keeps a tidy program tidy when the edits fit: regions go as a whole, and what
stays does not refer to what goes.  Each pass has its own reason for that.
-/

namespace Datapack.Optimize

open Ir ScopeTree Revision

/-! ## Edits as revisions -/

namespace Edits

/-- The rest of a stream, from index `i` on, with the changes planned for it. -/
def revision (e : Edits) : Nat → Stream → Revision
  | _, [] => []
  | i, ins :: rest =>
    (ins, if e.drop i then none else some ((e.replace i).getD ins)) :: e.revision (i + 1) rest

variable {e : Edits} {s : Stream}

theorem before_revision (e : Edits) (i : Nat) (s : Stream) : before (e.revision i s) = s := by
  induction s generalizing i with
  | nil => rfl
  | cons ins s ih =>
      rw [revision, before, List.map_cons]
      exact congrArg (ins :: ·) (ih (i + 1))

theorem after_revision (e : Edits) (i : Nat) (s : Stream) : after (e.revision i s) = e.edited i s := by
  induction s generalizing i with
  | nil => rfl
  | cons ins s ih =>
      rw [revision, edited]
      split
      · exact ih (i + 1)
      · exact congrArg (_ :: ·) (ih (i + 1))

theorem revision_at {i : Nat} {a b : Revision} {ins : Instruction} {o : Option Instruction}
    (h : e.revision i s = a ++ (ins, o) :: b) :
    o = if e.drop (i + (before a).length) then none
      else some ((e.replace (i + (before a).length)).getD ins) := by
  induction s generalizing i a with
  | nil => simp [revision] at h
  | cons x s ih =>
      rw [revision] at h
      cases a with
      | nil =>
          rw [List.nil_append, List.cons.injEq, Prod.mk.injEq] at h
          obtain ⟨⟨rfl, rfl⟩, -⟩ := h
          rfl
      | cons y a =>
          rw [List.cons_append, List.cons.injEq] at h
          have hstep := ih h.2
          rwa [Nat.add_assoc, Nat.add_comm 1] at hstep

theorem revision_split {a b : Revision} {ins : Instruction} {o : Option Instruction}
    (h : e.revision 0 s = a ++ (ins, o) :: b) :
    s = before a ++ ins :: before b ∧
      o = if e.drop (before a).length then none else some ((e.replace (before a).length).getD ins) := by
  have ho := revision_at h
  rw [Nat.zero_add] at ho
  refine ⟨?_, ho⟩
  rw [← before_revision e 0 s, h, before_append]
  rfl

/-- An instruction that stays, with what stands in its place. -/
theorem revision_kept {a b : Revision} {ins new : Instruction}
    (h : e.revision 0 s = a ++ (ins, some new) :: b) :
    s = before a ++ ins :: before b ∧ e.drop (before a).length = false ∧
      new = (e.replace (before a).length).getD ins := by
  obtain ⟨hs, ho⟩ := revision_split h
  split at ho
  · exact absurd ho (by simp)
  · next hkept => exact ⟨hs, by simpa using hkept, Option.some.inj ho⟩

section Plain

variable {drop : Nat → Bool} {pre post : Stream} {a b : Revision} {ins : Instruction}

/-- Where no delimiter is dropped, the regions that are open stay the same. -/
theorem after_after_eq (hplain : ∀ i ins, s[i]? = some ins → isDelimiter ins = true → drop i = false)
    (hw : revision { drop } 0 s = a ++ b) :
    Position.start.after (after a) = Position.start.after (before a) := by
  induction a using List.reverseRecOn generalizing b with
  | nil => rfl
  | append_singleton a x ih =>
      obtain ⟨ins, o⟩ := x
      rw [List.append_assoc, List.singleton_append] at hw
      obtain ⟨hs, ho⟩ := revision_split hw
      rw [after_append, before_append, Position.after_append, Position.after_append, ih hw]
      cases hdrop : drop (before a).length with
      | false =>
          obtain rfl : o = some ins := by simpa [hdrop] using ho
          rfl
      | true =>
          obtain rfl : o = none := by simpa [hdrop] using ho
          have hins : isDelimiter ins = false := by
            cases hdelimiter : isDelimiter ins with
            | false => rfl
            | true =>
                rw [hplain _ ins (by rw [hs]; simp) hdelimiter] at hdrop
                exact Bool.noConfusion hdrop
          exact (Position.advance_plain _ hins).symm

/-- An instruction that is not dropped stands in the same regions behind the edits. -/
theorem exists_split_of_kept
    (hplain : ∀ i ins, s[i]? = some ins → isDelimiter ins = true → drop i = false)
    (hs : s = pre ++ ins :: post) (hkept : drop pre.length = false) :
    ∃ pre' post', edited { drop } 0 s = pre' ++ ins :: post' ∧
      Position.start.after pre' = Position.start.after pre := by
  obtain ⟨a, o, b, hw, rfl, -⟩ := exists_of_before_eq ((before_revision { drop } 0 s).trans hs)
  obtain ⟨-, ho⟩ := revision_split hw
  obtain rfl : o = some ins := by simpa [hkept] using ho
  refine ⟨after a, after b, ?_, after_after_eq hplain hw⟩
  rw [← after_revision, hw, after_append]
  rfl

/-- An instruction behind the edits stood in the same regions before them. -/
theorem exists_split_of_edited
    (hplain : ∀ i ins, s[i]? = some ins → isDelimiter ins = true → drop i = false)
    (h : edited { drop } 0 s = pre ++ ins :: post) :
    ∃ pre' post', s = pre' ++ ins :: post' ∧ drop pre'.length = false ∧
      Position.start.after pre' = Position.start.after pre := by
  obtain ⟨a, old, b, hw, rfl, -⟩ := exists_of_after_eq ((after_revision { drop } 0 s).trans h)
  obtain ⟨hs, hkept, rfl⟩ := revision_kept hw
  exact ⟨before a, before b, hs, hkept, (after_after_eq hplain hw).symm⟩

end Plain

/-- Edits that drop regions as a whole, and else no delimiter. -/
theorem thins_revision {t : ScopeTree} {gone : Nat → Bool} (hroot : gone ScopeTree.root = false)
    (hinherits : ∀ n q, q ∈ (t.node n).outer → gone q = true → gone n = true)
    (hdelimiter : ∀ pre ins post, s = pre ++ ins :: post → isDelimiter ins = true →
      e.drop pre.length = gone ((Position.start.after pre).owner ins))
    (hinside : ∀ pre ins post, s = pre ++ ins :: post →
      gone ((Position.start.after pre).owner ins) = true → e.drop pre.length = true)
    (hspares : e.SparesDelimiters 0 s) : Thins t gone (e.revision 0 s) := by
  refine ⟨hroot, hinherits, fun a ins o b hw hdelimits => ?_, fun a ins o b hw hgone => ?_,
    fun ins new hmem hplain => ?_⟩
  · obtain ⟨hs, ho⟩ := revision_split hw
    have hsame : (e.replace (before a).length).getD ins = ins := by
      cases hreplace : e.replace (before a).length with
      | none => rfl
      | some new =>
          have hplain := (hspares (before a).length ins new (by rw [hs]; simp) (by
            rw [Nat.zero_add, hreplace])).1
          rw [hdelimits] at hplain
          exact Bool.noConfusion hplain
    rw [ho, hdelimiter _ _ _ hs hdelimits, hsame]
  · obtain ⟨hs, ho⟩ := revision_split hw
    rw [ho, hinside _ _ _ hs hgone, if_pos rfl]
  · obtain ⟨a, b, hw⟩ := List.append_of_mem hmem
    obtain ⟨hs, -, rfl⟩ := revision_kept hw
    cases hreplace : e.replace (before a).length with
    | none => exact hplain
    | some new =>
        exact (hspares (before a).length ins new (by rw [hs]; simp) (by
          rw [Nat.zero_add, hreplace])).2

/-- Edits that drop regions as a whole, and nothing that is still referred to. -/
structure Fits (e : Edits) (classes : Hierarchy) (s : Stream) (t : ScopeTree) (gone : Nat → Bool) :
    Prop where
  root : gone root = false
  inherits : ∀ n q, q ∈ (t.node n).outer → gone q = true → gone n = true
  delimiter : ∀ pre ins post, s = pre ++ ins :: post → isDelimiter ins = true →
    e.drop pre.length = gone ((Position.start.after pre).owner ins)
  inside : ∀ pre ins post, s = pre ++ ins :: post →
    gone ((Position.start.after pre).owner ins) = true → e.drop pre.length = true
  spares : e.SparesDelimiters 0 s
  refines : ∀ pre ins post new, s = pre ++ ins :: post → e.drop pre.length = false →
    e.replace pre.length = some new → Refines classes ins new
  targets : ∀ pre ins post, s = pre ++ ins :: post → e.drop pre.length = false →
    ∀ x ∈ ((e.replace pre.length).getD ins).jumpTargets, ∀ m,
      t.resolve (Position.start.after pre).top x = some m → gone m = false
  declared : ∀ pre d mid ins post, s = pre ++ d :: (mid ++ ins :: post) → e.drop pre.length = true →
    e.drop (pre ++ d :: mid).length = false → ∀ v, DeadCode.declares? d = some v →
    assigns? (asAssignment ((e.replace (pre ++ d :: mid).length).getD ins)) = some v →
      (Position.start.after pre).top ∉ (Position.start.after (pre ++ d :: mid)).stack
  functions : ∀ pre f b post, s = pre ++ f :: b :: post → f.op = .function → b.op = .scopeBegin →
    b.scopeKind = .function → (e.replace pre.length).getD f = f ∧
      (e.drop pre.length = true → e.drop (pre ++ [f]).length = true)

namespace Fits

variable {classes : Hierarchy} {t t' : ScopeTree} {gone : Nat → Bool}

theorem thins (h : Fits e classes s t gone) : Thins t gone (e.revision 0 s) :=
  thins_revision h.root h.inherits h.delimiter h.inside h.spares

theorem sound (h : Fits e classes s t gone) : Sound classes t gone (e.revision 0 s) := by
  refine ⟨h.thins, fun ins new hmem => ?_, fun a ins new b hw x hx m hm => ?_,
    fun a d b ins new c hw v hd hv => ?_, fun a f o b new c hw hf hop hkind => ?_⟩
  · obtain ⟨a, b, hw⟩ := List.append_of_mem hmem
    obtain ⟨hs, hkept, rfl⟩ := revision_kept hw
    cases hreplace : e.replace (before a).length with
    | none => exact .refl classes ins
    | some new => exact h.refines _ _ _ _ hs hkept hreplace
  · obtain ⟨hs, hkept, rfl⟩ := revision_kept hw
    exact h.targets _ _ _ hs hkept x hx m hm
  · obtain ⟨-, hnone⟩ := revision_split hw
    have hdrop : e.drop (before a).length = true := by
      split at hnone
      · assumption
      · exact absurd hnone (by simp)
    have hw' : e.revision 0 s = (a ++ (d, none) :: b) ++ (ins, some new) :: c := by simp [hw]
    have hpre : before (a ++ (d, none) :: b) = before a ++ d :: before b := before_append _ _
    obtain ⟨hs, hkept, hnew⟩ := revision_kept hw'
    rw [hpre] at hs hkept hnew
    rw [hnew] at hv
    rw [hpre]
    exact h.declared _ _ _ _ (before c) (by simpa using hs) hdrop hkept v hd hv
  · obtain ⟨hs, ho⟩ := revision_split hw
    have hw' : e.revision 0 s = (a ++ [(f, o)]) ++ (b, some new) :: c := by simp [hw]
    have hpre : before (a ++ [(f, o)]) = before a ++ [f] := before_append _ _
    obtain ⟨-, hkept, -⟩ := revision_kept hw'
    rw [hpre] at hkept
    obtain ⟨hsame, hboth⟩ := h.functions _ _ _ _ hs hf hop hkind
    rw [hsame] at ho
    split at ho
    · next hdrop =>
        rw [hboth hdrop] at hkept
        exact Bool.noConfusion hkept
    · exact ho

theorem tidy (h : Fits e classes s t gone) (htidy : Tidy classes s t)
    (hbalanced : (e.apply s).code.balanced = true) : ∃ t', Tidy classes (e.apply s).code t' := by
  obtain ⟨t', ht'⟩ := exists_tree hbalanced
  have hbefore := before_revision e 0 s
  have hafter := after_revision e 0 s
  rw [apply_eq] at ht' ⊢
  rw [← hafter] at ht' ⊢
  rw [← hbefore] at htidy
  exact ⟨t', h.sound.tidy htidy ht'⟩

end Fits

end Edits

section Passes

variable {classes : Hierarchy} {s : Stream} {t : ScopeTree}

theorem tidy_withTree {e : Edits} {gone : Nat → Bool} {f : ScopeTree → Outcome} (h : Tidy classes s t)
    (hrun : ∃ out, withTree s f = .ok out ∧ out.code.balanced = true) (hf : f t = e.apply s)
    (hfits : e.Fits classes s t gone) :
    ∃ out t', withTree s f = .ok out ∧ Tidy classes out.code t' := by
  obtain ⟨out, hout, hbalanced⟩ := hrun
  obtain rfl : f t = out := Except.ok.inj ((withTree_eq h.tree f).symm.trans hout)
  rw [hf] at hbalanced
  obtain ⟨t', ht'⟩ := hfits.tidy h hbalanced
  refine ⟨f t, t', hout, ?_⟩
  rwa [hf]

/-! ## Instructions without results -/

/-- What an assignment or an operation writes is mentioned. -/
theorem mem_vars_of_assigns {ins : Instruction} {v : Variable}
    (h : assigns? (asAssignment ins) = some v) : ins.op ≠ .declare ∧ v ∈ ins.vars := by
  have hresult : ∀ (hop : ins.op = .assign ∨ isOperation ins = true), varOf (ins.refAt 0) = some v →
      ins.op ≠ .declare ∧ v ∈ ins.vars := by
    intro hop hv
    have hops : ins.op ≠ .declare ∧ ins.result = ins.refAt 0 := by
      simp only [isOperation, Bool.or_eq_true, decide_eq_true_eq] at hop
      rcases hop with hop | ((hop | hop) | hop) | hop <;> simp [Instruction.result, hop]
    rw [← hops.2] at hv
    exact ⟨hops.1, DeadCode.mem_vars_of_result hv⟩
  cases hoperation : isOperation ins with
  | true =>
      rw [asAssignment_operation hoperation] at h
      exact hresult (.inr hoperation) h
  | false =>
      rw [asAssignment_other hoperation, assigns?] at h
      split at h
      · next hop => exact hresult (.inl hop) h
      · exact absurd h (by simp)

theorem isDelimiter_of_assigns {ins : Instruction} {v : Variable}
    (h : assigns? (asAssignment ins) = some v) : isDelimiter ins = false := by
  cases hdelimiter : isDelimiter ins with
  | false => rfl
  | true =>
      rw [asAssignment_delimiter hdelimiter, assigns?] at h
      split at h
      · next hop => simp [isDelimiter, hop] at hdelimiter
      · exact absurd h (by simp)

/-- Edits that drop neither delimiters nor definitions, and no declaration of what is assigned. -/
theorem fits_of_plain {drop : Nat → Bool}
    (hplain : ∀ i ins, s[i]? = some ins → drop i = true → isDelimiter ins = false ∧ ins.op ≠ .function)
    (hdeclared : ∀ i d v, s[i]? = some d → drop i = true → DeadCode.declares? d = some v →
      ∀ ins ∈ s, assigns? (asAssignment ins) ≠ some v) :
    Edits.Fits { drop } classes s t fun _ => false where
  root := rfl
  inherits _ _ _ h := Bool.noConfusion h
  delimiter pre ins post hs hdelimiter := by
    cases hdrop : drop pre.length with
    | false => exact hdrop
    | true =>
        rw [(hplain pre.length ins (by rw [hs]; simp) hdrop).1] at hdelimiter
        exact Bool.noConfusion hdelimiter
  inside _ _ _ _ h := Bool.noConfusion h
  spares := sparesDelimiters_of_drop drop
  refines _ _ _ _ _ _ h := absurd h (by simp)
  targets _ _ _ _ _ _ _ _ _ := rfl
  declared pre d mid ins post hs hdrop _ v hd hv :=
    absurd hv (hdeclared pre.length d v (by rw [hs]; simp) hdrop hd ins (by simp [hs]))
  functions pre f b post hs hf _ _ :=
    ⟨rfl, fun hdrop => absurd hf (hplain pre.length f (by rw [hs]; simp) hdrop).2⟩

theorem DeadCode.fits : Edits.Fits { drop := isDead s t (live s) } classes s t fun _ => false := by
  have hpure : ∀ i ins, s[i]? = some ins → isDead s t (live s) i = true → ins.op.isPure = true := by
    intro i ins hi hdead
    cases hop : ins.op.isPure with
    | true => rfl
    | false => simp [isDead, hi, pureTarget, hop] at hdead
  refine fits_of_plain (fun i ins hi hdead => ?_) fun i d v hi hdead hd => ?_
  · have hop := hpure i ins hi hdead
    refine ⟨isDelimiter_of_isPure hop, ?_⟩
    intro hfunction
    simp [hfunction, Opcode.isPure] at hop
  · have hop := hpure i d hi hdead
    rw [isPure_of_declares hd] at hop
    exact Bool.noConfusion hop

theorem Declarations.fits : Edits.Fits { drop := isVain s t } classes s t fun _ => false := by
  have hvain : ∀ i ins, s[i]? = some ins → isVain s t i = true →
      ∃ v, DeadCode.declares? ins = some v ∧ isMentioned s v = false := by
    intro i ins hi hvain
    cases hv : DeadCode.declares? ins with
    | none => simp [isVain, hi, hv] at hvain
    | some v =>
        simp only [isVain, hi, hv, Option.bind_some, Bool.and_eq_true, Bool.not_eq_true'] at hvain
        exact ⟨v, rfl, hvain.1.2⟩
  refine fits_of_plain (fun i ins hi hdrop => ?_) fun i d v hi hdrop hd ins hmem hv => ?_
  · obtain ⟨v, hv, -⟩ := hvain i ins hi hdrop
    exact ⟨DeadCode.declares?_plain hv, by simp [DeadCode.op_of_declares hv]⟩
  · obtain ⟨u, hu, hnone⟩ := hvain i d hi hdrop
    obtain rfl := Option.some.inj (hd.symm.trans hu)
    obtain ⟨hop, hvars⟩ := mem_vars_of_assigns hv
    rw [isMentioned, List.any_eq_false] at hnone
    exact hnone ins hmem (by simp [hop, hvars])

/-! ## Whole regions -/

/-- Whether a region is one of some regions or inside one. -/
def swept (t : ScopeTree) (regions : List Nat) (n : Nat) : Bool := regions.any (t.isAncestor · n)

section Swept

variable {regions : List Nat} {m n q : Nat}

theorem swept_eq_true : swept t regions n = true ↔ ∃ r ∈ regions, r ∈ t.ancestors n := by
  simp [swept, isAncestor]

theorem swept_root (ht : ofStream s = .ok t) (h : ScopeTree.root ∉ regions) :
    swept t regions ScopeTree.root = false := by
  cases hswept : swept t regions ScopeTree.root with
  | false => rfl
  | true =>
      obtain ⟨r, hr, hmem⟩ := swept_eq_true.1 hswept
      rw [ancestors, outer_root ht, List.mem_singleton] at hmem
      exact absurd (hmem ▸ hr) h

theorem swept_inherits (ht : ofStream s = .ok t) (hq : q ∈ (t.node n).outer)
    (h : swept t regions q = true) : swept t regions n = true := by
  obtain ⟨r, hr, hmem⟩ := swept_eq_true.1 h
  refine swept_eq_true.2 ⟨r, hr, List.mem_cons_of_mem n ?_⟩
  rcases List.mem_cons.1 hmem with rfl | hmem
  · exact hq
  · exact outer_subset ht hq hmem

theorem swept_of_mem_ancestors (ht : ofStream s = .ok t) (hq : q ∈ t.ancestors n)
    (h : swept t regions q = true) : swept t regions n = true := by
  rcases List.mem_cons.1 hq with rfl | hq
  · exact h
  · exact swept_inherits ht hq h

/-- A jump from outside the regions leads into them only where it enters one. -/
theorem mem_of_resolve_swept (ht : ofStream s = .ok t) {x : String} (hm : t.resolve n x = some m)
    (hn : swept t regions n = false) (hswept : swept t regions m = true) : m ∈ regions := by
  have hout : ∀ q ∈ t.ancestors n, swept t regions q = false := by
    intro q hq
    cases h : swept t regions q with
    | false => rfl
    | true =>
        rw [swept_of_mem_ancestors ht hq h] at hn
        exact Bool.noConfusion hn
  rcases mem_of_resolve hm with hmem | ⟨q, hq, hmem⟩
  · rw [hout m hmem] at hswept
    exact Bool.noConfusion hswept
  · obtain ⟨-, houter⟩ := outer_of_parent ht (mem_children.1 hmem).2
    obtain ⟨r, hr, hrm⟩ := swept_eq_true.1 hswept
    rw [ancestors, houter] at hrm
    rcases List.mem_cons.1 hrm with rfl | hrq
    · exact hr
    · have hin : swept t regions q = true := swept_eq_true.2 ⟨r, hr, hrq⟩
      rw [hout q hq] at hin
      exact Bool.noConfusion hin

theorem any_inRegion_eq_swept (ht : ofStream s = .ok t)
    (hregions : ∀ n ∈ regions, n ≠ ScopeTree.root ∧ n < t.nodes.length) {pre post : Stream}
    {ins : Instruction} (hs : s = pre ++ ins :: post) :
    (regions.map t.node).any (inRegion · pre.length) =
      swept t regions ((Position.start.after pre).owner ins) := by
  rw [Edits.any_inRegion ht hregions (by rw [hs]; simp), nodeAt_length ht hs]
  rfl

/-- Edits that drop some regions as a whole, and else no delimiter. -/
theorem thins_of_regions (ht : ofStream s = .ok t) {e : Edits}
    (hregions : ∀ n ∈ regions, n ≠ ScopeTree.root ∧ n < t.nodes.length)
    (hinside : ∀ i, (regions.map t.node).any (inRegion · i) = true → e.drop i = true)
    (hdrop : ∀ i ins, s[i]? = some ins → e.drop i = true → isDelimiter ins = true →
      (regions.map t.node).any (inRegion · i) = true)
    (hspares : e.SparesDelimiters 0 s) : Thins t (swept t regions) (e.revision 0 s) := by
  refine Edits.thins_revision (swept_root ht fun hmem => (hregions _ hmem).1 rfl)
    (fun n q hq => swept_inherits ht hq) (fun pre ins post hs hdelimiter => ?_)
    (fun pre ins post hs hswept => ?_) hspares
  · have hget : s[pre.length]? = some ins := by simp [hs]
    rw [← any_inRegion_eq_swept ht hregions hs, Bool.eq_iff_iff]
    exact ⟨fun h => hdrop _ _ hget h hdelimiter, hinside pre.length⟩
  · exact hinside _ ((any_inRegion_eq_swept ht hregions hs).trans hswept)

end Swept

/-- Edits that drop some regions, and else neither delimiters nor declarations. -/
theorem fits_of_regions (ht : ofStream s = .ok t) {e : Edits} {regions : List Nat}
    (hregions : ∀ n ∈ regions, n ≠ ScopeTree.root ∧ n < t.nodes.length)
    (hinside : ∀ i, (regions.map t.node).any (inRegion · i) = true → e.drop i = true)
    (hdrop : ∀ i ins, s[i]? = some ins → e.drop i = true → isDelimiter ins = true ∨ ins.op = .declare →
      (regions.map t.node).any (inRegion · i) = true)
    (hfunctions : ∀ pre f b post, s = pre ++ f :: b :: post → f.op = .function → b.op = .scopeBegin →
      b.scopeKind = .function → e.drop pre.length = true →
        (regions.map t.node).any (inRegion · pre.length) = true ∨ e.drop (pre ++ [f]).length = true)
    (hspares : e.SparesDelimiters 0 s)
    (hreplace : ∀ pre ins post new, s = pre ++ ins :: post → e.replace pre.length = some new →
      ins.op ≠ .function ∧ (e.drop pre.length = false → Refines classes ins new))
    (htargets : ∀ pre ins post, s = pre ++ ins :: post → e.drop pre.length = false →
      ∀ x ∈ ((e.replace pre.length).getD ins).jumpTargets, ∀ m ∈ regions,
        t.resolve (Position.start.after pre).top x ≠ some m) :
    e.Fits classes s t (swept t regions) := by
  have hroot : ScopeTree.root ∉ regions := fun hmem => (hregions _ hmem).1 rfl
  have hat : ∀ pre ins post, s = pre ++ ins :: post →
      (regions.map t.node).any (inRegion · pre.length) =
        swept t regions ((Position.start.after pre).owner ins) :=
    fun pre ins post hs => any_inRegion_eq_swept ht hregions hs
  have hget : ∀ (pre : Stream) ins post, s = pre ++ ins :: post → s[pre.length]? = some ins := by
    intro pre ins post hs
    rw [hs]
    simp
  have hkept : ∀ pre ins post, s = pre ++ ins :: post → e.drop pre.length = false →
      isDelimiter ins = false → swept t regions (Position.start.after pre).top = false := by
    intro pre ins post hs hdropped hplain
    have hin := hat pre ins post hs
    rw [Position.owner_plain _ hplain] at hin
    cases hswept : swept t regions (Position.start.after pre).top with
    | false => rfl
    | true =>
        rw [hinside pre.length (hin.trans hswept)] at hdropped
        exact Bool.noConfusion hdropped
  refine ⟨swept_root ht hroot, fun n q hq => swept_inherits ht hq, ?_, ?_, hspares,
    fun pre ins post new hs hkeeps hnew => (hreplace pre ins post new hs hnew).2 hkeeps, ?_, ?_, ?_⟩
  · intro pre ins post hs hdelimiter
    rw [← hat pre ins post hs, Bool.eq_iff_iff]
    exact ⟨fun h => hdrop _ _ (hget pre ins post hs) h (.inl hdelimiter), hinside pre.length⟩
  · intro pre ins post hs hswept
    exact hinside _ ((hat pre ins post hs).trans hswept)
  · intro pre ins post hs hdropped x hx m hm
    have hplain : isDelimiter ins = false := by
      cases hnew : e.replace pre.length with
      | none =>
          rw [hnew] at hx
          exact isDelimiter_of_jumpTargets hx
      | some new => exact (hspares pre.length ins new (hget pre ins post hs) (by rwa [Nat.zero_add])).1
    cases hswept : swept t regions m with
    | false => rfl
    | true =>
        have hmem := mem_of_resolve_swept ht hm (hkept pre ins post hs hdropped hplain) hswept
        exact absurd hm (htargets pre ins post hs hdropped x hx m hmem)
  · intro pre d mid ins post hs hdropped hkeeps v hd hv hmem
    have hdeclare := DeadCode.op_of_declares hd
    have hs' : s = (pre ++ d :: mid) ++ ins :: post := by simp [hs]
    have hplain : isDelimiter ins = false := by
      cases hnew : e.replace (pre ++ d :: mid).length with
      | none =>
          rw [hnew] at hv
          exact isDelimiter_of_assigns hv
      | some new => exact (hspares _ ins new (hget _ ins post hs') (by rwa [Nat.zero_add])).1
    -- the region of the declaration goes, and the assignment is still in it
    have hin := hdrop _ _ (hget pre d _ hs) hdropped (.inr hdeclare)
    rw [hat pre d _ hs, Position.owner_plain _ (by simp [isDelimiter, hdeclare])] at hin
    rw [← ancestors_top ht hs' hplain] at hmem
    have hswept := swept_of_mem_ancestors ht hmem hin
    rw [hkept _ ins post hs' hkeeps hplain] at hswept
    exact Bool.noConfusion hswept
  · intro pre f b post hs hf hop hkind
    refine ⟨?_, fun hdropped => ?_⟩
    · cases hnew : e.replace pre.length with
      | none => rfl
      | some new => exact absurd hf (hreplace pre f _ new hs hnew).1
    · have hs' : s = (pre ++ [f]) ++ b :: post := by simp [hs]
      rcases hfunctions pre f b post hs hf hop hkind hdropped with hin | hdropped
      · -- the body opens in the region of the definition
        have hplain : isDelimiter f = false := by simp [isDelimiter, hf]
        rw [hat pre f _ hs, Position.owner_plain _ hplain] at hin
        refine hinside _ ((hat (pre ++ [f]) b post hs').trans ?_)
        rw [Position.owner, if_pos hop]
        have hsig := sig_node_begin ht hs' hop
        refine swept_inherits ht (q := (Position.start.after pre).top) ?_ hin
        rw [show (t.node _).outer = _ from congrArg (·.2.2) hsig, Position.after_append,
          Position.after_cons, Position.after_nil, Position.advance_plain _ hplain]
        refine mem_stack_top fun htop => ?_
        rw [htop, swept_root ht hroot] at hin
        exact Bool.noConfusion hin
      · exact hdropped

/-- The body of a function goes with its definition, and no jump leads there. -/
theorem UnusedFunctions.fits (h : Tidy classes s t) :
    Edits.Fits { drop := fun i => isVain s i || (vainBodies s t).any (inRegion · i) } classes s t
      (swept t (vainNodes s t)) := by
  have hinner := vainNodes_inner h.tree
  refine fits_of_regions h.tree hinner (fun i hin => ?_) (fun i ins hi hdrop hop => ?_)
    (fun pre f b post hs hf hop hkind hdrop => ?_) (sparesDelimiters_of_drop _)
    (fun _ _ _ _ _ hnew => absurd hnew (by simp)) (fun pre ins post hs _ x hx m hm hresolve => ?_)
  · simp only [vainBodies_eq, hin, Bool.or_true]
  · have hvain : isVain s i = false := by
      rcases hop with hdelimiter | hop
      · exact isVain_delimiter hi hdelimiter
      · simp [isVain, hi, hop]
    simpa only [hvain, Bool.false_or, vainBodies_eq] using hdrop
  · simp only [Bool.or_eq_true, vainBodies_eq] at hdrop ⊢
    rcases hdrop with hvain | hin
    · have hb : s[pre.length + 1]? = some b := by simp [hs]
      have hlength : (pre ++ [f]).length = pre.length + 1 := by simp
      refine .inr (.inr ?_)
      rw [hlength, Edits.any_inRegion h.tree hinner (List.getElem?_eq_some_iff.1 hb).1,
        List.any_eq_true]
      refine ⟨_, mem_vainNodes.2 ⟨pre.length, b, hvain, hb, hop, hkind, rfl⟩, ?_⟩
      simp [isAncestor, ancestors]
    · exact .inl hin
  · obtain ⟨i, b, -, hb, hop, hkind, rfl⟩ := mem_vainNodes.1 hm
    obtain ⟨front, rest, hs', hfront⟩ := exists_split hb
    have hnode := nodeAt_length h.tree hs'
    rw [Position.owner, if_pos hop, hfront] at hnode
    have hsig := sig_node_begin h.tree hs' hop
    refine (h.jumps pre ins post hs x hx _ hresolve).1 ?_
    rw [hnode]
    exact (congrArg (·.2.1) hsig).trans hkind

/-! ### Regions no jump enters -/

namespace UselessScopes

/-- A jump in a region that can be entered leads to regions that can be entered. -/
theorem reached_of_jump (ht : ofStream s = .ok t) {pre post : Stream} {ins : Instruction}
    (hs : s = pre ++ ins :: post) {x : String} (hx : x ∈ ins.jumpTargets) {m : Nat}
    (hm : t.resolve (Position.start.after pre).top x = some m)
    (hn : (Position.start.after pre).top ∈ reached s t) : m ∈ reached s t := by
  have hplain := isDelimiter_of_jumpTargets hx
  have hlt := lt_of_resolve ht hs hplain hm
  have hmem : ∀ k, k < t.nodes.length → k ∈ ScopeTree.root :: t.inner := by
    intro k hk
    rw [List.mem_cons, ScopeTree.inner, List.tail_range, List.mem_range'_1, ScopeTree.root]
    omega
  have htop : (Position.start.after pre).top < t.nodes.length := by
    by_cases hroot : (Position.start.after pre).top = ScopeTree.root
    · rw [hroot, length_nodes ht]
      exact Nat.succ_pos _
    · exact lt_length_nodes ht hs (mem_stack_top hroot)
  have hsuccessor : m ∈ successors s t (Position.start.after pre).top := by
    have hget : s[pre.length]? = some ins := by simp [hs]
    refine List.mem_flatMap.2 ⟨pre.length, (mem_directly_iff ht hget).2 ⟨hplain, ?_⟩, ?_⟩
    · rw [nodeAt_length ht hs, Position.owner_plain _ hplain]
    · rw [hget]
      exact List.mem_filterMap.2 ⟨x, hx, hm⟩
  refine closure_closed (hmem m hlt) ?_
  rw [List.any_eq_true]
  refine ⟨_, List.mem_map.2 ⟨_, hmem _ htop, rfl⟩, ?_⟩
  rw [Bool.and_eq_true, List.contains_iff_mem, List.contains_iff_mem]
  exact ⟨hn, hsuccessor⟩

theorem mem_useless {n : Nat} : n ∈ useless s t ↔ n ∈ t.inner ∧ n ∉ reached s t ∧
    isRemovable (t.node n).kind = true ∧ holdsDefinition t n = false := by
  simp [useless, List.mem_filter, and_assoc]

theorem fits (h : Tidy classes s t) :
    Edits.Fits { drop := fun i => ((useless s t).map t.node).any (inRegion · i) } classes s t
      (swept t (useless s t)) := by
  refine fits_of_regions h.tree (fun n hn => mem_inner (mem_useless.1 hn).1) (fun i hin => hin)
    (fun i ins _ hdrop _ => hdrop) (fun pre f b post _ _ _ _ hdrop => .inl hdrop)
    (sparesDelimiters_of_drop _) (fun _ _ _ _ _ hnew => absurd hnew (by simp))
    (fun pre ins post hs hkept x hx m hm hresolve => ?_)
  have hplain : isDelimiter ins = false := isDelimiter_of_jumpTargets hx
  refine (mem_useless.1 hm).2.1 (reached_of_jump h.tree hs hx hresolve ?_)
  have hnode := nodeAt_length h.tree hs
  rw [Position.owner_plain _ hplain] at hnode
  generalize hn : (Position.start.after pre).top = n at *
  have hseed : n ∈ ScopeTree.root :: t.inner → n = ScopeTree.root ∨ isStructural (t.node n).kind = true →
      n ∈ reached s t := by
    intro hmem hkind
    exact subset_closure (List.mem_filter.2 ⟨hmem, by simpa using hkind⟩)
  by_cases hroot : n = ScopeTree.root
  · exact hseed (by simp [hroot]) (.inl hroot)
  · have hlt := lt_length_nodes h.tree hs (hn ▸ mem_stack_top (hn ▸ hroot))
    have hmem : n ∈ t.inner := by
      rw [ScopeTree.inner, List.tail_range, List.mem_range'_1]
      rw [ScopeTree.root] at hroot
      omega
    have hapart := List.all_eq_true.1 h.apart n hmem
    simp only [Bool.and_eq_true, decide_eq_true_eq, Bool.not_eq_true', Bool.and_eq_false_iff] at hapart
    by_cases hstructural : isStructural (t.node n).kind = true
    · exact hseed (List.mem_cons_of_mem _ hmem) (.inr hstructural)
    · -- a region that stays and is entered without a jump is structural, any other would have gone
      have hremovable : isRemovable (t.node n).kind = true := by
        have hglobal := hapart.1
        cases hkind : (t.node n).kind <;> simp_all [isStructural, isRemovable]
      have hdefinition := hapart.2.resolve_left (by simp [hremovable])
      by_contra hnot
      have hswept : swept t (useless s t) n = true :=
        swept_eq_true.2 ⟨n, mem_useless.2 ⟨hmem, hnot, hremovable, hdefinition⟩, List.mem_cons_self⟩
      have hin := Edits.any_inRegion h.tree (fun k hk => mem_inner ((mem_useless (s := s)).1 hk).1)
        (i := pre.length) (by rw [hs]; simp)
      rw [hnode] at hin
      exact absurd (hin.trans hswept) (by simpa using hkept)

end UselessScopes

/-! ### Empty regions -/

namespace EmptyScopes

variable {empty : List Nat} {n : Nat}

theorem branch_cases (x : String) : branch t empty n x = "" ∨ branch t empty n x = x := by
  unfold branch
  split
  · exact .inl rfl
  · exact .inr rfl

theorem not_mem_of_branch {x : String} (hx : branch t empty n x ≠ "") {m : Nat}
    (hm : t.resolve n (branch t empty n x) = some m) : m ∉ empty := by
  intro hmem
  have hsame := (branch_cases x).resolve_left hx
  rw [hsame] at hm
  refine hx (if_pos ?_)
  simp [leadsNowhere, hm, hmem]

/-- The branches of a conditional jump, narrowed or not. -/
theorem jumpTargets_narrowed {ins : Instruction} (hop : ins.op = .condJump) :
    ((narrowed t empty n ins).getD ins).jumpTargets =
      [branch t empty n ins.onTrue, branch t empty n ins.onFalse].filter (· ≠ "") := by
  cases hnew : narrowed t empty n ins with
  | some new =>
      obtain ⟨-, -, rfl⟩ := narrowed_eq_some hnew
      rfl
  | none =>
      rw [narrowed, if_pos hop] at hnew
      dsimp only at hnew
      split at hnew
      · exact absurd hnew (by simp)
      · next hsame =>
          simp only [ne_eq, decide_not, Bool.or_eq_true, Bool.not_eq_eq_eq_not, Bool.not_true,
            decide_eq_false_iff_not, not_or, Decidable.not_not] at hsame
          rw [Option.getD_none, Instruction.jumpTargets, hop, hsame.1, hsame.2]

theorem not_leads_of_kept {ins : Instruction} (hkept : isDropped t empty n ins = false) {x : String}
    (hx : x ∈ ((narrowed t empty n ins).getD ins).jumpTargets) {m : Nat} (hm : m ∈ empty) :
    t.resolve n x ≠ some m := by
  intro hresolve
  by_cases hcond : ins.op = .condJump
  · rw [jumpTargets_narrowed hcond, List.mem_filter, decide_eq_true_eq] at hx
    rcases List.mem_cons.1 hx.1 with rfl | hmem
    · exact not_mem_of_branch hx.2 hresolve hm
    · obtain rfl := List.mem_singleton.1 hmem
      exact not_mem_of_branch hx.2 hresolve hm
  · rw [narrowed, if_neg hcond, Option.getD_none, Instruction.jumpTargets] at hx
    split at hx
    · next hjump =>
        obtain rfl := List.mem_singleton.1 hx
        simp [isDropped, hjump, leadsNowhere, hresolve, hm] at hkept
    · contradiction
    · exact absurd hx List.not_mem_nil

/-- A conditional jump with a branch left is as good with fewer branches. -/
theorem refines_narrowed {ins new : Instruction} (hnew : narrowed t empty n ins = some new)
    (hkept : isDropped t empty n ins = false) : Refines classes ins new := by
  have htargets : ∀ x ∈ new.jumpTargets, x ∈ ins.jumpTargets := by
    intro x hx
    have hop := (narrowed_eq_some hnew).1
    have hbranches : new.jumpTargets =
        [branch t empty n ins.onTrue, branch t empty n ins.onFalse].filter (· ≠ "") := by
      rw [← jumpTargets_narrowed hop, hnew, Option.getD_some]
    have hsplit : ∀ y, branch t empty n y = "" ∨ branch t empty n y = y := branch_cases
    rw [hbranches, List.mem_filter] at hx
    rw [Instruction.jumpTargets, hop, List.mem_filter]
    refine ⟨?_, hx.2⟩
    rcases List.mem_cons.1 hx.1 with rfl | hmem
    · rcases hsplit ins.onTrue with hnone | hsame
      · simp [hnone] at hx
      · simp [hsame]
    · obtain rfl := List.mem_singleton.1 hmem
      rcases hsplit ins.onFalse with hnone | hsame
      · simp [hnone] at hx
      · simp [hsame]
  obtain ⟨hop, -, rfl⟩ := narrowed_eq_some hnew
  refine .of_unknowing (by simp [isOperation, hop]) ⟨rfl, Opcode.noConfusion, Opcode.noConfusion⟩ htargets ?_
  intro e k n' _ hdefects
  simp only [Surroundings.defects, hop, Surroundings.condJumpDefects, List.append_eq_nil_iff,
    List.flatMap_eq_nil_iff] at hdefects
  have hbranch : ¬(branch t empty n ins.onTrue = "" ∧ branch t empty n ins.onFalse = "") := by
    simpa [isDropped, hop] using hkept
  show e.condJumpDefects n' _ = []
  simp only [Surroundings.condJumpDefects, List.append_eq_nil_iff, List.flatMap_eq_nil_iff]
  refine ⟨⟨?_, hdefects.1.2⟩, fun x hx => hdefects.2 x ?_⟩
  · rw [if_neg]
    rw [Bool.and_eq_true, decide_eq_true_eq, decide_eq_true_eq]
    exact hbranch
  · have hmem := htargets x hx
    rwa [Instruction.jumpTargets, hop] at hmem

theorem fits (h : Tidy classes s t) :
    (edits s t (emptyNodes s t)).Fits classes s t (swept t (emptyNodes s t)) := by
  have hget : ∀ (pre : Stream) ins post, s = pre ++ ins :: post → s[pre.length]? = some ins := by
    intro pre ins post hs
    rw [hs]
    simp
  have hother : ∀ i ins, s[i]? = some ins → (edits s t (emptyNodes s t)).drop i = true →
      ins.op ≠ .jump → ins.op ≠ .condJump →
        ((emptyNodes s t).map t.node).any (inRegion · i) = true := by
    intro i ins hi hdropped hjump hcond
    rw [drop_edits hi, Bool.or_eq_true] at hdropped
    refine hdropped.resolve_right ?_
    unfold isDropped
    split
    · contradiction
    · contradiction
    · simp
  refine fits_of_regions h.tree (fun n hn => mem_emptyNodes hn) (fun i hin => ?_)
    (fun i ins hi hdropped hop => hother i ins hi hdropped ?_ ?_)
    (fun pre f b post hs hf _ _ hdropped =>
      .inl (hother pre.length f (hget pre f _ hs) hdropped (by simp [hf]) (by simp [hf])))
    (sparesDelimiters_edits _) (fun pre ins post new hs hnew => ?_)
    (fun pre ins post hs hkept x hx m hm hresolve => ?_)
  · simp only [edits, hin, Bool.true_or]
  · rcases hop with hdelimiter | hop
    · intro hjump
      simp [isDelimiter, hjump] at hdelimiter
    · simp [hop]
  · rcases hop with hdelimiter | hop
    · intro hjump
      simp [isDelimiter, hjump] at hdelimiter
    · simp [hop]
  · rw [replace_edits (hget pre ins post hs)] at hnew
    refine ⟨by simp [(narrowed_eq_some hnew).1], fun hkept => refines_narrowed hnew ?_⟩
    rw [drop_edits (hget pre ins post hs), Bool.or_eq_false_iff] at hkept
    exact hkept.2
  · rw [drop_edits (hget pre ins post hs), Bool.or_eq_false_iff] at hkept
    rw [replace_edits (hget pre ins post hs)] at hx
    have hplain : isDelimiter ins = false := by
      cases hnew : narrowed t (emptyNodes s t) (t.nodeAt pre.length) ins with
      | none =>
          rw [hnew] at hx
          exact isDelimiter_of_jumpTargets hx
      | some new => simp [isDelimiter, (narrowed_eq_some hnew).1]
    rw [nodeAt_length h.tree hs, Position.owner_plain _ hplain] at hkept hx
    exact not_leads_of_kept hkept.2 hx hm hresolve

end EmptyScopes

end Passes

end Datapack.Optimize
