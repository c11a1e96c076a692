import Mathlib.Logic.Relation
import Datapack.Proofs.Optimize.Soundness

/-!
# Nothing dead is left

Removing dead code takes away uses of variables, and removing the declarations nobody mentions changes
what counts as declared.  Neither makes anything that is left dead, in a stream where pure instructions
write variables that are declared around them or can be observed from outside.  Whatever makes the target
of a pure instruction needed is itself not removed (`Round.needed_of_target`), and the declarations in
force for it stay because the instruction mentions it (`Round.inForce_of_target`).  So both removals are
done after one round (`run_settles`).
-/

namespace Datapack.Optimize

open Ir ScopeTree

namespace DeadCode

/-- A declaration of a variable stands directly in one of the regions that are open at a position. -/
def InForce (s : Stream) (v : Variable) (p : Ir.Position) : Prop :=
  ∃ pre d post, s = pre ++ d :: post ∧ declares? d = some v ∧ (Position.start.after pre).top ∈ p.stack

/-- One variable is read to compute another one. -/
def Feeds (s : Stream) (v r : Variable) : Prop :=
  ∃ ins ∈ s, v ∈ ins.readVars ∧ pureTarget ins = some r

variable {s : Stream} {t : ScopeTree} {pre post : Stream} {ins : Instruction} {v : Variable}

/-- The value of a needed variable gets to where it can be observed. -/
theorem Needed.reaches (h : Needed s v) :
    ∃ w, Relation.ReflTransGen (Feeds s) v w ∧
      (w.isRoot = true ∨ ∃ reader ∈ s, reader.op.isPure = false ∧ w ∈ reader.readVars) := by
  induction h with
  | @root _ v _ _ hroot => exact ⟨v, .refl, .inl hroot⟩
  | @read reader v hreader hv heffect => exact ⟨v, .refl, .inr ⟨reader, hreader, heffect, hv⟩⟩
  | @feeds ins v r hins hv htarget _ ih =>
      obtain ⟨w, hreach, hw⟩ := ih
      exact ⟨w, .head ⟨ins, hins, hv, htarget⟩ hreach, hw⟩

theorem ne_declare_of_isPure (h : ins.op.isPure = true) : ins.op ≠ .declare := by
  intro hop
  simp [hop, Opcode.isPure] at h

/-! ## Seen from a position -/

theorem isDeclared_iff_inForce (ht : ofStream s = .ok t) (hs : s = pre ++ ins :: post)
    (hplain : isDelimiter ins = false) :
    isDeclared s t v (t.nodeAt pre.length) = true ↔
      v.isRoot = true ∨ InForce s v (Position.start.after pre) := by
  have hat : ∀ a d b, s = a ++ d :: b → isDelimiter d = false →
      t.nodeAt a.length = (Position.start.after a).top := by
    intro a d b hsplit hd
    rw [nodeAt_length ht hsplit, Position.owner_plain _ hd]
  have hancestors := ancestors_top ht hs hplain
  rw [← hat pre ins post hs hplain] at hancestors
  rw [isDeclared, Bool.or_eq_true, List.any_eq_true]
  refine or_congr_right ?_
  constructor
  · rintro ⟨n, hn, hancestor⟩
    obtain ⟨j, d, hj, hd, hmem⟩ := (mem_declaredIn_iff ht).1 hn
    have hnode := (mem_directly_iff ht hj (declares?_plain hd)).1 hmem
    obtain ⟨a, b, hsplit, rfl⟩ := exists_split hj
    rw [isAncestor, List.contains_iff_mem, hancestors, ← hnode,
      hat a d b hsplit (declares?_plain hd)] at hancestor
    exact ⟨a, d, b, hsplit, hd, hancestor⟩
  · rintro ⟨a, d, b, hsplit, hd, hmem⟩
    have hj : s[a.length]? = some d := by simp [hsplit]
    have hdirectly := (mem_directly_iff ht hj (declares?_plain hd)).2 rfl
    refine ⟨t.nodeAt a.length, (mem_declaredIn_iff ht).2 ⟨a.length, d, hj, hd, hdirectly⟩, ?_⟩
    rw [isAncestor, List.contains_iff_mem, hancestors, hat a d b hsplit (declares?_plain hd)]
    exact hmem

theorem isDead_iff_inForce (ht : ofStream s = .ok t) (hs : s = pre ++ ins :: post) :
    isDead s t (live s) pre.length = true ↔ ∃ v, pureTarget ins = some v ∧
      (¬Needed s v ∨ v.isRoot = false ∧ ¬InForce s v (Position.start.after pre)) := by
  have hi : s[pre.length]? = some ins := by simp [hs]
  rw [isDead_eq_true hi]
  refine exists_congr fun v => and_congr_right fun htarget => or_congr_right ?_
  have hplain := isDelimiter_of_isPure (pureTarget_eq_some.1 htarget).1
  rw [isDeclared_iff_inForce ht hs hplain, not_or, Bool.not_eq_true]

theorem isDead_of_needed (ht : ofStream s = .ok t) (hs : s = pre ++ ins :: post)
    (htarget : pureTarget ins = some v) (hneeded : Needed s v)
    (hdeclared : v.isRoot = true ∨ InForce s v (Position.start.after pre)) :
    isDead s t (live s) pre.length = false := by
  rw [Bool.eq_false_iff]
  intro hdead
  obtain ⟨w, hw, hreason⟩ := (isDead_iff_inForce ht hs).1 hdead
  obtain rfl : v = w := Option.some.inj (htarget.symm.trans hw)
  obtain ⟨hroot, hout⟩ := hreason.resolve_left (not_not_intro hneeded)
  rcases hdeclared with hroot' | hin
  · rw [hroot] at hroot'
    exact Bool.noConfusion hroot'
  · exact hout hin

theorem isDead_of_effect (ht : ofStream s = .ok t) (hs : s = pre ++ ins :: post)
    (heffect : ins.op.isPure = false) : isDead s t (live s) pre.length = false := by
  rw [Bool.eq_false_iff]
  intro hdead
  obtain ⟨v, htarget, -⟩ := (isDead_iff_inForce ht hs).1 hdead
  rw [(pureTarget_eq_some.1 htarget).1] at heffect
  exact Bool.noConfusion heffect

theorem isVain_iff_top (ht : ofStream s = .ok t) (hs : s = pre ++ ins :: post) :
    Declarations.isVain s t pre.length = true ↔ ∃ v, declares? ins = some v ∧ v.isRoot = false ∧
      Declarations.isMentioned s v = false ∧ (Position.start.after pre).top ≠ root := by
  have hi : s[pre.length]? = some ins := by simp [hs]
  simp only [Declarations.isVain, hi, Option.bind_some]
  cases hd : declares? ins with
  | none => simp
  | some v => simp [nodeAt_length ht hs, Position.owner_plain _ (declares?_plain hd), and_assoc]

/-- A declaration stays when something else mentions its variable. -/
theorem isVain_of_mentioned {user : Instruction} (ht : ofStream s = .ok t) (hs : s = pre ++ ins :: post)
    (hd : declares? ins = some v) (huser : user ∈ s) (hop : user.op ≠ .declare) (hv : v ∈ user.vars) :
    Declarations.isVain s t pre.length = false := by
  rw [Bool.eq_false_iff]
  intro hvain
  obtain ⟨w, hw, -, hunmentioned, -⟩ := (isVain_iff_top ht hs).1 hvain
  obtain rfl : v = w := Option.some.inj (hd.symm.trans hw)
  rw [Declarations.isMentioned, List.any_eq_false] at hunmentioned
  apply hunmentioned user huser
  simp [hop, hv]

/-- Where neither delimiters nor the declarations of a variable are dropped, these stay in force. -/
theorem InForce.edited {drop : Nat → Bool} {p : Ir.Position} (h : InForce s v p)
    (hplain : ∀ i ins, s[i]? = some ins → isDelimiter ins = true → drop i = false)
    (hkept : ∀ pre d post, s = pre ++ d :: post → declares? d = some v → drop pre.length = false) :
    InForce (Edits.edited { drop } 0 s) v p := by
  obtain ⟨pre, d, post, hs, hd, hopen⟩ := h
  obtain ⟨pre', post', hs', hat⟩ := Edits.exists_split_of_kept hplain hs (hkept pre d post hs hd)
  rw [← hat] at hopen
  exact ⟨pre', d, post', hs', hd, hopen⟩

/-! ## One round -/

/-- A stream, what is left of it without its dead code, and what is left of that without the declarations
that nothing mentions.  The pure instructions write variables that are declared around them or can be
observed from outside. -/
structure Round (s once cleaned : Stream) (t u : ScopeTree) : Prop where
  tree : ofStream s = .ok t
  once_tree : ofStream once = .ok u
  once_eq : once = Edits.edited { drop := isDead s t (live s) } 0 s
  cleaned_eq : cleaned = Edits.edited { drop := Declarations.isVain once u } 0 once
  writes : ∀ pre ins post, s = pre ++ ins :: post → ins.op.isPure = true →
    ∃ v, varOf ins.result = some v ∧ (v.isRoot = true ∨ InForce s v (Position.start.after pre))

namespace Round

variable {once cleaned : Stream} {u : ScopeTree}

/-! ### What stays -/

theorem mem_once (h : Round s once cleaned t u) (hs : s = pre ++ ins :: post)
    (hkept : isDead s t (live s) pre.length = false) : ins ∈ once := by
  rw [h.once_eq]
  exact Edits.mem_edited_drop (by simp [hs]) hkept

theorem mem_cleaned (h : Round s once cleaned t u) (hmem : ins ∈ once) (hop : ins.op ≠ .declare) :
    ins ∈ cleaned := by
  obtain ⟨pre, post, hs⟩ := List.append_of_mem hmem
  rw [h.cleaned_eq]
  apply Edits.mem_edited_drop (k := pre.length) (by simp [hs])
  rw [Bool.eq_false_iff]
  intro hvain
  obtain ⟨v, hd, -⟩ := (isVain_iff_top h.once_tree hs).1 hvain
  exact hop (op_of_declares hd)

/-- What is left stood in the same regions before. -/
theorem split_cleaned (h : Round s once cleaned t u) (hs : cleaned = pre ++ ins :: post) :
    ∃ a b, once = a ++ ins :: b ∧ Declarations.isVain once u a.length = false ∧
      Position.start.after a = Position.start.after pre :=
  Edits.exists_split_of_edited (fun _ _ => Declarations.isVain_delimiter) (h.cleaned_eq.symm.trans hs)

theorem split_once (h : Round s once cleaned t u) (hs : once = pre ++ ins :: post) :
    ∃ a b, s = a ++ ins :: b ∧ isDead s t (live s) a.length = false ∧
      Position.start.after a = Position.start.after pre :=
  Edits.exists_split_of_edited (fun _ _ => isDead_delimiter) (h.once_eq.symm.trans hs)

theorem mem_cleaned_of_effect (h : Round s once cleaned t u) (hmem : ins ∈ s)
    (heffect : ins.op.isPure = false) (hop : ins.op ≠ .declare) : ins ∈ cleaned := by
  obtain ⟨pre, post, hs⟩ := List.append_of_mem hmem
  exact h.mem_cleaned (h.mem_once hs (isDead_of_effect h.tree hs heffect)) hop

theorem mem_cleaned_of_needed (h : Round s once cleaned t u) (hmem : ins ∈ s)
    (htarget : pureTarget ins = some v) (hneeded : Needed s v) : ins ∈ cleaned := by
  obtain ⟨pre, post, hs⟩ := List.append_of_mem hmem
  obtain ⟨hpure, hv⟩ := pureTarget_eq_some.1 htarget
  obtain ⟨w, hw, hdeclared⟩ := h.writes pre ins post hs hpure
  obtain rfl : v = w := Option.some.inj (hv.symm.trans hw)
  have hkept := isDead_of_needed h.tree hs htarget hneeded hdeclared
  exact h.mem_cleaned (h.mem_once hs hkept) (ne_declare_of_isPure hpure)

/-! ### What stays is needed -/

/-- What makes a variable needed that is still written is still there. -/
theorem needed_of_written (h : Round s once cleaned t u) (hneeded : Needed s v)
    (hwritten : ∃ ins ∈ cleaned, pureTarget ins = some v) : Needed cleaned v := by
  induction hneeded with
  | root _ _ hroot =>
      obtain ⟨ins, hins, htarget⟩ := hwritten
      exact .root hins (mem_vars_of_result (pureTarget_eq_some.1 htarget).2) hroot
  | @read reader v hreader hv heffect =>
      have hop : reader.op ≠ .declare := by
        intro hop
        rw [readVars_declare hop] at hv
        exact absurd hv List.not_mem_nil
      exact .read (h.mem_cleaned_of_effect hreader heffect hop) hv heffect
  | @feeds ins v r hins hv htarget hr ih =>
      have hmem := h.mem_cleaned_of_needed hins htarget hr
      exact .feeds hmem hv htarget (ih ⟨ins, hmem, htarget⟩)

theorem needed_of_target (h : Round s once cleaned t u) (hmem : ins ∈ cleaned)
    (htarget : pureTarget ins = some v) : Needed cleaned v := by
  obtain ⟨pre, post, hs⟩ := List.append_of_mem hmem
  obtain ⟨a, b, honce, -, -⟩ := h.split_cleaned hs
  obtain ⟨c, d, hs, hkept, -⟩ := h.split_once honce
  refine h.needed_of_written ?_ ⟨ins, hmem, htarget⟩
  by_contra hunneeded
  rw [(isDead_iff_inForce h.tree hs).2 ⟨v, htarget, .inl hunneeded⟩] at hkept
  exact Bool.noConfusion hkept

/-- The declarations of what a pure instruction that is left writes are still in force. -/
theorem inForce_of_target (h : Round s once cleaned t u) (hs : cleaned = pre ++ ins :: post)
    (htarget : pureTarget ins = some v) :
    v.isRoot = true ∨ InForce cleaned v (Position.start.after pre) := by
  obtain ⟨hpure, hv⟩ := pureTarget_eq_some.1 htarget
  obtain ⟨a, b, honce, -, hat⟩ := h.split_cleaned hs
  obtain ⟨c, d, hs', -, hat'⟩ := h.split_once honce
  obtain ⟨w, hw, hdeclared⟩ := h.writes c ins d hs' hpure
  obtain rfl : v = w := Option.some.inj (hv.symm.trans hw)
  refine hdeclared.imp_right fun hin => ?_
  have hin_once : InForce once v (Position.start.after c) := by
    rw [h.once_eq]
    exact hin.edited (fun _ _ => isDead_delimiter) fun _ _ _ hsplit hd =>
      isDead_of_effect h.tree hsplit (isPure_of_declares hd)
  -- the instruction itself mentions the variable
  have hmem : ins ∈ once := by simp [honce]
  have hin_cleaned : InForce cleaned v (Position.start.after c) := by
    rw [h.cleaned_eq]
    exact hin_once.edited (fun _ _ => Declarations.isVain_delimiter) fun _ _ _ hsplit hd =>
      isVain_of_mentioned h.once_tree hsplit hd hmem (ne_declare_of_isPure hpure) (mem_vars_of_result hv)
  rwa [hat', hat] at hin_cleaned

/-! ### A second round -/

theorem isDead_cleaned (h : Round s once cleaned t u) {t' : ScopeTree} (ht' : ofStream cleaned = .ok t') :
    ∀ k < cleaned.length, isDead cleaned t' (live cleaned) k = false := by
  intro k hk
  obtain ⟨pre, post, hs, rfl⟩ := exists_split (List.getElem?_eq_getElem hk)
  rw [Bool.eq_false_iff]
  intro hdead
  obtain ⟨v, htarget, -⟩ := (isDead_iff_inForce ht' hs).1 hdead
  have hneeded := h.needed_of_target (List.getElem_mem hk) htarget
  rw [isDead_of_needed ht' hs htarget hneeded (h.inForce_of_target hs htarget)] at hdead
  exact Bool.noConfusion hdead

theorem isVain_cleaned (h : Round s once cleaned t u) {t' : ScopeTree} (ht' : ofStream cleaned = .ok t') :
    ∀ k < cleaned.length, Declarations.isVain cleaned t' k = false := by
  intro k hk
  obtain ⟨pre, post, hs, rfl⟩ := exists_split (List.getElem?_eq_getElem hk)
  rw [Bool.eq_false_iff]
  intro hvain
  obtain ⟨v, hd, hroot, hunmentioned, hinner⟩ := (isVain_iff_top ht' hs).1 hvain
  obtain ⟨a, b, honce, hkept, hat⟩ := h.split_cleaned hs
  rw [← hat] at hinner
  apply Bool.eq_false_iff.1 hkept
  refine (isVain_iff_top h.once_tree honce).2 ⟨v, hd, hroot, ?_, hinner⟩
  -- what mentions a variable is no declaration and has stayed
  rw [Declarations.isMentioned, List.any_eq_false] at hunmentioned ⊢
  intro user huser hmentions
  have hop : user.op ≠ .declare := by
    rw [Bool.and_eq_true, decide_eq_true_eq] at hmentions
    exact hmentions.1
  exact hunmentioned user (h.mem_cleaned huser hop) hmentions

end Round

/-- Where every pure instruction writes a variable that can be observed from outside or is declared around
it, removing dead code and then the declarations nothing mentions leaves nothing to remove for either, and
what is left of the pure instructions computes something that is observed. -/
theorem run_settles (ht : ofStream s = .ok t)
    (hwrites : ∀ (i : Nat) ins, s[i]? = some ins → ins.op.isPure = true → ∃ v, varOf ins.result = some v ∧
      (v.isRoot = true ∨ ∃ n, Declares s t v n ∧ (t.node n).contains i = true)) :
    ∃ once cleaned, run s = .ok once ∧ Declarations.run once.code = .ok cleaned ∧
      run cleaned.code = .ok ⟨cleaned.code, false⟩ ∧
      Declarations.run cleaned.code = .ok ⟨cleaned.code, false⟩ ∧
      ∀ ins ∈ cleaned.code, ins.op.isPure = true → ∃ v w, varOf ins.result = some v ∧
        Relation.ReflTransGen (Feeds cleaned.code) v w ∧
        (w.isRoot = true ∨
          ∃ reader ∈ cleaned.code, reader.op.isPure = false ∧ w ∈ reader.readVars) := by
  obtain ⟨once, honce, hbalanced⟩ := balanced_run ht
  obtain ⟨u, hu⟩ := exists_tree hbalanced
  obtain ⟨cleaned, hcleaned, hbalanced'⟩ := Declarations.balanced_run hu
  obtain ⟨t', ht'⟩ := exists_tree hbalanced'
  have honce_eq := Except.ok.inj (honce.symm.trans (withTree_eq ht _))
  have hcleaned_eq := Except.ok.inj (hcleaned.symm.trans (withTree_eq hu _))
  have hround : Round s once.code cleaned.code t u := by
    refine ⟨ht, hu, ?_, ?_, ?_⟩
    · rw [honce_eq, Edits.apply_eq]
    · rw [hcleaned_eq, Edits.apply_eq]
    · intro pre ins post hs hpure
      have hi : s[pre.length]? = some ins := by simp [hs]
      have hplain := isDelimiter_of_isPure hpure
      obtain ⟨v, hv, hdeclared⟩ := hwrites pre.length ins hi hpure
      refine ⟨v, hv, (isDeclared_iff_inForce ht hs hplain).1 ?_⟩
      exact (isDeclared_iff ht hi hplain).2 hdeclared
  refine ⟨once, cleaned, honce, hcleaned, ?_, ?_, ?_⟩
  · rw [run, withTree_eq ht', Edits.apply_drop_idle (hround.isDead_cleaned ht')]
  · rw [Declarations.run, withTree_eq ht', Edits.apply_drop_idle (hround.isVain_cleaned ht')]
  · intro ins hins hpure
    obtain ⟨pre, post, hs⟩ := List.append_of_mem hins
    obtain ⟨a, b, honce', -, -⟩ := hround.split_cleaned hs
    obtain ⟨c, d, hs', -, -⟩ := hround.split_once honce'
    obtain ⟨v, hv, -⟩ := hround.writes c ins d hs' hpure
    obtain ⟨w, hreach, hw⟩ :=
      (hround.needed_of_target hins (pureTarget_eq_some.2 ⟨hpure, hv⟩)).reaches
    exact ⟨v, w, hv, hreach, hw⟩

/-- Whether every pure instruction writes a variable that can be observed from outside or is declared
around it. -/
def writesDeclared (s : Stream) (t : ScopeTree) : Bool :=
  s.zipIdx.all fun (ins, i) =>
    !ins.op.isPure || (varOf ins.result).any fun v => isDeclared s t v (t.nodeAt i)

theorem writesDeclared_iff (ht : ofStream s = .ok t) :
    writesDeclared s t = true ↔ ∀ (i : Nat) ins, s[i]? = some ins → ins.op.isPure = true →
      ∃ v, varOf ins.result = some v ∧
        (v.isRoot = true ∨ ∃ n, Declares s t v n ∧ (t.node n).contains i = true) := by
  rw [writesDeclared, List.all_eq_true, Prod.forall, forall_comm]
  refine forall_congr' fun i => forall_congr' fun ins => ?_
  rw [List.mk_mem_zipIdx_iff_getElem?]
  refine forall_congr' fun hi => ?_
  cases hpure : ins.op.isPure with
  | false => simp [hpure]
  | true =>
      have hplain := isDelimiter_of_isPure hpure
      simp only [hpure, Bool.not_true, Bool.false_or, Option.any_eq_true, isDeclared_iff ht hi hplain,
        true_imp_iff]

/-- A copy that nothing reads, next to one that is returned. -/
def deadCopy : Stream :=
  let x := some (Reference.var { id := "x", name := "x", type := .data .int })
  let y := some (Reference.var { id := "y", name := "y", type := .data .int })
  let r := some (Reference.var { id := "r", name := "r", type := .data .int, kind := .ret })
  [Instruction.scopeBegin "a" .block, Instruction.declare x, Instruction.declare y,
    Instruction.assign x (some (.literal (.int 5))), Instruction.assign y x, Instruction.assign r x,
    Instruction.scopeEnd "a" .block]

theorem run_settles_deadCopy :
    ∃ t, ofStream deadCopy = .ok t ∧
      (∀ (i : Nat) ins, deadCopy[i]? = some ins → ins.op.isPure = true → ∃ v, varOf ins.result = some v ∧
        (v.isRoot = true ∨ ∃ n, Declares deadCopy t v n ∧ (t.node n).contains i = true)) ∧
      ∃ once cleaned, run deadCopy = .ok once ∧ Declarations.run once.code = .ok cleaned ∧
        run cleaned.code = .ok ⟨cleaned.code, false⟩ ∧
        Declarations.run cleaned.code = .ok ⟨cleaned.code, false⟩ ∧
        ∀ ins ∈ cleaned.code, ins.op.isPure = true → ∃ v w, varOf ins.result = some v ∧
          Relation.ReflTransGen (Feeds cleaned.code) v w ∧
          (w.isRoot = true ∨
            ∃ reader ∈ cleaned.code, reader.op.isPure = false ∧ w ∈ reader.readVars) := by
  obtain ⟨t, ht, hdeclared⟩ : ∃ t, ofStream deadCopy = .ok t ∧ writesDeclared deadCopy t = true :=
    ⟨_, rfl, by decide⟩
  have hwrites := (writesDeclared_iff ht).1 hdeclared
  exact ⟨t, ht, hwrites, run_settles ht hwrites⟩

end DeadCode

end Datapack.Optimize
