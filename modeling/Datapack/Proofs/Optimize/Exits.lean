import Datapack.Proofs.Optimize.Soundness

/-!
# Code behind an exit

What follows an exit is dropped up to the end of the region of the exit.  So whatever goes has an exit
before it whose region is around it, and while that region is open everything else goes as well: a jump
that leads back, or an assignment in reach of a declaration, goes with what it refers to.
-/

namespace Datapack.Optimize.Unreachable

open Ir ScopeTree

/-- The number of open regions, and the depth of an exit whose region is still open, behind an
instruction. -/
def passed (st : Int × Option Int) (ins : Instruction) : Int × Option Int :=
  match ins.op with
  | .scopeBegin => (st.1 + 1, st.2)
  | .scopeEnd => (st.1 - 1, if st.2 = some st.1 then none else st.2)
  | op => (st.1, if st.2.isNone && isExit op then some st.1 else st.2)

/-- Whether an instruction is dropped. -/
def mark (st : Int × Option Int) (ins : Instruction) : Bool :=
  st.2.isSome && !(ins.op = .scopeEnd && st.2 = some st.1)

section Marks

variable {st : Int × Option Int} {ins : Instruction}

theorem passed_plain (h : isDelimiter ins = false) :
    passed st ins = (st.1, if st.2.isNone && isExit ins.op then some st.1 else st.2) := by
  rw [isDelimiter_eq_false] at h
  unfold passed
  split
  · exact absurd ‹_› h.1
  · exact absurd ‹_› h.2
  · rfl

/-- Only the end of a region makes an exit count no longer. -/
theorem passed_of_ne_end {k : Int} (hst : st.2 = some k) (h : ins.op ≠ .scopeEnd) :
    (passed st ins).2 = some k := by
  by_cases hb : ins.op = .scopeBegin
  · simp only [passed, hb, hst]
  · rw [passed_plain (isDelimiter_eq_false.2 ⟨hb, h⟩), hst]
    rfl

theorem mark_of_ne_end (h : ins.op ≠ .scopeEnd) : mark st ins = st.2.isSome := by
  simp [mark, h]

theorem marks_cons (st : Int × Option Int) (ins : Instruction) (rest : Stream) :
    marks st.1 st.2 (ins :: rest) =
      mark st ins :: marks (passed st ins).1 (passed st ins).2 rest := by
  obtain ⟨depth, behind⟩ := st
  rcases ins.delimiter_cases with hop | hop | ⟨hb, he⟩
  · simp [marks, mark, passed, hop]
  · by_cases hlast : behind = some depth
    · simp [marks, mark, passed, hop, hlast]
    · simp [marks, mark, passed, hop, hlast]
  · rw [passed_plain (isDelimiter_eq_false.2 ⟨hb, he⟩), mark_of_ne_end he, marks]
    split
    · contradiction
    · contradiction
    · cases behind with
      | none => simp
      | some k => simp

theorem marks_getElem? (st : Int × Option Int) (pre : Stream) (ins : Instruction) (post : Stream) :
    (marks st.1 st.2 (pre ++ ins :: post))[pre.length]? = some (mark (pre.foldl passed st) ins) := by
  induction pre generalizing st with
  | nil => rw [List.nil_append, marks_cons]; rfl
  | cons a pre ih =>
      rw [List.cons_append, marks_cons, List.length_cons, List.getElem?_cons_succ, ih]
      rfl

end Marks

def count (pre : Stream) : Int × Option Int := pre.foldl passed (0, none)

theorem count_snoc (pre : Stream) (ins : Instruction) : count (pre ++ [ins]) = passed (count pre) ins :=
  List.foldl_concat ..

section Count

variable {s : Stream} {t : ScopeTree} {pre post : Stream} {ins : Instruction}

theorem drops_eq (hs : s = pre ++ ins :: post) : drops s pre.length = mark (count pre) ins := by
  have hget := marks_getElem? (0, none) pre ins post
  rw [drops, hs, hget]
  rfl

theorem count_depth (ht : ofStream s = .ok t) (hs : s = pre ++ post) :
    (count pre).1 + 1 = (Position.start.after pre).stack.length := by
  have hcloses := (ofStream_isOk_iff s).1 ⟨t, ht⟩
  induction pre using List.reverseRecOn generalizing post with
  | nil => rfl
  | append_singleton pre ins ih =>
      rw [List.append_assoc, List.singleton_append] at hs
      have hcount := ih hs
      rw [hs] at hcloses
      obtain ⟨names, hnames, hdepth⟩ := @closes_after [] Position.start pre _ hcloses rfl
      rw [count_snoc, Position.after_append, Position.after_cons, Position.after_nil]
      rcases ins.delimiter_cases with hop | hop | ⟨hb, he⟩
      · rw [Position.advance_begin _ hop]
        simp only [passed, hop, List.length_cons]
        omega
      · rw [Position.advance_end _ hop]
        cases names with
        | nil =>
            rw [closes_end_nil hop] at hnames
            exact Bool.noConfusion hnames
        | cons name names =>
            simp only [passed, hop, List.length_tail]
            rw [List.length_cons] at hdepth
            omega
      · rw [Position.advance_other _ hb he, passed_plain (isDelimiter_eq_false.2 ⟨hb, he⟩)]
        exact hcount

/-- The region of an exit is around. -/
theorem count_behind {k : Int} (hk : (count pre).2 = some k) : k ≤ (count pre).1 := by
  induction pre using List.reverseRecOn generalizing k with
  | nil => exact absurd hk (by simp [count])
  | append_singleton pre ins ih =>
      rw [count_snoc] at hk ⊢
      rcases ins.delimiter_cases with hop | hop | ⟨hb, he⟩
      · simp only [passed, hop] at hk ⊢
        have := ih hk
        omega
      · simp only [passed, hop] at hk ⊢
        split at hk
        · exact absurd hk (by simp)
        · next hne =>
            have := ih hk
            have : k ≠ (count pre).1 := by
              rintro rfl
              exact hne hk
            omega
      · rw [passed_plain (isDelimiter_eq_false.2 ⟨hb, he⟩)] at hk ⊢
        simp only at hk ⊢
        split at hk
        · exact Int.le_of_eq (Option.some.inj hk).symm
        · exact ih hk

theorem behind_passed {k : Int} {P : Stream} (ht : ofStream s = .ok t) {y : Instruction}
    (hs : s = P ++ y :: post) {q : Nat} (hq : q ≤ (Position.start.after P).opened)
    (hk : k ≤ (t.node q).outer.length)
    (hopen : q ∈ (Position.start.after (P ++ [y])).stack)
    (hP : q ∈ (Position.start.after P).stack → (count P).2 = some k) :
    (count (P ++ [y])).2 = some k := by
  rw [Position.after_append, Position.after_cons, Position.after_nil] at hopen
  rw [count_snoc]
  rcases y.delimiter_cases with hop | hop | ⟨hb, he⟩
  · rw [Position.advance_begin _ hop, List.mem_cons] at hopen
    simp only [passed, hop]
    exact hP (hopen.resolve_left (by omega))
  · rw [Position.advance_end _ hop] at hopen
    have hbehind := hP (List.mem_of_mem_tail hopen)
    -- the region that closes here is not the one of the exit, which is around `q`
    have hstacked := (stacked_start ht hs).tail
    have hlt := length_outer_lt hstacked hopen
    have hdepth := count_depth ht hs
    rw [List.length_tail] at hlt
    have hne : (count P).2 ≠ some (count P).1 := by
      intro hsame
      have := Option.some.inj (hbehind.symm.trans hsame)
      omega
    simp only [passed, hop, if_neg hne]
    exact hbehind
  · have hplain := isDelimiter_eq_false.2 ⟨hb, he⟩
    rw [Position.advance_plain _ hplain] at hopen
    rw [passed_plain hplain, hP hopen]
    rfl

/-- An exit keeps counting as long as its region is open. -/
theorem behind_lasts (ht : ofStream s = .ok t) {a mid : Stream} {x : Instruction} {k : Int}
    (hs : s = (a ++ x :: mid) ++ post) (hk : (count (a ++ [x])).2 = some k)
    (hdepth : k ≤ (t.node (Position.start.after a).top).outer.length)
    (hopen : (Position.start.after a).top ∈ (Position.start.after (a ++ x :: mid)).stack) :
    (count (a ++ x :: mid)).2 = some k := by
  have hle : (Position.start.after a).top ≤ (Position.start.after a).opened := by
    by_cases hroot : (Position.start.after a).top = root
    · rw [hroot]
      exact Nat.zero_le _
    · exact le_opened_start (mem_stack_top hroot)
  induction mid using List.reverseRecOn generalizing post with
  | nil => exact hk
  | append_singleton mid y ih =>
      have hassoc : a ++ x :: (mid ++ [y]) = (a ++ x :: mid) ++ [y] := by simp
      rw [hassoc] at hs hopen ⊢
      rw [List.append_assoc, List.singleton_append] at hs
      refine behind_passed ht hs (Nat.le_trans hle ?_) hdepth hopen (ih hs)
      rw [Position.after_append]
      exact Position.opened_le_after _ _

/-- The second counter is never more than the depth of the region an instruction stands in. -/
theorem behind_le_depth (ht : ofStream s = .ok t) (hs : s = pre ++ post) {k : Int}
    (hk : (count pre).2 = some k) : k ≤ (t.node (Position.start.after pre).top).outer.length := by
  have hbound := count_behind hk
  have hcount := count_depth ht hs
  have hstack := length_stack ht hs
  omega

/-- What was dropped in a region stays out of reach: as long as the region is open, everything in it is
dropped. -/
theorem behind_of_dropped (ht : ofStream s = .ok t) {a mid : Stream} {x : Instruction}
    (hs : s = (a ++ x :: mid) ++ post) (hx : x.op ≠ .scopeEnd) (hdrop : drops s a.length = true)
    (hopen : (Position.start.after a).top ∈ (Position.start.after (a ++ x :: mid)).stack) :
    (count (a ++ x :: mid)).2.isSome = true := by
  have hsa : s = a ++ x :: (mid ++ post) := by simp [hs]
  rw [drops_eq hsa, mark_of_ne_end hx, Option.isSome_iff_exists] at hdrop
  obtain ⟨k, hk⟩ := hdrop
  have hk' : (count (a ++ [x])).2 = some k := by
    rw [count_snoc, passed_of_ne_end hk hx]
  rw [behind_lasts ht hs hk' (behind_le_depth ht hsa hk) hopen]
  rfl

end Count

/-! ## Regions behind an exit -/

/-- Whether a region opens behind an exit. -/
def cutOff (s : Stream) (t : ScopeTree) (n : Nat) : Bool :=
  n ≠ root && drops s (t.node n).first.toNat

section CutOff

variable {s : Stream} {t : ScopeTree} {pre post : Stream} {ins : Instruction} {n : Nat}

theorem cutOff_begin (ht : ofStream s = .ok t) (hs : s = pre ++ ins :: post)
    (hop : ins.op = .scopeBegin) :
    cutOff s t ((Position.start.after pre).opened + 1) = drops s pre.length := by
  rw [cutOff, first_begin ht hs hop, Int.toNat_natCast]
  simp [root]

/-- As long as the region around one that is cut off is open, everything is dropped. -/
theorem behind_of_cutOff (ht : ofStream s = .ok t) (hs : s = pre ++ post) (hn : cutOff s t n = true)
    (hlt : n < t.nodes.length) (hle : n ≤ (Position.start.after pre).opened)
    (hparent : ∀ q, (t.node n).parent? = some q → q ∈ (Position.start.after pre).stack) :
    (count pre).2.isSome = true := by
  have hroot : n ≠ root := by
    rintro rfl
    simp [cutOff] at hn
  obtain ⟨a, b, rest, hsplit, hop, rfl⟩ := exists_begin ht hroot hlt
  rw [cutOff_begin ht hsplit hop] at hn
  have hfirst := (first_lt_iff ht hs hroot hlt).2 hle
  rw [first_begin ht hsplit hop] at hfirst
  -- the region opens before
  obtain ⟨mid, rfl⟩ : ∃ mid, pre = a ++ b :: mid := by
    rcases List.append_eq_append_iff.1 (hs.symm.trans hsplit) with ⟨mid, rfl, hmid⟩ | ⟨mid, rfl, hmid⟩
    · rw [List.length_append] at hfirst
      omega
    · cases mid with
      | nil => simp at hfirst
      | cons c mid =>
          rw [List.cons_append, List.cons.injEq] at hmid
          exact ⟨mid, by rw [hmid.1]⟩
  refine behind_of_dropped ht hs (by simp [hop]) hn (hparent _ ?_)
  have houter : (t.node ((Position.start.after a).opened + 1)).outer = (Position.start.after a).stack :=
    congrArg (·.2.2) (sig_node_begin ht hsplit hop)
  have hlength := length_stack ht hsplit
  rw [ScopeNode.parent?, houter]
  unfold Position.top
  cases hstack : (Position.start.after a).stack with
  | nil => simp [hstack] at hlength
  | cons q stack => rfl

theorem behind_of_open (ht : ofStream s = .ok t) (hs : s = pre ++ post) (hn : cutOff s t n = true)
    (hopen : n ∈ (Position.start.after pre).stack)
    (houter : ∀ q ∈ (t.node n).outer, q ∈ (Position.start.after pre).stack) :
    (count pre).2.isSome = true := by
  refine behind_of_cutOff ht hs hn (lt_length_nodes ht hs hopen) (le_opened_start hopen) fun q hq => ?_
  exact houter q (List.mem_of_mem_head? hq)

end CutOff

theorem cutOff_inherits {s : Stream} {t : ScopeTree} (ht : ofStream s = .ok t) {n q : Nat}
    (hq : q ∈ (t.node n).outer) (hcut : cutOff s t q = true) : cutOff s t n = true := by
  by_cases hroot : n = root
  · rw [hroot, outer_root ht] at hq
    exact absurd hq List.not_mem_nil
  · by_cases hlt : n < t.nodes.length
    · obtain ⟨pre, b, post, hs, hop, rfl⟩ := exists_begin ht hroot hlt
      have houter : (t.node ((Position.start.after pre).opened + 1)).outer =
          (Position.start.after pre).stack := congrArg (·.2.2) (sig_node_begin ht hs hop)
      rw [cutOff_begin ht hs hop, drops_eq hs, mark_of_ne_end (by simp [hop])]
      refine behind_of_open ht hs hcut (houter ▸ hq) fun r hr => ?_
      rw [← houter]
      exact outer_subset ht hq hr
    · rw [node_of_length_le (Nat.le_of_not_lt hlt)] at hq
      exact absurd hq List.not_mem_nil

/-- The delimiters of a region go with the region. -/
theorem drops_delimiter {s : Stream} {t : ScopeTree} (ht : ofStream s = .ok t) {pre post : Stream}
    {ins : Instruction} (hs : s = pre ++ ins :: post) (hdelimiter : isDelimiter ins = true) :
    drops s pre.length = cutOff s t ((Position.start.after pre).owner ins) := by
  have hcloses := (ofStream_isOk_iff s).1 ⟨t, ht⟩
  simp only [isDelimiter, Bool.or_eq_true, decide_eq_true_eq] at hdelimiter
  rcases hdelimiter with hop | hop
  · rw [Position.owner, if_pos hop, cutOff_begin ht hs hop]
  · have hpaired := (paired_drops ((balanced_iff s).2 hcloses)).split hcloses
      (fun _ _ _ hs' hop' => cutOff_begin ht hs' hop') hs
    rw [Paired, if_neg (by simp [hop]), if_pos hop, List.head?_map] at hpaired
    obtain ⟨n, hn, hdrop⟩ := Option.map_eq_some_iff.1 hpaired.1
    have hnb : ins.op ≠ .scopeBegin := by simp [hop]
    rw [Position.owner, if_neg hnb, ← hdrop]
    cases hstack : (Position.start.after pre).stack with
    | nil => simp [hstack] at hn
    | cons m stack =>
        cases stack with
        | nil => simp [hstack] at hn
        | cons k stack =>
            rw [hstack] at hn
            obtain rfl : m = n := by simpa using hn
            rfl

/-- What stays behind no exit refers to nothing behind one. -/
theorem fits {classes : Hierarchy} {s : Stream} {t : ScopeTree} (h : Tidy classes s t) :
    Edits.Fits { drop := drops s } classes s t (cutOff s t) := by
  have hplainDrop : ∀ pre ins post, s = pre ++ ins :: post → isDelimiter ins = false →
      (count pre).2.isSome = true → drops s pre.length = true := by
    intro pre ins post hs hplain hbehind
    rw [drops_eq hs, mark_of_ne_end (isDelimiter_eq_false.1 hplain).2, hbehind]
  refine ⟨by simp [cutOff], fun n q => cutOff_inherits h.tree, fun _ _ _ => drops_delimiter h.tree, ?_,
    sparesDelimiters_of_drop _, fun _ _ _ _ _ _ hnew => absurd hnew (by simp), ?_, ?_, ?_⟩
  · intro pre ins post hs hcut
    cases hplain : isDelimiter ins with
    | true => exact (drops_delimiter h.tree hs hplain).trans hcut
    | false =>
        rw [Position.owner_plain _ hplain] at hcut
        have hroot : (Position.start.after pre).top ≠ root := by
          intro hroot
          simp [cutOff, hroot] at hcut
        refine hplainDrop pre ins post hs hplain (behind_of_open h.tree hs hcut (mem_stack_top hroot) ?_)
        intro q hq
        rw [← ancestors_top h.tree hs hplain]
        exact List.mem_cons_of_mem _ hq
  · intro pre ins post hs hkept x hx m hm
    cases hcut : cutOff s t m with
    | false => rfl
    | true =>
        have hplain : isDelimiter ins = false := isDelimiter_of_jumpTargets hx
        have hle := (h.jumps pre ins post hs x hx m hm).2
        have hbehind := behind_of_cutOff h.tree hs hcut (lt_of_resolve h.tree hs hplain hm) hle (by
          intro q hq
          rw [← ancestors_top h.tree hs hplain]
          rcases mem_of_resolve hm with hmem | ⟨r, hr, hmem⟩
          · have hmem' := List.mem_of_mem_head? hq
            rcases List.mem_cons.1 hmem with rfl | hmem
            · exact List.mem_cons_of_mem _ hmem'
            · exact List.mem_cons_of_mem _ (outer_subset h.tree hmem hmem')
          · rw [(mem_children.1 hmem).2] at hq
            exact Option.some.inj hq ▸ hr)
        exact absurd (hplainDrop pre ins post hs hplain hbehind) (by simpa using hkept)
  · intro pre d mid ins post hs hdropped hkept v hd hv hopen
    have hdeclare : d.op ≠ .scopeEnd := by
      intro hop
      simp [DeadCode.declares?, hop] at hd
    have hs' : s = (pre ++ d :: mid) ++ ins :: post := by simp [hs]
    have hbehind := behind_of_dropped h.tree hs' hdeclare hdropped hopen
    have hplain : isDelimiter ins = false := isDelimiter_of_assigns hv
    exact absurd (hplainDrop _ ins post hs' hplain hbehind) (by simpa using hkept)
  · intro pre f b post hs hf hop hkind
    refine ⟨rfl, fun hdropped => ?_⟩
    have hs' : s = (pre ++ [f]) ++ b :: post := by simp [hs]
    have hplain : isDelimiter f = false := by simp [isDelimiter, hf]
    have hbehind : (count pre).2.isSome = true := by
      have hmark : drops s pre.length = true := hdropped
      rwa [drops_eq hs, mark_of_ne_end (by simp [hf])] at hmark
    show drops s (pre ++ [f]).length = true
    rw [drops_eq hs', mark_of_ne_end (by simp [hop]), count_snoc, passed_plain hplain]
    obtain ⟨k, hk⟩ := Option.isSome_iff_exists.1 hbehind
    simp [hk]

end Datapack.Optimize.Unreachable
