import Datapack.Proofs.Ir.Brackets
import Datapack.Proofs.Optimize.Exits

/-!
# What an exit cuts off

The scan for unreachable code knows no tree.  Of its two counters the first is the depth of the innermost
open region and the second, when it is set, the depth of an exit whose region is still open
(`exit_of_count`, `count_of_exit`).  So what it drops is exactly what lies between an exit and the end of
the region of that exit (`drops_iff`).  What it keeps can be read off the counters alone: behind an exit
that is kept nothing is kept before a region ends, and then there is nothing left to drop.
-/

namespace Datapack.Optimize.Unreachable

open Ir ScopeTree

/-! ## The counters and the tree -/

/-- Of the instructions of `pre`, one is an exit whose region is still open behind them. -/
def Cut (pre : Stream) : Prop :=
  ∃ a x rest, pre = a ++ x :: rest ∧ isExit x.op = true ∧
    (Position.start.after a).top ∈ (Position.start.after pre).stack

section Counters

variable {s : Stream} {t : ScopeTree} {pre post : Stream} {ins : Instruction}

theorem isDelimiter_of_isExit (h : isExit ins.op = true) : isDelimiter ins = false := by
  rw [isDelimiter_eq_false]
  constructor
  · intro hop
    simp [hop, isExit] at h
  · intro hop
    simp [hop, isExit] at h

theorem mem_tail_of_ne_top {p : Ir.Position} {n : Nat} (h : n ∈ p.stack) (hne : n ≠ p.top) :
    n ∈ p.stack.tail := by
  unfold Position.top at hne
  cases hstack : p.stack with
  | nil =>
      rw [hstack] at h
      exact absurd h List.not_mem_nil
  | cons m rest =>
      rw [hstack] at h hne
      exact (List.mem_cons.1 h).resolve_left hne

theorem count_eq_outer (ht : ofStream s = .ok t) (hs : s = pre ++ post) :
    (count pre).1 = (t.node (Position.start.after pre).top).outer.length := by
  have hdepth := count_depth ht hs
  have hstack := length_stack ht hs
  omega

/-- The second counter is the depth of an exit whose region is still open. -/
theorem exit_of_count (ht : ofStream s = .ok t) (hs : s = pre ++ post) {k : Int}
    (hk : (count pre).2 = some k) :
    ∃ a x rest, pre = a ++ x :: rest ∧ isExit x.op = true ∧
      (Position.start.after a).top ∈ (Position.start.after pre).stack ∧
      k = (t.node (Position.start.after a).top).outer.length := by
  induction pre using List.reverseRecOn generalizing post with
  | nil => simp [count] at hk
  | append_singleton pre y ih =>
      rw [List.append_assoc, List.singleton_append] at hs
      rw [count_snoc] at hk
      rw [Position.after_append, Position.after_cons, Position.after_nil]
      rcases y.delimiter_cases with hop | hop | ⟨hb, he⟩
      · simp only [passed, hop] at hk
        obtain ⟨a, x, rest, rfl, hexit, hopen, hdepth⟩ := ih hs hk
        refine ⟨a, x, rest ++ [y], by simp, hexit, ?_, hdepth⟩
        rw [Position.advance_begin _ hop]
        exact List.mem_cons_of_mem _ hopen
      · simp only [passed, hop] at hk
        split at hk
        · simp at hk
        · next hne =>
            obtain ⟨a, x, rest, rfl, hexit, hopen, hdepth⟩ := ih hs hk
            refine ⟨a, x, rest ++ [y], by simp, hexit, ?_, hdepth⟩
            -- the region that ends is not the one of the exit, which is less deep
            rw [Position.advance_end _ hop]
            apply mem_tail_of_ne_top hopen
            intro heq
            rw [hk, count_eq_outer ht hs, hdepth, heq] at hne
            exact hne rfl
      · have hplain := isDelimiter_eq_false.2 ⟨hb, he⟩
        rw [Position.advance_plain _ hplain]
        rw [passed_plain hplain] at hk
        simp only at hk
        split at hk
        · next hexit =>
            rw [Bool.and_eq_true] at hexit
            refine ⟨pre, y, [], rfl, hexit.2, ?_, ?_⟩
            · rw [← ancestors_top ht hs hplain]
              exact List.mem_cons_self
            · rw [← count_eq_outer ht hs]
              exact (Option.some.inj hk).symm
        · obtain ⟨a, x, rest, rfl, hexit, hopen, hdepth⟩ := ih hs hk
          exact ⟨a, x, rest ++ [y], by simp, hexit, hopen, hdepth⟩

/-- As long as the region of an exit is open, the second counter is set. -/
theorem count_of_exit (ht : ofStream s = .ok t) {a mid : Stream} {x : Instruction}
    (hs : s = (a ++ x :: mid) ++ post) (hexit : isExit x.op = true)
    (hopen : (Position.start.after a).top ∈ (Position.start.after (a ++ x :: mid)).stack) :
    (count (a ++ x :: mid)).2.isSome = true := by
  have hsa : s = a ++ x :: (mid ++ post) := by simp [hs]
  have hplain := isDelimiter_of_isExit hexit
  have hset : ∃ k, (count (a ++ [x])).2 = some k ∧
      k ≤ (t.node (Position.start.after a).top).outer.length := by
    rw [count_snoc, passed_plain hplain, hexit, Bool.and_true]
    cases hbehind : (count a).2 with
    | none => exact ⟨_, rfl, Int.le_of_eq (count_eq_outer ht hsa)⟩
    | some k => exact ⟨k, rfl, behind_le_depth ht hsa hbehind⟩
  obtain ⟨k, hk, hdepth⟩ := hset
  rw [behind_lasts ht hs hk hdepth hopen]
  rfl

theorem count_isSome_iff (ht : ofStream s = .ok t) (hs : s = pre ++ post) :
    (count pre).2.isSome = true ↔ Cut pre := by
  constructor
  · intro hset
    obtain ⟨k, hk⟩ := Option.isSome_iff_exists.1 hset
    obtain ⟨a, x, rest, hpre, hexit, hopen, -⟩ := exit_of_count ht hs hk
    exact ⟨a, x, rest, hpre, hexit, hopen⟩
  · rintro ⟨a, x, rest, rfl, hexit, hopen⟩
    exact count_of_exit ht hs hexit hopen

/-! ## What is dropped -/

/-- An instruction is dropped when an exit before it has a region that is still open behind it. -/
theorem drops_iff_open (ht : ofStream s = .ok t) (hs : s = pre ++ ins :: post) :
    drops s pre.length = true ↔ ∃ a x rest, pre = a ++ x :: rest ∧ isExit x.op = true ∧
      (Position.start.after a).top ∈ (Position.start.after (pre ++ [ins])).stack := by
  rw [drops_eq hs]
  cases hplain : isDelimiter ins with
  | false =>
      rw [mark_of_ne_end (isDelimiter_eq_false.1 hplain).2, count_isSome_iff ht hs, Position.after_append,
        Position.after_cons, Position.after_nil, Position.advance_plain _ hplain]
      rfl
  | true =>
      have hmark : mark (count pre) ins = (count (pre ++ [ins])).2.isSome := by
        rw [count_snoc]
        rcases ins.delimiter_cases with hop | hop | ⟨hb, he⟩
        · simp [mark, passed, hop]
        · by_cases hlast : (count pre).2 = some (count pre).1
          · simp [mark, passed, hop, hlast]
          · simp [mark, passed, hop, hlast]
        · rw [isDelimiter_eq_false.2 ⟨hb, he⟩] at hplain
          exact Bool.noConfusion hplain
      have hs' : s = (pre ++ [ins]) ++ post := by simp [hs]
      rw [hmark, count_isSome_iff ht hs']
      constructor
      · rintro ⟨a, x, rest, hpre, hexit, hopen⟩
        -- the last instruction is a delimiter, so the exit is one before it
        cases rest using List.reverseRecOn with
        | nil =>
            obtain ⟨-, hlast⟩ := List.append_inj' hpre rfl
            rw [List.singleton_inj.1 hlast, isDelimiter_of_isExit hexit] at hplain
            exact Bool.noConfusion hplain
        | append_singleton rest y =>
            rw [← List.cons_append, ← List.append_assoc] at hpre
            obtain ⟨rfl, -⟩ := List.append_inj' hpre rfl
            exact ⟨a, x, rest, rfl, hexit, hopen⟩
      · rintro ⟨a, x, rest, rfl, hexit, hopen⟩
        exact ⟨a, x, rest ++ [ins], by simp, hexit, hopen⟩

/-- The counters drop what lies between an exit and the end of its region. -/
theorem drops_iff (ht : ofStream s = .ok t) {i : Nat} (hi : i < s.length) :
    drops s i = true ↔ ∃ e x, s[e]? = some x ∧ isExit x.op = true ∧ e < i ∧
      (i : Int) < (t.node (t.nodeAt e)).last := by
  obtain ⟨ins, hins⟩ : ∃ ins, s[i]? = some ins := ⟨_, List.getElem?_eq_getElem hi⟩
  obtain ⟨pre, post, hs, rfl⟩ := exists_split hins
  rw [drops_iff_open ht hs]
  have hexits : ∀ a x rest, pre = a ++ x :: rest → isExit x.op = true →
      ((Position.start.after a).top ∈ (Position.start.after (pre ++ [ins])).stack ↔
        (pre.length : Int) < (t.node (t.nodeAt a.length)).last) := by
    intro a x rest hpre hexit
    have hsa : s = a ++ x :: (rest ++ ins :: post) := by
      rw [hpre] at hs
      simpa using hs
    have hplain := isDelimiter_of_isExit hexit
    have hnode : t.nodeAt a.length = (Position.start.after a).top := by
      rw [nodeAt_length ht hsa, Position.owner_plain _ hplain]
    have hcontains := contains_plain ht hsa hplain
    rw [ScopeNode.contains, Bool.and_eq_true, decide_eq_true_eq, decide_eq_true_eq] at hcontains
    rw [← hnode] at hcontains ⊢
    apply mem_stack_snoc_iff ht hs (nodeAt_lt ht a.length)
    rw [hpre, List.length_append]
    omega
  constructor
  · rintro ⟨a, x, rest, hpre, hexit, hopen⟩
    refine ⟨a.length, x, ?_, hexit, ?_, (hexits a x rest hpre hexit).1 hopen⟩
    · rw [hs, hpre]
      simp
    · rw [hpre, List.length_append, List.length_cons]
      omega
  · rintro ⟨e, x, he, hexit, hlt, hlast⟩
    rw [hs, List.getElem?_append_left hlt] at he
    obtain ⟨a, rest, hpre, rfl⟩ := exists_split he
    exact ⟨a, x, rest, hpre, hexit, (hexits a x rest hpre hexit).2 hlast⟩

end Counters

/-! ## What is kept -/

/-- Behind every exit its region ends. -/
def Trimmed : Stream → Prop
  | [] => True
  | ins :: rest =>
    (isExit ins.op = true → ∀ next ∈ rest.head?, next.op = .scopeEnd) ∧ Trimmed rest

theorem Trimmed.of_split {pre post : Stream} {ins : Instruction} (h : Trimmed (pre ++ ins :: post))
    (hexit : isExit ins.op = true) : ∀ next ∈ post.head?, next.op = .scopeEnd := by
  induction pre with
  | nil => exact h.1 hexit
  | cons x pre ih => exact ih h.2

def kept (st : Int × Option Int) : Stream → Stream
  | [] => []
  | ins :: rest => if mark st ins then kept (passed st ins) rest else ins :: kept (passed st ins) rest

section Kept

variable {s : Stream} {st : Int × Option Int} {ins : Instruction}

theorem passed_of_mark (h : mark st ins = true) : (passed st ins).2 = st.2 := by
  rw [mark, Bool.and_eq_true, Option.isSome_iff_exists] at h
  obtain ⟨⟨k, hk⟩, hend⟩ := h
  by_cases hop : ins.op = .scopeEnd
  · have hne : st.2 ≠ some st.1 := by simpa [hop] using hend
    simp only [passed, hop, if_neg hne]
  · rw [passed_of_ne_end hk hop, hk]

theorem end_of_not_mark (hset : st.2.isSome = true) (h : mark st ins = false) : ins.op = .scopeEnd := by
  by_contra hop
  rw [mark_of_ne_end hop, hset] at h
  exact Bool.noConfusion h

/-- While the second counter is set, the next instruction that is kept ends a region. -/
theorem head_kept (hset : st.2.isSome = true) : ∀ next ∈ (kept st s).head?, next.op = .scopeEnd := by
  induction s generalizing st with
  | nil => simp [kept]
  | cons ins s ih =>
      rw [kept]
      cases hmark : mark st ins with
      | true =>
          rw [if_pos rfl]
          exact ih (by rw [passed_of_mark hmark]; exact hset)
      | false =>
          rw [if_neg (by simp), List.head?_cons]
          rintro next ⟨⟩
          exact end_of_not_mark hset hmark

theorem trimmed_kept (st : Int × Option Int) (s : Stream) : Trimmed (kept st s) := by
  induction s generalizing st with
  | nil => trivial
  | cons ins s ih =>
      rw [kept]
      split
      · exact ih _
      · refine ⟨fun hexit => head_kept ?_, ih _⟩
        rw [passed_plain (isDelimiter_of_isExit hexit), hexit, Bool.and_true]
        cases hbehind : st.2 with
        | none => rfl
        | some k => rfl

/-- In a stream where regions end behind their exits nothing is marked. -/
theorem marks_of_trimmed (h : Trimmed s)
    (hst : st.2 = none ∨ (st.2 = some st.1 ∧ ∀ next ∈ s.head?, next.op = .scopeEnd)) :
    ∀ dead ∈ marks st.1 st.2 s, dead = false := by
  induction s generalizing st with
  | nil => simp [marks]
  | cons ins s ih =>
      rw [marks_cons, List.forall_mem_cons]
      rcases hst with hnone | ⟨hsome, hhead⟩
      · refine ⟨by simp [mark, hnone], ih h.2 ?_⟩
        by_cases hexit : isExit ins.op = true
        · rw [passed_plain (isDelimiter_of_isExit hexit), hnone, hexit]
          exact .inr ⟨rfl, h.1 hexit⟩
        · left
          rcases ins.delimiter_cases with hop | hop | ⟨hb, he⟩
          · simp only [passed, hop, hnone]
          · simp [passed, hop, hnone]
          · simp [passed_plain (isDelimiter_eq_false.2 ⟨hb, he⟩), hnone, hexit]
      · have hop : ins.op = .scopeEnd := hhead ins rfl
        refine ⟨by simp [mark, hop, hsome], ih h.2 (.inl ?_)⟩
        simp only [passed, hop, hsome, if_true]

theorem edited_marks {drop : Nat → Bool} {i : Nat}
    (hdrop : ∀ k, drop (i + k) = (marks st.1 st.2 s)[k]?.getD false) :
    Edits.edited { drop } i s = kept st s := by
  induction s generalizing i st with
  | nil => rfl
  | cons ins s ih =>
      rw [marks_cons] at hdrop
      have hhead : drop i = mark st ins := hdrop 0
      have htail := @ih (passed st ins) (i + 1) fun k => by
        rw [Nat.add_assoc, Nat.add_comm 1 k]
        exact hdrop (k + 1)
      rw [Edits.edited, kept, htail, ← hhead]
      rfl

theorem code_run (s : Stream) : (run s).code = kept (0, none) s := by
  rw [run, Edits.apply_eq]
  exact edited_marks fun k => by rw [Nat.zero_add]

theorem changed_run_eq_false (h : Trimmed s) : (run s).changed = false := by
  rw [run, Edits.apply_eq, Bool.eq_false_iff]
  intro htouches
  obtain ⟨k, -, hdrop⟩ := Edits.touches_drop_iff.1 htouches
  rw [Nat.zero_add] at hdrop
  cases hmark : (marks 0 none s)[k]? with
  | none => simp [hmark] at hdrop
  | some dead =>
      have hnone := @marks_of_trimmed s (0, none) h (.inl rfl) dead (List.mem_of_getElem? hmark)
      rw [hmark, hnone] at hdrop
      exact Bool.noConfusion hdrop

end Kept

/-- The scan removes exactly what lies between an exit and the end of its region, in order, leaves every
exit right before the end of its region, and finds nothing to remove in what it leaves. -/
theorem run_removes_behind_exits {s : Stream} (hs : s.balanced = true) :
    ∃ t, ofStream s = .ok t ∧ ∃ removed : Nat → Bool,
      (run s).code = (s.zipIdx.filter fun x => !removed x.2).map Prod.fst ∧
      (∀ i < s.length, removed i = true ↔ ∃ e x, s[e]? = some x ∧ isExit x.op = true ∧ e < i ∧
        (i : Int) < (t.node (t.nodeAt e)).last) ∧
      (∀ pre ins post, (run s).code = pre ++ ins :: post → isExit ins.op = true →
        ∀ next ∈ post.head?, next.op = .scopeEnd) ∧
      (run (run s).code).changed = false := by
  obtain ⟨t, ht⟩ := exists_tree hs
  have htrimmed : Trimmed (run s).code := by
    rw [code_run]
    exact trimmed_kept _ s
  refine ⟨t, ht, drops s, ?_, fun i hi => drops_iff ht hi, ?_, changed_run_eq_false htrimmed⟩
  · rw [run, Edits.apply_eq, ← Edits.edited_drop]
    rfl
  · intro pre ins post hcode hexit
    rw [hcode] at htrimmed
    exact htrimmed.of_split hexit

/-- A region with an exit in the middle of which regions open and are left again, and an exit of the whole
stream. -/
def nestedExits : Stream :=
  [Instruction.scopeBegin "l" .loop, Instruction.scopeBegin "a" .block, Instruction.breakLoop "l",
    Instruction.scopeBegin "b" .block, Instruction.continueLoop "l", Instruction.jump "b",
    Instruction.scopeEnd "b" .block, Instruction.scopeEnd "a" .block, Instruction.jump "a",
    Instruction.scopeEnd "l" .loop, Instruction.ret none, Instruction.jump "l"]

theorem run_removes_behind_exits_nested :
    nestedExits.balanced = true ∧
      ∃ t, ofStream nestedExits = .ok t ∧ ∃ removed : Nat → Bool,
        (run nestedExits).code = (nestedExits.zipIdx.filter fun x => !removed x.2).map Prod.fst ∧
        (∀ i < nestedExits.length, removed i = true ↔ ∃ e x, nestedExits[e]? = some x ∧
          isExit x.op = true ∧ e < i ∧ (i : Int) < (t.node (t.nodeAt e)).last) ∧
        (∀ pre ins post, (run nestedExits).code = pre ++ ins :: post → isExit ins.op = true →
          ∀ next ∈ post.head?, next.op = .scopeEnd) ∧
        (run (run nestedExits).code).changed = false :=
  ⟨by decide, run_removes_behind_exits (by decide)⟩

end Datapack.Optimize.Unreachable
