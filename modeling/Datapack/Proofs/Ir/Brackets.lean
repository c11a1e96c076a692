import Datapack.Proofs.Ir.Branching
import Datapack.Proofs.Ir.Spans
import Mathlib.Data.Set.Function

/-!
# Delimiters as brackets

The delimiters of a stream are brackets that carry names.  `Bracketed` is their grammar, `Matched` says
which two delimiters belong together, and `ScopeTree.Indexes` says what a tree has to record of a stream.
The main result is that the scan accepts exactly the bracketed streams and indexes each of them: its nodes
are the matched pairs, their intervals nest as the tree says, and the node of an index is the innermost
one around it.
-/

namespace Datapack.Ir

/-- The streams whose delimiters match.  A closing delimiter repeats the name of the opening one; its kind
does not matter. -/
inductive Bracketed : Stream → Prop
  | nil : Bracketed []
  | other {ins : Instruction} {rest : Stream} (hb : ins.op ≠ .scopeBegin) (he : ins.op ≠ .scopeEnd)
      (hrest : Bracketed rest) : Bracketed (ins :: rest)
  | region {b e : Instruction} {body rest : Stream} (hb : b.op = .scopeBegin) (he : e.op = .scopeEnd)
      (hname : b.scopeName = e.scopeName) (hbody : Bracketed body) (hrest : Bracketed rest) :
      Bracketed (b :: (body ++ e :: rest))

/-- The delimiters at the indices `i` and `j` belong together. -/
def Matched (s : Stream) (i j : Nat) : Prop :=
  ∃ pre b body e post, s = pre ++ b :: (body ++ e :: post) ∧ pre.length = i ∧
    (pre ++ b :: body).length = j ∧ b.op = .scopeBegin ∧ e.op = .scopeEnd ∧
    b.scopeName = e.scopeName ∧ Bracketed body

/-! ## The grammar -/

theorem Bracketed.closes_append {s : Stream} (h : Bracketed s) (names : List String) (rest : Stream) :
    closes names (s ++ rest) = closes names rest := by
  induction h generalizing names rest with
  | nil => rfl
  | other hb he _ ih => rw [List.cons_append, closes_other hb he, ih]
  | region hb he hname _ _ ihbody ihrest =>
      rw [List.cons_append, closes_begin hb, List.append_assoc, ihbody, List.cons_append,
        closes_end he, ihrest, hname]
      simp

/-- What closes an open region splits at the delimiter that does so. -/
theorem exists_split_of_closes {name : String} {names : List String} {s : Stream}
    (h : closes (name :: names) s = true) :
    ∃ body e rest, s = body ++ e :: rest ∧ Bracketed body ∧ e.op = .scopeEnd ∧ name = e.scopeName ∧
      closes names rest = true := by
  -- a region that opens on the way is split off first, so that the rest is shorter by more than one
  induction hlen : s.length using Nat.strongRecOn generalizing name names s with
  | ind n ih =>
      cases s with
      | nil => simp [closes] at h
      | cons ins s =>
          rw [List.length_cons] at hlen
          rcases ins.delimiter_cases with hop | hop | ⟨hb, he⟩
          · rw [closes_begin hop] at h
            obtain ⟨inner, e, s, rfl, hinner, he, hname, h⟩ := ih _ (by omega) h rfl
            rw [List.length_append, List.length_cons] at hlen
            obtain ⟨body, e', rest, rfl, hbody, he', hname', hrest⟩ := ih _ (by omega) h rfl
            refine ⟨ins :: (inner ++ e :: body), e', rest, ?_, .region hop he hname hinner hbody, he',
              hname', hrest⟩
            simp
          · rw [closes_end hop, Bool.and_eq_true, decide_eq_true_eq] at h
            exact ⟨[], ins, s, rfl, .nil, hop, h⟩
          · rw [closes_other hb he] at h
            obtain ⟨body, e, rest, rfl, hbody, h⟩ := ih _ (by omega) h rfl
            exact ⟨ins :: body, e, rest, rfl, .other hb he hbody, h⟩

theorem bracketed_of_closes {s : Stream} (h : closes [] s = true) : Bracketed s := by
  induction hlen : s.length using Nat.strongRecOn generalizing s with
  | ind n ih =>
      cases s with
      | nil => exact .nil
      | cons ins s =>
          rw [List.length_cons] at hlen
          rcases ins.delimiter_cases with hop | hop | ⟨hb, he⟩
          · rw [closes_begin hop] at h
            obtain ⟨body, e, rest, rfl, hbody, he, hname, h⟩ := exists_split_of_closes h
            rw [List.length_append, List.length_cons] at hlen
            exact .region hop he hname hbody (ih _ (by omega) h rfl)
          · rw [closes_end_nil hop] at h
            exact Bool.noConfusion h
          · rw [closes_other hb he] at h
            exact .other hb he (ih _ (by omega) h rfl)

theorem closes_iff_bracketed {s : Stream} : closes [] s = true ↔ Bracketed s := by
  refine ⟨bracketed_of_closes, fun h => ?_⟩
  have hnil := h.closes_append [] []
  rwa [List.append_nil] at hnil

theorem Bracketed.stack_after {s : Stream} (h : Bracketed s) (p : Position) :
    (p.after s).stack = p.stack := by
  rw [Position.stack_after (closes_iff_bracketed.2 h), List.length_nil, List.drop_zero]

namespace ScopeTree

variable {s : Stream} {t : ScopeTree} {n m : Nat}

theorem mem_inner_iff : n ∈ t.inner ↔ n ≠ root ∧ n < t.nodes.length := by
  rw [inner, List.tail_range, List.mem_range'_1, root]
  omega

/-! ## Where regions close -/

theorem scan_last_end {i : Nat} {nodes : List ScopeNode} {stack owner : List Nat} {pre post : Stream}
    {ins : Instruction} (h : scan i nodes stack owner (pre ++ ins :: post) = .ok t)
    (hop : ins.op = .scopeEnd) (hopen : Open nodes stack) (p : Position) (hp : p.stack = stack)
    (hlen : nodes.length = p.opened + 1) :
    (t.node (p.after pre).top).last = (i + pre.length : Nat) := by
  induction pre generalizing i nodes stack owner p with
  | nil =>
      rcases scan_cons_cases h with ⟨hb, -⟩ | ⟨-, k, l, rest, rfl, hscan⟩ | ⟨-, he, -⟩
      · rw [hop] at hb
        exact Opcode.noConfusion hb
      · obtain ⟨node, hnode⟩ : ∃ node, nodes[k]? = some node :=
          ⟨_, List.getElem?_eq_getElem (hopen.lt k List.mem_cons_self)⟩
        -- what has been closed is not on the stack any more, so the rest of the scan leaves it alone
        rw [Position.after_nil, Position.top, hp]
        exact scan_last hscan (close_self hnode i) (List.nodup_cons.1 hopen.nodup).1
      · exact absurd hop he
  | cons a pre ih =>
      have hindex : i + (a :: pre).length = i + 1 + pre.length := by
        rw [List.length_cons]
        omega
      rw [hindex, Position.after_cons]
      rcases scan_cons_cases h with ⟨ha, hscan⟩ | ⟨ha, k, l, rest, rfl, hscan⟩ | ⟨hb, he, hscan⟩
      · refine ih hscan (hopen.push _) _ ?_ ?_
        · rw [Position.advance_begin p ha, hp, hlen]
        · rw [Position.advance_begin p ha, List.length_append, List.length_singleton, hlen]
      · refine ih hscan (hopen.pop _) _ ?_ ?_
        · rw [Position.advance_end p ha, hp]
          rfl
        · rw [Position.advance_end p ha, List.length_modify, hlen]
      · rw [Position.advance_other p hb he]
        exact ih hscan hopen p hp hlen

/-- A region ends at the delimiter that closes it. -/
theorem last_end (h : ofStream s = .ok t) {pre post : Stream} {ins : Instruction}
    (hs : s = pre ++ ins :: post) (hop : ins.op = .scopeEnd) :
    (t.node (Position.start.after pre).top).last = pre.length := by
  rw [hs] at h
  have hopen : Open [⟨"", .global, -1, (pre ++ ins :: post).length, []⟩] [root] :=
    ⟨by simp [root], by simp⟩
  have hlast := scan_last_end h hop hopen Position.start rfl rfl
  rwa [Nat.zero_add] at hlast

/-- The region of two delimiters that belong together. -/
theorem node_of_matched (h : ofStream s = .ok t) {pre body post : Stream} {b e : Instruction}
    (hs : s = pre ++ b :: (body ++ e :: post)) (hb : b.op = .scopeBegin) (he : e.op = .scopeEnd)
    (hbody : Bracketed body) :
    (t.node ((Position.start.after pre).opened + 1)).first = pre.length ∧
      (t.node ((Position.start.after pre).opened + 1)).last = (pre ++ b :: body).length := by
  refine ⟨first_begin h hs hb, ?_⟩
  have hs' : s = (pre ++ b :: body) ++ e :: post := by simp [hs]
  have hlast := last_end h hs' he
  have htop : (Position.start.after (pre ++ b :: body)).top = (Position.start.after pre).opened + 1 := by
    rw [Position.after_append, Position.after_cons, Position.top, hbody.stack_after,
      Position.advance_begin _ hb]
    rfl
  rwa [htop] at hlast

/-- Every region has a pair of delimiters that belong together. -/
theorem exists_matched (h : ofStream s = .ok t) (hn : n ∈ t.inner) :
    ∃ pre b body e post, s = pre ++ b :: (body ++ e :: post) ∧ b.op = .scopeBegin ∧
      e.op = .scopeEnd ∧ b.scopeName = e.scopeName ∧ Bracketed body ∧
      (Position.start.after pre).opened + 1 = n := by
  obtain ⟨hroot, hlt⟩ := mem_inner_iff.1 hn
  obtain ⟨pre, b, rest, hs, hb, hopened⟩ := exists_begin h hroot hlt
  have hcloses := (ofStream_isOk_iff s).1 ⟨t, h⟩
  rw [hs] at hcloses
  obtain ⟨names, hnames, -⟩ := @closes_after [] Position.start pre _ hcloses rfl
  rw [closes_begin hb] at hnames
  obtain ⟨body, e, post, rfl, hbody, he, hname, -⟩ := exists_split_of_closes hnames
  exact ⟨pre, b, body, e, post, hs, hb, he, hname, hbody, hopened⟩

/-! ## Intervals -/

theorem bounds (h : ofStream s = .ok t) (hn : n ∈ t.inner) :
    0 ≤ (t.node n).first ∧ (t.node n).first < (t.node n).last ∧ (t.node n).last < s.length := by
  obtain ⟨pre, b, body, e, post, hs, hb, he, -, hbody, rfl⟩ := exists_matched h hn
  obtain ⟨hfirst, hlast⟩ := node_of_matched h hs hb he hbody
  rw [hfirst, hlast, hs]
  simp only [List.length_append, List.length_cons]
  omega

/-- Regions that open later begin later. -/
theorem first_lt_first (h : ofStream s = .ok t) (hn : n ∈ t.inner) (hm : m ∈ t.inner) (hlt : n < m) :
    (t.node n).first < (t.node m).first := by
  obtain ⟨pre, b, body, e, post, hs, hb, he, -, hbody, rfl⟩ := exists_matched h hm
  rw [(node_of_matched h hs hb he hbody).1]
  obtain ⟨hroot, hlen⟩ := mem_inner_iff.1 hn
  exact (first_lt_iff h hs hroot hlen).2 (Nat.lt_succ_iff.1 hlt)

theorem eq_of_first_eq (h : ofStream s = .ok t) (hn : n ∈ t.inner) (hm : m ∈ t.inner)
    (heq : (t.node n).first = (t.node m).first) : n = m := by
  rcases Nat.lt_trichotomy n m with hlt | heq' | hlt
  · exact absurd heq (Int.ne_of_lt (first_lt_first h hn hm hlt))
  · exact heq'
  · exact absurd heq.symm (Int.ne_of_lt (first_lt_first h hm hn hlt))

theorem nodeAt_delimiters (h : ofStream s = .ok t) (hn : n ∈ t.inner) :
    t.nodeAt (t.node n).first = n ∧ t.nodeAt (t.node n).last = n := by
  obtain ⟨pre, b, body, e, post, hs, hb, he, -, hbody, rfl⟩ := exists_matched h hn
  obtain ⟨hfirst, hlast⟩ := node_of_matched h hs hb he hbody
  have hs' : s = (pre ++ b :: body) ++ e :: post := by simp [hs]
  have hend : e.op ≠ .scopeBegin := by simp [he]
  rw [hfirst, hlast, nodeAt_length h hs, nodeAt_length h hs', Position.owner, if_pos hb, Position.owner,
    if_neg hend, Position.after_append, Position.after_cons, hbody.stack_after, Position.advance_begin _ hb]
  exact ⟨rfl, rfl⟩

theorem nodeAt_eq_root (h : ofStream s = .ok t) {i : Int} (hi : ¬(0 ≤ i ∧ i < s.length)) :
    t.nodeAt i = root := by
  unfold nodeAt
  split
  · rfl
  · rw [List.getElem?_eq_none_iff.2]
    · rfl
    · rw [ofStream_owner h, length_owners]
      omega

theorem ancestors_root (h : ofStream s = .ok t) : t.ancestors root = [root] := by
  rw [ancestors, outer_root h]

/-- The regions around the node of an index, in or out of range, are those whose interval holds it. -/
theorem mem_ancestors_nodeAt_iff (h : ofStream s = .ok t) (hn : n ∈ t.inner) (i : Int) :
    n ∈ t.ancestors (t.nodeAt i) ↔ (t.node n).first ≤ i ∧ i ≤ (t.node n).last := by
  by_cases hin : 0 ≤ i ∧ i < s.length
  · obtain ⟨k, rfl⟩ := Int.eq_ofNat_of_zero_le hin.1
    obtain ⟨hroot, hlen⟩ := mem_inner_iff.1 hn
    exact mem_ancestors_iff h hroot hlen (by omega)
  · -- no region but the global one reaches out of the stream
    have hbounds := bounds h hn
    rw [nodeAt_eq_root h hin, ancestors_root h, List.mem_singleton]
    exact ⟨fun hroot => absurd hroot (mem_inner_iff.1 hn).1,
      fun hle => absurd (show 0 ≤ i ∧ i < s.length by omega) hin⟩

theorem mem_outer_self (h : ofStream s = .ok t) : n ∉ (t.node n).outer := by
  induction n using Nat.strongRecOn with
  | ind n ih =>
      intro hmem
      cases houter : (t.node n).outer with
      | nil =>
          rw [houter] at hmem
          exact List.not_mem_nil hmem
      | cons p rest =>
          obtain ⟨hlt, hparent⟩ := outer_of_parent h (n := n) (q := p) (by rw [ScopeNode.parent?, houter]; rfl)
          have hp : p ∈ (t.node n).outer := by rw [hparent]; exact List.mem_cons_self
          rw [hparent] at hmem
          rcases List.mem_cons.1 hmem with rfl | hmem
          · omega
          · exact ih p hlt (outer_subset h hmem hp)

/-- A region lies in another one exactly when its interval lies strictly in that of the other. -/
theorem mem_outer_iff (h : ofStream s = .ok t) (hn : n ∈ t.inner) (hm : m ∈ t.inner) :
    m ∈ (t.node n).outer ↔
      (t.node m).first < (t.node n).first ∧ (t.node n).last < (t.node m).last := by
  have hbounds := bounds h hn
  obtain ⟨hfirst, hlast⟩ := nodeAt_delimiters h hn
  have hbegin := mem_ancestors_nodeAt_iff h hm (t.node n).first
  have hend := mem_ancestors_nodeAt_iff h hm (t.node n).last
  rw [hfirst] at hbegin
  rw [hlast] at hend
  constructor
  · intro hmem
    have hin : m ∈ t.ancestors n := List.mem_cons_of_mem _ hmem
    have hne : m ≠ n := by
      rintro rfl
      exact mem_outer_self h hmem
    have hstart : (t.node m).first ≠ (t.node n).first := fun heq => hne (eq_of_first_eq h hm hn heq)
    have hstop : (t.node m).last ≠ (t.node n).last := by
      intro heq
      have hnode := (nodeAt_delimiters h hm).2
      rw [heq, hlast] at hnode
      exact hne hnode.symm
    have hle := hbegin.1 hin
    have hge := hend.1 hin
    omega
  · rintro ⟨hstart, hstop⟩
    rcases List.mem_cons.1 (hbegin.2 ⟨by omega, by omega⟩) with rfl | hmem
    · omega
    · exact hmem

/-! ## Innermost regions -/

/-- The innermost region with a property, the global one if no other region has it. -/
def Innermost (t : ScopeTree) (P : ScopeNode → Prop) (n : Nat) : Prop :=
  if n = root then ∀ m ∈ t.inner, ¬P (t.node m)
  else n ∈ t.inner ∧ P (t.node n) ∧ ∀ m ∈ t.inner, P (t.node m) →
    (t.node m).first ≤ (t.node n).first ∧ (t.node n).last ≤ (t.node m).last

/-- A region is the innermost one with a property that it and the regions around it have. -/
theorem innermost_of_ancestors (h : ofStream s = .ok t) {P : ScopeNode → Prop} (hlt : n < t.nodes.length)
    (hP : ∀ m ∈ t.inner, P (t.node m) ↔ m ∈ t.ancestors n) : t.Innermost P n := by
  unfold Innermost
  split
  · rename_i hroot
    intro m hm hPm
    have hmem := (hP m hm).1 hPm
    rw [hroot, ancestors, outer_root h, List.mem_singleton] at hmem
    exact (mem_inner_iff.1 hm).1 hmem
  · rename_i hroot
    have hn := mem_inner_iff.2 ⟨hroot, hlt⟩
    refine ⟨hn, (hP n hn).2 List.mem_cons_self, ?_⟩
    intro m hm hPm
    rcases List.mem_cons.1 ((hP m hm).1 hPm) with rfl | hmem
    · exact ⟨Int.le_refl _, Int.le_refl _⟩
    · have hnested := (mem_outer_iff h hn hm).1 hmem
      omega

theorem root_lt (h : ofStream s = .ok t) : root < t.nodes.length := by
  rw [length_nodes h]
  exact Nat.succ_pos _

theorem nodeAt_lt (h : ofStream s = .ok t) (i : Int) : t.nodeAt i < t.nodes.length := by
  have hpos := root_lt h
  by_cases hin : 0 ≤ i ∧ i < s.length
  · obtain ⟨k, rfl⟩ := Int.eq_ofNat_of_zero_le hin.1
    obtain ⟨pre, post, hs, rfl⟩ := exists_split (List.getElem?_eq_getElem (l := s) (i := k) (by omega))
    rw [nodeAt_length h hs, Position.owner]
    split
    · rename_i hop
      exact opened_lt_length_nodes h hs hop
    · by_cases htop : (Position.start.after pre).top = root
      · change (Position.start.after pre).top < _
        rw [htop]
        exact hpos
      · exact lt_length_nodes h hs (mem_stack_top htop)
  · unfold nodeAt
    split
    · exact hpos
    · have hout : t.owner[i.toNat]? = none := by
        rw [List.getElem?_eq_none_iff, ofStream_owner h, length_owners]
        omega
      rw [hout]
      exact hpos

theorem innermost_nodeAt (h : ofStream s = .ok t) (i : Int) :
    t.Innermost (fun node => node.first ≤ i ∧ i ≤ node.last) (t.nodeAt i) :=
  innermost_of_ancestors h (nodeAt_lt h i) fun _ hm => (mem_ancestors_nodeAt_iff h hm i).symm

theorem parent_of_inner (h : ofStream s = .ok t) (hn : n ∈ t.inner) :
    ∃ p, (t.node n).parent? = some p ∧ p < t.nodes.length ∧ (t.node n).outer = t.ancestors p := by
  obtain ⟨hroot, hlt⟩ := mem_inner_iff.1 hn
  obtain ⟨p, hp, houter⟩ := outer_node h hroot hlt
  exact ⟨p, by rw [ScopeNode.parent?, houter]; rfl, Nat.lt_trans hp hlt, houter⟩

theorem innermost_parent (h : ofStream s = .ok t) (hn : n ∈ t.inner) :
    ∃ p, (t.node n).parent? = some p ∧
      t.Innermost (fun node => node.first < (t.node n).first ∧ (t.node n).last < node.last) p := by
  obtain ⟨p, hp, hlt, houter⟩ := parent_of_inner h hn
  refine ⟨p, hp, innermost_of_ancestors h hlt fun m hm => ?_⟩
  rw [← houter, mem_outer_iff h hn hm]

theorem innermost_enclosingAt (h : ofStream s = .ok t) (i : Int) :
    t.Innermost (fun node => node.first < i ∧ i < node.last) (t.enclosingAt i) := by
  have hat := fun m (hm : m ∈ t.inner) => mem_ancestors_nodeAt_iff h hm i
  by_cases hdel : t.nodeAt i ≠ root ∧ ((t.node (t.nodeAt i)).first = i ∨ (t.node (t.nodeAt i)).last = i)
  · -- a delimiter: what lies around it is what lies around the region it delimits
    have hn := mem_inner_iff.2 ⟨hdel.1, nodeAt_lt h i⟩
    have hbounds := bounds h hn
    obtain ⟨p, hp, hlt, houter⟩ := parent_of_inner h hn
    have hparent : t.enclosingAt i = p := by simp [enclosingAt, hdel, hp]
    rw [hparent]
    refine innermost_of_ancestors h hlt fun m hm => ?_
    rw [← houter]
    constructor
    · intro hlt
      rcases List.mem_cons.1 ((hat m hm).2 (by omega)) with rfl | hmem
      · omega
      · exact hmem
    · intro hmem
      have hnested := (mem_outer_iff h hn hm).1 hmem
      omega
  · have hself : t.enclosingAt i = t.nodeAt i := by
      unfold enclosingAt
      simp only [Bool.and_eq_true, Bool.or_eq_true, decide_eq_true_eq]
      exact if_neg hdel
    rw [hself]
    refine innermost_of_ancestors h (nodeAt_lt h i) fun m hm => ?_
    rw [hat m hm]
    have hdelim := nodeAt_delimiters h hm
    have hroot := (mem_inner_iff.1 hm).1
    have hfirst : (t.node m).first ≠ i := by
      rintro rfl
      rw [hdelim.1] at hdel
      exact hdel ⟨hroot, .inl rfl⟩
    have hlast : (t.node m).last ≠ i := by
      rintro rfl
      rw [hdelim.2] at hdel
      exact hdel ⟨hroot, .inr rfl⟩
    omega

theorem enclosingAt_lt (h : ofStream s = .ok t) (i : Int) : t.enclosingAt i < t.nodes.length := by
  have hinnermost := innermost_enclosingAt h i
  unfold Innermost at hinnermost
  split at hinnermost
  · next hroot =>
      rw [hroot]
      exact root_lt h
  · exact (mem_inner_iff.1 hinnermost.1).2

/-! ## The index -/

theorem bounds_root (h : ofStream s = .ok t) :
    (t.node root).first = -1 ∧ (t.node root).last = s.length := by
  have hscan : scan 0 [⟨"", .global, -1, s.length, []⟩] ([] ++ [root]) [] s = .ok t := h
  have hopen : Open [⟨"", .global, -1, s.length, []⟩] ([] ++ [root]) := ⟨by simp [root], by simp⟩
  exact ⟨scan_first (n := root) hscan rfl, scan_root hscan hopen rfl⟩

theorem root_mem_ancestors (h : ofStream s = .ok t) (hn : n < t.nodes.length) : root ∈ t.ancestors n := by
  induction n using Nat.strongRecOn with
  | ind n ih =>
      by_cases hroot : n = root
      · rw [hroot]
        exact List.mem_cons_self
      · obtain ⟨p, hlt, houter⟩ := outer_node h hroot hn
        rw [ancestors, houter]
        exact List.mem_cons_of_mem _ (ih p hlt (by omega))

/-- The node of an instruction that delimits nothing and the nodes around it are the regions the
instruction lies strictly inside. -/
theorem mem_ancestors_iff_contains (h : ofStream s = .ok t) (hn : n < t.nodes.length) {i : Nat}
    {ins : Instruction} (hi : s[i]? = some ins) (hplain : isDelimiter ins = false) :
    n ∈ t.ancestors (t.nodeAt i) ↔ (t.node n).contains i = true := by
  obtain ⟨hlt, -⟩ := List.getElem?_eq_some_iff.1 hi
  rw [ScopeNode.contains, Bool.and_eq_true, decide_eq_true_eq, decide_eq_true_eq]
  by_cases hroot : n = root
  · obtain ⟨hfirst, hlast⟩ := bounds_root h
    rw [hroot, hfirst, hlast]
    exact ⟨fun _ => by omega, fun _ => root_mem_ancestors h (nodeAt_lt h i)⟩
  · have hinner := mem_inner_iff.2 ⟨hroot, hn⟩
    rw [mem_ancestors_nodeAt_iff h hinner]
    refine ⟨fun hin => ?_, fun hin => by omega⟩
    -- at a delimiter of the region the instruction would stand in the region itself
    obtain ⟨pre, post, hs, rfl⟩ := exists_split hi
    have hcontains := contains_plain h hs hplain
    have hnode := nodeAt_length h hs
    rw [Position.owner_plain _ hplain] at hnode
    rw [← hnode, ScopeNode.contains, Bool.and_eq_true, decide_eq_true_eq, decide_eq_true_eq] at hcontains
    obtain ⟨hfirst, hlast⟩ := nodeAt_delimiters h hinner
    have hne : (pre.length : Int) ≠ (t.node n).first ∧ (pre.length : Int) ≠ (t.node n).last := by
      constructor
      · intro heq
        rw [heq, hfirst] at hcontains
        omega
      · intro heq
        rw [heq, hlast] at hcontains
        omega
    omega

theorem mem_directly {t : ScopeTree} {n i : Nat} :
    i ∈ t.directly n ↔ t.owner[i]? = some n ∧ (t.node n).contains i = true := by
  rw [directly, List.mem_filterMap]
  constructor
  · rintro ⟨⟨k, j⟩, hmem, hj⟩
    rw [List.mk_mem_zipIdx_iff_getElem?] at hmem
    dsimp only at hmem hj
    split at hj
    · next hboth =>
        rw [Bool.and_eq_true, decide_eq_true_eq] at hboth
        obtain ⟨rfl, hcontains⟩ := hboth
        obtain rfl := Option.some.inj hj
        exact ⟨hmem, hcontains⟩
    · contradiction
  · rintro ⟨howner, hcontains⟩
    exact ⟨(n, i), List.mk_mem_zipIdx_iff_getElem?.2 howner, by simp [hcontains]⟩

theorem getElem?_owner (h : ofStream s = .ok t) {i : Nat} (hi : i < s.length) :
    t.owner[i]? = some (t.nodeAt i) := by
  have hlt : i < t.owner.length := by rwa [ofStream_owner h, length_owners]
  have hneg : ¬(i : Int) < 0 := by omega
  rw [List.getElem?_eq_getElem hlt, nodeAt, if_neg hneg]
  simp [hlt]

/-- Directly inside a region stand the instructions that delimit nothing and whose innermost region it is. -/
theorem mem_directly_iff (h : ofStream s = .ok t) {i : Nat} {ins : Instruction} (hi : s[i]? = some ins) :
    i ∈ t.directly n ↔ isDelimiter ins = false ∧ t.nodeAt i = n := by
  rw [mem_directly, getElem?_owner h (List.getElem?_eq_some_iff.1 hi).1, Option.some_inj]
  obtain ⟨pre, post, hs, rfl⟩ := exists_split hi
  have hnode := nodeAt_length h hs
  constructor
  · rintro ⟨rfl, hcontains⟩
    rw [ScopeNode.contains, Bool.and_eq_true, decide_eq_true_eq, decide_eq_true_eq, hnode] at hcontains
    refine ⟨Bool.eq_false_iff.2 fun hdelimiter => ?_, rfl⟩
    -- a delimiter stands at the edge of its region
    simp only [isDelimiter, Bool.or_eq_true, decide_eq_true_eq] at hdelimiter
    rcases hdelimiter with hop | hop
    · rw [Position.owner, if_pos hop, first_begin h hs hop] at hcontains
      omega
    · rw [Position.owner, if_neg (by simp [hop])] at hcontains
      have hlast := last_end h hs hop
      rw [Position.top] at hlast
      omega
  · rintro ⟨hplain, rfl⟩
    rw [hnode, Position.owner_plain _ hplain]
    exact ⟨rfl, contains_plain h hs hplain⟩

theorem exists_of_mem_directly (h : ofStream s = .ok t) {i : Nat} (hi : i ∈ t.directly n) :
    ∃ ins, s[i]? = some ins ∧ isDelimiter ins = false ∧ t.nodeAt i = n := by
  have hlt := (List.getElem?_eq_some_iff.1 (mem_directly.1 hi).1).1
  rw [ofStream_owner h, length_owners] at hlt
  exact ⟨s[i], List.getElem?_eq_getElem hlt, (mem_directly_iff h (List.getElem?_eq_getElem hlt)).1 hi⟩

theorem mem_ancestors_iff_spans (h : ofStream s = .ok t) (hn : n < t.nodes.length) {i : Nat}
    (hi : i < s.length) :
    n ∈ t.ancestors (t.nodeAt i) ↔ (t.node n).first ≤ i ∧ i ≤ (t.node n).last := by
  by_cases hroot : n = root
  · subst hroot
    rw [(bounds_root h).1, (bounds_root h).2]
    have hmem := root_mem_ancestors h (nodeAt_lt h i)
    constructor
    · intro _
      omega
    · exact fun _ => hmem
  · exact mem_ancestors_iff h hroot hn hi

/-- Only a closing delimiter stands where a region ends. -/
theorem last_ne_length (h : ofStream s = .ok t) (hn : n < t.nodes.length) {pre post : Stream}
    {ins : Instruction} (hs : s = pre ++ ins :: post) (hop : ins.op ≠ .scopeEnd) :
    (t.node n).last ≠ pre.length := by
  intro hlast
  by_cases hroot : n = root
  · rw [hroot, (bounds_root h).2, hs, List.length_append, List.length_cons] at hlast
    omega
  · obtain ⟨a, b, body, e, rest, hsplit, hb, he, -, hbody, rfl⟩ :=
      exists_matched h (mem_inner_iff.2 ⟨hroot, hn⟩)
    rw [(node_of_matched h hsplit hb he hbody).2, Int.ofNat_inj] at hlast
    have hat : s[pre.length]? = some e := by
      rw [← hlast, hsplit]
      simp
    rw [hs, List.getElem?_append_right (Nat.le_refl _), Nat.sub_self, List.getElem?_cons_zero,
      Option.some.injEq] at hat
    exact hop (hat ▸ he)

theorem last_lt_of_mem_outer (h : ofStream s = .ok t) (hm : m ∈ t.inner) (hn : n < t.nodes.length)
    (hmem : n ∈ (t.node m).outer) : (t.node m).last < (t.node n).last := by
  by_cases hroot : n = root
  · rw [hroot, (bounds_root h).2]
    exact (bounds h hm).2.2
  · exact ((mem_outer_iff h hm (mem_inner_iff.2 ⟨hroot, hn⟩)).1 hmem).2

/-- A region that has opened is open behind an instruction exactly if it ends further on. -/
theorem mem_stack_snoc_iff (h : ofStream s = .ok t) {pre post : Stream} {ins : Instruction}
    (hs : s = pre ++ ins :: post) (hn : n < t.nodes.length) (hfirst : (t.node n).first ≤ pre.length) :
    n ∈ (Position.start.after (pre ++ [ins])).stack ↔ (pre.length : Int) < (t.node n).last := by
  have hspans := mem_ancestors_iff_spans h hn (i := pre.length) (by simp [hs])
  rw [ancestors_nodeAt h hs, Position.around] at hspans
  rw [Position.after_append, Position.after_cons, Position.after_nil]
  rcases ins.delimiter_cases with hop | hop | ⟨hb, he⟩
  · have hne := last_ne_length h hn hs (by simp [hop])
    rw [if_pos hop] at hspans
    rw [Position.advance_begin _ hop, hspans]
    omega
  · -- the innermost region ends here, and the others are those around it
    have hlast := last_end h hs hop
    have htop : t.ancestors (Position.start.after pre).top = (Position.start.after pre).stack := by
      have haround := ancestors_nodeAt h hs
      rwa [nodeAt_length h hs, Position.owner, Position.around, if_neg (by simp [hop]),
        if_neg (by simp [hop])] at haround
    have hinner : (Position.start.after pre).top ∈ t.inner := by
      refine mem_inner_iff.2 ⟨fun hroot => ?_, ?_⟩
      · rw [hroot, (bounds_root h).2, hs, List.length_append, List.length_cons] at hlast
        omega
      · have hlt := nodeAt_lt h pre.length
        rwa [nodeAt_length h hs, Position.owner, if_neg (by simp [hop])] at hlt
    rw [if_neg (by simp [hop]), ← htop] at hspans
    rw [Position.advance_end _ hop, ← htop, ← hlast]
    show n ∈ (t.node (Position.start.after pre).top).outer ↔ _
    constructor
    · exact last_lt_of_mem_outer h hinner hn
    · intro hlt
      refine (List.mem_cons.1 (hspans.2 ⟨hfirst, by omega⟩)).resolve_left ?_
      intro heq
      rw [heq] at hlt
      exact Int.lt_irrefl _ hlt
  · have hne := last_ne_length h hn hs he
    rw [if_neg hb] at hspans
    rw [Position.advance_other _ hb he, hspans]
    omega

theorem bijOn_matched (h : ofStream s = .ok t) :
    Set.BijOn (fun n => ((t.node n).first, (t.node n).last)) {n | n ∈ t.inner}
      {ij | ∃ i j : Nat, ij = (↑i, ↑j) ∧ Matched s i j} := by
  refine ⟨fun n hn => ?_, fun n hn m hm heq => ?_, ?_⟩
  · obtain ⟨pre, b, body, e, post, hs, hb, he, hname, hbody, rfl⟩ := exists_matched h hn
    obtain ⟨hfirst, hlast⟩ := node_of_matched h hs hb he hbody
    refine ⟨pre.length, (pre ++ b :: body).length, ?_, pre, b, body, e, post, hs, rfl, rfl, hb, he,
      hname, hbody⟩
    exact Prod.ext hfirst hlast
  · exact eq_of_first_eq h hn hm (Prod.ext_iff.1 heq).1
  · rintro _ ⟨i, j, rfl, pre, b, body, e, post, hs, rfl, rfl, hb, he, -, hbody⟩
    obtain ⟨hfirst, hlast⟩ := node_of_matched h hs hb he hbody
    have hlt := opened_lt_length_nodes h hs hb
    exact ⟨(Position.start.after pre).opened + 1, mem_inner_iff.2 ⟨Nat.succ_ne_zero _, hlt⟩,
      Prod.ext hfirst hlast⟩

theorem opening_of_inner (h : ofStream s = .ok t) (hn : n ∈ t.inner) :
    ∃ b, s[(t.node n).first.toNat]? = some b ∧ (t.node n).name = b.scopeName ∧
      (t.node n).kind = b.scopeKind := by
  obtain ⟨pre, b, body, e, post, hs, hb, he, -, hbody, rfl⟩ := exists_matched h hn
  have hsig := sig_node_begin h hs hb
  simp only [ScopeNode.sig, Prod.mk.injEq] at hsig
  refine ⟨b, ?_, hsig.1, hsig.2.1⟩
  rw [(node_of_matched h hs hb he hbody).1, hs]
  simp

/-- A relation between each two nodes, the global one first. -/
theorem pairwise_nodes {R : ScopeNode → ScopeNode → Prop} (hroot : ∀ m ∈ t.inner, R (t.node root) (t.node m))
    (hinner : ∀ n ∈ t.inner, ∀ m ∈ t.inner, n < m → R (t.node n) (t.node m)) : t.nodes.Pairwise R := by
  rw [List.pairwise_iff_getElem]
  intro n m hn hm hlt
  have hget : ∀ k (hk : k < t.nodes.length), t.nodes[k] = t.node k := by
    intro k hk
    rw [node, List.getElem?_eq_getElem hk]
    rfl
  rw [hget n hn, hget m hm]
  have hm : m ∈ t.inner := mem_inner_iff.2 ⟨Nat.ne_of_gt (Nat.lt_of_le_of_lt (Nat.zero_le n) hlt), hm⟩
  by_cases hzero : n = root
  · rw [hzero]
    exact hroot m hm
  · exact hinner n (mem_inner_iff.2 ⟨hzero, hn⟩) m hm hlt

theorem ordered_nodes (h : ofStream s = .ok t) : t.nodes.Pairwise (·.first < ·.first) := by
  refine pairwise_nodes (fun m hm => ?_) fun n hn m hm hlt => first_lt_first h hn hm hlt
  have hbounds := bounds h hm
  rw [(bounds_root h).1]
  omega

/-- A region that begins inside another one ends inside it. -/
theorem last_lt_last (h : ofStream s = .ok t) (hn : n ∈ t.inner) (hm : m ∈ t.inner)
    (hbegin : (t.node n).first < (t.node m).first) (hin : (t.node m).first ≤ (t.node n).last) :
    (t.node m).last < (t.node n).last := by
  have haround := mem_ancestors_nodeAt_iff h hn (t.node m).first
  rw [(nodeAt_delimiters h hm).1] at haround
  rcases List.mem_cons.1 (haround.2 ⟨Int.le_of_lt hbegin, hin⟩) with rfl | hmem
  · omega
  · exact ((mem_outer_iff h hm hn).1 hmem).2

/-- Two regions that share an index lie one inside the other. -/
theorem nested_nodes (h : ofStream s = .ok t) : t.nodes.Pairwise fun a b =>
    (a.first < b.first ∧ b.last < a.last) ∨ a.last < b.first := by
  refine pairwise_nodes (fun m hm => ?_) fun n hn m hm hlt => ?_
  · have hbounds := bounds h hm
    rw [(bounds_root h).1, (bounds_root h).2]
    omega
  · rcases Int.lt_or_le (t.node n).last (t.node m).first with hout | hin
    · exact .inr hout
    · have hbegin := first_lt_first h hn hm hlt
      exact .inl ⟨hbegin, last_lt_last h hn hm hbegin hin⟩

theorem inner_of_mem_children (h : ofStream s = .ok t) (hm : m ∈ t.children n) : m ∈ t.inner := by
  obtain ⟨hlt, hparent⟩ := mem_children.1 hm
  refine mem_inner_iff.2 ⟨?_, hlt⟩
  rintro rfl
  rw [ScopeNode.parent?, outer_root h] at hparent
  cases hparent

theorem pairwise_children (h : ofStream s = .ok t) (n : Nat) :
    (t.children n).Pairwise fun a b => (t.node a).first < (t.node b).first := by
  have hsorted : (t.children n).Pairwise (· < ·) := List.Pairwise.filter _ List.pairwise_lt_range
  refine hsorted.imp_of_mem fun ha hb hlt => ?_
  exact first_lt_first h (inner_of_mem_children h ha) (inner_of_mem_children h hb) hlt

/-- What the tree of a stream records. -/
structure Indexes (t : ScopeTree) (s : Stream) : Prop where
  matched : Set.BijOn (fun n => ((t.node n).first, (t.node n).last)) {n | n ∈ t.inner}
    {ij | ∃ i j : Nat, ij = (↑i, ↑j) ∧ Matched s i j}
  opening : ∀ n ∈ t.inner, ∃ b, s[(t.node n).first.toNat]? = some b ∧
    (t.node n).name = b.scopeName ∧ (t.node n).kind = b.scopeKind
  ordered : t.nodes.Pairwise (·.first < ·.first)
  children : ∀ n, (t.children n).Pairwise fun a b => (t.node a).first < (t.node b).first
  nested : t.nodes.Pairwise fun a b =>
    (a.first < b.first ∧ b.last < a.last) ∨ a.last < b.first
  parent : ∀ n ∈ t.inner, ∃ p, (t.node n).parent? = some p ∧
    t.Innermost (fun node => node.first < (t.node n).first ∧ (t.node n).last < node.last) p
  at_index : ∀ i, t.Innermost (fun node => node.first ≤ i ∧ i ≤ node.last) (t.nodeAt i)
  around_index : ∀ i, t.Innermost (fun node => node.first < i ∧ i < node.last) (t.enclosingAt i)

theorem indexes_of_ofStream (h : ofStream s = .ok t) : t.Indexes s where
  matched := bijOn_matched h
  opening _ hn := opening_of_inner h hn
  ordered := ordered_nodes h
  children := pairwise_children h
  nested := nested_nodes h
  parent _ hn := innermost_parent h hn
  at_index := innermost_nodeAt h
  around_index := innermost_enclosingAt h

/-- The scan accepts exactly the streams whose delimiters match, and indexes them. -/
theorem ofStream_indexes_brackets (s : Stream) :
    match ofStream s with
    | .ok t => Bracketed s ∧ t.Indexes s
    | .error _ => ¬Bracketed s := by
  have hok := (ofStream_isOk_iff s).trans closes_iff_bracketed
  cases h : ofStream s with
  | ok t => exact ⟨hok.1 ⟨t, h⟩, indexes_of_ofStream h⟩
  | error e =>
      intro hbracketed
      obtain ⟨t, ht⟩ := hok.2 hbracketed
      rw [h] at ht
      cases ht

end ScopeTree

end Datapack.Ir
