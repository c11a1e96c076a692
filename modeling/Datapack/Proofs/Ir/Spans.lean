import Datapack.Proofs.Ir.ScopeTree

/-!
# Regions as intervals

A node of a scope tree records where its region begins and ends.  The main result, `mem_ancestors_iff`,
ties these indices to the nesting: an instruction lies between the delimiters of a region exactly when
the region is its innermost one or around it.  It follows that the two delimiters of a region lie in the
same regions.
-/

namespace Datapack.Ir

/-- The regions an instruction lies in, innermost first; a delimiter lies in its own region. -/
def Position.around (p : Position) (ins : Instruction) : List Nat :=
  if ins.op = .scopeBegin then (p.opened + 1) :: p.stack else p.stack

/-- The innermost open region. -/
def Position.top (p : Position) : Nat := p.stack.headD ScopeTree.root

def isDelimiter (ins : Instruction) : Bool := ins.op = .scopeBegin || ins.op = .scopeEnd

theorem isDelimiter_eq_false {ins : Instruction} :
    isDelimiter ins = false ↔ ins.op ≠ .scopeBegin ∧ ins.op ≠ .scopeEnd := by
  simp [isDelimiter]

theorem Position.advance_plain (p : Position) {ins : Instruction} (h : isDelimiter ins = false) :
    p.advance ins = p :=
  p.advance_other (isDelimiter_eq_false.1 h).1 (isDelimiter_eq_false.1 h).2

theorem Position.owner_plain (p : Position) {ins : Instruction} (h : isDelimiter ins = false) :
    p.owner ins = p.top := by
  rw [owner, if_neg (isDelimiter_eq_false.1 h).1, top]

/-- An instruction with what stands before and behind it. -/
theorem exists_split {s : Stream} {i : Nat} {ins : Instruction} (h : s[i]? = some ins) :
    ∃ pre post, s = pre ++ ins :: post ∧ pre.length = i := by
  obtain ⟨hlt, rfl⟩ := List.getElem?_eq_some_iff.1 h
  refine ⟨s.take i, s.drop (i + 1), ?_, List.length_take_of_le (Nat.le_of_lt hlt)⟩
  rw [List.getElem_cons_drop, List.take_append_drop]

theorem Position.le_opened {p : Position} (hp : ∀ n ∈ p.stack, n ≤ p.opened) (s : Stream) :
    ∀ n ∈ (p.after s).stack, n ≤ (p.after s).opened := by
  induction s generalizing p with
  | nil => exact hp
  | cons ins s ih =>
      apply ih
      rcases ins.delimiter_cases with hop | hop | ⟨hb, he⟩
      · rw [advance_begin p hop]
        intro n hn
        rcases List.mem_cons.1 hn with rfl | hn
        · exact Nat.le_refl _
        · exact Nat.le_succ_of_le (hp n hn)
      · rw [advance_end p hop]
        exact fun n hn => hp n (List.mem_of_mem_tail hn)
      · rw [advance_other p hb he]
        exact hp

/-! ## What a scan leaves behind -/

namespace ScopeTree

variable {i : Nat} {nodes : List ScopeNode} {stack owner : List Nat} {s : Stream} {t : ScopeTree}

/-- The open nodes of a scan, with the global one last. -/
structure Open (nodes : List ScopeNode) (stack : List Nat) : Prop where
  lt : ∀ n ∈ stack, n < nodes.length
  nodup : stack.Nodup

theorem Open.push (h : Open nodes stack) (node : ScopeNode) :
    Open (nodes ++ [node]) (nodes.length :: stack) := by
  constructor
  · intro n hn
    rw [List.length_append, List.length_singleton]
    rcases List.mem_cons.1 hn with rfl | hn
    · omega
    · have := h.lt n hn
      omega
  · refine List.nodup_cons.2 ⟨?_, h.nodup⟩
    intro hmem
    have := h.lt _ hmem
    omega

theorem Open.pop {n : Nat} (h : Open nodes (n :: stack)) (f : ScopeNode → ScopeNode) :
    Open (nodes.modify n f) stack := by
  constructor
  · intro m hm
    rw [List.length_modify]
    exact h.lt m (List.mem_cons_of_mem n hm)
  · exact (List.nodup_cons.1 h.nodup).2

theorem scan_nil (h : scan i nodes stack owner [] = .ok t) : t.nodes = nodes := by
  unfold scan at h
  repeat' split at h
  all_goals simp at h
  all_goals rw [← h]

theorem close_self {n : Nat} {node : ScopeNode} (hn : nodes[n]? = some node) (i : Int) :
    (nodes.modify n fun node => { node with last := i })[n]? = some { node with last := i } := by
  rw [List.getElem?_modify_eq, hn]
  rfl

theorem scan_cons_cases {ins : Instruction} (h : scan i nodes stack owner (ins :: s) = .ok t) :
    (ins.op = .scopeBegin ∧
      scan (i + 1) (nodes ++ [⟨ins.scopeName, ins.scopeKind, i, -1, stack⟩])
        (nodes.length :: stack) (nodes.length :: owner) s = .ok t) ∨
    (ins.op = .scopeEnd ∧ ∃ n m rest, stack = n :: m :: rest ∧
      scan (i + 1) (nodes.modify n fun node => { node with last := i }) (m :: rest)
        (n :: owner) s = .ok t) ∨
    (ins.op ≠ .scopeBegin ∧ ins.op ≠ .scopeEnd ∧
      scan (i + 1) nodes stack (stack.headD root :: owner) s = .ok t) := by
  rcases ins.delimiter_cases with hb | he | ⟨hb, he⟩
  · rw [scan_begin hb] at h
    exact .inl ⟨hb, h⟩
  · match stack with
    | [] => simp [scan, he] at h
    | [_] => simp [scan, he] at h
    | n :: m :: rest =>
        rw [scan_end he] at h
        split at h
        · exact .inr (.inl ⟨he, n, m, rest, rfl, h⟩)
        · simp at h
  · rw [scan_other hb he] at h
    exact .inr (.inr ⟨hb, he, h⟩)

/-- Where a node begins is settled when it opens. -/
theorem scan_first (h : scan i nodes stack owner s = .ok t) {n : Nat} {node : ScopeNode}
    (hn : nodes[n]? = some node) : (t.node n).first = node.first := by
  induction s generalizing i nodes stack owner node with
  | nil =>
      rw [ScopeTree.node, scan_nil h, hn]
      rfl
  | cons ins s ih =>
      have hlt : n < nodes.length := (List.getElem?_eq_some_iff.1 hn).1
      rcases scan_cons_cases h with ⟨-, h⟩ | ⟨-, m, k, rest, -, h⟩ | ⟨-, -, h⟩
      · apply ih h
        rw [List.getElem?_append_left hlt, hn]
      · by_cases hm : n = m
        · subst hm
          rw [ih h (close_self hn i)]
        · apply ih h
          rw [List.getElem?_modify_ne _ _ (Ne.symm hm), hn]
      · exact ih h hn

theorem scan_last (h : scan i nodes stack owner s = .ok t) {n : Nat} {node : ScopeNode}
    (hn : nodes[n]? = some node) (hclosed : n ∉ stack) : (t.node n).last = node.last := by
  induction s generalizing i nodes stack owner with
  | nil =>
      rw [ScopeTree.node, scan_nil h, hn]
      rfl
  | cons ins s ih =>
      have hlt : n < nodes.length := (List.getElem?_eq_some_iff.1 hn).1
      rcases scan_cons_cases h with ⟨-, hscan⟩ | ⟨-, m, k, rest, rfl, hscan⟩ | ⟨-, -, hscan⟩
      · apply ih hscan
        · rw [List.getElem?_append_left hlt, hn]
        · rw [List.mem_cons, not_or]
          exact ⟨by omega, hclosed⟩
      · rw [List.mem_cons, not_or] at hclosed
        apply ih hscan
        · rw [List.getElem?_modify_ne _ _ (Ne.symm hclosed.1), hn]
        · exact hclosed.2
      · exact ih hscan hn hclosed

/-- A node that opens later begins later. -/
theorem scan_first_ge (h : scan i nodes stack owner s = .ok t) {n : Nat} (hn : nodes.length ≤ n)
    (hlt : n < t.nodes.length) : (i : Int) ≤ (t.node n).first := by
  induction s generalizing i nodes stack owner with
  | nil =>
      rw [scan_nil h] at hlt
      omega
  | cons ins s ih =>
      rcases scan_cons_cases h with ⟨-, h⟩ | ⟨-, m, k, rest, -, h⟩ | ⟨-, -, h⟩
      · by_cases hnew : n = nodes.length
        · have hfirst := scan_first h (n := n) (by rw [hnew, List.getElem?_append_right (by omega),
            Nat.sub_self, List.getElem?_cons_zero])
          exact Int.le_of_eq hfirst.symm
        · have hstep := ih h (by rw [List.length_append, List.length_singleton]; omega)
          omega
      · have hstep := ih h (by rw [List.length_modify]; exact hn)
        omega
      · have hstep := ih h hn
        omega

theorem scan_last_ge {front : List Nat} (h : scan i nodes (front ++ [root]) owner s = .ok t)
    (hopen : Open nodes (front ++ [root])) {n : Nat} (hn : n ∈ front) : (i : Int) ≤ (t.node n).last := by
  induction s generalizing i nodes front owner with
  | nil =>
      cases front with
      | nil => exact absurd hn List.not_mem_nil
      | cons m front =>
          have hlt := hopen.lt m (by simp)
          cases front <;> simp [scan, List.getElem?_eq_getElem hlt] at h
  | cons ins s ih =>
      rcases scan_cons_cases h with ⟨-, h⟩ | ⟨-, m, k, rest, hstack, h⟩ | ⟨-, -, h⟩
      · rw [← List.cons_append] at h
        have hstep := ih h (hopen.push _) (List.mem_cons_of_mem _ hn)
        omega
      · cases front with
        | nil => exact absurd hn List.not_mem_nil
        | cons m' front =>
            rw [List.cons_append, List.cons.injEq] at hstack
            obtain ⟨rfl, hrest⟩ := hstack
            rw [← hrest] at h
            rw [List.cons_append] at hopen
            rcases List.mem_cons.1 hn with rfl | hn
            · have hlt := hopen.lt n List.mem_cons_self
              have hclosed := close_self (List.getElem?_eq_getElem hlt) i
              exact Int.le_of_eq (scan_last h hclosed (List.nodup_cons.1 hopen.nodup).1).symm
            · have hstep := ih h (hopen.pop _) hn
              omega
      · have hstep := ih h hopen hn
        omega

/-- While a scan is at index `i`, the open nodes began before and the closed ones ended before. -/
structure Underway (i : Nat) (nodes : List ScopeNode) (stack : List Nat) : Prop extends
    Open nodes stack where
  began : ∀ n ∈ stack, ∀ node, nodes[n]? = some node → node.first < i
  ended : ∀ n, n ∉ stack → ∀ node, nodes[n]? = some node → node.last < i

theorem Underway.push (h : Underway i nodes stack) (name : String) (kind : ScopeKind) :
    Underway (i + 1) (nodes ++ [⟨name, kind, i, -1, stack⟩]) (nodes.length :: stack) := by
  refine ⟨h.toOpen.push _, ?_, ?_⟩
  · intro n hn node hnode
    rcases List.mem_cons.1 hn with rfl | hn
    · rw [List.getElem?_append_right (Nat.le_refl _), Nat.sub_self, List.getElem?_cons_zero,
        Option.some.injEq] at hnode
      rw [← hnode]
      simp only
      omega
    · rw [List.getElem?_append_left (h.lt n hn)] at hnode
      have := h.began n hn node hnode
      omega
  · intro n hn node hnode
    rw [List.mem_cons, not_or] at hn
    have hlt : n < (nodes ++ [_]).length := (List.getElem?_eq_some_iff.1 hnode).1
    rw [List.length_append, List.length_singleton] at hlt
    rw [List.getElem?_append_left (by omega)] at hnode
    have := h.ended n hn.2 node hnode
    omega

theorem Underway.pop {n : Nat} (h : Underway i nodes (n :: stack)) :
    Underway (i + 1) (nodes.modify n fun node => { node with last := i }) stack := by
  have hnotin := (List.nodup_cons.1 h.nodup).1
  refine ⟨h.toOpen.pop _, ?_, ?_⟩
  · intro m hm node hnode
    have hne : m ≠ n := by
      rintro rfl
      exact hnotin hm
    rw [List.getElem?_modify_ne _ _ (Ne.symm hne)] at hnode
    have := h.began m (List.mem_cons_of_mem n hm) node hnode
    omega
  · intro m hm node hnode
    by_cases hne : m = n
    · subst hne
      obtain ⟨old, hold⟩ : ∃ old, nodes[m]? = some old :=
        ⟨_, List.getElem?_eq_getElem (h.lt m List.mem_cons_self)⟩
      rw [close_self hold, Option.some.injEq] at hnode
      rw [← hnode]
      simp only
      omega
    · rw [List.getElem?_modify_ne _ _ (Ne.symm hne)] at hnode
      have hout : m ∉ n :: stack := by
        rw [List.mem_cons, not_or]
        exact ⟨hne, hm⟩
      have := h.ended m hout node hnode
      omega

theorem Underway.skip (h : Underway i nodes stack) : Underway (i + 1) nodes stack := by
  refine ⟨h.toOpen, ?_, ?_⟩
  · intro n hn node hnode
    have := h.began n hn node hnode
    omega
  · intro n hn node hnode
    have := h.ended n hn node hnode
    omega

/-- The next instruction lies in a region exactly when its index lies between the delimiters. -/
theorem mem_around_iff {front : List Nat} {ins : Instruction}
    (h : scan i nodes (front ++ [root]) owner (ins :: s) = .ok t)
    (hunder : Underway i nodes (front ++ [root])) {n : Nat} (hn : n ≠ root) (hlt : n < t.nodes.length) :
    n ∈ Position.around ⟨front ++ [root], nodes.length - 1⟩ ins ↔
      (t.node n).first ≤ i ∧ i ≤ (t.node n).last := by
  have hpos : 0 < nodes.length := Nat.zero_lt_of_lt (hunder.lt root (by simp))
  by_cases hmem : n ∈ front
  · -- an open region began before and ends later
    obtain ⟨node, hnode⟩ : ∃ node, nodes[n]? = some node :=
      ⟨_, List.getElem?_eq_getElem (hunder.lt n (by simp [hmem]))⟩
    have hfirst := scan_first h hnode
    have hbegan := hunder.began n (by simp [hmem]) node hnode
    have hlast := scan_last_ge h hunder.toOpen hmem
    refine ⟨fun _ => ⟨by omega, hlast⟩, fun _ => ?_⟩
    unfold Position.around
    split <;> simp [hmem]
  · have hout : n ∉ front ++ [root] := by simp [hmem, hn]
    by_cases hold : n < nodes.length
    · -- a closed region has ended
      obtain ⟨node, hnode⟩ : ∃ node, nodes[n]? = some node := ⟨_, List.getElem?_eq_getElem hold⟩
      have hlast := scan_last h hnode hout
      have hended := hunder.ended n hout node hnode
      constructor
      · unfold Position.around
        split
        · intro hin
          rcases List.mem_cons.1 hin with hnew | hin
          · simp only at hnew
            omega
          · exact absurd hin hout
        · intro hin
          exact absurd hin hout
      · rintro ⟨-, hle⟩
        omega
    · rcases scan_cons_cases h with ⟨hop, hscan⟩ | ⟨hop, m, k, rest, hstack, hscan⟩ | ⟨hop, -, hscan⟩
      · rw [← List.cons_append] at hscan
        by_cases hnew : n = nodes.length
        · -- the region that opens here
          have hfirst := scan_first hscan (n := n) (by
            rw [hnew, List.getElem?_append_right (Nat.le_refl _), Nat.sub_self, List.getElem?_cons_zero])
          have hlast := scan_last_ge hscan (hunder.toOpen.push _) (n := n) (by simp [hnew])
          refine ⟨fun _ => ⟨Int.le_of_eq hfirst, by omega⟩, fun _ => ?_⟩
          rw [Position.around, if_pos hop]
          simp only [List.mem_cons]
          omega
        · have hfirst := scan_first_ge hscan (n := n)
            (by rw [List.length_append, List.length_singleton]; omega) hlt
          rw [Position.around, if_pos hop]
          simp only [List.mem_cons]
          refine ⟨?_, fun hle => by omega⟩
          rintro (hin | hin)
          · omega
          · exact absurd hin hout
      · have hfirst := scan_first_ge hscan (n := n) (by rw [List.length_modify]; omega) hlt
        rw [Position.around, if_neg (by simp [hop])]
        exact ⟨fun hin => absurd hin hout, fun hle => by omega⟩
      · have hfirst := scan_first_ge hscan (n := n) (by omega) hlt
        rw [Position.around, if_neg hop]
        exact ⟨fun hin => absurd hin hout, fun hle => by omega⟩

/-- Every instruction lies in the regions whose delimiters are around it. -/
theorem mem_around_after_iff {front : List Nat} {pre post : Stream} {ins : Instruction}
    (h : scan i nodes (front ++ [root]) owner (pre ++ ins :: post) = .ok t)
    (hunder : Underway i nodes (front ++ [root])) {n : Nat} (hn : n ≠ root) (hlt : n < t.nodes.length) :
    n ∈ (Position.after ⟨front ++ [root], nodes.length - 1⟩ pre).around ins ↔
      (t.node n).first ≤ (i + pre.length : Nat) ∧ (i + pre.length : Nat) ≤ (t.node n).last := by
  have hpos : 0 < nodes.length := Nat.zero_lt_of_lt (hunder.lt root (by simp))
  induction pre generalizing i nodes front owner with
  | nil => exact mem_around_iff h hunder hn hlt
  | cons a pre ih =>
      have hindex : i + (a :: pre).length = i + 1 + pre.length := by
        rw [List.length_cons]
        omega
      rw [hindex, Position.after_cons]
      rcases scan_cons_cases h with ⟨hop, hscan⟩ | ⟨hop, m, k, rest, hstack, hscan⟩ | ⟨hb, he, hscan⟩
      · rw [← List.cons_append] at hscan
        have hstep := ih hscan (hunder.push _ _) (by simp)
        rw [Position.advance_begin _ hop]
        have hcount : nodes.length - 1 + 1 = nodes.length := by omega
        simpa [hcount] using hstep
      · match front with
        | [] => simp at hstack
        | m' :: front =>
            rw [List.cons_append, List.cons.injEq] at hstack
            obtain ⟨rfl, hrest⟩ := hstack
            rw [← hrest] at hscan
            have hstep := ih hscan hunder.pop (by simpa using hpos)
            rw [Position.advance_end _ hop]
            simpa using hstep
      · have hstep := ih hscan hunder.skip hpos
        rwa [Position.advance_other _ hb he]

/-! ## The surroundings of an instruction -/

theorem closes_after {names : List String} {p : Position} {pre post : Stream}
    (h : closes names (pre ++ post) = true) (hdepth : p.stack.length = names.length + 1) :
    ∃ names', closes names' post = true ∧ (p.after pre).stack.length = names'.length + 1 := by
  induction pre generalizing names p with
  | nil => exact ⟨names, h, hdepth⟩
  | cons ins pre ih =>
      rw [List.cons_append] at h
      rcases ins.delimiter_cases with hop | hop | ⟨hb, he⟩
      · rw [closes_begin hop] at h
        exact ih h (by rw [Position.advance_begin p hop]; simp [hdepth])
      · cases names with
        | nil =>
            rw [closes_end_nil hop] at h
            exact Bool.noConfusion h
        | cons name names =>
            rw [closes_end hop, Bool.and_eq_true] at h
            exact ih h.2 (by rw [Position.advance_end p hop]; simp [hdepth])
      · rw [closes_other hb he] at h
        exact ih h (by rwa [Position.advance_other p hb he])

theorem opened_lt_length_nodes (h : ofStream s = .ok t) {pre post : Stream} {ins : Instruction}
    (hs : s = pre ++ ins :: post) (hop : ins.op = .scopeBegin) :
    (Position.start.after pre).opened + 1 < t.nodes.length := by
  have hle := Position.opened_le_after ((Position.start.after pre).advance ins) post
  rw [length_nodes h, hs, Position.after_append, Position.after_cons]
  rw [Position.advance_begin _ hop] at hle ⊢
  simp only at hle
  omega

/-- The stack of open regions lists a region with the ones around it. -/
theorem stacked_after (h : ofStream s = .ok t) (mid : Stream) {pre post : Stream}
    (hs : s = pre ++ (mid ++ post))
    (hpre : Stacked (t.nodes.map ScopeNode.sig) (Position.start.after pre).stack) :
    Stacked (t.nodes.map ScopeNode.sig) (Position.start.after (pre ++ mid)).stack := by
  induction mid generalizing pre with
  | nil => rwa [List.append_nil]
  | cons ins mid ih =>
      have hassoc : pre ++ ins :: mid = (pre ++ [ins]) ++ mid := by simp
      rw [hassoc]
      apply ih
      · rw [hs]
        simp
      · rw [Position.after_append, Position.after_cons, Position.after_nil]
        rcases ins.delimiter_cases with hop | hop | ⟨hb, he⟩
        · rw [Position.advance_begin _ hop]
          refine ⟨?_, hpre⟩
          have hlt := opened_lt_length_nodes h hs hop
          have hsig := sig_node_begin h hs hop
          rw [node, List.getElem?_eq_getElem hlt] at hsig
          rw [List.getElem?_map, List.getElem?_eq_getElem hlt, Option.map_some, Option.map_some]
          exact congrArg (fun sig => some sig.2.2) hsig
        · rw [Position.advance_end _ hop]
          exact hpre.tail
        · rwa [Position.advance_other _ hb he]

theorem stacked_start (h : ofStream s = .ok t) {pre post : Stream} (hs : s = pre ++ post) :
    Stacked (t.nodes.map ScopeNode.sig) (Position.start.after pre).stack := by
  have hstart : Stacked (t.nodes.map ScopeNode.sig) (Position.start.after []).stack := by
    rw [ofStream_sig h]
    exact ⟨rfl, trivial⟩
  have hstacked := @stacked_after _ _ h pre [] _ hs hstart
  rwa [List.nil_append] at hstacked

theorem ancestors_nodeAt (h : ofStream s = .ok t) {pre post : Stream} {ins : Instruction}
    (hs : s = pre ++ ins :: post) :
    t.ancestors (t.nodeAt pre.length) = (Position.start.after pre).around ins := by
  rw [nodeAt_length h hs, Position.owner, Position.around]
  split
  · rename_i hop
    have hsig := sig_node_begin h hs hop
    rw [ancestors]
    congr 1
    exact congrArg (·.2.2) hsig
  · have hcloses := (ofStream_isOk_iff s).1 ⟨t, h⟩
    have hstacked := stacked_start h hs
    rw [hs] at hcloses
    obtain ⟨names, -, hdepth⟩ := @closes_after [] Position.start pre _ hcloses rfl
    cases hstack : (Position.start.after pre).stack with
    | nil => simp [hstack] at hdepth
    | cons n rest =>
        rw [hstack] at hstacked
        obtain ⟨sig, hsig, houter⟩ := Option.map_eq_some_iff.1 hstacked.1
        rw [List.getElem?_map] at hsig
        obtain ⟨found, hfound, hfoundSig⟩ := Option.map_eq_some_iff.1 hsig
        rw [List.headD_cons, ancestors, node, hfound, ← houter, ← hfoundSig]
        rfl

/-- An instruction lies between the delimiters of a region exactly when the region is its innermost one
or around it. -/
theorem mem_ancestors_iff (h : ofStream s = .ok t) {n i : Nat} (hn : n ≠ root)
    (hlt : n < t.nodes.length) (hi : i < s.length) :
    n ∈ t.ancestors (t.nodeAt i) ↔ (t.node n).first ≤ i ∧ i ≤ (t.node n).last := by
  obtain ⟨pre, post, hs, rfl⟩ := exists_split (List.getElem?_eq_getElem hi)
  have haround := ancestors_nodeAt h hs
  have hunder : Underway 0 [⟨"", .global, -1, s.length, []⟩] ([] ++ [root]) := by
    refine ⟨⟨?_, ?_⟩, ?_, ?_⟩
    · simp [root]
    · simp
    · intro m hm node hnode
      simp only [List.nil_append, List.mem_singleton] at hm
      subst hm
      simp only [root, List.getElem?_cons_zero, Option.some.injEq] at hnode
      rw [← hnode]
      exact Int.negSucc_lt_zero 0
    · intro m hm node hnode
      have hzero : m = 0 := by
        have := (List.getElem?_eq_some_iff.1 hnode).1
        rw [List.length_singleton] at this
        omega
      simp [hzero, root] at hm
  have hscan : scan 0 [⟨"", .global, -1, s.length, []⟩] ([] ++ [root]) [] s = .ok t := h
  rw [hs] at hscan hunder
  have hiff := mem_around_after_iff hscan hunder hn hlt
  rw [Nat.zero_add] at hiff
  rw [haround]
  exact hiff

/-! ## Where regions open -/

theorem scan_first_begin {pre post : Stream} {ins : Instruction}
    (h : scan i nodes stack owner (pre ++ ins :: post) = .ok t) (hop : ins.op = .scopeBegin)
    (p : Position) (hp : nodes.length = p.opened + 1) :
    (t.node ((p.after pre).opened + 1)).first = (i + pre.length : Nat) := by
  induction pre generalizing i nodes stack owner p with
  | nil =>
      rw [List.nil_append, scan_begin hop] at h
      have hfirst := scan_first h (n := nodes.length) (by
        rw [List.getElem?_append_right (Nat.le_refl _), Nat.sub_self, List.getElem?_cons_zero])
      rw [Position.after_nil, ← hp]
      exact hfirst
  | cons a pre ih =>
      have hindex : i + (a :: pre).length = i + 1 + pre.length := by
        rw [List.length_cons]
        omega
      rw [hindex, Position.after_cons]
      rcases scan_cons_cases h with ⟨ha, h⟩ | ⟨ha, n, m, rest, -, h⟩ | ⟨hb, he, h⟩
      · exact ih h _ (by simp [Position.advance_begin p ha, hp])
      · exact ih h _ (by simp [Position.advance_end p ha, hp])
      · exact ih h _ (by rw [Position.advance_other p hb he, hp])

theorem first_begin (h : ofStream s = .ok t) {pre post : Stream} {ins : Instruction}
    (hs : s = pre ++ ins :: post) (hop : ins.op = .scopeBegin) :
    (t.node ((Position.start.after pre).opened + 1)).first = pre.length := by
  rw [hs] at h
  have hfirst := scan_first_begin h hop Position.start rfl
  rwa [Nat.zero_add] at hfirst

theorem exists_begin_after {p : Position} {n : Nat} (hlt : p.opened < n)
    (hle : n ≤ (p.after s).opened) :
    ∃ pre ins post, s = pre ++ ins :: post ∧ ins.op = .scopeBegin ∧ (p.after pre).opened + 1 = n := by
  induction s generalizing p with
  | nil =>
      rw [Position.after_nil] at hle
      omega
  | cons a s ih =>
      rw [Position.after_cons] at hle
      by_cases hstep : (p.advance a).opened < n
      · obtain ⟨pre, ins, post, rfl, hop, hn⟩ := ih hstep hle
        exact ⟨a :: pre, ins, post, rfl, hop, hn⟩
      · rcases a.delimiter_cases with hop | hop | ⟨hb, he⟩
        · rw [Position.advance_begin p hop] at hstep
          simp only at hstep
          exact ⟨[], a, s, rfl, hop, by rw [Position.after_nil]; omega⟩
        · rw [Position.advance_end p hop] at hstep
          exact absurd hlt hstep
        · rw [Position.advance_other p hb he] at hstep
          exact absurd hlt hstep

/-- Every region is opened by a delimiter. -/
theorem exists_begin (h : ofStream s = .ok t) {n : Nat} (hn : n ≠ root) (hlt : n < t.nodes.length) :
    ∃ pre ins post, s = pre ++ ins :: post ∧ ins.op = .scopeBegin ∧
      (Position.start.after pre).opened + 1 = n := by
  refine exists_begin_after (p := .start) (Nat.pos_of_ne_zero hn) ?_
  rw [length_nodes h] at hlt
  omega

/-- The regions that begin before an instruction are those opened so far. -/
theorem first_lt_iff (h : ofStream s = .ok t) {pre post : Stream} (hs : s = pre ++ post) {n : Nat}
    (hn : n ≠ root) (hlt : n < t.nodes.length) :
    (t.node n).first < pre.length ↔ n ≤ (Position.start.after pre).opened := by
  obtain ⟨before, ins, behind, hsplit, hop, rfl⟩ := exists_begin h hn hlt
  rw [first_begin h hsplit hop]
  rcases List.append_eq_append_iff.1 (hs.symm.trans hsplit) with ⟨mid, rfl, hmid⟩ | ⟨mid, rfl, hmid⟩
  · -- the region opens behind `pre`
    have hle := Position.opened_le_after (Position.start.after pre) mid
    rw [← Position.after_append] at hle
    rw [List.length_append]
    omega
  · cases mid with
    | nil =>
        rw [List.append_nil]
        omega
    | cons a mid =>
        rw [List.cons_append, List.cons.injEq] at hmid
        obtain ⟨rfl, -⟩ := hmid
        have hle := Position.opened_le_after ((Position.start.after before).advance ins) mid
        rw [Position.after_append, Position.after_cons, List.length_append, List.length_cons]
        rw [Position.advance_begin _ hop] at hle ⊢
        simp only at hle
        omega

/-! ## Instructions that delimit nothing -/

/-- Nothing but the global region is open behind a balanced stream. -/
theorem length_stack_after (h : ofStream s = .ok t) : (Position.start.after s).stack.length = 1 := by
  have hcloses := (ofStream_isOk_iff s).1 ⟨t, h⟩
  rw [← List.append_nil s] at hcloses
  obtain ⟨names, hnames, hlength⟩ := @closes_after [] Position.start s [] hcloses rfl
  cases names with
  | nil => exact hlength
  | cons name names => simp [closes] at hnames

theorem le_opened_start {pre : Stream} {n : Nat} (hn : n ∈ (Position.start.after pre).stack) :
    n ≤ (Position.start.after pre).opened :=
  Position.le_opened (p := .start) (by simp [Position.start, root]) pre n hn

theorem lt_length_nodes (h : ofStream s = .ok t) {pre post : Stream} (hs : s = pre ++ post) {n : Nat}
    (hn : n ∈ (Position.start.after pre).stack) : n < t.nodes.length := by
  have hle := le_opened_start hn
  have hmono := Position.opened_le_after (Position.start.after pre) post
  rw [length_nodes h, hs, Position.after_append]
  omega

theorem mem_stack_top {p : Position} (h : p.top ≠ root) : p.top ∈ p.stack := by
  unfold Position.top at h ⊢
  cases hstack : p.stack with
  | nil =>
      rw [hstack] at h
      exact absurd rfl h
  | cons n rest => exact List.mem_cons_self

/-- Around the innermost region of an instruction that delimits nothing are the other open ones. -/
theorem ancestors_top (h : ofStream s = .ok t) {pre post : Stream} {ins : Instruction}
    (hs : s = pre ++ ins :: post) (hplain : isDelimiter ins = false) :
    t.ancestors (Position.start.after pre).top = (Position.start.after pre).stack := by
  have haround := ancestors_nodeAt h hs
  rwa [nodeAt_length h hs, Position.owner_plain _ hplain, Position.around,
    if_neg (isDelimiter_eq_false.1 hplain).1] at haround

theorem scan_root {front : List Nat} {node : ScopeNode}
    (h : scan i nodes (front ++ [root]) owner s = .ok t) (hopen : Open nodes (front ++ [root]))
    (hnode : nodes[root]? = some node) : (t.node root).last = node.last := by
  induction s generalizing i nodes front owner with
  | nil =>
      rw [ScopeTree.node, scan_nil h, hnode]
      rfl
  | cons ins s ih =>
      have hlt : root < nodes.length := (List.getElem?_eq_some_iff.1 hnode).1
      rcases scan_cons_cases h with ⟨-, h⟩ | ⟨-, m, k, rest, hstack, h⟩ | ⟨-, -, h⟩
      · rw [← List.cons_append] at h
        exact ih h (hopen.push _) (by rw [List.getElem?_append_left hlt, hnode])
      · cases front with
        | nil => simp at hstack
        | cons m' front =>
            rw [List.cons_append, List.cons.injEq] at hstack
            obtain ⟨rfl, hrest⟩ := hstack
            rw [← hrest] at h
            rw [List.cons_append] at hopen
            have hne : m' ≠ root := by
              rintro rfl
              exact (List.nodup_cons.1 hopen.nodup).1 (by simp)
            exact ih h (hopen.pop _) (by rw [List.getElem?_modify_ne _ _ hne, hnode])
      · exact ih h hopen hnode

/-- An instruction that delimits nothing lies strictly inside its innermost region. -/
theorem contains_plain (h : ofStream s = .ok t) {pre post : Stream} {ins : Instruction}
    (hs : s = pre ++ ins :: post) (hplain : isDelimiter ins = false) :
    (t.node (Position.start.after pre).top).contains pre.length = true := by
  have haround := ancestors_top h hs hplain
  generalize hn : (Position.start.after pre).top = n at *
  rw [ScopeNode.contains, Bool.and_eq_true, decide_eq_true_eq, decide_eq_true_eq]
  by_cases hroot : n = root
  · -- the global region holds every index of the stream
    subst hroot
    have hscan : scan 0 [⟨"", .global, -1, s.length, []⟩] ([] ++ [root]) [] s = .ok t := h
    have hopen : Open [⟨"", .global, -1, s.length, []⟩] ([] ++ [root]) := ⟨by simp [root], by simp⟩
    rw [scan_first hscan rfl, scan_root hscan hopen rfl, hs]
    simp only [List.length_append, List.length_cons]
    omega
  · have hmem : n ∈ (Position.start.after pre).stack := hn ▸ mem_stack_top (hn ▸ hroot)
    have hlt := lt_length_nodes h hs hmem
    have hfirst := (first_lt_iff h hs hroot hlt).2 (le_opened_start hmem)
    refine ⟨hfirst, ?_⟩
    have hstack : (Position.start.after (pre ++ [ins])).stack = (Position.start.after pre).stack := by
      rw [Position.after_append, Position.after_cons, Position.after_nil,
        Position.advance_plain _ hplain]
    cases post with
    | nil =>
        -- the stream ends here, so that nothing is open but the global region
        obtain ⟨q, -, houter⟩ := outer_node h hroot hlt
        have hlength := length_stack_after h
        rw [hs, hstack, ← haround, ancestors, houter] at hlength
        simp at hlength
    | cons a post =>
        -- the region is still open at the next instruction
        have hs' : s = (pre ++ [ins]) ++ a :: post := by simp [hs]
        have haround' := ancestors_nodeAt h hs'
        have hin : n ∈ t.ancestors (t.nodeAt (pre ++ [ins]).length) := by
          rw [haround', Position.around, hstack]
          split
          · exact List.mem_cons_of_mem _ hmem
          · exact hmem
        have hbound : (pre ++ [ins]).length < s.length := by simp [hs]
        have hle := ((mem_ancestors_iff h hroot hlt hbound).1 hin).2
        rw [List.length_append, List.length_singleton] at hle
        omega

theorem enclosingAt_plain (h : ofStream s = .ok t) {pre post : Stream} {ins : Instruction}
    (hs : s = pre ++ ins :: post) (hplain : isDelimiter ins = false) :
    t.enclosingAt pre.length = (Position.start.after pre).top := by
  have hcontains := contains_plain h hs hplain
  rw [ScopeNode.contains, Bool.and_eq_true, decide_eq_true_eq, decide_eq_true_eq] at hcontains
  have hfirst := Int.ne_of_lt hcontains.1
  have hlast := Int.ne_of_gt hcontains.2
  rw [enclosingAt, nodeAt_length h hs, Position.owner_plain _ hplain]
  simp [hfirst, hlast]

theorem nodeAt_plain (h : ofStream s = .ok t) {pre post : Stream} {ins : Instruction}
    (hs : s = pre ++ ins :: post) (hplain : isDelimiter ins = false) :
    t.nodeAt pre.length = t.enclosingAt pre.length := by
  rw [nodeAt_length h hs, Position.owner_plain _ hplain, enclosingAt_plain h hs hplain]

/-! ## What a name leads to -/

theorem mem_of_resolve {n m : Nat} {x : String} (h : t.resolve n x = some m) :
    m ∈ t.ancestors n ∨ ∃ q ∈ t.ancestors n, m ∈ t.children q := by
  unfold resolve at h
  dsimp only at h
  split at h
  · next hfind =>
      obtain rfl := Option.some.inj h
      exact .inl (List.mem_of_find?_eq_some hfind)
  · obtain ⟨q, hq, hfind⟩ := List.exists_of_findSome?_eq_some h
    exact .inr ⟨q, hq, List.mem_of_find?_eq_some hfind⟩

theorem lt_of_resolve (h : ofStream s = .ok t) {pre post : Stream} {ins : Instruction}
    (hs : s = pre ++ ins :: post) (hplain : isDelimiter ins = false) {m : Nat} {x : String}
    (hm : t.resolve (Position.start.after pre).top x = some m) : m < t.nodes.length := by
  rcases mem_of_resolve hm with hmem | ⟨q, -, hmem⟩
  · rw [ancestors_top h hs hplain] at hmem
    exact lt_length_nodes h hs hmem
  · exact (mem_children.1 hmem).1

/-! ## Nesting -/

theorem outer_of_parent (h : ofStream s = .ok t) {n q : Nat} (hq : (t.node n).parent? = some q) :
    q < n ∧ (t.node n).outer = q :: (t.node q).outer := by
  by_cases hroot : n = root
  · rw [hroot, ScopeNode.parent?, outer_root h] at hq
    exact absurd hq (by simp)
  · by_cases hlt : n < t.nodes.length
    · obtain ⟨p, hp, houter⟩ := outer_node h hroot hlt
      rw [ScopeNode.parent?, houter] at hq
      obtain rfl := Option.some.inj hq
      exact ⟨hp, houter⟩
    · rw [node_of_length_le (Nat.le_of_not_lt hlt)] at hq
      exact absurd hq (by simp [ScopeNode.parent?, default, instInhabitedScopeNode.default])

/-- What is around a region that is around another is around that one. -/
theorem outer_subset (h : ofStream s = .ok t) {n q r : Nat} (hq : q ∈ (t.node n).outer)
    (hr : r ∈ (t.node q).outer) : r ∈ (t.node n).outer := by
  induction n using Nat.strongRecOn with
  | ind n ih =>
      cases houter : (t.node n).outer with
      | nil =>
          rw [houter] at hq
          exact absurd hq List.not_mem_nil
      | cons p rest =>
          obtain ⟨hlt, hparent⟩ := outer_of_parent h (n := n) (q := p) (by
            rw [ScopeNode.parent?, houter]
            rfl)
          rw [houter, List.cons.injEq] at hparent
          rw [houter] at hq
          rw [hparent.2] at hq ⊢
          rcases List.mem_cons.1 hq with rfl | hq
          · exact List.mem_cons_of_mem _ hr
          · exact List.mem_cons_of_mem _ (ih p hlt hq)

/-- On the way from a region outwards to another one lies a region directly inside the latter. -/
theorem exists_child (h : ofStream s = .ok t) {n q : Nat} (hlt : q < t.nodes.length)
    (hn : n ∈ (t.node q).outer) : ∃ c ∈ t.children n, c ∈ t.ancestors q := by
  induction q using Nat.strongRecOn with
  | ind q ih =>
      cases hparent : (t.node q).parent? with
      | none =>
          rw [ScopeNode.parent?, List.head?_eq_none_iff] at hparent
          rw [hparent] at hn
          exact absurd hn List.not_mem_nil
      | some p =>
          obtain ⟨hp, houter⟩ := outer_of_parent h hparent
          rw [houter] at hn
          rcases List.mem_cons.1 hn with rfl | hn
          · exact ⟨q, mem_children.2 ⟨hlt, hparent⟩, List.mem_cons_self⟩
          · obtain ⟨c, hc, hmem⟩ := ih p hp (Nat.lt_trans hp hlt) hn
            refine ⟨c, hc, List.mem_cons_of_mem q ?_⟩
            rwa [houter]

/-- A region that is open has fewer regions around it than there are open ones. -/
theorem length_outer_lt {stack : List Nat} (h : Stacked (t.nodes.map ScopeNode.sig) stack) {q : Nat}
    (hq : q ∈ stack) : (t.node q).outer.length < stack.length := by
  induction stack with
  | nil => exact absurd hq List.not_mem_nil
  | cons n rest ih =>
      rcases List.mem_cons.1 hq with rfl | hq
      · obtain ⟨sig, hsig, houter⟩ := Option.map_eq_some_iff.1 h.1
        rw [List.getElem?_map] at hsig
        obtain ⟨found, hfound, rfl⟩ := Option.map_eq_some_iff.1 hsig
        rw [node, hfound, Option.getD_some, List.length_cons, ← houter]
        exact Nat.lt_succ_self _
      · exact Nat.lt_succ_of_lt (ih h.2 hq)

theorem length_stack (h : ofStream s = .ok t) {pre post : Stream} (hs : s = pre ++ post) :
    (Position.start.after pre).stack.length =
      (t.node (Position.start.after pre).top).outer.length + 1 := by
  have hcloses := (ofStream_isOk_iff s).1 ⟨t, h⟩
  rw [hs] at hcloses
  obtain ⟨names, -, hdepth⟩ := @closes_after [] Position.start pre _ hcloses rfl
  have hstacked := stacked_start h hs
  unfold Position.top
  cases hstack : (Position.start.after pre).stack with
  | nil => simp [hstack] at hdepth
  | cons n rest =>
      rw [hstack] at hstacked
      obtain ⟨sig, hsig, houter⟩ := Option.map_eq_some_iff.1 hstacked.1
      rw [List.getElem?_map] at hsig
      obtain ⟨found, hfound, rfl⟩ := Option.map_eq_some_iff.1 hsig
      rw [List.headD_cons, node, hfound, Option.getD_some, List.length_cons, ← houter]
      rfl

end ScopeTree

end Datapack.Ir
