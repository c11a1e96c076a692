import Datapack.Ir.ScopeTree

/-!
# The tree of a stream

What `ScopeTree.ofStream` builds, said without its stack of nodes.  A `Position` is what the scan
knows at a point of the stream: the open regions and the number of regions opened so far.  The
`outline` of a stream lists the name, kind and surroundings of every region in the order in which
they open, and the tree has exactly these nodes.  Nothing but the delimiters matters for any of it.
-/

namespace Datapack.Ir

/-- The open regions, innermost first, and the number of regions opened, at a point of a stream. -/
structure Position where
  stack : List Nat
  opened : Nat

namespace Position

/-- The position before the first instruction. -/
def start : Position := ⟨[ScopeTree.root], 0⟩

/-- The position behind an instruction. -/
def advance (p : Position) (ins : Instruction) : Position :=
  match ins.op with
  | .scopeBegin => ⟨(p.opened + 1) :: p.stack, p.opened + 1⟩
  | .scopeEnd => ⟨p.stack.tail, p.opened⟩
  | _ => p

def after (p : Position) (s : Stream) : Position := s.foldl advance p

/-- The innermost region of an instruction; delimiters belong to the region they delimit. -/
def owner (p : Position) (ins : Instruction) : Nat :=
  if ins.op = .scopeBegin then p.opened + 1 else p.stack.headD ScopeTree.root

@[simp] theorem after_nil (p : Position) : p.after [] = p := rfl

@[simp] theorem after_cons (p : Position) (ins : Instruction) (s : Stream) :
    p.after (ins :: s) = (p.advance ins).after s := rfl

theorem after_append (p : Position) (s t : Stream) : p.after (s ++ t) = (p.after s).after t := by
  simp [after, List.foldl_append]

theorem advance_begin (p : Position) {ins : Instruction} (h : ins.op = .scopeBegin) :
    p.advance ins = ⟨(p.opened + 1) :: p.stack, p.opened + 1⟩ := by
  simp [advance, h]

theorem advance_end (p : Position) {ins : Instruction} (h : ins.op = .scopeEnd) :
    p.advance ins = ⟨p.stack.tail, p.opened⟩ := by
  simp [advance, h]

theorem advance_other (p : Position) {ins : Instruction} (hb : ins.op ≠ .scopeBegin)
    (he : ins.op ≠ .scopeEnd) : p.advance ins = p := by
  unfold advance
  split <;> simp_all

theorem opened_le_advance (p : Position) (ins : Instruction) :
    p.opened ≤ (p.advance ins).opened := by
  unfold advance
  split <;> simp

theorem opened_le_after (p : Position) (s : Stream) : p.opened ≤ (p.after s).opened := by
  induction s generalizing p with
  | nil => exact Nat.le_refl _
  | cons ins s ih => exact Nat.le_trans (opened_le_advance p ins) (ih _)

end Position

namespace ScopeNode

/-- What a node keeps of its opening delimiter and the regions open there. -/
def sig (n : ScopeNode) : String × ScopeKind × List Nat := (n.name, n.kind, n.outer)

end ScopeNode

/-- The regions of a stream in the order in which they open. -/
def outline (p : Position) : Stream → List (String × ScopeKind × List Nat)
  | [] => []
  | ins :: rest =>
    if ins.op = .scopeBegin then
      (ins.scopeName, ins.scopeKind, p.stack) :: outline (p.advance ins) rest
    else outline (p.advance ins) rest

/-- The innermost region of every instruction. -/
def owners (p : Position) : Stream → List Nat
  | [] => []
  | ins :: rest => p.owner ins :: owners (p.advance ins) rest

/-- Whether the delimiters of a stream close the regions of the given names, innermost first, and all
that it opens itself. -/
def closes : List String → Stream → Bool
  | names, [] => names.isEmpty
  | names, ins :: rest =>
    match ins.op, names with
    | .scopeBegin, names => closes (ins.scopeName :: names) rest
    | .scopeEnd, name :: names => name = ins.scopeName && closes names rest
    | .scopeEnd, [] => false
    | _, names => closes names rest

section

attribute [local simp] closes

theorem closes_begin {ins : Instruction} (h : ins.op = .scopeBegin) (names : List String)
    (rest : Stream) : closes names (ins :: rest) = closes (ins.scopeName :: names) rest := by
  cases names <;> simp [h]

theorem closes_end {ins : Instruction} (h : ins.op = .scopeEnd) (name : String)
    (names : List String) (rest : Stream) :
    closes (name :: names) (ins :: rest) = (decide (name = ins.scopeName) && closes names rest) := by
  simp [h]

theorem closes_end_nil {ins : Instruction} (h : ins.op = .scopeEnd) (rest : Stream) :
    closes [] (ins :: rest) = false := by
  simp [h]

theorem closes_other {ins : Instruction} (hb : ins.op ≠ .scopeBegin) (he : ins.op ≠ .scopeEnd)
    (names : List String) (rest : Stream) : closes names (ins :: rest) = closes names rest := by
  cases hop : ins.op <;> cases names <;> simp_all

end

/-- The kinds of instruction a scan distinguishes. -/
theorem Instruction.delimiter_cases (ins : Instruction) :
    ins.op = .scopeBegin ∨ ins.op = .scopeEnd ∨ (ins.op ≠ .scopeBegin ∧ ins.op ≠ .scopeEnd) := by
  by_cases hb : ins.op = .scopeBegin
  · exact .inl hb
  · by_cases he : ins.op = .scopeEnd
    · exact .inr (.inl he)
    · exact .inr (.inr ⟨hb, he⟩)

namespace ScopeTree

section

attribute [local simp] scan

theorem scan_begin {ins : Instruction} (h : ins.op = .scopeBegin) (i : Nat)
    (nodes : List ScopeNode) (stack owner : List Nat) (rest : Stream) :
    scan i nodes stack owner (ins :: rest) =
      scan (i + 1) (nodes ++ [⟨ins.scopeName, ins.scopeKind, i, -1, stack⟩])
        (nodes.length :: stack) (nodes.length :: owner) rest := by
  simp [h]

theorem scan_end {ins : Instruction} (h : ins.op = .scopeEnd) (i : Nat)
    (nodes : List ScopeNode) (n m : Nat) (stack owner : List Nat) (rest : Stream) :
    scan i nodes (n :: m :: stack) owner (ins :: rest) =
      if (nodes[n]?.map ScopeNode.name).getD "" = ins.scopeName then
        scan (i + 1) (nodes.modify n fun node => { node with last := i }) (m :: stack)
          (n :: owner) rest
      else
        .error (.crossed ins.scopeName i ((nodes[n]?.map ScopeNode.name).getD "")) := by
  simp [h]

theorem scan_other {ins : Instruction} (hb : ins.op ≠ .scopeBegin) (he : ins.op ≠ .scopeEnd)
    (i : Nat) (nodes : List ScopeNode) (stack owner : List Nat) (rest : Stream) :
    scan i nodes stack owner (ins :: rest) =
      scan (i + 1) nodes stack (stack.headD root :: owner) rest := by
  cases hop : ins.op <;> simp_all

end

theorem map_sig_modify_last (nodes : List ScopeNode) (n : Nat) (i : Int) :
    (nodes.modify n fun node => { node with last := i }).map ScopeNode.sig =
      nodes.map ScopeNode.sig := by
  apply List.ext_getElem?
  intro k
  simp only [List.getElem?_map, List.getElem?_modify]
  cases nodes[k]? with
  | none => rfl
  | some node => by_cases h : n = k <;> simp [h, ScopeNode.sig]

/-- A finished scan has added the outline of what it read, and the owners of its instructions. -/
theorem scan_eq_ok (opened : Nat) {i : Nat} {nodes : List ScopeNode} {stack owner : List Nat}
    {s : Stream} {t : ScopeTree} (h : scan i nodes stack owner s = .ok t)
    (hlen : nodes.length = opened + 1) :
    t.nodes.map ScopeNode.sig = nodes.map ScopeNode.sig ++ outline ⟨stack, opened⟩ s ∧
      t.owner = owner.reverse ++ owners ⟨stack, opened⟩ s := by
  induction s generalizing i nodes stack owner opened with
  | nil =>
      have hnodes : t = ⟨nodes, owner.reverse⟩ := by
        unfold scan at h
        repeat' split at h
        all_goals simp at h
        all_goals exact h.symm
      subst hnodes
      simp [outline, owners]
  | cons ins rest ih =>
      rcases ins.delimiter_cases with hb | he | ⟨hb, he⟩
      · rw [scan_begin hb] at h
        obtain ⟨hn, ho⟩ := ih (opened + 1) h (by simp [hlen])
        rw [outline, if_pos hb, owners, Position.owner, if_pos hb, Position.advance_begin _ hb]
        simp only [hlen] at hn ho ⊢
        refine ⟨?_, ?_⟩
        · rw [hn]
          simp [ScopeNode.sig]
        · rw [ho]
          simp
      · match stack with
        | [] => simp [scan, he] at h
        | [_] => simp [scan, he] at h
        | n :: m :: stack =>
            rw [scan_end he] at h
            split at h
            · obtain ⟨hn, ho⟩ := ih opened h (by simpa using hlen)
              have hb : ins.op ≠ .scopeBegin := by simp [he]
              rw [outline, if_neg hb, owners, Position.owner, if_neg hb, Position.advance_end _ he]
              rw [map_sig_modify_last] at hn
              refine ⟨by simpa using hn, ?_⟩
              rw [ho]
              simp
            · simp at h
      · rw [scan_other hb he] at h
        obtain ⟨hn, ho⟩ := ih opened h hlen
        rw [outline, if_neg hb, owners, Position.owner, if_neg hb, Position.advance_other _ hb he]
        refine ⟨hn, ?_⟩
        rw [ho]
        simp

theorem map_name_modify_last (nodes : List ScopeNode) (n k : Nat) (i : Int) :
    ((nodes.modify n fun node => { node with last := i })[k]?.map ScopeNode.name).getD "" =
      (nodes[k]?.map ScopeNode.name).getD "" := by
  rw [List.getElem?_modify]
  cases nodes[k]? with
  | none => rfl
  | some node => by_cases h : n = k <;> simp [h]

/-- Scanning succeeds exactly when the delimiters close what is open. -/
theorem scan_isOk_iff (i : Nat) (nodes : List ScopeNode) (stack : List Nat) (owner : List Nat)
    (s : Stream) (hstack : ∀ n ∈ stack, n < nodes.length) :
    (∃ t, scan i nodes (stack ++ [root]) owner s = .ok t) ↔
      closes (stack.map fun n => (nodes[n]?.map ScopeNode.name).getD "") s = true := by
  induction s generalizing i nodes stack owner with
  | nil =>
      match stack with
      | [] => simp [scan, closes]
      | n :: stack =>
          have hn : n < nodes.length := hstack n (by simp)
          cases stack <;> simp [scan, closes, List.getElem?_eq_getElem hn]
  | cons ins rest ih =>
      rcases ins.delimiter_cases with hb | he | ⟨hb, he⟩
      · rw [scan_begin hb, closes_begin hb]
        let node : ScopeNode := ⟨ins.scopeName, ins.scopeKind, i, -1, stack ++ [root]⟩
        have hinner : ∀ n ∈ nodes.length :: stack, n < (nodes ++ [node]).length := by
          intro n hn
          rcases List.mem_cons.1 hn with rfl | hn
          · simp
          · have := hstack n hn
            simp
            omega
        have hstep := ih (i + 1) (nodes ++ [node]) (nodes.length :: stack)
          (nodes.length :: owner) hinner
        rw [List.cons_append] at hstep
        rw [hstep]
        have hnames : (stack.map fun n => ((nodes ++ [node])[n]?.map ScopeNode.name).getD "") =
            stack.map fun n => (nodes[n]?.map ScopeNode.name).getD "" := by
          apply List.map_congr_left
          intro n hn
          rw [List.getElem?_append_left (hstack n hn)]
        simp only [List.map_cons, hnames]
        simp [node]
      · match stack with
        | [] => simp [scan, closes, he]
        | [n] =>
            rw [show [n] ++ [root] = n :: root :: [] from rfl, scan_end he, List.map_cons,
              closes_end he]
            have hstep := ih (i + 1) (nodes.modify n fun node => { node with last := i }) []
              (n :: owner) (by simp)
            by_cases hname : (nodes[n]?.map ScopeNode.name).getD "" = ins.scopeName
            · simpa [hname] using hstep
            · simp [hname]
        | n :: m :: stack =>
            rw [show (n :: m :: stack) ++ [root] = n :: m :: (stack ++ [root]) from rfl,
              scan_end he, List.map_cons, closes_end he]
            have hstep := ih (i + 1) (nodes.modify n fun node => { node with last := i })
              (m :: stack) (n :: owner) (by
                intro k hk
                simpa using hstack k (List.mem_cons_of_mem n hk))
            simp only [map_name_modify_last] at hstep
            by_cases hname : (nodes[n]?.map ScopeNode.name).getD "" = ins.scopeName
            · simpa [hname] using hstep
            · simp [hname]
      · rw [scan_other hb he, closes_other hb he]
        exact ih _ _ _ _ hstack

theorem ofStream_isOk_iff (s : Stream) : (∃ t, ofStream s = .ok t) ↔ closes [] s = true :=
  scan_isOk_iff 0 _ [] [] s (by simp)

theorem ofStream_sig {s : Stream} {t : ScopeTree} (h : ofStream s = .ok t) :
    t.nodes.map ScopeNode.sig = ("", .global, []) :: outline Position.start s :=
  (scan_eq_ok 0 h rfl).1

theorem ofStream_owner {s : Stream} {t : ScopeTree} (h : ofStream s = .ok t) :
    t.owner = owners Position.start s :=
  (scan_eq_ok 0 h rfl).2

end ScopeTree

/-! ## Regions by their place in the stream -/

def regionNames (s : Stream) : List String :=
  (s.filter fun ins => ins.op = .scopeBegin).map Instruction.scopeName

@[simp] theorem regionNames_nil : regionNames [] = [] := rfl

theorem regionNames_append (s t : Stream) : regionNames (s ++ t) = regionNames s ++ regionNames t := by
  simp [regionNames]

theorem regionNames_cons_begin {ins : Instruction} (h : ins.op = .scopeBegin) (s : Stream) :
    regionNames (ins :: s) = ins.scopeName :: regionNames s := by
  simp [regionNames, h]

theorem regionNames_cons_other {ins : Instruction} (h : ins.op ≠ .scopeBegin) (s : Stream) :
    regionNames (ins :: s) = regionNames s := by
  simp [regionNames, h]

theorem outline_append (p : Position) (s t : Stream) :
    outline p (s ++ t) = outline p s ++ outline (p.after s) t := by
  induction s generalizing p with
  | nil => rfl
  | cons ins s ih =>
      by_cases hb : ins.op = .scopeBegin
      · simp [outline, hb, ih]
      · simp [outline, hb, ih]

theorem length_outline (p : Position) (s : Stream) :
    p.opened + (outline p s).length = (p.after s).opened := by
  induction s generalizing p with
  | nil => rfl
  | cons ins s ih =>
      have step := ih (p.advance ins)
      rcases ins.delimiter_cases with hb | he | ⟨hb, he⟩
      · rw [Position.advance_begin _ hb] at step
        simp only [outline, if_pos hb, Position.after_cons, Position.advance_begin _ hb,
          List.length_cons]
        simp only at step
        omega
      · rw [Position.advance_end _ he] at step
        simpa [outline, he, Position.advance_end _ he] using step
      · rw [Position.advance_other _ hb he] at step
        simpa [outline, hb, Position.advance_other _ hb he] using step

theorem map_fst_outline (p : Position) (s : Stream) :
    (outline p s).map Prod.fst = regionNames s := by
  induction s generalizing p with
  | nil => rfl
  | cons ins s ih =>
      by_cases hb : ins.op = .scopeBegin
      · simp [outline, hb, ih, regionNames_cons_begin hb]
      · simp [outline, hb, ih, regionNames_cons_other hb]

theorem owners_append (p : Position) (s t : Stream) :
    owners p (s ++ t) = owners p s ++ owners (p.after s) t := by
  induction s generalizing p with
  | nil => rfl
  | cons ins s ih => simp [owners, ih]

@[simp] theorem length_owners (p : Position) (s : Stream) : (owners p s).length = s.length := by
  induction s generalizing p with
  | nil => rfl
  | cons ins s ih => simp [owners, ih]

namespace ScopeTree

variable {s : Stream} {t : ScopeTree}

theorem length_nodes (h : ofStream s = .ok t) :
    t.nodes.length = (Position.start.after s).opened + 1 := by
  have hlen := congrArg List.length (ofStream_sig h)
  have hout := length_outline Position.start s
  simp only [List.length_map, List.length_cons] at hlen
  simp only [Position.start] at hlen hout ⊢
  omega

theorem sig_node_succ (h : ofStream s = .ok t) {k : Nat} {sig : String × ScopeKind × List Nat}
    (hk : (outline Position.start s)[k]? = some sig) : (t.node (k + 1)).sig = sig := by
  have hget : (t.nodes.map ScopeNode.sig)[k + 1]? = some sig := by
    rw [ofStream_sig h, List.getElem?_cons_succ, hk]
  rw [List.getElem?_map] at hget
  obtain ⟨found, hfound, hsig⟩ := Option.map_eq_some_iff.1 hget
  simp [node, hfound, hsig]

theorem sig_node_begin (h : ofStream s = .ok t) {pre post : Stream} {ins : Instruction}
    (hs : s = pre ++ ins :: post) (hb : ins.op = .scopeBegin) :
    (t.node ((Position.start.after pre).opened + 1)).sig =
      (ins.scopeName, ins.scopeKind, (Position.start.after pre).stack) := by
  apply sig_node_succ h
  have hlen := length_outline Position.start pre
  have hzero : Position.start.opened = 0 := rfl
  rw [hs, outline_append, List.getElem?_append_right (by omega)]
  rw [show (Position.start.after pre).opened - (outline Position.start pre).length = 0 by omega]
  simp [outline, hb]

/-- The innermost region of an instruction, read off its place in the stream. -/
theorem nodeAt_length (h : ofStream s = .ok t) {pre post : Stream} {ins : Instruction}
    (hs : s = pre ++ ins :: post) :
    t.nodeAt pre.length = (Position.start.after pre).owner ins := by
  have hget : t.owner[pre.length]? = some ((Position.start.after pre).owner ins) := by
    rw [ofStream_owner h, hs, owners_append, List.getElem?_append_right (by simp)]
    simp [owners]
  have hneg : ¬(pre.length : Int) < 0 := by omega
  simp [nodeAt, hget, hneg]

theorem node_of_length_le {n : Nat} (h : t.nodes.length ≤ n) : t.node n = default := by
  simp [node, List.getElem?_eq_none h]

/-- The regions of a tree have the names of the stream, in order. -/
theorem regionNames_getElem? (h : ofStream s = .ok t) {n : Nat} (hn : n ≠ root)
    (hlt : n < t.nodes.length) : (regionNames s)[n - 1]? = some (t.node n).name := by
  obtain ⟨k, rfl⟩ := Nat.exists_eq_succ_of_ne_zero hn
  have hmap := congrArg (List.map Prod.fst) (ofStream_sig h)
  rw [List.map_map, List.map_cons, map_fst_outline] at hmap
  have hget := congrArg (·[k + 1]?) hmap
  simp only [List.getElem?_cons_succ, List.getElem?_map] at hget
  simp only [Nat.succ_eq_add_one, Nat.add_sub_cancel]
  rw [← hget, node, List.getElem?_eq_getElem hlt]
  rfl

/-- Where names are distinct, a name belongs to one region. -/
theorem eq_of_name_eq (h : ofStream s = .ok t) (hnodup : (regionNames s).Nodup) {a k : Nat}
    (ha : a ≠ root) (hk : k ≠ root) (hne : (t.node k).name ≠ "")
    (hname : (t.node a).name = (t.node k).name) : a = k := by
  have hlt : ∀ n, (t.node n).name ≠ "" → n < t.nodes.length := by
    intro n hn
    by_cases hle : t.nodes.length ≤ n
    · rw [node_of_length_le hle] at hn
      exact absurd rfl hn
    · omega
  have hnames : t.nodes.map ScopeNode.name = "" :: regionNames s := by
    have hmap := congrArg (List.map Prod.fst) (ofStream_sig h)
    rw [List.map_map, List.map_cons, map_fst_outline] at hmap
    exact hmap
  have hget : ∀ n, n < t.nodes.length → n ≠ root → (regionNames s)[n - 1]? = some (t.node n).name := by
    intro n hn hroot
    have hn' : (t.nodes.map ScopeNode.name)[n]? = some (t.node n).name := by
      rw [List.getElem?_map, node, List.getElem?_eq_getElem hn]
      rfl
    obtain ⟨m, rfl⟩ := Nat.exists_eq_succ_of_ne_zero hroot
    rwa [hnames, Nat.succ_eq_add_one, List.getElem?_cons_succ] at hn'
  have hka := hget k (hlt k hne) hk
  have haa := hget a (hlt a (hname ▸ hne)) ha
  rw [hname, ← hka] at haa
  have hlen : k - 1 < (regionNames s).length := (List.getElem?_eq_some_iff.1 hka).1
  have := (List.getElem?_inj hlen hnodup).1 haa.symm
  simp only [root] at ha hk
  omega

theorem mem_children {n c : Nat} :
    c ∈ t.children n ↔ c < t.nodes.length ∧ (t.node c).parent? = some n := by
  simp [children]

/-- Nothing is around the global region. -/
theorem outer_root (h : ofStream s = .ok t) : (t.node root).outer = [] := by
  have hsig := congrArg (·[0]?) (ofStream_sig h)
  simp only [List.getElem?_map, List.getElem?_cons_zero] at hsig
  obtain ⟨r, hr, hrsig⟩ := Option.map_eq_some_iff.1 hsig
  have houter : r.outer = [] := by simpa [ScopeNode.sig] using congrArg (·.2.2) hrsig
  simp [node, root, hr, houter]

theorem name_of_resolve (h : ofStream s = .ok t) {n k : Nat} {x : String}
    (hk : t.resolve n x = some k) : k ≠ root ∧ (t.node k).name = x := by
  unfold resolve at hk
  simp only at hk
  split at hk
  · rename_i m hfind
    have hm := List.find?_some hfind
    simp only [Bool.and_eq_true, decide_eq_true_eq, ne_eq] at hm
    rw [← Option.some.inj hk]
    exact hm
  · obtain ⟨m, -, hfind⟩ := List.exists_of_findSome?_eq_some hk
    have hname := List.find?_some hfind
    have hmem := mem_children.1 (List.mem_of_find?_eq_some hfind)
    simp only [decide_eq_true_eq] at hname
    refine ⟨?_, hname⟩
    rintro rfl
    simp [ScopeNode.parent?, outer_root h] at hmem

/-- Where names are distinct, a name that is visible leads to its region. -/
theorem resolve_eq_some (h : ofStream s = .ok t) (hnodup : (regionNames s).Nodup) {n k : Nat}
    (hk : k ≠ root) (hne : (t.node k).name ≠ "")
    (hvis : k ∈ t.ancestors n ∨ ∃ p ∈ t.ancestors n, (t.node k).parent? = some p) :
    t.resolve n (t.node k).name = some k := by
  have hlt : k < t.nodes.length := by
    by_cases hle : t.nodes.length ≤ k
    · rw [node_of_length_le hle] at hne
      exact absurd rfl hne
    · omega
  have hroot : (t.node root).parent? = none := by simp [ScopeNode.parent?, outer_root h]
  unfold resolve
  simp only
  cases hfind : (t.ancestors n).find? fun m => m ≠ root && (t.node m).name = (t.node k).name with
  | some m =>
      have hm := List.find?_some hfind
      simp only [ne_eq, Bool.and_eq_true, decide_eq_true_eq] at hm
      rw [eq_of_name_eq h hnodup hm.1 hk hne hm.2]
  | none =>
      have hanc : k ∉ t.ancestors n := by
        intro hmem
        have := List.find?_eq_none.1 hfind k hmem
        simp [hk] at this
      obtain ⟨p, hp, hparent⟩ := hvis.resolve_left hanc
      have hchild : ∀ m c, (t.children m).find? (fun c => (t.node c).name = (t.node k).name) = some c →
          c = k := by
        intro m c hc
        have hmem := mem_children.1 (List.mem_of_find?_eq_some hc)
        have hname := List.find?_some hc
        simp only [decide_eq_true_eq] at hname
        refine eq_of_name_eq h hnodup ?_ hk hne hname
        rintro rfl
        rw [hroot] at hmem
        simp at hmem
      cases hsome : (t.ancestors n).findSome? fun m =>
          (t.children m).find? fun c => (t.node c).name = (t.node k).name with
      | some c =>
          obtain ⟨m, _, hc⟩ := List.exists_of_findSome?_eq_some hsome
          rw [hchild m c hc]
      | none =>
          have hnone := List.findSome?_eq_none_iff.1 hsome p hp
          have := List.find?_eq_none.1 hnone k (mem_children.2 ⟨hlt, hparent⟩)
          simp at this

/-! ## Streams with the same delimiters -/

/-- Two trees whose regions have the same names, kinds and surroundings. -/
def Alike (u t : ScopeTree) : Prop := u.nodes.map ScopeNode.sig = t.nodes.map ScopeNode.sig

namespace Alike

variable {u t : ScopeTree}

theorem sig_node (h : Alike u t) (n : Nat) : (u.node n).sig = (t.node n).sig := by
  have hn := congrArg (·[n]?) h
  simp only [List.getElem?_map] at hn
  unfold node
  cases hu : u.nodes[n]? <;> cases ht : t.nodes[n]? <;> simp_all

theorem name (h : Alike u t) (n : Nat) : (u.node n).name = (t.node n).name :=
  congrArg Prod.fst (h.sig_node n)

theorem kind (h : Alike u t) (n : Nat) : (u.node n).kind = (t.node n).kind :=
  congrArg (·.2.1) (h.sig_node n)

theorem outer (h : Alike u t) (n : Nat) : (u.node n).outer = (t.node n).outer :=
  congrArg (·.2.2) (h.sig_node n)

theorem ancestors (h : Alike u t) (n : Nat) : u.ancestors n = t.ancestors n := by
  rw [ScopeTree.ancestors, ScopeTree.ancestors, h.outer]

theorem isAncestor (h : Alike u t) (n m : Nat) : u.isAncestor n m = t.isAncestor n m := by
  rw [ScopeTree.isAncestor, ScopeTree.isAncestor, h.ancestors]

theorem length_nodes (h : Alike u t) : u.nodes.length = t.nodes.length := by
  simpa using congrArg List.length h

theorem inner (h : Alike u t) : u.inner = t.inner := by
  rw [ScopeTree.inner, ScopeTree.inner, h.length_nodes]

theorem children (h : Alike u t) (n : Nat) : u.children n = t.children n := by
  rw [ScopeTree.children, ScopeTree.children, h.length_nodes]
  refine List.filter_congr fun m _ => decide_eq_decide.2 ?_
  rw [ScopeNode.parent?, ScopeNode.parent?, h.outer]

theorem resolve (h : Alike u t) (n : Nat) (name : String) : u.resolve n name = t.resolve n name := by
  simp only [ScopeTree.resolve, h.ancestors, h.children, h.name]

end Alike

end ScopeTree

def delimiters (s : Stream) : Stream :=
  s.filter fun ins => ins.op = .scopeBegin || ins.op = .scopeEnd

theorem delimiters_append (s t : Stream) : delimiters (s ++ t) = delimiters s ++ delimiters t := by
  simp [delimiters]

theorem delimiters_cons_other {ins : Instruction} (hb : ins.op ≠ .scopeBegin)
    (he : ins.op ≠ .scopeEnd) (s : Stream) : delimiters (ins :: s) = delimiters s := by
  simp [delimiters, hb, he]

theorem outline_delimiters (p : Position) (s : Stream) : outline p (delimiters s) = outline p s := by
  induction s generalizing p with
  | nil => rfl
  | cons ins s ih =>
      rcases ins.delimiter_cases with h | h | ⟨hb, he⟩
      · simp only [delimiters, List.filter_cons, h, decide_true, Bool.true_or, if_true, outline]
        rw [← ih (p.advance ins)]
        rfl
      · simp only [delimiters, List.filter_cons, h, decide_true, Bool.or_true, if_true, outline]
        simp only [reduceCtorEq, if_false]
        rw [← ih (p.advance ins)]
        rfl
      · rw [delimiters_cons_other hb he, ih, outline, if_neg hb, Position.advance_other p hb he]

theorem closes_delimiters (names : List String) (s : Stream) :
    closes names (delimiters s) = closes names s := by
  induction s generalizing names with
  | nil => rfl
  | cons ins s ih =>
      rcases ins.delimiter_cases with h | h | ⟨hb, he⟩
      · have hcons : delimiters (ins :: s) = ins :: delimiters s := by simp [delimiters, h]
        rw [hcons, closes_begin h, closes_begin h, ih]
      · have hcons : delimiters (ins :: s) = ins :: delimiters s := by simp [delimiters, h]
        rw [hcons]
        cases names with
        | nil => rw [closes_end_nil h, closes_end_nil h]
        | cons name names => rw [closes_end h, closes_end h, ih]
      · rw [delimiters_cons_other hb he, ih, closes_other hb he]

theorem after_delimiters (p : Position) (s : Stream) : p.after (delimiters s) = p.after s := by
  induction s generalizing p with
  | nil => rfl
  | cons ins s ih =>
      rcases ins.delimiter_cases with h | h | ⟨hb, he⟩
      · have hcons : delimiters (ins :: s) = ins :: delimiters s := by simp [delimiters, h]
        rw [hcons, Position.after_cons, Position.after_cons, ih]
      · have hcons : delimiters (ins :: s) = ins :: delimiters s := by simp [delimiters, h]
        rw [hcons, Position.after_cons, Position.after_cons, ih]
      · rw [delimiters_cons_other hb he, ih, Position.after_cons, Position.advance_other p hb he]

theorem ScopeTree.alike_of_delimiters {s s' : Stream} {t : ScopeTree} (h : ofStream s = .ok t)
    (hd : delimiters s' = delimiters s) : ∃ u, ofStream s' = .ok u ∧ Alike u t := by
  have hcloses : closes [] s' = true := by
    rw [← closes_delimiters, hd, closes_delimiters]
    exact (ofStream_isOk_iff s).1 ⟨t, h⟩
  obtain ⟨u, hu⟩ := (ofStream_isOk_iff s').2 hcloses
  refine ⟨u, hu, ?_⟩
  rw [Alike, ofStream_sig hu, ofStream_sig h, ← outline_delimiters, hd, outline_delimiters]

/-! ## Stacks of open regions -/

/-- Every region in a stack of open regions lies in the ones below it. -/
def Stacked (nodes : List (String × ScopeKind × List Nat)) : List Nat → Prop
  | [] => True
  | n :: rest => (nodes[n]?.map fun sig => sig.2.2) = some rest ∧ Stacked nodes rest

theorem Stacked.append {nodes : List (String × ScopeKind × List Nat)} {stack : List Nat}
    (h : Stacked nodes stack) (more : List (String × ScopeKind × List Nat)) :
    Stacked (nodes ++ more) stack := by
  induction stack with
  | nil => trivial
  | cons n rest ih =>
      obtain ⟨hn, hrest⟩ := h
      refine ⟨?_, ih hrest⟩
      obtain ⟨sig, hsig, houter⟩ := Option.map_eq_some_iff.mp hn
      have hlt : n < nodes.length := (List.getElem?_eq_some_iff.mp hsig).1
      rw [List.getElem?_append_left hlt]
      exact hn

theorem Stacked.tail {nodes : List (String × ScopeKind × List Nat)} {stack : List Nat}
    (h : Stacked nodes stack) : Stacked nodes stack.tail := by
  cases stack with
  | nil => trivial
  | cons n rest => exact h.2

/-- The regions that a stream opens lie in regions opened before. -/
theorem stacked_outline {s : Stream} {names : List String} {p : Position}
    {nodes : List (String × ScopeKind × List Nat)} (hcloses : closes names s = true)
    (hlen : nodes.length = p.opened + 1) (hstack : Stacked nodes p.stack)
    (hdepth : p.stack.length = names.length + 1) {k : Nat} {sig : String × ScopeKind × List Nat}
    (hk : (outline p s)[k]? = some sig) :
    sig.2.2 ≠ [] ∧ Stacked ((nodes ++ outline p s).take (nodes.length + k)) sig.2.2 := by
  induction s generalizing names p nodes k with
  | nil => simp [outline] at hk
  | cons ins s ih =>
      rcases ins.delimiter_cases with hop | hop | ⟨hb, he⟩
      · rw [closes_begin hop] at hcloses
        have hout : outline p (ins :: s) = (ins.scopeName, ins.scopeKind, p.stack)
            :: outline (p.advance ins) s := by simp [outline, hop]
        rw [hout] at hk ⊢
        cases k with
        | zero =>
            rw [List.getElem?_cons_zero, Option.some.injEq] at hk
            subst hk
            refine ⟨?_, ?_⟩
            · intro hnil
              simp only at hnil
              rw [hnil] at hdepth
              simp at hdepth
            · rw [Nat.add_zero, List.take_left]
              exact hstack
        | succ k =>
            rw [List.getElem?_cons_succ] at hk
            have hadvance := Position.advance_begin p hop
            have hnew : Stacked (nodes ++ [(ins.scopeName, ins.scopeKind, p.stack)])
                (p.advance ins).stack := by
              rw [hadvance]
              refine ⟨?_, hstack.append _⟩
              rw [List.getElem?_append_right (by omega)]
              simp [hlen]
            have hrest := @ih (ins.scopeName :: names) (p.advance ins)
              (nodes ++ [(ins.scopeName, ins.scopeKind, p.stack)]) hcloses
              (by simp [hadvance, hlen]) hnew (by simp [hadvance, hdepth]) k hk
            simpa [Nat.add_assoc, Nat.add_comm 1 k] using hrest
      · cases names with
        | nil =>
            rw [closes_end_nil hop] at hcloses
            exact Bool.noConfusion hcloses
        | cons name names =>
            rw [closes_end hop, Bool.and_eq_true] at hcloses
            have hout : outline p (ins :: s) = outline (p.advance ins) s := by simp [outline, hop]
            rw [hout] at hk ⊢
            have hadvance := Position.advance_end p hop
            refine ih hcloses.2 (by simp [hadvance, hlen]) ?_ ?_ hk
            · rw [hadvance]
              exact hstack.tail
            · rw [hadvance, List.length_tail, hdepth]
              simp
      · rw [closes_other hb he] at hcloses
        have hout : outline p (ins :: s) = outline p s := by
          simp [outline, hb, Position.advance_other p hb he]
        rw [hout] at hk ⊢
        exact ih hcloses hlen hstack hdepth hk

/-- The regions around a node: the one directly around it, and those around that one. -/
theorem ScopeTree.outer_node {s : Stream} {t : ScopeTree} (h : ofStream s = .ok t) {n : Nat}
    (hn : n ≠ root) (hlt : n < t.nodes.length) :
    ∃ p, p < n ∧ (t.node n).outer = p :: (t.node p).outer := by
  have hcloses := (ofStream_isOk_iff s).mp ⟨t, h⟩
  obtain ⟨k, rfl⟩ := Nat.exists_eq_succ_of_ne_zero hn
  have hsigs := ofStream_sig h
  have hget : ∀ m, m < t.nodes.length → (t.nodes.map ScopeNode.sig)[m]? = some (t.node m).sig := by
    intro m hm
    rw [List.getElem?_map, node, List.getElem?_eq_getElem hm]
    rfl
  have hk := hget (k + 1) hlt
  rw [hsigs, List.getElem?_cons_succ] at hk
  have hstart : Stacked [("", ScopeKind.global, [])] Position.start.stack := ⟨rfl, trivial⟩
  obtain ⟨hne, hstacked⟩ := @stacked_outline s [] Position.start [("", ScopeKind.global, [])] hcloses rfl
    hstart rfl k _ hk
  simp only [List.length_singleton, List.singleton_append, ← hsigs, ScopeNode.sig] at hne hstacked
  cases houter : (t.node (k + 1)).outer with
  | nil => exact absurd houter hne
  | cons p rest =>
      rw [houter] at hstacked
      obtain ⟨sig, hsig, hrest⟩ := Option.map_eq_some_iff.mp hstacked.1
      have hp : p < 1 + k := by
        have := (List.getElem?_eq_some_iff.mp hsig).1
        rw [List.length_take] at this
        omega
      rw [List.getElem?_take_of_lt hp, hget p (by omega), Option.some.injEq] at hsig
      refine ⟨p, by omega, ?_⟩
      rw [← hrest, ← hsig]
      rfl

/-! ## Function regions -/

/-- The function regions of the rest of a stream, found by counting regions. -/
def bodiesFrom (p : Position) : Stream → List (Nat × Option Function)
  | a :: b :: rest =>
    (if a.op = .function && b.op = .scopeBegin && b.scopeKind = .function then
        [((p.advance a).opened + 1, a.function?)]
      else []) ++ bodiesFrom (p.advance a) (b :: rest)
  | _ => []

theorem functionScopes_eq {s : Stream} {t : ScopeTree} (h : ScopeTree.ofStream s = .ok t) :
    functionScopes s t = bodiesFrom Position.start s := by
  have hfrom : ∀ pre rest : Stream, s = pre ++ rest →
      functionScopesFrom t pre.length rest = bodiesFrom (Position.start.after pre) rest := by
    intro pre rest
    induction rest generalizing pre with
    | nil =>
        intro _
        rfl
    | cons a rest ih =>
        intro hs
        cases rest with
        | nil => rfl
        | cons b rest =>
            have hs' : s = (pre ++ [a]) ++ b :: rest := by simp [hs]
            have hpos : Position.start.after (pre ++ [a]) = (Position.start.after pre).advance a := by
              rw [Position.after_append]
              rfl
            have htail := ih (pre ++ [a]) hs'
            rw [List.length_append, List.length_singleton, hpos] at htail
            rw [functionScopesFrom, bodiesFrom, htail]
            congr 1
            split
            · rename_i hbody
              simp only [Bool.and_eq_true, decide_eq_true_eq] at hbody
              have hnode := ScopeTree.nodeAt_length h hs'
              rw [hpos, Position.owner, if_pos hbody.1.2, List.length_append,
                List.length_singleton] at hnode
              rw [← hnode]
              rfl
            · rfl
  exact hfrom [] s rfl

theorem bodiesFrom_append {p : Position} (s : Stream) {t : Stream} {x : Nat × Option Function}
    (h : x ∈ bodiesFrom (p.after s) t) : x ∈ bodiesFrom p (s ++ t) := by
  induction s generalizing p with
  | nil => exact h
  | cons ins s ih =>
      have htail := ih h
      cases hst : s ++ t with
      | nil => simp [hst, bodiesFrom] at htail
      | cons b rest =>
          rw [List.cons_append, hst, bodiesFrom]
          rw [hst] at htail
          exact List.mem_append_right _ htail

end Datapack.Ir
