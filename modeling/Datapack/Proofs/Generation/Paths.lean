import Datapack.Proofs.Generation.Marks
import Datapack.Proofs.Text.Split

/-!
# Paths of regions

The regions of a program form a tree in which siblings of one name are counted.  As long as siblings
stay apart, also in the spelling `f` that a path uses for its parts, the path of a region tells the
region, and one path leads on into another exactly when one region stands around the other.
-/

namespace Datapack.Generation

open Ir

namespace Regions

variable {rs rs' : Regions} {m n : Nat} {f : String → String}

/-! ## Trees -/

/-- Every region but the first stands directly inside an earlier one. -/
structure Tree (rs : Regions) : Prop where
  nonempty : 0 < rs.length
  root : (rs.at? 0).outer = []
  inner : ∀ n, n ≠ 0 → n < rs.length → ∃ p, p < n ∧ (rs.at? n).outer = p :: (rs.at? p).outer

theorem Tree.of_like (h : rs.Tree) (hlike : Like rs rs') : rs'.Tree := by
  refine ⟨?_, ?_, ?_⟩
  all_goals simp only [hlike.length, hlike.outer]
  · exact h.nonempty
  · exact h.root
  · exact h.inner

theorem segments_root (h : rs.Tree) : rs.segments 0 = [(rs.at? 0).segment] := by
  simp [segments_eq, h.root]

theorem Tree.inner_spec (h : rs.Tree) (hn : n ≠ 0) (hlt : n < rs.length) :
    ∃ p, p < n ∧ rs.parent? n = some p ∧ rs.ancestors n = n :: rs.ancestors p ∧
      rs.segments n = rs.segments p ++ [(rs.at? n).segment] := by
  obtain ⟨p, hp, houter⟩ := h.inner n hn hlt
  refine ⟨p, hp, ?_, ?_, ?_⟩
  · rw [parent?, houter]
    rfl
  · rw [ancestors, houter, ancestors]
  · rw [segments_eq, houter, segments, ancestors]

theorem Tree.parent?_root (h : rs.Tree) : rs.parent? 0 = none := by
  rw [parent?, h.root]
  rfl

theorem Tree.lt_of_parent? (h : rs.Tree) {p : Nat} (hp : rs.parent? n = some p) : p < n ∧ n < rs.length := by
  have hlt := Regions.lt_of_parent? hp
  by_cases hn : n = 0
  · rw [hn, h.parent?_root] at hp
    cases hp
  · obtain ⟨q, hq, hparent, -⟩ := h.inner_spec hn hlt
    obtain rfl : q = p := Option.some.inj (hparent.symm.trans hp)
    exact ⟨hq, hlt⟩

theorem Tree.le_of_mem_ancestors (h : rs.Tree) (hlt : n < rs.length) (hm : m ∈ rs.ancestors n) : m ≤ n := by
  induction n using Nat.strongRecOn with
  | ind n ih =>
      by_cases hn : n = 0
      · rw [hn, ancestors, h.root, List.mem_singleton] at hm
        omega
      · obtain ⟨p, hp, -, hancestors, -⟩ := h.inner_spec hn hlt
        rw [hancestors] at hm
        rcases List.mem_cons.1 hm with rfl | hm
        · exact Nat.le_refl _
        · exact Nat.le_trans (ih p hp (Nat.lt_trans hp hlt) hm) (Nat.le_of_lt hp)

theorem Tree.suffix_of_mem_ancestors (h : rs.Tree) (hlt : n < rs.length) (hm : m ∈ rs.ancestors n) :
    rs.ancestors m <:+ rs.ancestors n := by
  induction n using Nat.strongRecOn with
  | ind n ih =>
      by_cases hn : n = 0
      · rw [hn, ancestors, h.root, List.mem_singleton] at hm
        rw [hm, hn]
      · obtain ⟨p, hp, -, hancestors, -⟩ := h.inner_spec hn hlt
        rw [hancestors] at hm
        rcases List.mem_cons.1 hm with rfl | hm
        · exact List.suffix_rfl
        · rw [hancestors]
          exact (ih p hp (Nat.lt_trans hp hlt) hm).trans (List.suffix_cons _ _)

/-! ### Walking a tree -/

theorem mem_children {n c : Nat} : c ∈ rs.children n ↔ c < rs.length ∧ rs.parent? c = some n := by
  simp [children]

theorem Tree.ancestors_child (h : rs.Tree) {c : Nat} (hc : c ∈ rs.children n) :
    rs.ancestors c = c :: rs.ancestors n := by
  obtain ⟨hlt, hparent⟩ := mem_children.1 hc
  have hne : c ≠ 0 := fun h0 => Nat.not_lt_zero n (h0 ▸ (h.lt_of_parent? hparent).1)
  obtain ⟨p, -, hparent', hancestors, -⟩ := h.inner_spec hne hlt
  rw [hancestors, Option.some.inj (hparent'.symm.trans hparent)]

/-- A region stands inside one child only. -/
theorem Tree.eq_of_children (h : rs.Tree) {c d : Nat} (hc : c ∈ rs.children n) (hd : d ∈ rs.children n)
    (hlt : m < rs.length) (hmc : c ∈ rs.ancestors m) (hmd : d ∈ rs.ancestors m) : c = d := by
  have hlength : (rs.ancestors c).length = (rs.ancestors d).length := by
    rw [h.ancestors_child hc, h.ancestors_child hd, List.length_cons, List.length_cons]
  have heq := (List.suffix_of_suffix_length_le (h.suffix_of_mem_ancestors hlt hmc)
    (h.suffix_of_mem_ancestors hlt hmd) (Nat.le_of_eq hlength)).eq_of_length hlength
  rw [h.ancestors_child hc, h.ancestors_child hd] at heq
  exact (List.cons.inj heq).1

theorem Tree.inside_of_mem_walkFrom (h : rs.Tree) {k r : Nat} (hr : r < rs.length)
    (hm : m ∈ rs.walkFrom k r) : m < rs.length ∧ r ∈ rs.ancestors m := by
  induction k generalizing r with
  | zero => exact absurd hm List.not_mem_nil
  | succ k ih =>
      rcases List.mem_cons.1 hm with rfl | hm
      · exact ⟨hr, List.mem_cons_self⟩
      · obtain ⟨c, hc, hm⟩ := List.mem_flatMap.1 hm
        obtain ⟨hlt, hinside⟩ := ih (mem_children.1 hc).1 hm
        refine ⟨hlt, (h.suffix_of_mem_ancestors hlt hinside).subset ?_⟩
        rw [h.ancestors_child hc]
        exact List.mem_cons_of_mem _ List.mem_cons_self

theorem mem_walkFrom_child {k r c : Nat} (hm : m ∈ rs.walkFrom k r) (hc : c ∈ rs.children m) :
    c ∈ rs.walkFrom (k + 1) r := by
  induction k generalizing r with
  | zero => exact absurd hm List.not_mem_nil
  | succ k ih =>
      rw [walkFrom]
      rcases List.mem_cons.1 hm with rfl | hm
      · refine List.mem_cons_of_mem _ (List.mem_flatMap.2 ⟨c, hc, ?_⟩)
        rw [walkFrom]
        exact List.mem_cons_self
      · obtain ⟨d, hd, hm⟩ := List.mem_flatMap.1 hm
        exact List.mem_cons_of_mem _ (List.mem_flatMap.2 ⟨d, hd, ih hm⟩)

theorem Tree.mem_walk_iff (h : rs.Tree) : n ∈ rs.walk 0 ↔ n < rs.length := by
  refine ⟨fun hn => (h.inside_of_mem_walkFrom h.nonempty hn).1, ?_⟩
  -- a region is at most as many levels deep as there are regions before it
  have hdeep : ∀ n < rs.length, ∀ k, n < k → n ∈ rs.walkFrom k 0 := by
    intro n
    induction n using Nat.strongRecOn with
    | ind n ih =>
        intro hlt k hk
        obtain ⟨k, rfl⟩ := Nat.exists_eq_succ_of_ne_zero (Nat.ne_of_gt (Nat.zero_lt_of_lt hk))
        by_cases hn : n = 0
        · subst hn
          exact List.mem_cons_self
        · obtain ⟨p, hp, hparent, -⟩ := h.inner_spec hn hlt
          exact mem_walkFrom_child (ih p hp (Nat.lt_trans hp hlt) k (by omega))
            (mem_children.2 ⟨hlt, hparent⟩)
  exact fun hlt => hdeep n hlt _ hlt

theorem Tree.mem_nonEmpty_iff (h : rs.Tree) : n ∈ rs.nonEmpty ↔ (rs.at? n).commands ≠ [] := by
  rw [nonEmpty, List.mem_filter, h.mem_walk_iff]
  simp only [Bool.not_eq_true', List.isEmpty_eq_false_iff]
  refine ⟨And.right, fun hne => ⟨?_, hne⟩⟩
  by_contra hge
  rw [at?, List.getElem?_eq_none (Nat.le_of_not_lt hge)] at hne
  exact hne rfl

theorem Tree.nodup_walkFrom (h : rs.Tree) {k r : Nat} (hr : r < rs.length) : (rs.walkFrom k r).Nodup := by
  induction k generalizing r with
  | zero => exact List.nodup_nil
  | succ k ih =>
      rw [walkFrom, List.nodup_cons, List.nodup_flatMap]
      refine ⟨fun hmem => ?_, fun c hc => ih (mem_children.1 hc).1, ?_⟩
      · obtain ⟨c, hc, hmem⟩ := List.mem_flatMap.1 hmem
        have hlt := (h.lt_of_parent? (mem_children.1 hc).2).1
        have hinside := (h.inside_of_mem_walkFrom (mem_children.1 hc).1 hmem).2
        exact absurd (h.le_of_mem_ancestors hr hinside) (Nat.not_le_of_lt hlt)
      · have hchildren : (rs.children r).Nodup := List.nodup_range.filter _
        refine hchildren.imp_of_mem fun {c d} hc hd hne m hmc hmd => hne ?_
        obtain ⟨hlt, hinside⟩ := h.inside_of_mem_walkFrom (mem_children.1 hc).1 hmc
        exact h.eq_of_children hc hd hlt hinside (h.inside_of_mem_walkFrom (mem_children.1 hd).1 hmd).2

theorem length_segments (rs : Regions) (n : Nat) : (rs.segments n).length = (rs.at? n).outer.length + 1 := by
  simp [segments_eq]

theorem segments_ne_nil (rs : Regions) (n : Nat) : rs.segments n ≠ [] := by
  simp [segments_eq]

/-! ## Siblings -/

/-- No two regions directly inside one region share a part of a path, in the spelling `f`. -/
def Apart (rs : Regions) (f : String → String) : Prop :=
  ∀ m n, m < rs.length → n < rs.length → rs.parent? m = rs.parent? n →
    f (rs.at? m).segment = f (rs.at? n).segment → m = n

theorem Apart.of_like (h : rs.Apart f) (hlike : Like rs rs') : rs'.Apart f := by
  unfold Apart
  simp only [hlike.length, hlike.parent?, hlike.segment]
  exact h

theorem Apart.eq_of_segments (h : rs.Apart f) (ht : rs.Tree) (hm : m < rs.length) (hn : n < rs.length)
    (heq : (rs.segments m).map f = (rs.segments n).map f) : m = n := by
  -- on the region that comes later: the last parts agree, and what is around comes earlier
  induction n using Nat.strongRecOn generalizing m with
  | ind n ih =>
      by_cases hm0 : m = 0
      · by_cases hn0 : n = 0
        · exact hm0.trans hn0.symm
        · obtain ⟨p, -, -, -, hsegments⟩ := ht.inner_spec hn0 hn
          rw [hm0, segments_root ht, hsegments] at heq
          have hlength := congrArg List.length heq
          simp [length_segments] at hlength
      · obtain ⟨q, hq, hparent, -, hsegments⟩ := ht.inner_spec hm0 hm
        by_cases hn0 : n = 0
        · rw [hn0, segments_root ht, hsegments] at heq
          have hlength := congrArg List.length heq
          simp [length_segments] at hlength
        · obtain ⟨p, hp, hparent', -, hsegments'⟩ := ht.inner_spec hn0 hn
          rw [hsegments, hsegments', List.map_append, List.map_append] at heq
          obtain ⟨hfront, hlast⟩ := List.append_inj' heq rfl
          obtain rfl := ih p hp (Nat.lt_trans hq hm) (Nat.lt_trans hp hn) hfront
          exact h m n hm hn (hparent.trans hparent'.symm) (List.singleton_inj.1 hlast)

theorem prefix_of_mem_ancestors (ht : rs.Tree) (hn : n < rs.length) (hm : m ∈ rs.ancestors n) :
    rs.segments m <+: rs.segments n :=
  List.reverse_prefix.2 ((ht.suffix_of_mem_ancestors hn hm).map _)

/-- A path leads one part further into another exactly when a region directly inside the one stands for
that part and is the other or around it. -/
theorem Apart.snoc_prefix_iff (h : rs.Apart f) (ht : rs.Tree) (hm : m < rs.length) (hn : n < rs.length)
    {x : String} :
    (rs.segments m).map f ++ [x] <+: (rs.segments n).map f ↔
      ∃ c ∈ rs.ancestors n, rs.parent? c = some m ∧ f (rs.at? c).segment = x := by
  constructor
  · intro hprefix
    induction n using Nat.strongRecOn with
    | ind n ih =>
        by_cases hn0 : n = 0
        · have hle := hprefix.length_le
          rw [hn0, segments_root ht] at hle
          simp [length_segments] at hle
        · obtain ⟨p, hp, hparent, hancestors, hsegments⟩ := ht.inner_spec hn0 hn
          have hplt := Nat.lt_trans hp hn
          rw [hsegments, List.map_append, List.map_singleton, List.prefix_concat_iff] at hprefix
          rw [hancestors]
          rcases hprefix with heq | hprefix
          · obtain ⟨hfront, hlast⟩ := List.append_inj' heq rfl
            obtain rfl := h.eq_of_segments ht hm hplt hfront
            exact ⟨n, List.mem_cons_self, hparent, (List.singleton_inj.1 hlast).symm⟩
          · obtain ⟨c, hc, hspec⟩ := ih p hp hplt hprefix
            exact ⟨c, List.mem_cons_of_mem _ hc, hspec⟩
  · rintro ⟨c, hc, hparent, rfl⟩
    have hclt := (ht.lt_of_parent? hparent).2
    have hc0 : c ≠ 0 := by
      rintro rfl
      rw [ht.parent?_root] at hparent
      cases hparent
    obtain ⟨p, -, hparent', -, hsegments⟩ := ht.inner_spec hc0 hclt
    obtain rfl : p = m := Option.some.inj (hparent'.symm.trans hparent)
    have hprefix := (prefix_of_mem_ancestors ht hn hc).map f
    rwa [hsegments, List.map_append, List.map_singleton] at hprefix

/-! ## Counted siblings -/

/-- Siblings of one name are counted. -/
def Counted (rs : Regions) : Prop :=
  ∀ n, n ≠ 0 → n < rs.length → (rs.at? n).occurrence =
    (List.range n).countP fun m => rs.parent? m = rs.parent? n ∧ (rs.at? m).name = (rs.at? n).name

theorem countP_range_lt {p : Nat → Bool} (hlt : m < n) (hm : p m = true) :
    (List.range m).countP p < (List.range n).countP p := by
  have hsucc : (List.range (m + 1)).countP p = (List.range m).countP p + 1 := by
    rw [List.range_succ, List.countP_append, List.countP_singleton, if_pos hm]
  have hle : (List.range (m + 1)).countP p ≤ (List.range n).countP p :=
    (List.range_sublist.2 hlt).countP_le
  omega

theorem Counted.eq (h : rs.Counted) (hm0 : m ≠ 0) (hn0 : n ≠ 0) (hm : m < rs.length) (hn : n < rs.length)
    (hparent : rs.parent? m = rs.parent? n) (hname : (rs.at? m).name = (rs.at? n).name)
    (hoccurrence : (rs.at? m).occurrence = (rs.at? n).occurrence) : m = n := by
  rw [h m hm0 hm, h n hn0 hn, hparent, hname] at hoccurrence
  rcases Nat.lt_trichotomy m n with hlt | heq | hgt
  · have hless := countP_range_lt (p := fun k => rs.parent? k = rs.parent? n ∧ (rs.at? k).name = (rs.at? n).name)
      hlt (by simp [hparent, hname])
    omega
  · exact heq
  · have hless := countP_range_lt (p := fun k => rs.parent? k = rs.parent? n ∧ (rs.at? k).name = (rs.at? n).name)
      hgt (by simp)
    omega

/-- What making a region inside another keeps. -/
theorem addChild_spec (ht : rs.Tree) (hc : rs.Counted) {p : Nat} (hp : p < rs.length) (name : String)
    (kind : ScopeKind) : (rs.addChild p name kind).Tree ∧ (rs.addChild p name kind).Counted := by
  let r : Region :=
    { name, kind, outer := p :: (rs.at? p).outer
      occurrence := (rs.children p).countP fun m => (rs.at? m).name = name }
  have hmade : rs.addChild p name kind = rs ++ [r] := rfl
  have hold : ∀ k, k < rs.length → Regions.at? (rs ++ [r]) k = rs.at? k := fun k => at?_append_left
  have hnew : Regions.at? (rs ++ [r]) rs.length = r := at?_append_length rs r
  have hparent : ∀ k, k < rs.length → Regions.parent? (rs ++ [r]) k = rs.parent? k := by
    intro k hk
    rw [parent?, hold k hk, parent?]
  have hlength : List.length (rs ++ [r]) = rs.length + 1 := by simp
  rw [hmade]
  refine ⟨⟨by omega, ?_, ?_⟩, ?_⟩
  · rw [hold 0 ht.nonempty, ht.root]
  · intro n hn hlt
    by_cases hnl : n < rs.length
    · obtain ⟨q, hq, houter⟩ := ht.inner n hn hnl
      exact ⟨q, hq, by rw [hold n hnl, hold q (Nat.lt_trans hq hnl), houter]⟩
    · obtain rfl : n = rs.length := by omega
      exact ⟨p, hp, by rw [hnew, hold p hp]⟩
  · intro n hn hlt
    have hcount : ∀ q x, n ≤ rs.length →
        ((List.range n).countP fun m => Regions.parent? (rs ++ [r]) m = q ∧
            (Regions.at? (rs ++ [r]) m).name = x)
          = (List.range n).countP fun m => rs.parent? m = q ∧ (rs.at? m).name = x := by
      intro q x hle
      refine List.countP_congr fun m hm => ?_
      have hml : m < rs.length := Nat.lt_of_lt_of_le (List.mem_range.1 hm) hle
      rw [hparent m hml, hold m hml]
    by_cases hnl : n < rs.length
    · rw [hold n hnl, hparent n hnl, hcount _ _ (Nat.le_of_lt hnl)]
      exact hc n hn hnl
    · obtain rfl : n = rs.length := by omega
      have hself : Regions.parent? (rs ++ [r]) rs.length = some p := by
        rw [parent?, hnew]
        rfl
      rw [hself, hnew, hcount _ _ (Nat.le_refl _)]
      change (rs.children p).countP _ = _
      rw [children, List.countP_filter]
      refine List.countP_congr fun m _ => ?_
      simp [r, and_comm]

end Regions

/-- The regions of a tree are those of the stream, one inside the other, and siblings are counted. -/
theorem spec_foldl {s : Stream} {t : ScopeTree} (h : ScopeTree.ofStream s = .ok t) (ns : String) {k : Nat}
    (hk : k + 1 ≤ t.nodes.length) :
    ∃ rs : Regions, (List.range' 1 k).foldl
        (fun rs n => rs.addChild ((t.node n).parent?.getD 0) (t.node n).name (t.node n).kind)
        (Regions.ofRoot ns) = rs ∧
      rs.length = k + 1 ∧ rs.Tree ∧ rs.Counted ∧ (rs.at? 0).segment = ns ∧
        ∀ n, n ≠ 0 → n < k + 1 → (rs.at? n).name = (t.node n).name := by
  induction k with
  | zero =>
      refine ⟨_, rfl, rfl, ⟨Nat.one_pos, rfl, ?_⟩, ?_, rfl, ?_⟩
      all_goals
        intro n hn hlt
        exact absurd (Nat.lt_one_iff.1 hlt) hn
  | succ k ih =>
      obtain ⟨rs, hfold, hlength, htree, hcounted, hroot, hnames⟩ := ih (by omega)
      obtain ⟨p, hp, houter⟩ := @ScopeTree.outer_node _ _ h (1 + k) (by simp [ScopeTree.root]) (by omega)
      have hparent : (t.node (1 + k)).parent?.getD 0 = p := by simp [ScopeNode.parent?, houter]
      rw [List.range'_1_concat, List.foldl_append, hfold, List.foldl_cons, List.foldl_nil, hparent]
      obtain ⟨htree', hcounted'⟩ := Regions.addChild_spec htree hcounted (p := p) (by omega)
        (t.node (1 + k)).name (t.node (1 + k)).kind
      refine ⟨_, rfl, by simp [Regions.addChild, hlength], htree', hcounted', ?_, fun n hn hlt => ?_⟩
      · rw [Regions.addChild, Regions.at?_append_left htree.nonempty, hroot]
      · rw [Regions.addChild]
        by_cases hnk : n < k + 1
        · rw [Regions.at?_append_left (by omega), hnames n hn hnk]
        · obtain rfl : n = 1 + k := by omega
          rw [show 1 + k = rs.length by omega, Regions.at?_append_length]

theorem spec_regionsOf {s : Stream} {t : ScopeTree} (h : ScopeTree.ofStream s = .ok t) (ns : String) :
    (regionsOf ns t).length = t.nodes.length ∧ (regionsOf ns t).Tree ∧ (regionsOf ns t).Counted ∧
      ((regionsOf ns t).at? 0).segment = ns ∧
      ∀ n, n ≠ 0 → n < t.nodes.length → ((regionsOf ns t).at? n).name = (t.node n).name := by
  have hpos := ScopeTree.root_lt h
  obtain ⟨rs, hfold, hlength, htree, hcounted, hroot, hnames⟩ :=
    spec_foldl h ns (k := t.nodes.length - 1) (by omega)
  have hinner : t.inner = List.range' 1 (t.nodes.length - 1) := by
    rw [ScopeTree.inner, List.range_eq_range', List.tail_range']
  have heq : regionsOf ns t = rs := by
    rw [regionsOf, hinner, ← hfold]
  rw [heq]
  exact ⟨by omega, htree, hcounted, hroot, fun n hn hlt => hnames n hn (by omega)⟩

/-! ## Identifiers as parts of paths -/

/-- A name with the number of its repetition. -/
def numbered (name : String) (k : Nat) : String := if k = 0 then name else name ++ "-" ++ toString k

theorem isNameChar_of_isDigit {c : Char} (h : c.isDigit = true) : isNameChar c = true := by
  simp [isNameChar, h]

theorem isIdentifier_toString (k : Nat) : isIdentifier (toString k) = true := by
  have hne : toString k ≠ "" := by
    rw [Nat.toString_eq_repr]
    exact Nat.repr_ne_empty
  simp only [isIdentifier, Bool.and_eq_true, decide_eq_true_eq, List.all_eq_true]
  refine ⟨hne, fun c hc => isNameChar_of_isDigit ?_⟩
  rw [Nat.toString_eq_repr, Nat.toList_repr] at hc
  exact Nat.isDigit_of_mem_toDigits (by decide) (by decide) hc

theorem numbered_inj {x y : String} {k l : Nat} (hx : isIdentifier x = true) (hy : isIdentifier y = true)
    (h : numbered x k = numbered y l) : x = y ∧ k = l := by
  have hyphen : "-".toList = ['-'] := by decide
  have hsplit : ∀ z i, isIdentifier z = true →
      Text.split '-' (numbered z i) = if i = 0 then [z] else [z, toString i] := by
    intro z i hz
    have hname := Text.split_of_not_mem (isIdentifier_not_mem hz (c := '-') (by decide))
    have hnumber := Text.split_of_not_mem (isIdentifier_not_mem (isIdentifier_toString i) (c := '-') (by decide))
    unfold numbered
    split
    · exact hname
    · rw [Text.split_append hyphen, hname, hnumber]
      rfl
  have heq := congrArg (Text.split '-') h
  rw [hsplit x k hx, hsplit y l hy] at heq
  by_cases hk : k = 0
  · by_cases hl : l = 0
    · rw [if_pos hk, if_pos hl] at heq
      exact ⟨List.singleton_inj.1 heq, hk.trans hl.symm⟩
    · simp [hk, hl] at heq
  · by_cases hl : l = 0
    · simp [hk, hl] at heq
    · rw [if_neg hk, if_neg hl] at heq
      obtain ⟨hname, hrest⟩ := List.cons.inj heq
      exact ⟨hname, Text.toString_nat_inj (List.singleton_inj.1 hrest)⟩

theorem map_append (f : Char → Char) (s s' : String) : (s ++ s').map f = s.map f ++ s'.map f := by
  apply String.toList_inj.1
  simp only [String.toList_map, String.toList_append, List.map_append]

theorem map_intercalate (f : Char → Char) (sep : String) (xs : List String) :
    (sep.intercalate xs).map f = (sep.map f).intercalate (xs.map (String.map f)) := by
  induction xs with
  | nil => exact String.map_eq_empty.2 rfl
  | cons x xs ih =>
      by_cases hxs : xs = []
      · simp [hxs]
      · rw [String.intercalate_cons_of_ne_nil hxs, map_append, map_append, ih, List.map_cons,
          String.intercalate_cons_of_ne_nil (by simpa using hxs)]

/-- A spelling that leaves identifiers alone and replaces the sign before a number. -/
theorem map_segment {f : Char → Char} (hself : ∀ x, isIdentifier x = true → x.map f = x)
    (hdollar : f '$' = '-') {r : Region} (h : isIdentifier r.name = true) :
    r.segment.map f = numbered r.name r.occurrence := by
  have hsign : "$".map f = "-" := by
    apply String.toList_inj.1
    rw [String.toList_map, show "$".toList = ['$'] from rfl, List.map_singleton, hdollar]
    rfl
  unfold Region.segment numbered
  split
  · exact hself _ h
  · rw [map_append, map_append, hself _ h, hself _ (isIdentifier_toString _), hsign]

theorem toList_dot : ".".toList = ['.'] := by decide

theorem map_dot : ".".map holderChar = "." := by
  apply String.toList_inj.1
  rw [String.toList_map, toList_dot]
  decide

theorem holder_segment {r : Region} (h : isIdentifier r.name = true) :
    holder r.segment = numbered r.name r.occurrence :=
  map_segment (fun _ => holder_identifier) (by decide) h

theorem Region.segment_ne_empty {r : Region} (h : r.name ≠ "") : r.segment ≠ "" := by
  unfold Region.segment
  split
  · exact h
  · simp [h]

theorem resourceSegment_segment {r : Region} (h : isIdentifier r.name = true) :
    Regions.resourceSegment r.segment = numbered r.name r.occurrence := by
  rw [resourceSegment_eq_map (Region.segment_ne_empty (isIdentifier_ne_empty h))]
  refine map_segment (fun x hx => ?_) (by decide) h
  rw [← resourceSegment_eq_map (isIdentifier_ne_empty hx), resourceSegment_identifier hx]

/-- Regions with identifiers for names are apart in every spelling that puts a hyphen in front of the
numbers of repetitions. -/
theorem apart_regionsOf {s : Stream} {t : ScopeTree} (h : ScopeTree.ofStream s = .ok t) (ns : String)
    (hnames : ∀ x ∈ regionNames s, isIdentifier x = true) {f : String → String}
    (hf : ∀ r : Region, isIdentifier r.name = true → f r.segment = numbered r.name r.occurrence) :
    (regionsOf ns t).Apart f := by
  obtain ⟨hlength, htree, hcounted, -, hname⟩ := spec_regionsOf h ns
  have hidentifier : ∀ n, n ≠ 0 → n < (regionsOf ns t).length →
      isIdentifier ((regionsOf ns t).at? n).name = true := by
    intro n hn hlt
    rw [hname n hn (hlength ▸ hlt)]
    exact hnames _ (List.mem_of_getElem? (ScopeTree.regionNames_getElem? h hn (hlength ▸ hlt)))
  have hroot : ∀ n, n ≠ 0 → n < (regionsOf ns t).length →
      (regionsOf ns t).parent? 0 ≠ (regionsOf ns t).parent? n := by
    intro n hn hlt heq
    obtain ⟨p, -, hparent, -⟩ := htree.inner_spec hn hlt
    rw [htree.parent?_root, hparent] at heq
    cases heq
  intro m n hm hn hparent heq
  by_cases hm0 : m = 0
  · by_contra hne
    exact hroot n (fun hn0 => hne (hm0.trans hn0.symm)) hn (hm0 ▸ hparent)
  · by_cases hn0 : n = 0
    · exact absurd (hn0 ▸ hparent.symm) (hroot m hm0 hm)
    · rw [hf _ (hidentifier m hm0 hm), hf _ (hidentifier n hn0 hn)] at heq
      obtain ⟨hsame, hcount⟩ := numbered_inj (hidentifier m hm0 hm) (hidentifier n hn0 hn) heq
      exact hcounted.eq hm0 hn0 hm hn hparent hsame hcount

end Datapack.Generation
