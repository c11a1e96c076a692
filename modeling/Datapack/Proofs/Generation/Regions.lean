import Datapack.Generation.Basic
import Datapack.Generation.Layout
import Datapack.Proofs.Ir.ScopeTree
import Datapack.Proofs.Text.Characters

/-!
# Regions and their paths

What stays of the regions while commands are generated: everything but the commands and the flags.
Paths, surroundings and declarations are read off this sketch.  Where the names of the regions are
distinct identifiers, a region's path tells which region it is.
-/

namespace Datapack.Generation

open Ir

/-- A region without what is generated for it. -/
def Region.bare (r : Region) : Region := { r with commands := [], flags := [] }

namespace Regions

variable {rs : Regions} {n m : Nat}

/-- The regions without what is generated for them. -/
def sketch (rs : Regions) : Regions := rs.map Region.bare

@[simp] theorem length_sketch (rs : Regions) : rs.sketch.length = rs.length := by
  simp [sketch]

@[simp] theorem at?_sketch (rs : Regions) (n : Nat) : rs.sketch.at? n = (rs.at? n).bare := by
  unfold sketch at?
  rw [List.getElem?_map]
  cases rs[n]? <;> rfl

@[simp] theorem parent?_sketch (rs : Regions) (n : Nat) : rs.sketch.parent? n = rs.parent? n := by
  unfold parent?
  rw [at?_sketch]
  rfl

@[simp] theorem ancestors_sketch (rs : Regions) (n : Nat) :
    rs.sketch.ancestors n = rs.ancestors n := by
  unfold ancestors
  rw [at?_sketch]
  rfl

@[simp] theorem enclosing_sketch (rs : Regions) (n : Nat) (kinds : List ScopeKind) :
    rs.sketch.enclosing n kinds = rs.enclosing n kinds := by
  unfold enclosing
  simp only [ancestors_sketch, at?_sketch]
  rfl

@[simp] theorem segments_sketch (rs : Regions) (n : Nat) : rs.sketch.segments n = rs.segments n := by
  unfold segments
  simp only [ancestors_sketch, at?_sketch]
  rfl

@[simp] theorem absolutePath_sketch (rs : Regions) (n : Nat) :
    rs.sketch.absolutePath n = rs.absolutePath n := by
  simp [absolutePath]

@[simp] theorem functionRef_sketch (rs : Regions) (ns : String) (n : Nat) :
    rs.sketch.functionRef ns n = rs.functionRef ns n := by
  simp [functionRef, functionPath]

@[simp] theorem symbolPath_sketch (rs : Regions) (n : Nat) (name : String) :
    rs.sketch.symbolPath n name = rs.symbolPath n name := by
  have hlookup : rs.sketch.lookup n name = rs.lookup n name := by
    unfold lookup
    simp only [ancestors_sketch, at?_sketch]
    rfl
  unfold symbolPath
  simp only [hlookup, absolutePath_sketch]

/-! ## Updates -/

@[simp] theorem length_update (rs : Regions) (n : Nat) (f : Region → Region) :
    (rs.update n f).length = rs.length := by
  simp [update]

theorem at?_update_self (f : Region → Region) (h : n < rs.length) :
    (rs.update n f).at? n = f (rs.at? n) := by
  unfold update at?
  rw [List.getElem?_modify_eq, List.getElem?_eq_getElem h]
  rfl

theorem at?_update_ne (f : Region → Region) (h : m ≠ n) : (rs.update n f).at? m = rs.at? m := by
  unfold update at?
  rw [List.getElem?_modify_ne _ _ (Ne.symm h)]

theorem map_update {β : Type} {k : Region → β} {f : Region → Region} (h : ∀ r, k (f r) = k r) (rs : Regions)
    (n : Nat) : (rs.update n f).map k = rs.map k := by
  unfold update
  apply List.ext_getElem?
  intro m
  rw [List.getElem?_map, List.getElem?_map]
  by_cases hm : m = n
  · subst hm
    rw [List.getElem?_modify_eq]
    cases rs[m]? with
    | none => rfl
    | some r => exact congrArg some (h r)
  · rw [List.getElem?_modify_ne _ _ (Ne.symm hm)]

theorem sketch_update {f : Region → Region} (h : ∀ r, (f r).bare = r.bare) (rs : Regions) (n : Nat) :
    (rs.update n f).sketch = rs.sketch :=
  map_update h rs n

theorem commands_update {f : Region → Region} (h : ∀ r, (f r).commands = r.commands) (rs : Regions)
    (n m : Nat) : ((rs.update n f).at? m).commands = (rs.at? m).commands := by
  by_cases hm : m = n
  · subst hm
    unfold update at?
    rw [List.getElem?_modify_eq]
    cases rs[m]? with
    | none => rfl
    | some r => exact h r
  · rw [at?_update_ne _ hm]

end Regions

theorem Region.bare_emit (cs : List Command) (r : Region) : (r.emit cs).bare = r.bare := rfl

theorem Region.bare_prepend (cs : List Command) (r : Region) : (r.prepend cs).bare = r.bare := rfl

theorem Region.bare_mark (flag : String) (r : Region) : (r.mark flag).bare = r.bare := by
  unfold mark
  split <;> rfl

/-! ## Identifiers -/

def isNameChar (c : Char) : Bool := c.isLower || c.isDigit || c = '_'

def isIdentifier (s : String) : Bool := s ≠ "" && s.toList.all isNameChar

theorem isIdentifier_ne_empty {s : String} (h : isIdentifier s = true) : s ≠ "" := by
  simp only [isIdentifier, Bool.and_eq_true, decide_eq_true_eq] at h
  exact h.1

theorem isIdentifier_mem {s : String} (h : isIdentifier s = true) {c : Char} (hc : c ∈ s.toList) :
    isNameChar c = true := by
  simp only [isIdentifier, Bool.and_eq_true, List.all_eq_true] at h
  exact h.2 c hc

/-- An identifier holds no character that separates the parts of a path. -/
theorem isIdentifier_not_mem {s : String} (h : isIdentifier s = true) {c : Char}
    (hc : isNameChar c = false) : c ∉ s.toList := by
  intro hmem
  rw [isIdentifier_mem h hmem] at hc
  exact Bool.noConfusion hc

theorem map_eq_self {s : String} {f : Char → Char} (h : ∀ c ∈ s.toList, f c = c) : s.map f = s := by
  apply String.toList_inj.mp
  rw [String.toList_map]
  exact (List.map_congr_left h).trans (List.map_id _)

theorem holder_identifier {s : String} (h : isIdentifier s = true) : holder s = s := by
  refine map_eq_self ?_
  intro c hc
  have hname := isIdentifier_mem h hc
  simp only [isNameChar, Bool.or_eq_true, decide_eq_true_eq] at hname
  unfold holderChar
  rw [if_pos]
  rcases hname with (hlow | hdigit) | hus
  · have halpha : (c.isUpper || c.isLower) = true := by rw [hlow, Bool.or_true]
    simp [Char.isAlphanum, show c.isAlpha = true from halpha]
  · simp [Char.isAlphanum, hdigit]
  · simp [hus]

theorem holder_eq_self {s : String} (h : (s.toList.all fun c => decide (holderChar c = c)) = true) : holder s = s :=
  map_eq_self fun c hc => of_decide_eq_true (List.all_eq_true.1 h c hc)

theorem isNameChar_lt {c : Char} (h : isNameChar c = true) : c.toNat < 128 := by
  simp only [isNameChar, Bool.or_eq_true, decide_eq_true_eq] at h
  rcases h with (hlow | hdigit) | rfl
  · have hrange : (decide ('a'.val ≤ c.val) && decide (c.val ≤ 'z'.val)) = true := hlow
    simp only [Bool.and_eq_true, decide_eq_true_eq, UInt32.le_iff_toNat_le] at hrange
    have hle : c.toNat ≤ 122 := hrange.2
    omega
  · simp only [Char.isDigit, Bool.and_eq_true, decide_eq_true_eq, UInt32.le_iff_toNat_le] at hdigit
    have hle : c.toNat ≤ 57 := hdigit.2
    omega
  · decide

/-- The spelling of a text in file paths, character by character. -/
theorem resourceSegment_eq_map {s : String} (h : s ≠ "") :
    Regions.resourceSegment s = s.map fun c => Text.resourceChar (if c = '$' then '-' else c) := by
  have hmap : (s.map fun c => if c = '$' then '-' else c) ≠ "" := mt String.map_eq_empty.1 h
  apply String.toList_inj.1
  unfold Regions.resourceSegment Text.resourceName
  rw [if_neg hmap, String.toList_ofList, String.toList_map, String.toList_map, List.map_map]
  rfl

theorem isResourceChar_lt {c : Char} (h : Text.isResourceChar c = true) : c.toNat < 128 := by
  simp only [Text.isResourceChar, Bool.or_eq_true, Bool.and_eq_true, decide_eq_true_eq] at h
  obtain (((⟨-, hz⟩ | ⟨-, hz⟩) | rfl) | rfl) | rfl := h
  · exact Nat.lt_of_le_of_lt hz (by decide)
  · exact Nat.lt_of_le_of_lt hz (by decide)
  all_goals decide

theorem resourceSegment_resourceName {s : String} (h : Text.isResourceName s = true) :
    Regions.resourceSegment s = s := by
  simp only [Text.isResourceName, Bool.and_eq_true, List.all_eq_true, decide_eq_true_eq] at h
  rw [resourceSegment_eq_map h.1]
  refine map_eq_self fun c hc => ?_
  exact Text.forall_small_char (P := fun c => Text.isResourceChar c = true →
    Text.resourceChar (if c = '$' then '-' else c) = c) (by decide) (isResourceChar_lt (h.2 c hc)) (h.2 c hc)

theorem isResourceName_identifier {s : String} (h : isIdentifier s = true) :
    Text.isResourceName s = true := by
  simp only [Text.isResourceName, Bool.and_eq_true, List.all_eq_true, decide_eq_true_eq]
  refine ⟨isIdentifier_ne_empty h, fun c hc => ?_⟩
  have hname := isIdentifier_mem h hc
  exact Text.forall_small_char (P := fun c => isNameChar c = true → Text.isResourceChar c = true) (by decide)
    (isNameChar_lt hname) hname

theorem resourceSegment_identifier {s : String} (h : isIdentifier s = true) :
    Regions.resourceSegment s = s :=
  resourceSegment_resourceName (isResourceName_identifier h)

/-! ## Paths -/

/-- What stands behind the last separator. -/
theorem append_separator_inj {x y a b : List Char} {c : Char} (ha : c ∉ a) (hb : c ∉ b)
    (h : x ++ c :: a = y ++ c :: b) : a = b := by
  have hlast : ∀ z l : List Char, c ∉ l → ((z ++ c :: l).reverse.takeWhile (· ≠ c)) = l.reverse := by
    intro z l hl
    rw [List.reverse_append, List.reverse_cons, List.append_assoc, List.takeWhile_append_of_pos]
    · simp
    · intro d hd
      simp only [List.mem_reverse] at hd
      simp only [ne_eq, decide_not, Bool.not_eq_eq_eq_not, Bool.not_true, decide_eq_false_iff_not]
      rintro rfl
      exact hl hd
  have htails := congrArg (fun l => l.reverse.takeWhile (· ≠ c)) h
  simp only [hlast x a ha, hlast y b hb] at htails
  exact List.reverse_inj.mp htails

namespace Regions

variable {rs : Regions} {n m : Nat}

theorem segments_eq (rs : Regions) (n : Nat) :
    rs.segments n = (((rs.at? n).outer.map fun m => (rs.at? m).segment).reverse
      ++ [(rs.at? n).segment]) := by
  simp [segments, ancestors]

theorem absolutePath_inner (h : (rs.at? n).outer ≠ []) :
    ∃ front, rs.absolutePath n = front ++ "." ++ (rs.at? n).segment := by
  refine ⟨".".intercalate ((rs.at? n).outer.map fun m => (rs.at? m).segment).reverse, ?_⟩
  rw [absolutePath, segments_eq, String.intercalate_append_of_ne_nil (by simpa using h) (by simp),
    String.intercalate_singleton]

theorem functionPath_inner (h : (rs.at? n).outer ≠ []) :
    ∃ front, rs.functionPath n = front ++ "/" ++ resourceSegment (rs.at? n).segment := by
  refine ⟨"/".intercalate
    (((rs.at? n).outer.map fun m => (rs.at? m).segment).reverse.map resourceSegment), ?_⟩
  rw [functionPath, segments_eq, List.map_append,
    String.intercalate_append_of_ne_nil (by simpa using h) (by simp), List.map_singleton,
    String.intercalate_singleton]

/-- A region whose name is an identifier and the first of its siblings with this name. -/
structure Named (rs : Regions) (n : Nat) : Prop where
  inner : (rs.at? n).outer ≠ []
  identifier : isIdentifier (rs.at? n).name = true
  first : (rs.at? n).occurrence = 0

theorem Named.segment (h : rs.Named n) : (rs.at? n).segment = (rs.at? n).name := by
  simp [Region.segment, h.first]

theorem name_eq_of_holder_eq (hn : rs.Named n) (hm : rs.Named m)
    (h : holder (rs.absolutePath n) = holder (rs.absolutePath m)) :
    (rs.at? n).name = (rs.at? m).name := by
  obtain ⟨front, hpath⟩ := absolutePath_inner hn.inner
  obtain ⟨front', hpath'⟩ := absolutePath_inner hm.inner
  have hdot : holderChar '.' = '.' := by decide
  have hchars := congrArg String.toList h
  rw [hpath, hpath', hn.segment, hm.segment] at hchars
  simp only [holder, String.toList_map, String.toList_append, List.map_append,
    List.append_assoc] at hchars
  have hself := congrArg String.toList (holder_identifier hn.identifier)
  have hself' := congrArg String.toList (holder_identifier hm.identifier)
  simp only [holder, String.toList_map] at hself hself'
  rw [hself, hself'] at hchars
  have hsep : List.map holderChar ".".toList = ['.'] := by decide
  rw [hsep] at hchars
  exact String.toList_inj.mp (append_separator_inj (isIdentifier_not_mem hn.identifier (by decide))
    (isIdentifier_not_mem hm.identifier (by decide)) hchars)

theorem name_eq_of_functionRef_eq (ns : String) (hn : rs.Named n) (hm : rs.Named m)
    (h : rs.functionRef ns n = rs.functionRef ns m) : (rs.at? n).name = (rs.at? m).name := by
  obtain ⟨front, hpath⟩ := functionPath_inner hn.inner
  obtain ⟨front', hpath'⟩ := functionPath_inner hm.inner
  have hchars := congrArg String.toList h
  rw [functionRef, functionRef, hpath, hpath', hn.segment, hm.segment,
    resourceSegment_identifier hn.identifier, resourceSegment_identifier hm.identifier] at hchars
  simp only [String.toList_append, List.append_assoc, List.append_cancel_left_eq] at hchars
  have hsep : "/".toList = ['/'] := by decide
  rw [hsep] at hchars
  exact String.toList_inj.mp (append_separator_inj (isIdentifier_not_mem hn.identifier (by decide))
    (isIdentifier_not_mem hm.identifier (by decide)) hchars)

theorem slash_not_mem_resourceSegment (s : String) : '/' ∉ (resourceSegment s).toList := by
  have hchar : ∀ c, Text.resourceChar c ≠ '/' := by
    intro c
    simp only [Text.resourceChar]
    split
    · rename_i hres
      intro heq
      rw [heq] at hres
      exact absurd hres (by decide)
    · decide
  unfold resourceSegment Text.resourceName
  split
  · decide
  · rw [String.toList_ofList]
    intro hmem
    obtain ⟨c, -, hc⟩ := List.mem_map.mp hmem
    exact hchar c hc

theorem functionRef_root_ne (ns : String) (hroot : (rs.at? 0).outer = [])
    (hn : (rs.at? n).outer ≠ []) : rs.functionRef ns 0 ≠ rs.functionRef ns n := by
  obtain ⟨front, hpath⟩ := functionPath_inner hn
  have hpath' : rs.functionPath 0 = resourceSegment (rs.at? 0).segment := by
    simp [functionPath, segments_eq, hroot]
  intro h
  have hchars := congrArg String.toList h
  rw [functionRef, functionRef, hpath, hpath'] at hchars
  simp only [String.toList_append, List.append_assoc, List.append_cancel_left_eq] at hchars
  apply slash_not_mem_resourceSegment (rs.at? 0).segment
  rw [hchars]
  simp

/-- The functions of the regions, by the names under which they are called. -/
def callable (rs : Regions) (ns : String) (f : String) : Option (List Command) :=
  ((List.range rs.length).find? fun n => rs.functionRef ns n = f).map fun n => (rs.at? n).commands

/-- Regions below a global one, of distinct names. -/
structure Distinct (rs : Regions) : Prop where
  root : (rs.at? 0).outer = []
  named : ∀ n, n ≠ 0 → n < rs.length → rs.Named n
  injective : ∀ n m, n ≠ 0 → n < rs.length → m ≠ 0 → m < rs.length →
    (rs.at? n).name = (rs.at? m).name → n = m

theorem callable_functionRef (h : rs.Distinct) (ns : String) (hn : n ≠ 0) (hlt : n < rs.length) :
    rs.callable ns (rs.functionRef ns n) = some (rs.at? n).commands := by
  have hfind : (List.range rs.length).find? (fun m => rs.functionRef ns m = rs.functionRef ns n)
      = some n := by
    cases hfound : (List.range rs.length).find? fun m => rs.functionRef ns m = rs.functionRef ns n with
    | none =>
        have := List.find?_eq_none.mp hfound n (List.mem_range.mpr hlt)
        simp at this
    | some m =>
        have hm := List.find?_some hfound
        have hlt' := List.mem_range.mp (List.mem_of_find?_eq_some hfound)
        simp only [decide_eq_true_eq] at hm
        by_cases hm0 : m = 0
        · subst hm0
          exact absurd hm (functionRef_root_ne ns h.root (h.named n hn hlt).inner)
        · have hname := name_eq_of_functionRef_eq ns (h.named m hm0 hlt') (h.named n hn hlt) hm
          rw [h.injective m n hm0 hlt' hn hlt hname]
  rw [callable, hfind]
  rfl

end Regions

/-! ## The regions of a tree -/

/-- The region of a node before anything is generated for it. -/
def regionOf (node : ScopeNode) : Region :=
  { name := node.name, kind := node.kind, outer := node.outer }

theorem Regions.at?_append_left {rs : Regions} {r : Region} {n : Nat} (h : n < rs.length) :
    Regions.at? (rs ++ [r]) n = rs.at? n := by
  unfold Regions.at?
  rw [List.getElem?_append_left h]

theorem Regions.at?_append_length (rs : Regions) (r : Region) :
    Regions.at? (rs ++ [r]) rs.length = r := by
  simp [Regions.at?]

theorem foldl_addChild {s : Stream} {t : ScopeTree} (h : ScopeTree.ofStream s = .ok t)
    (hnodup : (regionNames s).Nodup) (hnames : ∀ n, n ≠ 0 → n < t.nodes.length → (t.node n).name ≠ "")
    (ns : String) (k : Nat) (hk : k + 1 ≤ t.nodes.length) :
    ∃ rs : Regions, rs.length = k + 1 ∧ rs.at? 0 = { name := ns, kind := .global } ∧
      (∀ n, n ≠ 0 → n ≤ k → rs.at? n = regionOf (t.node n)) ∧
      (List.range' 1 k).foldl
        (fun rs n => rs.addChild ((t.node n).parent?.getD 0) (t.node n).name (t.node n).kind)
        (Regions.ofRoot ns) = rs := by
  induction k with
  | zero =>
      refine ⟨Regions.ofRoot ns, rfl, rfl, ?_, rfl⟩
      intro n hn hle
      omega
  | succ k ih =>
      obtain ⟨rs, hlen, hroot, hinner, hfold⟩ := ih (by omega)
      obtain ⟨p, hp, houter⟩ := @ScopeTree.outer_node _ _ h (1 + k) (by simp [ScopeTree.root]) (by omega)
      have hparent : (t.node (1 + k)).parent?.getD 0 = p := by simp [ScopeNode.parent?, houter]
      have hpouter : (rs.at? p).outer = (t.node p).outer := by
        by_cases hp0 : p = 0
        · subst hp0
          rw [hroot]
          exact (ScopeTree.outer_root h).symm
        · rw [hinner p hp0 (by omega)]
          rfl
      have hsame : ((rs.children p).countP fun m => (rs.at? m).name = (t.node (1 + k)).name) = 0 := by
        rw [List.countP_eq_zero]
        intro m hm
        simp only [Regions.children, List.mem_filter, List.mem_range, decide_eq_true_eq] at hm
        have hm0 : m ≠ 0 := by
          rintro rfl
          rw [Regions.parent?, hroot] at hm
          exact absurd hm.2 (by simp)
        rw [hinner m hm0 (by omega)]
        intro hname
        have hname' : (t.node m).name = (t.node (1 + k)).name := of_decide_eq_true hname
        have := ScopeTree.eq_of_name_eq h hnodup hm0 (by simp [ScopeTree.root])
          (hnames (1 + k) (by omega) (by omega)) hname'
        omega
      refine ⟨rs ++ [regionOf (t.node (1 + k))], by simp [hlen], ?_, ?_, ?_⟩
      · rw [Regions.at?_append_left (by omega), hroot]
      · intro n hn hle
        by_cases hnk : n ≤ k
        · rw [Regions.at?_append_left (by omega), hinner n hn hnk]
        · have hnk' : n = rs.length := by omega
          rw [hnk', Regions.at?_append_length, hlen, Nat.add_comm]
      · rw [List.range'_1_concat, List.foldl_append, hfold]
        simp only [List.foldl_cons, List.foldl_nil, Regions.addChild, hparent, hsame, hpouter, ← houter]
        rfl

/-- The regions of a tree are its nodes, below a global region named after the pack. -/
theorem at?_regionsOf {s : Stream} {t : ScopeTree} (h : ScopeTree.ofStream s = .ok t)
    (hnodup : (regionNames s).Nodup) (hnames : ∀ n, n ≠ 0 → n < t.nodes.length → (t.node n).name ≠ "")
    (ns : String) :
    (regionsOf ns t).length = t.nodes.length ∧
      (regionsOf ns t).at? 0 = { name := ns, kind := .global } ∧
      ∀ n, n ≠ 0 → n < t.nodes.length → (regionsOf ns t).at? n = regionOf (t.node n) := by
  have hpos := ScopeTree.length_nodes h
  obtain ⟨rs, hlen, hroot, hinner, hfold⟩ := foldl_addChild h hnodup hnames ns
    (t.nodes.length - 1) (by omega)
  have hinner' : t.inner = List.range' 1 (t.nodes.length - 1) := by
    unfold ScopeTree.inner
    rw [List.range_eq_range', List.tail_range']
  have heq : regionsOf ns t = rs := by
    unfold regionsOf
    rw [hinner', ← hfold]
  rw [heq]
  refine ⟨by omega, hroot, ?_⟩
  intro n hn hlt
  exact hinner n hn (by omega)

end Datapack.Generation
