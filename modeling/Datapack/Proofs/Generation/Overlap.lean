import Datapack.Proofs.Generation.Paths

/-!
# Variables that overlap

A variable lives under the path of the region that declares it, and so do the regions inside.  The places
of two variables are therefore separate, unless one is a compound of data by the name of a region in
which the other lives: setting the first then takes the second away.
-/

namespace Datapack.Command

/-- The data of one slot lies inside that of another. -/
def Slot.Contains (a b : Slot) : Prop := ∃ rest, b.path = a.path ++ "." ++ rest

/-- Setting one slot may change what the other holds: they are the same score or the same data, or the
data of one lies inside that of the other. -/
def Slot.Overlaps (a b : Slot) : Prop :=
  a.space = b.space ∧ a.target = b.target ∧
    (a.path = b.path ∨ (a.space = .storage ∧ (a.Contains b ∨ b.Contains a)))

end Datapack.Command

namespace Datapack.Generation

open Ir Command

/-- A region directly inside `m` has the name `x` and is `n` or around it. -/
def Regions.Covers (rs : Regions) (m : Nat) (x : String) (n : Nat) : Prop :=
  ∃ c ∈ rs.ancestors n, rs.parent? c = some m ∧ (rs.at? c).segment = x

instance (rs : Regions) (m : Nat) (x : String) (n : Nat) : Decidable (rs.Covers m x n) :=
  inferInstanceAs (Decidable (∃ c ∈ rs.ancestors n, rs.parent? c = some m ∧ (rs.at? c).segment = x))

theorem dot_not_mem_numbered {x : String} (hx : isIdentifier x = true) (k : Nat) :
    '.' ∉ (numbered x k).toList := by
  have hyphen : '.' ∉ "-".toList := by decide
  have hname : '.' ∉ x.toList := isIdentifier_not_mem hx (by decide)
  have hnumber : '.' ∉ (toString k).toList := isIdentifier_not_mem (isIdentifier_toString k) (by decide)
  unfold numbered
  split
  · exact hname
  · simp only [String.toList_append, List.mem_append, not_or]
    exact ⟨⟨hname, hyphen⟩, hnumber⟩

/-- The path of data is the keys of the regions and the key of the variable. -/
theorem holder_path (rs : Regions) (n : Nat) {x : String} (hx : isIdentifier x = true) :
    holder (rs.absolutePath n ++ "." ++ x) = ".".intercalate ((rs.segments n).map holder ++ [x]) := by
  have hjoined : rs.absolutePath n ++ "." ++ x = ".".intercalate (rs.segments n ++ [x]) := by
    rw [String.intercalate_append_of_ne_nil (Regions.segments_ne_nil rs n) (by simp),
      String.intercalate_singleton, Regions.absolutePath]
  calc holder (rs.absolutePath n ++ "." ++ x)
    _ = (".".intercalate (rs.segments n ++ [x])).map holderChar := by rw [hjoined, holder]
    _ = ".".intercalate ((rs.segments n ++ [x]).map holder) := by
      rw [map_intercalate, map_dot]
      rfl
    _ = ".".intercalate ((rs.segments n).map holder ++ [x]) := by
      rw [List.map_append, List.map_singleton, holder_identifier hx]

theorem append_singleton_eq_append_iff {α : Type} {xs ys : List α} {a : α} :
    (∃ zs, zs ≠ [] ∧ xs ++ [a] = ys ++ zs) ↔ ys <+: xs := by
  constructor
  · rintro ⟨zs, hne, heq⟩
    obtain ⟨front, last, rfl⟩ := List.eq_nil_or_concat zs |>.resolve_left hne
    rw [List.concat_eq_append, ← List.append_assoc] at heq
    exact ⟨front, (List.append_inj' heq rfl).1.symm⟩
  · rintro ⟨zs, rfl⟩
    exact ⟨zs ++ [a], by simp, by rw [List.append_assoc]⟩

section Identifiers

variable {s : Stream} {t : ScopeTree} {ns : String} (h : ScopeTree.ofStream s = .ok t)
  (hns : isIdentifier ns = true) (hnames : ∀ name ∈ regionNames s, isIdentifier name = true)

include h hnames

theorem isIdentifier_region {n : Nat} (hn : n ≠ 0) (hlt : n < t.nodes.length) :
    isIdentifier ((regionsOf ns t).at? n).name = true := by
  obtain ⟨-, -, -, -, hname⟩ := spec_regionsOf h ns
  rw [hname n hn hlt]
  exact hnames _ (List.mem_of_getElem? (ScopeTree.regionNames_getElem? h hn hlt))

/-- A key that a region adds to a path is an identifier only if it is the name of the region. -/
theorem holder_segment_eq_iff {n : Nat} (hn : n ≠ 0) (hlt : n < t.nodes.length) {x : String}
    (hx : isIdentifier x = true) :
    holder ((regionsOf ns t).at? n).segment = x ↔ ((regionsOf ns t).at? n).segment = x := by
  constructor
  · intro heq
    have hname : isIdentifier ((regionsOf ns t).at? n).name = true := isIdentifier_region h hnames hn hlt
    rw [holder_segment hname] at heq
    obtain ⟨hsame, hzero⟩ := numbered_inj hname hx (l := 0) heq
    rw [Region.segment, if_pos hzero, hsame]
  · intro heq
    rw [heq, holder_identifier hx]

include hns

theorem dot_not_mem_keys {n : Nat} (hlt : n < t.nodes.length) {x : String} (hx : isIdentifier x = true) :
    ∀ key ∈ ((regionsOf ns t).segments n).map holder ++ [x], '.' ∉ key.toList := by
  obtain ⟨hlength, htree, -, hroot, -⟩ := spec_regionsOf h ns
  intro key hkey
  rw [List.mem_append, List.mem_singleton, Regions.segments, List.map_reverse, List.mem_reverse,
    List.map_map, List.mem_map] at hkey
  rcases hkey with ⟨c, hc, rfl⟩ | rfl
  · have hclt : c < t.nodes.length :=
      Nat.lt_of_le_of_lt (htree.le_of_mem_ancestors (hlength ▸ hlt) hc) hlt
    by_cases hc0 : c = 0
    · rw [hc0, Function.comp_apply, hroot, holder_identifier hns]
      exact isIdentifier_not_mem hns (by decide)
    · have hname : isIdentifier ((regionsOf ns t).at? c).name = true := isIdentifier_region h hnames hc0 hclt
      rw [Function.comp_apply, holder_segment hname]
      exact dot_not_mem_numbered hname _
  · exact isIdentifier_not_mem hx (by decide)

variable {m n : Nat} (hm : m < t.nodes.length) (hn : n < t.nodes.length) {x y : String}
  (hx : isIdentifier x = true) (hy : isIdentifier y = true)

include hm hn hx hy

/-- The path of a variable tells the variable. -/
theorem eq_of_holder_path (heq : holder ((regionsOf ns t).absolutePath m ++ "." ++ x)
    = holder ((regionsOf ns t).absolutePath n ++ "." ++ y)) : m = n ∧ x = y := by
  obtain ⟨hlength, htree, -⟩ := spec_regionsOf h ns
  rw [holder_path _ _ hx, holder_path _ _ hy] at heq
  have hkeys := Text.intercalate_inj toList_dot (dot_not_mem_keys h hns hnames hm hx)
    (dot_not_mem_keys h hns hnames hn hy) (by simp) (by simp) heq
  obtain ⟨hfront, hlast⟩ := List.append_inj' hkeys rfl
  have hapart := apart_regionsOf h ns hnames fun _ => holder_segment
  exact ⟨hapart.eq_of_segments htree (hlength ▸ hm) (hlength ▸ hn) hfront, List.singleton_inj.1 hlast⟩

/-- A variable lies inside another exactly when it lives in a region by the name of the other. -/
theorem exists_holder_path_iff :
    (∃ rest, holder ((regionsOf ns t).absolutePath n ++ "." ++ y)
        = holder ((regionsOf ns t).absolutePath m ++ "." ++ x) ++ "." ++ rest)
      ↔ (regionsOf ns t).Covers m x n := by
  obtain ⟨hlength, htree, -⟩ := spec_regionsOf h ns
  have hapart := apart_regionsOf h ns hnames fun _ => holder_segment
  rw [holder_path _ _ hx, holder_path _ _ hy,
    Text.intercalate_append_iff toList_dot (dot_not_mem_keys h hns hnames hm hx)
      (dot_not_mem_keys h hns hnames hn hy) (by simp) (by simp),
    append_singleton_eq_append_iff, hapart.snoc_prefix_iff htree (hlength ▸ hm) (hlength ▸ hn)]
  refine exists_congr fun c => and_congr_right fun _ => and_congr_right fun hparent => ?_
  obtain ⟨hlt, hclt⟩ := htree.lt_of_parent? hparent
  exact holder_segment_eq_iff h hnames (Nat.ne_of_gt (Nat.zero_lt_of_lt hlt)) (hlength ▸ hclt) hx

end Identifiers

/-- Two variables overlap exactly when both are data and one lives in a region by the name of the other. -/
theorem place_overlaps_iff {s : Stream} {t : ScopeTree} {ns : String} (h : ScopeTree.ofStream s = .ok t)
    (hns : isIdentifier ns = true) (hnames : ∀ name ∈ regionNames s, isIdentifier name = true)
    {m n : Nat} (hm : m < t.nodes.length) (hn : n < t.nodes.length) {x y : String}
    (hx : isIdentifier x = true) (hy : isIdentifier y = true) (hne : (m, x) ≠ (n, y)) (a b : Ty) :
    (place ns ((regionsOf ns t).absolutePath m ++ "." ++ x) a).Overlaps
        (place ns ((regionsOf ns t).absolutePath n ++ "." ++ y) b) ↔
      Space.ofType a = .storage ∧ Space.ofType b = .storage ∧
        ((regionsOf ns t).Covers m x n ∨ (regionsOf ns t).Covers n y m) := by
  have hpaths : holder ((regionsOf ns t).absolutePath m ++ "." ++ x)
      ≠ holder ((regionsOf ns t).absolutePath n ++ "." ++ y) := by
    intro heq
    obtain ⟨rfl, rfl⟩ := eq_of_holder_path h hns hnames hm hn hx hy heq
    exact hne rfl
  unfold place Slot.Overlaps Slot.Contains
  cases Space.ofType a with
  | score =>
      cases Space.ofType b with
      | score => simp [Slot.score, hpaths]
      | storage => simp [Slot.score, Slot.storage]
  | storage =>
      cases Space.ofType b with
      | score => simp [Slot.score, Slot.storage]
      | storage =>
          simp only [Slot.storage, hpaths, false_or, true_and]
          exact or_congr (exists_holder_path_iff h hns hnames hm hn hx hy)
            (exists_holder_path_iff h hns hnames hn hm hy hx)

private def label (id : String) : Variable := { id, name := id, type := .data .string }

/-- Two blocks of one name declare a text of one name. -/
def twins : Stream :=
  [.scopeBegin "a" .block, .declare (some (.var (label "x"))), .scopeEnd "a" .block,
    .scopeBegin "a" .block, .declare (some (.var (label "x"))), .scopeEnd "a" .block]

theorem not_overlaps_twins :
    ∃ t, ScopeTree.ofStream twins = .ok t ∧
      ¬(place "mcfc" ((regionsOf "mcfc" t).absolutePath 1 ++ "." ++ "x") (.data .string)).Overlaps
        (place "mcfc" ((regionsOf "mcfc" t).absolutePath 2 ++ "." ++ "x") (.data .string)) := by
  obtain ⟨t, ht, hlength, hcovers, hcovers'⟩ : ∃ t, ScopeTree.ofStream twins = .ok t ∧ 2 < t.nodes.length ∧
      ¬(regionsOf "mcfc" t).Covers 1 "x" 2 ∧ ¬(regionsOf "mcfc" t).Covers 2 "x" 1 :=
    ⟨_, rfl, by decide, by decide +kernel, by decide +kernel⟩
  refine ⟨t, ht, ?_⟩
  rw [place_overlaps_iff ht (by decide) (by decide) (Nat.lt_of_succ_lt hlength) hlength (by decide)
    (by decide) (by decide)]
  exact fun ⟨_, _, h⟩ => h.elim hcovers hcovers'

/-- A block by the name of a text declared around it declares a text of its own. -/
def covered : Stream :=
  [.declare (some (.var (label "b"))), .assign (some (.var (label "b"))) (some (.literal (.str "outer"))),
    .scopeBegin "b" .block, .declare (some (.var (label "x"))),
    .assign (some (.var (label "x"))) (some (.literal (.str "inner"))), .scopeEnd "b" .block, .jump "b"]

/-- The inner text lies inside the outer one. -/
theorem overlaps_covered :
    Program.isValid { code := covered } = true ∧ (∀ name ∈ regionNames covered, isIdentifier name = true) ∧
      Declares covered 0 (label "b") ∧ Declares covered 3 (label "x") ∧
      ∃ t, ScopeTree.ofStream covered = .ok t ∧ t.enclosingAt 0 = 0 ∧ t.enclosingAt 3 = 1 ∧
        (place "mcfc" ((regionsOf "mcfc" t).absolutePath 0 ++ "." ++ "b") (.data .string)).Overlaps
          (place "mcfc" ((regionsOf "mcfc" t).absolutePath 1 ++ "." ++ "x") (.data .string)) := by
  have hplace : ∀ path, place "mcfc" path (.data .string) = .storage (varsStorage "mcfc") (holder path) :=
    fun _ => rfl
  obtain ⟨t, ht, houter, hinner, hpath, hpath'⟩ : ∃ t, ScopeTree.ofStream covered = .ok t ∧
      t.enclosingAt 0 = 0 ∧ t.enclosingAt 3 = 1 ∧
      holder ((regionsOf "mcfc" t).absolutePath 0 ++ "." ++ "b") = "mcfc.b" ∧
      holder ((regionsOf "mcfc" t).absolutePath 1 ++ "." ++ "x") = "mcfc.b.x" :=
    ⟨_, rfl, by decide, by decide, by decide +kernel, by decide +kernel⟩
  refine ⟨by decide, by decide, ⟨_, rfl, rfl, rfl⟩, ⟨_, rfl, rfl, rfl⟩, t, ht, houter, hinner, ?_⟩
  rw [hplace, hplace, hpath, hpath']
  exact ⟨rfl, rfl, .inr ⟨rfl, .inl ⟨"x", by decide⟩⟩⟩

end Datapack.Generation
