import Datapack.Pack.Manifest
import Datapack.Proofs.Config.Version
import Datapack.Proofs.Lookup
import Mathlib.Data.List.Induction
import Mathlib.Data.List.Nodup
import Mathlib.Order.Bounds.Basic
import Mathlib.Order.Interval.Set.Basic

/-!
# What a manifest covers

The format of a version is the greatest among the oldest one and those of the releases that the version has
reached.  A newer version has reached all that an older one has, so the formats of the versions in a range lie
between the two formats of the range.  A manifest lists every directory once, with the range that was
registered last for it, and the span it writes is the least interval around its own format and the formats of
these ranges.  What is written is stated as a game reads it.
-/

namespace Datapack.Pack

open Config Json

/-! ## Formats -/

/-- The table up to the first release that a version has not reached. -/
def reached (v : Version) : List (Version × Nat) := formats.takeWhile fun e => !v.less e.1

theorem formats_pairwise : formats.Pairwise fun d e => d.2 ≤ e.2 := by decide

theorem bounds_of_mem_formats {e : Version × Nat} (h : e ∈ formats) :
    e.1.IsProper ∧ oldestFormat ≤ e.2 ∧ e.2 ≤ latestFormat := by
  have hall : ∀ e ∈ formats, e.1.IsProper ∧ oldestFormat ≤ e.2 ∧ e.2 ≤ latestFormat := by decide
  exact hall e h

theorem mem_formats_of_mem_reached {v : Version} {e : Version × Nat} (h : e ∈ reached v) : e ∈ formats :=
  (List.takeWhile_prefix _).subset h

theorem isGreatest_formatFor (v : Version) :
    IsGreatest {n | n = oldestFormat ∨ ∃ e ∈ reached v, e.2 = n} (formatFor v) := by
  have hsorted : (reached v).Pairwise fun d e => d.2 ≤ e.2 :=
    formats_pairwise.sublist (List.takeWhile_prefix _).sublist
  change IsGreatest _ (((reached v).getLast?.map (·.2)).getD oldestFormat)
  cases hlast : (reached v).getLast? with
  | none =>
      rw [List.getLast?_eq_none_iff] at hlast
      simp [hlast, IsGreatest, upperBounds]
  | some last =>
      obtain ⟨front, hfront⟩ := List.getLast?_eq_some_iff.1 hlast
      have hmem : last ∈ reached v := hfront ▸ List.mem_append_right front List.mem_cons_self
      refine ⟨.inr ⟨last, hmem, rfl⟩, ?_⟩
      rintro n (rfl | ⟨e, he, rfl⟩)
      · exact (bounds_of_mem_formats (mem_formats_of_mem_reached hmem)).2.1
      · rw [hfront] at he hsorted
        rcases List.mem_append.1 he with he | he
        · exact (List.pairwise_append.1 hsorted).2.2 e he last List.mem_cons_self
        · obtain rfl := List.mem_singleton.1 he
          exact le_rfl

theorem oldestFormat_le (v : Version) : oldestFormat ≤ formatFor v :=
  (isGreatest_formatFor v).2 (.inl rfl)

theorem le_latestFormat (v : Version) : formatFor v ≤ latestFormat := by
  rcases (isGreatest_formatFor v).1 with h | ⟨e, he, h⟩
  · rw [h]
    decide
  · rw [← h]
    exact (bounds_of_mem_formats (mem_formats_of_mem_reached he)).2.2

theorem takeWhile_prefix_takeWhile {α : Type} {p q : α → Bool} {xs : List α}
    (h : ∀ x ∈ xs, p x = true → q x = true) : xs.takeWhile p <+: xs.takeWhile q := by
  induction xs with
  | nil => exact List.prefix_rfl
  | cons x xs ih =>
      rw [List.forall_mem_cons] at h
      cases hp : p x with
      | false => simp [hp]
      | true => simpa [hp, h.1 hp] using ih h.2

theorem reached_subset {v w : Version} (hv : v.IsProper) (hw : w.IsProper) (h : v.rank ≤ w.rank) :
    reached v ⊆ reached w := by
  refine (takeWhile_prefix_takeWhile fun e he => ?_).subset
  have hproper := (bounds_of_mem_formats he).1
  simp only [Bool.not_eq_true', Bool.eq_false_iff, ne_eq, Version.less_iff hv hproper,
    Version.less_iff hw hproper, not_lt]
  exact fun hle => hle.trans h

theorem formatFor_mono {v w : Version} (hv : v.IsProper) (hw : w.IsProper) (h : v.rank ≤ w.rank) :
    formatFor v ≤ formatFor w := by
  refine (isGreatest_formatFor v).mono (isGreatest_formatFor w) ?_
  rintro n (hn | ⟨e, he, hn⟩)
  · exact .inl hn
  · exact .inr ⟨e, reached_subset hv hw h he, hn⟩

/-! ## Ranges -/

theorem formatRange_ordered {r : VersionRange} (hr : r.IsProper) (hordered : r.IsOrdered) :
    (formatRange r).1 ≤ (formatRange r).2 := by
  unfold formatRange
  dsimp only
  by_cases hmin : r.min.isUnset = true
  · rw [if_pos hmin]
    split
    · decide
    · exact oldestFormat_le r.max
  · rw [if_neg hmin]
    by_cases hmax : r.max.isUnset = true
    · rw [if_pos hmax]
      exact le_latestFormat r.min
    · rw [if_neg hmax]
      rcases hordered with h | h | h
      · exact absurd h hmin
      · exact absurd h hmax
      · exact formatFor_mono hr.1 hr.2 ((Version.compare_ne_gt_iff hr.1 hr.2).1 h)

theorem formatFor_mem_of_contains {r : VersionRange} {v : Version} (hr : r.IsProper) (hv : v.IsProper)
    (h : r.contains v = true) : formatFor v ∈ Set.Icc (formatRange r).1 (formatRange r).2 := by
  unfold formatRange
  constructor
  · dsimp only
    split
    · exact oldestFormat_le v
    · next hset => exact formatFor_mono hr.1 hv (VersionRange.min_le_of_contains hr hv h hset)
  · dsimp only
    split
    · exact le_latestFormat v
    · next hset => exact formatFor_mono hv hr.2 (VersionRange.le_max_of_contains hr hv h hset)

/-! ## Overlays -/

namespace Manifest

variable {m : Manifest}

/-- Register overlays one after the other. -/
def register (m : Manifest) (calls : List (String × VersionRange)) : Manifest :=
  calls.foldl (fun m call => m.addOverlay call.1 call.2) m

theorem register_concat (calls : List (String × VersionRange)) (call : String × VersionRange) :
    m.register (calls ++ [call]) = (m.register calls).addOverlay call.1 call.2 := by
  rw [register, List.foldl_append, List.foldl_cons, List.foldl_nil, register]

theorem mem_addOverlay {directory : String} {range : VersionRange} {o : Overlay} :
    o ∈ (m.addOverlay directory range).overlays ↔
      if o.directory = directory then o.range = range else o ∈ m.overlays := by
  obtain ⟨name, span⟩ := o
  unfold addOverlay
  split
  · next hany =>
      simp only [List.mem_map]
      split
      · next hname =>
          constructor
          · rintro ⟨o, -, heq⟩
            split at heq
            · exact (congrArg Overlay.range heq).symm
            · next hne => exact absurd ((congrArg Overlay.directory heq).trans hname) hne
          · rintro rfl
            obtain ⟨o, ho, hdirectory⟩ := List.any_eq_true.1 hany
            refine ⟨o, ho, ?_⟩
            rw [if_pos (of_decide_eq_true hdirectory), of_decide_eq_true hdirectory, ← hname]
      · next hname =>
          constructor
          · rintro ⟨o, ho, heq⟩
            split at heq
            · next hdirectory => exact absurd ((congrArg Overlay.directory heq).symm.trans hdirectory) hname
            · exact heq ▸ ho
          · exact fun ho => ⟨_, ho, if_neg hname⟩
  · next hany =>
      have hnew : ∀ o ∈ m.overlays, o.directory ≠ directory := by simpa using hany
      rw [List.mem_append, List.mem_singleton, Overlay.mk.injEq]
      split
      · next hname =>
          rw [or_iff_right fun ho => hnew _ ho hname, and_iff_right hname]
      · next hname => simp [hname]

theorem directories_addOverlay (m : Manifest) (directory : String) (range : VersionRange) :
    (m.addOverlay directory range).overlays.map (·.directory) =
      if directory ∈ m.overlays.map (·.directory) then m.overlays.map (·.directory)
      else m.overlays.map (·.directory) ++ [directory] := by
  have hany : (m.overlays.any (·.directory = directory)) = true ↔
      directory ∈ m.overlays.map (·.directory) := by simp
  unfold addOverlay
  simp only [hany]
  split
  · rw [List.map_map]
    refine List.map_congr_left fun o _ => ?_
    rw [Function.comp_apply]
    split <;> rfl
  · rw [List.map_append, List.map_singleton]

theorem format_register (m : Manifest) (calls : List (String × VersionRange)) :
    (m.register calls).format = m.format := by
  induction calls using List.reverseRecOn with
  | nil => rfl
  | append_singleton calls call ih =>
      rw [register_concat, ← ih]
      unfold addOverlay
      split <;> rfl

theorem mem_register {description : String} {version : Version} {calls : List (String × VersionRange)}
    {o : Overlay} : o ∈ (Manifest.register { description, version } calls).overlays ↔
      calls.reverse.lookup o.directory = some o.range := by
  induction calls using List.reverseRecOn with
  | nil => simp [register]
  | append_singleton calls call ih =>
      rw [register_concat, mem_addOverlay, ih, List.reverse_concat, List.lookup_cons]
      by_cases hname : o.directory = call.1
      · simp [hname, eq_comm]
      · simp [hname, beq_false_of_ne hname]

theorem nodup_register {description : String} {version : Version}
    {calls : List (String × VersionRange)} :
    ((Manifest.register { description, version } calls).overlays.map (·.directory)).Nodup := by
  induction calls using List.reverseRecOn with
  | nil => exact List.nodup_nil
  | append_singleton calls call ih =>
      rw [register_concat, directories_addOverlay]
      split
      · exact ih
      · next hnew =>
          rw [← List.concat_eq_append]
          exact ih.concat hnew

/-! ## The span -/

theorem foldl_span_iff {os : List Overlay} {span : Nat × Nat} {a b : Nat} :
    (a ≤ (os.foldl (fun span o => (min span.1 (formatRange o.range).1, max span.2 (formatRange o.range).2))
        span).1 ∧
      (os.foldl (fun span o => (min span.1 (formatRange o.range).1, max span.2 (formatRange o.range).2))
        span).2 ≤ b) ↔
      (a ≤ span.1 ∧ span.2 ≤ b) ∧ ∀ o ∈ os, a ≤ (formatRange o.range).1 ∧ (formatRange o.range).2 ≤ b := by
  induction os generalizing span with
  | nil => simp
  | cons o os ih =>
      rw [List.foldl_cons, ih, List.forall_mem_cons]
      simp only [Nat.le_min, Nat.max_le]
      rw [and_and_and_comm, and_assoc]

theorem supported_iff {a b : Nat} : (a ≤ m.supported.1 ∧ m.supported.2 ≤ b) ↔
    (a ≤ m.format ∧ m.format ≤ b) ∧
      ∀ o ∈ m.overlays, a ≤ (formatRange o.range).1 ∧ (formatRange o.range).2 ≤ b := foldl_span_iff

/-- The span lies in the intervals that hold the pack's own format and the formats of its overlays, and in
no other. -/
theorem supported_subset_iff
    (hordered : ∀ o ∈ m.overlays, (formatRange o.range).1 ≤ (formatRange o.range).2) {a b : Nat} :
    Set.Icc m.supported.1 m.supported.2 ⊆ Set.Icc a b ↔
      m.format ∈ Set.Icc a b ∧
        ∀ o ∈ m.overlays, Set.Icc (formatRange o.range).1 (formatRange o.range).2 ⊆ Set.Icc a b := by
  have hself : m.supported.1 ≤ m.format ∧ m.format ≤ m.supported.2 := (supported_iff.1 ⟨le_rfl, le_rfl⟩).1
  rw [Set.Icc_subset_Icc_iff (hself.1.trans hself.2), supported_iff]
  refine and_congr Iff.rfl (forall₂_congr fun o ho => ?_)
  rw [Set.Icc_subset_Icc_iff (hordered o ho)]

end Manifest

/-! ## The written manifest -/

def fieldOf? (name : String) : Tree → Option Tree
  | .record fields => fields.lookup name
  | _ => none

/-- The least and the greatest format that a record gives: as a pair in the field of the given name, or in
two fields. -/
def spanIn? (name : String) (t : Tree) : Option (Nat × Nat) :=
  match fieldOf? name t, fieldOf? "min_format" t, fieldOf? "max_format" t with
  | some (.list [.number least, .number greatest]), _, _ => some (least.toNat, greatest.toNat)
  | none, some (.number least), some (.number greatest) => some (least.toNat, greatest.toNat)
  | _, _, _ => none

/-- The span of formats that a manifest says it supports. -/
def readSpan? (t : Tree) : Option (Nat × Nat) := (fieldOf? "pack" t).bind (spanIn? "supported_formats")

/-- The directory of an overlay and its formats. -/
def readEntry? (t : Tree) : Option (String × Nat × Nat) :=
  match fieldOf? "directory" t, spanIn? "formats" t with
  | some (.text directory), some span => some (directory, span)
  | _, _ => none

def readEntries (t : Tree) : List (String × Nat × Nat) :=
  match (fieldOf? "overlays" t).bind (fieldOf? "entries") with
  | some (.list entries) => entries.filterMap readEntry?
  | _ => []

namespace Manifest

variable {m : Manifest}

theorem readEntries_overlaySection {pack : Tree} {entry : Nat × Nat → List (String × Tree)}
    (hentry : ∀ directory span, readEntry? (.record (("directory", .text directory) :: entry span))
      = some (directory, span)) :
    readEntries (.record (("pack", pack) :: m.overlaySection entry)) =
      m.overlays.map fun o => (o.directory, formatRange o.range) := by
  unfold overlaySection
  split
  · next hnone =>
      rw [List.isEmpty_iff.1 hnone]
      rfl
  · change (m.overlays.map _).filterMap readEntry? = _
    simp only [List.filterMap_map, Function.comp_def, hentry, List.filterMap_eq_map']

theorem read_tree (h : m.schema ≠ .legacy) : readSpan? m.tree = some m.supported ∧
    readEntries m.tree = m.overlays.map fun o => (o.directory, formatRange o.range) := by
  unfold tree
  dsimp only
  split
  · exact ⟨rfl, readEntries_overlaySection fun directory span => rfl⟩
  · exact ⟨rfl, readEntries_overlaySection fun directory span => rfl⟩
  · next hlegacy => exact absurd hlegacy h

/-- The versions that a text can spell have no negative component.  Of two such versions the newer one has no
older format.  The formats of a range are in order when its bounds are, and enclose those of all versions in
the range.  However overlays are registered, the span of the manifest is the least interval that holds its own
format and the formats of the ranges registered last, one for each directory, and a game that reads spans and
overlays finds exactly these. -/
theorem manifest_covers_versions :
    (∀ text v, Version.ofString text = .ok v → v.IsProper) ∧
      (∀ v w : Version, v.IsProper → w.IsProper → v.compare w ≠ .gt → formatFor v ≤ formatFor w) ∧
      (∀ r : VersionRange, r.IsProper →
        (r.IsOrdered → (formatRange r).1 ≤ (formatRange r).2) ∧
          ∀ v : Version, v.IsProper → r.contains v = true →
            formatFor v ∈ Set.Icc (formatRange r).1 (formatRange r).2) ∧
      ∀ (description : String) (version : Version) (calls : List (String × VersionRange)),
        (∀ call ∈ calls, call.2.IsProper ∧ call.2.IsOrdered) →
          let m := Manifest.register { description, version } calls
          (m.overlays.map (·.directory)).Nodup ∧
            (∀ o, o ∈ m.overlays ↔ calls.reverse.lookup o.directory = some o.range) ∧
            (∀ a b, Set.Icc m.supported.1 m.supported.2 ⊆ Set.Icc a b ↔ formatFor version ∈ Set.Icc a b ∧
              ∀ o ∈ m.overlays, Set.Icc (formatRange o.range).1 (formatRange o.range).2 ⊆ Set.Icc a b) ∧
            (m.schema ≠ .legacy → readSpan? m.tree = some m.supported ∧
              readEntries m.tree = m.overlays.map fun o => (o.directory, formatRange o.range)) := by
  refine ⟨fun text v => Version.isProper_of_ofString, ?_, ?_, ?_⟩
  · exact fun v w hv hw h => formatFor_mono hv hw ((Version.compare_ne_gt_iff hv hw).1 h)
  · exact fun r hr => ⟨formatRange_ordered hr, fun v hv h => formatFor_mem_of_contains hr hv h⟩
  · intro description version calls hcalls m
    have hordered : ∀ o ∈ m.overlays, (formatRange o.range).1 ≤ (formatRange o.range).2 := by
      intro o ho
      have hcall := hcalls _ (List.mem_reverse.1 (mem_of_lookup_eq_some (mem_register.1 ho)))
      exact formatRange_ordered hcall.1 hcall.2
    have hformat : m.format = formatFor version := format_register _ calls
    refine ⟨nodup_register, fun o => mem_register, fun a b => ?_, read_tree⟩
    rw [supported_subset_iff hordered, hformat]

/-- A directory that is registered twice, and one for all versions up to a release. -/
def reregistered : List (String × VersionRange) :=
  [("new", { min := ⟨1, 21, 9, .java⟩ }), ("old", { max := ⟨1, 18, 1, .java⟩ }),
    ("new", { min := ⟨1, 21, 5, .java⟩, max := ⟨1, 21, 6, .java⟩ })]

/-- The range that was registered first counts no more. -/
theorem manifest_covers_versions_reregistered :
    (∀ call ∈ reregistered, call.2.IsProper ∧ call.2.IsOrdered) ∧
      formatFor ⟨1, 21, 5, .java⟩ ∈ Set.Icc 71 80 ∧
      let m := Manifest.register { description := "", version := ⟨1, 20, 2, .java⟩ } reregistered
      ⟨"new", { min := ⟨1, 21, 5, .java⟩, max := ⟨1, 21, 6, .java⟩ }⟩ ∈ m.overlays ∧
        Set.Icc 71 80 ⊆ Set.Icc m.supported.1 m.supported.2 ∧ readSpan? m.tree = some (4, 80) := by
  have hcalls : ∀ call ∈ reregistered, call.2.IsProper ∧ call.2.IsOrdered := by decide
  obtain ⟨-, -, hranges, hmanifest⟩ := manifest_covers_versions
  obtain ⟨-, hmem, hspan, hread⟩ := hmanifest "" ⟨1, 20, 2, .java⟩ reregistered hcalls
  have hnew := (hmem ⟨"new", { min := ⟨1, 21, 5, .java⟩, max := ⟨1, 21, 6, .java⟩ }⟩).2 rfl
  have hproper : VersionRange.IsProper { min := ⟨1, 21, 5, .java⟩, max := ⟨1, 21, 6, .java⟩ } := by decide
  refine ⟨hcalls, (hranges _ hproper).2 ⟨1, 21, 5, .java⟩ (by decide) (by decide), hnew, ?_, ?_⟩
  · exact ((hspan _ _).1 (Set.Subset.refl _)).2 _ hnew
  · exact (hread (by decide)).1

end Manifest

end Datapack.Pack
