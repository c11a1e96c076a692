import Datapack.Dependency.Install
import Datapack.Proofs.Path.Absolute

/-!
# Where a dependency is installed

The directory of a dependency is wiped before its archive is unpacked there, so it must be an entry of its own
directly below the root, and none that the pack itself uses.  The check compares the parent of the joined path
with the root and the name, as it is spelled, with the reserved ones.  What it lets through is such an entry
exactly if the name leads to one by its last part and this part is not reserved.
-/

namespace Datapack.Dependency

open Datapack.Path

variable {workDir root name dir : String}

/-! ## The last part of a name -/

/-- A name leads through some ways up and enters names, of which the last one is its own last part. -/
theorem exists_names (name : String) : ∃ names ups, (∀ x ∈ names, IsName x) ∧
    (∀ entry, (cleanParts name).getLast? = some entry ∧ entry ≠ ".." ↔ names.head? = some entry) ∧
    ∀ directory, isRooted directory = true → cleanParts (join [directory, name])
      = (names ++ (cleanParts directory).reverse.drop ups).reverse := by
  obtain ⟨names, ups, hcleaned, hnames, -⟩ := settled_foldl (settled_nil false) (parts name)
  refine ⟨names, ups, hnames, fun entry => ?_, fun directory h => ?_⟩
  · cases hrooted : isRooted name with
    | true =>
        have hparts : cleanParts name = names.reverse := by
          rw [cleanParts, hrooted, foldl_eq_enter (List.forall_mem_nil _), hcleaned, enter_settled hnames,
            List.drop_nil, List.append_nil]
        rw [hparts, List.getLast?_reverse]
        exact and_iff_left_of_imp fun h => (hnames entry (List.mem_of_head? h)).2.2
    | false =>
        rw [← List.reverse_reverse (cleanParts name), ← foldl_parts_of_not_isRooted hrooted, hcleaned,
          List.getLast?_reverse]
        cases names with
        | nil =>
            have hups : ∀ x ∈ List.replicate ups "..", x = ".." := fun x hx => List.eq_of_mem_replicate hx
            exact iff_of_false (fun h => h.2 (hups entry (List.mem_of_head? h.1))) (by simp)
        | cons last names =>
            refine and_iff_left_of_imp fun h => ?_
            obtain rfl := Option.some.inj h
            exact (hnames last List.mem_cons_self).2.2
  · rw [cleanParts_join_of_isRooted h, hcleaned, enter_settled hnames]

/-! ## What the check lets through -/

/-- A path leads to an entry directly inside a directory: it has one more part. -/
def IsEntry (directory entry p : String) : Prop :=
  isRooted p = isRooted directory ∧ cleanParts p = cleanParts directory ++ [entry]

theorem installDir_eq_ok_iff : installDir workDir root name = .ok dir ↔
    (name ≠ "" ∧ name ∉ Config.reservedNames) ∧
      parent (join [absolute workDir root, name]) = absolute workDir root ∧ join [root, name] = dir := by
  have hreserved : (name = "" || Config.reservedNames.contains name) = true ↔
      ¬(name ≠ "" ∧ name ∉ Config.reservedNames) := by
    simp [or_iff_not_imp_left]
  unfold installDir
  dsimp only
  split
  · next hname => exact ⟨nofun, fun h => absurd h.1 (hreserved.1 hname)⟩
  · next hname =>
      rw [and_iff_right (not_not.1 (mt hreserved.2 hname))]
      split
      · next houtside => exact ⟨nofun, fun h => absurd h.1 houtside⟩
      · next hinside => rw [and_iff_right (not_not.1 hinside), Except.ok.injEq]

/-- The check of the parent, by parts. -/
theorem parent_join_eq_iff (hwork : isRooted workDir = true) :
    parent (join [absolute workDir root, name]) = absolute workDir root ↔
      (cleanParts (join [absolute workDir root, name])).dropLast = cleanParts (absolute workDir root) := by
  have hbase := isRooted_absolute hwork root
  have hne := ne_empty_of_isRooted hbase
  have hjoin : isRooted (join [absolute workDir root, name]) = true := (join_spec hne [name]).1.trans hbase
  obtain ⟨hrooted, hclean, hparts⟩ := parent_spec hjoin (clean_join hne [name])
  rw [eq_iff_cleanParts_eq hrooted hbase hclean (clean_absolute hwork root), hparts]

theorem cleanParts_join_iff (hwork : isRooted workDir = true)
    (hparent : parent (join [absolute workDir root, name]) = absolute workDir root) {entry : String} :
    cleanParts (join [absolute workDir root, name]) = cleanParts (absolute workDir root) ++ [entry] ↔
      (cleanParts name).getLast? = some entry ∧ entry ≠ ".." := by
  rw [parent_join_eq_iff hwork] at hparent
  obtain ⟨names, ups, -, hlast, hjoin⟩ := exists_names name
  rw [hlast]
  rw [hjoin _ (isRooted_absolute hwork root)] at hparent ⊢
  generalize cleanParts (absolute workDir root) = base at hparent ⊢
  cases names with
  | nil =>
      -- ways up only lead to no more parts than there are
      refine iff_of_false (fun h => ?_) (by simp)
      have hlength := congrArg List.length h
      rw [List.nil_append, List.length_reverse, List.length_drop, List.length_reverse, List.length_append,
        List.length_singleton] at hlength
      omega
  | cons last names =>
      rw [List.cons_append, List.reverse_cons] at hparent ⊢
      rw [List.dropLast_concat] at hparent
      rw [hparent, List.append_cancel_left_eq]
      simp

theorem cleanParts_absolute_empty (hwork : isRooted workDir = true) :
    cleanParts (absolute workDir "") = cleanParts workDir := by
  rw [cleanParts_absolute_of_not_isRooted hwork (by decide)]
  change (enter (cleanParts workDir).reverse []).reverse = cleanParts workDir
  simp [enter]

/-- The directory, made absolute, is the name below the absolute root, unless nothing stands before a name
that is rooted. -/
theorem cleanParts_absolute_installed (hwork : isRooted workDir = true) (hname : name ≠ "")
    (hroot : root = "" → isRooted name = false) :
    cleanParts (absolute workDir (join [root, name])) = cleanParts (join [absolute workDir root, name]) := by
  by_cases hempty : root = ""
  · subst hempty
    have hplain := hroot rfl
    obtain ⟨hrooted, hparts⟩ := join_empty_spec hname
    rw [cleanParts_absolute_of_not_isRooted hwork (hrooted.trans hplain), hparts,
      cleanParts_join_of_isRooted (isRooted_absolute hwork ""), cleanParts_absolute_empty hwork,
      foldl_parts_of_not_isRooted hplain]
  · exact cleanParts_absolute_join hwork hempty name

/-- The name leads to an entry that is not reserved: its last part names one, and where nothing stands before
a rooted name, the name is the path of this entry. -/
def LeadsToEntry (workDir root name : String) : Prop :=
  ∃ entry, entry ∉ Config.reservedNames ∧ ((cleanParts name).getLast? = some entry ∧ entry ≠ "..") ∧
    (root = "" → isRooted name = true → cleanParts name = cleanParts workDir ++ [entry])

theorem installed_isEntry_iff (hwork : isRooted workDir = true)
    (hdir : installDir workDir root name = .ok dir) :
    (∃ entry, entry ∉ Config.reservedNames ∧
      IsEntry (absolute workDir root) entry (absolute workDir dir)) ↔ LeadsToEntry workDir root name := by
  obtain ⟨⟨hname, -⟩, hparent, rfl⟩ := installDir_eq_ok_iff.1 hdir
  have hrooted : ∀ p, isRooted (absolute workDir p) = isRooted (absolute workDir root) :=
    fun p => (isRooted_absolute hwork p).trans (isRooted_absolute hwork root).symm
  refine exists_congr fun entry => and_congr_right fun _ => ?_
  rw [IsEntry, and_iff_right (hrooted _)]
  by_cases hroot : root = "" → isRooted name = false
  · have hvacuous : root = "" → isRooted name = true → cleanParts name = cleanParts workDir ++ [entry] :=
      fun hempty hslash => absurd hslash (by rw [hroot hempty]; decide)
    rw [cleanParts_absolute_installed hwork hname hroot, cleanParts_join_iff hwork hparent]
    exact (and_iff_left hvacuous).symm
  · obtain ⟨rfl, hslash⟩ : root = "" ∧ isRooted name = true := by simpa using hroot
    obtain ⟨hjoin, hparts⟩ := join_empty_spec hname
    rw [cleanParts_absolute_of_isRooted _ (hjoin.trans hslash), hparts, cleanParts_absolute_empty hwork]
    constructor
    · intro hentry
      have hmem : entry ∈ cleanParts name := hentry ▸ List.mem_append_right _ List.mem_cons_self
      exact ⟨⟨by simp [hentry], (isName_of_mem_cleanParts hslash hmem).2.2⟩, fun _ _ => hentry⟩
    · exact fun h => h.2 rfl hslash

/-! ## Names of a configuration -/

/-- A name that a configuration may use holds neither a slash nor a dot. -/
theorem not_mem_of_isDependencyName (h : Config.isDependencyName name = true) :
    '/' ∉ name.toList ∧ IsName name := by
  simp only [Config.isDependencyName, Text.isResourceName, Bool.and_eq_true, decide_eq_true_eq,
    List.all_eq_true, Bool.not_eq_true', List.contains_eq_mem, decide_eq_false_iff_not] at h
  obtain ⟨⟨hne, hchars⟩, hdot⟩ := h
  refine ⟨fun hmem => absurd (hchars _ hmem) (by decide), hne, ?_, ?_⟩
  · rintro rfl
    exact hdot (by decide)
  · rintro rfl
    exact hdot (by decide)

/-- A name that a configuration may use is always that of the entry. -/
theorem installDir_of_isDependencyName (hwork : isRooted workDir = true)
    (hname : Config.isDependencyName name = true) (hreserved : name ∉ Config.reservedNames) (root : String) :
    installDir workDir root name = .ok (join [root, name]) ∧
      IsEntry (absolute workDir root) name (absolute workDir (join [root, name])) := by
  obtain ⟨hslash, hisName⟩ := not_mem_of_isDependencyName hname
  have hplain : isRooted name = false := isRooted_of_not_mem hslash
  have hparts : parts name = [name] := Text.split_of_not_mem hslash
  have hbase := isRooted_absolute hwork root
  have hjoin : cleanParts (join [absolute workDir root, name]) = cleanParts (absolute workDir root) ++ [name] := by
    rw [(join_spec (ne_empty_of_isRooted hbase) [name]).2.2, List.flatMap_singleton, hparts, List.foldl_cons,
      addPart_name hisName, List.foldl_nil, List.reverse_cons, List.reverse_reverse]
  refine ⟨installDir_eq_ok_iff.2 ⟨⟨hisName.1, hreserved⟩, ?_, rfl⟩,
    (isRooted_absolute hwork _).trans hbase.symm, ?_⟩
  · rw [parent_join_eq_iff hwork, hjoin, List.dropLast_concat]
  · rw [cleanParts_absolute_installed hwork hisName.1 fun _ => hplain, hjoin]

/-! ## The directory -/

/-- The directory that a dependency is installed into is an unreserved entry directly inside the root exactly
if the name leads to one.  The names that a configuration may use always do. -/
theorem installDir_fresh_iff (hwork : isRooted workDir = true) (root name : String) :
    (∀ dir, installDir workDir root name = .ok dir →
      ((∃ entry, entry ∉ Config.reservedNames ∧
        IsEntry (absolute workDir root) entry (absolute workDir dir)) ↔ LeadsToEntry workDir root name)) ∧
    (Config.isDependencyName name = true → name ∉ Config.reservedNames →
      ∃ dir, installDir workDir root name = .ok dir ∧
        IsEntry (absolute workDir root) name (absolute workDir dir)) :=
  ⟨fun _ hdir => installed_isEntry_iff hwork hdir,
    fun hname hreserved => ⟨_, installDir_of_isDependencyName hwork hname hreserved root⟩⟩

/-- A way up inside a name does no harm. -/
theorem installDir_fresh_detour :
    isRooted "/work" = true ∧ installDir "/work" "out/pack" "x/../lib" = .ok "out/pack/lib" ∧
      LeadsToEntry "/work" "out/pack" "x/../lib" ∧
      (∃ entry, entry ∉ Config.reservedNames ∧
        IsEntry (absolute "/work" "out/pack") entry (absolute "/work" "out/pack/lib")) ∧
      ∃ dir, installDir "/work" "out/pack" "lib" = .ok dir ∧
        IsEntry (absolute "/work" "out/pack") "lib" (absolute "/work" dir) := by
  have hdir : installDir "/work" "out/pack" "x/../lib" = .ok "out/pack/lib" := by decide
  have hleads : LeadsToEntry "/work" "out/pack" "x/../lib" :=
    ⟨"lib", by decide, by decide, fun hempty => absurd hempty (by decide)⟩
  exact ⟨rfl, hdir, hleads, ((installDir_fresh_iff rfl "out/pack" "x/../lib").1 _ hdir).2 hleads,
    (installDir_fresh_iff rfl "out/pack" "lib").2 (by decide) (by decide)⟩

/-- A reserved name with a dot before it passes.  So does the way up from the top of the file system, which
leads to the root itself, and a rooted name without a root, which leads anywhere. -/
theorem installDir_stale_dotted :
    (installDir "/work" "/pack" "./data" = .ok "/pack/data" ∧
      ¬∃ entry, entry ∉ Config.reservedNames ∧
        IsEntry (absolute "/work" "/pack") entry (absolute "/work" "/pack/data")) ∧
    (installDir "/work" "/" ".." = .ok "/" ∧
      ¬∃ entry, IsEntry (absolute "/work" "/") entry (absolute "/work" "/")) ∧
    installDir "/work" "" "/lib" = .ok "/lib" ∧
      ¬∃ entry, IsEntry (absolute "/work" "") entry (absolute "/work" "/lib") := by
  refine ⟨⟨by decide, ?_⟩, ⟨by decide, ?_⟩, by decide, ?_⟩
  · rintro ⟨entry, hreserved, -, hparts⟩
    have hdata : ["pack", "data"] = ["pack", entry] := hparts
    simp only [List.cons.injEq, and_true, true_and] at hdata
    exact hreserved (hdata ▸ by decide)
  · rintro ⟨entry, -, hparts⟩
    have hroot : [] = [entry] := hparts
    exact List.cons_ne_nil _ _ hroot.symm
  · rintro ⟨entry, -, hparts⟩
    have hlib : ["lib"] = ["work", entry] := hparts
    simp at hlib

end Datapack.Dependency
