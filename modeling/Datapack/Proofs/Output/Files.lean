import Datapack.Output.Standard
import Datapack.Proofs.Generation.References
import Datapack.Proofs.Path

/-!
# Function files

Where the function files of a pack are.  A region's file stands where the names of the regions around it
lead, in the spelling of resource names, and a file of the compiler's own in a directory of its own.  The
spelling keeps dots and drops the case of letters, so what the files are called depends on the names: they
are all different if siblings differ in that spelling, and they are all inside the pack if no name leads
upwards.
-/

namespace Datapack.Output

open Ir Generation Command

/-! ## Parts of paths -/

theorem eq_dot_of_resourceChar {c : Char} (h : Text.resourceChar c = '.') : c = '.' := by
  have hlower : Text.lowerResource c = '.' := by
    simp only [Text.resourceChar] at h
    split at h
    · exact h
    · exact absurd h (by decide)
  have htoLower : c.toLower = '.' := by
    unfold Text.lowerResource at hlower
    split at hlower
    · exact absurd hlower (by decide)
    · split at hlower
      · exact absurd hlower (by decide)
      · exact hlower
  -- only capital letters change
  by_cases hle : c.toNat ≤ 90
  · exact Text.forall_small_char (P := fun c => c.toLower = '.' → c = '.') (by decide) (by omega) htoLower
  · rwa [Text.toLower_eq_self (by omega)] at htoLower

theorem resourceSegment_empty : Regions.resourceSegment "" = "_" := by decide +kernel

/-- Dots are spelled by dots only. -/
theorem eq_of_resourceSegment {s d : String} (hdots : ∀ c ∈ d.toList, c = '.')
    (h : Regions.resourceSegment s = d) : s = d := by
  by_cases hs : s = ""
  · subst hs
    rw [resourceSegment_empty] at h
    exact absurd (hdots '_' (h ▸ by decide)) (by decide)
  · rw [resourceSegment_eq_map hs] at h
    have hchars : ∀ c ∈ s.toList, Text.resourceChar (if c = '$' then '-' else c) = c := by
      intro c hc
      have hdot := hdots _ (h ▸ (String.toList_map ▸ List.mem_map_of_mem hc))
      have hc' := eq_dot_of_resourceChar hdot
      split at hc'
      · exact absurd hc' (by decide)
      · rw [hc'] at hdot ⊢
        rw [if_neg (by decide)]
        decide
    rw [← h, map_eq_self hchars]

instance (part : String) : Decidable (Path.IsName part) :=
  inferInstanceAs (Decidable (part ≠ "" ∧ part ≠ "." ∧ part ≠ ".."))

theorem isName_append_extension (s : String) : Path.IsName (s ++ functionExtension) := by
  -- the extension alone is longer than any of the texts that name no entry
  have hlength : ∀ d : String, d.length < 11 → s ++ functionExtension ≠ d := by
    intro d hd heq
    have hle : functionExtension.length ≤ d.length := by
      rw [← heq, String.length_append]
      omega
    rw [show functionExtension.length = 11 by decide] at hle
    omega
  exact ⟨hlength _ (by decide), hlength _ (by decide), hlength _ (by decide)⟩

variable {rs : Regions} {n : Nat}

/-- The parts of a file's path: a directory for each region around, and the file of the region. -/
theorem parts_filePath (rs : Regions) (n : Nat) :
    Path.parts (rs.filePath n) =
      ((rs.at? n).outer.map fun m => Regions.resourceSegment (rs.at? m).segment).reverse
        ++ [Regions.resourceSegment (rs.at? n).segment ++ functionExtension] := by
  have hslash : ∀ s, '/' ∉ (Regions.resourceSegment s).toList := Regions.slash_not_mem_resourceSegment
  have hfile : ∀ s, '/' ∉ (Regions.resourceSegment s ++ functionExtension).toList := by
    intro s
    rw [String.toList_append, List.mem_append]
    exact not_or.2 ⟨hslash s, by decide⟩
  have hjoined : rs.filePath n = "/".intercalate
      (((rs.at? n).outer.map fun m => Regions.resourceSegment (rs.at? m).segment).reverse
        ++ [Regions.resourceSegment (rs.at? n).segment ++ functionExtension]) := by
    rw [Regions.filePath, Regions.functionPath, Regions.segments_eq, List.map_append, List.map_reverse,
      List.map_map, List.map_singleton]
    by_cases hroot : (rs.at? n).outer = []
    · simp [hroot]
    · rw [String.intercalate_append_of_ne_nil (by simpa using hroot) (by simp),
        String.intercalate_append_of_ne_nil (by simpa using hroot) (by simp), String.intercalate_singleton,
        String.intercalate_singleton, String.append_assoc]
      rfl
  rw [hjoined, Path.parts_intercalate (by simp), Path.flatMap_parts]
  intro x hx
  rcases List.mem_append.1 hx with hx | hx
  · obtain ⟨m, -, rfl⟩ := List.mem_map.1 (List.mem_reverse.1 hx)
    exact hslash _
  · rw [List.mem_singleton.1 hx]
    exact hfile _

/-- Neither a place itself nor the one around it. -/
theorem isName_resourceSegment {s : String} (h : s ≠ ".") (h' : s ≠ "..") :
    Path.IsName (Regions.resourceSegment s) := by
  refine ⟨fun hempty => ?_, mt (eq_of_resourceSegment (by simp)) h, mt (eq_of_resourceSegment (by simp)) h'⟩
  obtain rfl := eq_of_resourceSegment (d := "") (by simp) hempty
  rw [resourceSegment_empty] at hempty
  exact absurd hempty (by decide)

theorem not_mem_parts_filePath (h : ∀ m ∈ (rs.at? n).outer, (rs.at? m).segment ≠ "..") :
    ".." ∉ Path.parts (rs.filePath n) := by
  rw [parts_filePath, List.mem_append, not_or, List.mem_reverse, List.mem_singleton]
  refine ⟨fun hmem => ?_, fun heq => (isName_append_extension _).2.2 heq.symm⟩
  obtain ⟨m, hm, hsegment⟩ := List.mem_map.1 hmem
  exact h m hm (eq_of_resourceSegment (by simp) hsegment)

theorem exists_name_filePath (rs : Regions) (n : Nat) :
    ∃ x ∈ Path.parts (rs.filePath n), x ≠ "" ∧ x ≠ "." := by
  rw [parts_filePath]
  have hname := isName_append_extension (Regions.resourceSegment (rs.at? n).segment)
  exact ⟨_, List.mem_append_right _ List.mem_cons_self, hname.1, hname.2.1⟩

theorem isName_enginePath {path : String} (h : path ∈ enginePaths) :
    (Path.parts path).head? = some engineDirectory ∧
      ∀ part ∈ Path.parts (path ++ functionExtension), Path.IsName part := by
  revert path
  decide +kernel

/-! ## Directories -/

variable {config : Config} {p : Program} {diagnostics : Bag} {newId : Nat → String} {g₀ g : Generation}
  {e : Option ProcessingError}

theorem accepted_spec (h : config.problems = []) : config.target ≠ "" ∧ Text.isResourceName config.ns = true := by
  unfold Config.problems at h
  simp only [List.append_eq_nil_iff] at h
  obtain ⟨⟨⟨⟨htarget, hns⟩, -⟩, -⟩, -⟩ := h
  constructor
  · intro heq
    rw [if_pos heq] at htarget
    cases htarget
  · by_contra hne
    rw [if_neg hne] at hns
    cases hns

theorem slash_not_mem_resourceName {s : String} (h : Text.isResourceName s = true) : '/' ∉ s.toList := by
  simp only [Text.isResourceName, Bool.and_eq_true, List.all_eq_true] at h
  intro hmem
  exact absurd (h.2 _ hmem) (by decide)

theorem functionRoot_ne_empty (haccepted : g.config.problems = []) : functionRoot g ≠ "" :=
  (Path.join_spec (Path.join_spec (accepted_spec haccepted).1 [g.ns]).2.1 _).2.1

/-- The directory of the function files lies inside the target directory. -/
theorem below_functionRoot (haccepted : g.config.problems = []) (hns : g.ns ≠ "..") :
    Path.Below g.config.target (functionRoot g) := by
  obtain ⟨htarget, hname⟩ := accepted_spec haccepted
  have hslash : '/' ∉ g.ns.toList := slash_not_mem_resourceName hname
  have hpack : [g.ns].flatMap Path.parts = [g.ns] := Path.flatMap_parts (by simpa using hslash)
  have hinside : ["data", g.ns, "function"].flatMap Path.parts = ["data", g.ns, "function"] := by
    refine Path.flatMap_parts fun x hx => ?_
    simp only [List.mem_cons, List.not_mem_nil, or_false] at hx
    rcases hx with rfl | rfl | rfl
    · decide
    · exact hslash
    · decide
  obtain ⟨hrooted, hne, -⟩ := Path.join_spec htarget [g.ns]
  have htarget' : g.target = Path.join [g.config.target, g.ns] := rfl
  have hups : ".." ∉ [g.ns].flatMap Path.parts ∧ ".." ∉ ["data", g.ns, "function"].flatMap Path.parts := by
    rw [hpack, hinside]
    simp [Ne.symm hns]
  have hparts : Path.cleanParts (functionRoot g) = Path.cleanParts g.config.target ++
      ([g.ns].filter (fun x => x ≠ "" ∧ x ≠ ".") ++
        ["data", g.ns, "function"].filter fun x => x ≠ "" ∧ x ≠ ".") :=
    calc Path.cleanParts (functionRoot g)
      _ = Path.cleanParts g.target
          ++ ["data", g.ns, "function"].filter (fun x => x ≠ "" ∧ x ≠ ".") := by
        rw [functionRoot, Path.cleanParts_join (htarget' ▸ hne) hups.2, hinside]
      _ = Path.cleanParts g.config.target ++ [g.ns].filter (fun x => x ≠ "" ∧ x ≠ ".")
          ++ ["data", g.ns, "function"].filter (fun x => x ≠ "" ∧ x ≠ ".") := by
        rw [htarget', Path.cleanParts_join htarget hups.1, hpack]
      _ = _ := List.append_assoc _ _ _
  refine ⟨?_, _, ?_, ?_, hparts⟩
  · rw [functionRoot, (Path.join_spec (htarget' ▸ hne) _).1, htarget', hrooted]
  · simp
  · simp [Ne.symm hns]

/-- The files of a pack are inside it, if its name is not a way up and no region around one with commands
has such a name. -/
theorem files_inside (hstart : start config p diagnostics newId = .ok g₀) (hlower : lower g₀ = (g, e))
    (haccepted : config.problems = []) (hns : config.ns ≠ "..")
    (hnames : ∀ n ∈ g.regions.nonEmpty, ∀ m ∈ (g.regions.at? n).outer, (g.regions.at? m).segment ≠ "..")
    (time : String) :
    Path.Below config.target (functionRoot g) ∧
      ∀ file ∈ regionFiles time g ++ helperFiles g, Path.Below (functionRoot g) file.1 := by
  obtain ⟨hconfig, -, hhelpers, -⟩ := kept_of_lower hstart hlower
  obtain ⟨t, ht⟩ := exists_tree hstart
  rw [(starts_of_start hstart ht).2.1] at hconfig
  rw [← hconfig] at haccepted hns ⊢
  have hne := functionRoot_ne_empty haccepted
  refine ⟨below_functionRoot haccepted hns, fun file hfile => ?_⟩
  rcases List.mem_append.1 hfile with hfile | hfile
  · unfold regionFiles at hfile
    split at hfile
    · exact absurd hfile List.not_mem_nil
    · obtain ⟨n, hn, rfl⟩ := List.mem_map.1 hfile
      refine Path.below_join hne ?_ ?_
      · rw [List.flatMap_singleton]
        exact not_mem_parts_filePath (hnames n hn)
      · rw [List.flatMap_singleton]
        exact exists_name_filePath _ n
  · obtain ⟨x, hx, rfl⟩ := List.mem_map.1 hfile
    have hparts := (isName_enginePath (hhelpers x (List.mem_mergeSort.1 hx))).2
    obtain ⟨part, hpart⟩ := List.exists_mem_of_ne_nil _ (Path.parts_ne_nil (x.1 ++ functionExtension))
    refine Path.below_join hne ?_ ?_
    · rw [List.flatMap_singleton]
      exact fun hmem => (hparts _ hmem).2.2 rfl
    · rw [List.flatMap_singleton]
      exact ⟨part, hpart, (hparts part hpart).1, (hparts part hpart).2.1⟩

/-- A block in a block, with a name that would lead upwards from what is inside it. -/
def dotted : Stream :=
  [.scopeBegin "a" .block, .scopeBegin ".." .block, .ret none, .scopeEnd ".." .block, .scopeEnd "a" .block]

theorem files_inside_dotted :
    ∃ g₀ g, start {} { code := dotted } [] toString = .ok g₀ ∧ lower g₀ = (g, none) ∧
      (regionFiles "" g).map Prod.fst = ["out/mcfc/data/mcfc/function/mcfc/a/...mcfunction"] ∧
      ∀ file ∈ regionFiles "" g ++ helperFiles g, Path.Below (functionRoot g) file.1 := by
  obtain ⟨g₀, g, hstart, hlower, hnames, hfiles⟩ :
      ∃ g₀ g, start {} { code := dotted } [] toString = .ok g₀ ∧ lower g₀ = (g, none) ∧
        (∀ n ∈ g.regions.nonEmpty, ∀ m ∈ (g.regions.at? n).outer, (g.regions.at? m).segment ≠ "..") ∧
        (regionFiles "" g).map Prod.fst = ["out/mcfc/data/mcfc/function/mcfc/a/...mcfunction"] := by
    refine ⟨_, _, rfl, Prod.ext rfl (Option.isNone_iff_eq_none.1 ?_), ?_, ?_⟩
    all_goals decide +kernel
  exact ⟨g₀, g, hstart, hlower, hfiles,
    (files_inside hstart hlower (by decide +kernel) (by decide) hnames "").2⟩

/-- Two blocks in each other with names that lead upwards, and a block inside them. -/
def escaping : Stream :=
  [.scopeBegin ".." .block, .scopeBegin ".." .block, .scopeBegin "a" .block, .ret none,
    .scopeEnd "a" .block, .scopeEnd ".." .block, .scopeEnd ".." .block]

theorem files_outside_escaping :
    Config.problems {} = [] ∧
      ∃ g₀ g, start {} { code := escaping } [] toString = .ok g₀ ∧ lower g₀ = (g, none) ∧
        (regionFiles "" g).map Prod.fst = ["out/mcfc/data/mcfc/a.mcfunction"] ∧
        ¬Path.Below (functionRoot g) "out/mcfc/data/mcfc/a.mcfunction" := by
  obtain ⟨g₀, g, hstart, hlower, hfiles, hroot⟩ :
      ∃ g₀ g, start {} { code := escaping } [] toString = .ok g₀ ∧ lower g₀ = (g, none) ∧
        (regionFiles "" g).map Prod.fst = ["out/mcfc/data/mcfc/a.mcfunction"] ∧
        Path.cleanParts (functionRoot g) = ["out", "mcfc", "data", "mcfc", "function"] := by
    refine ⟨_, _, rfl, Prod.ext rfl (Option.isNone_iff_eq_none.1 ?_), ?_, ?_⟩
    all_goals decide +kernel
  have hparts : Path.cleanParts "out/mcfc/data/mcfc/a.mcfunction"
      = ["out", "mcfc", "data", "mcfc", "a.mcfunction"] := by decide +kernel
  refine ⟨by decide +kernel, g₀, g, hstart, hlower, hfiles, ?_⟩
  rintro ⟨-, rest, -, -, hbelow⟩
  rw [hparts, hroot] at hbelow
  simp at hbelow

/-! ## Different files -/

theorem parts_functionPath (rs : Regions) (n : Nat) :
    Path.parts (rs.functionPath n) = (rs.segments n).map Regions.resourceSegment := by
  have hne : (rs.segments n).map Regions.resourceSegment ≠ [] := by
    simpa using Regions.segments_ne_nil rs n
  rw [Regions.functionPath, Path.parts_intercalate hne, Path.flatMap_parts]
  intro x hx
  obtain ⟨s, -, rfl⟩ := List.mem_map.1 hx
  exact Regions.slash_not_mem_resourceSegment s

theorem filePath_eq_iff {m : Nat} : rs.filePath m = rs.filePath n ↔
    (rs.segments m).map Regions.resourceSegment = (rs.segments n).map Regions.resourceSegment := by
  constructor
  · intro h
    have hpaths := congrArg Path.parts ((String.append_left_inj functionExtension).1 h)
    rwa [parts_functionPath, parts_functionPath] at hpaths
  · intro h
    simp only [Regions.filePath, Regions.functionPath, h]

/-- Regions have files of different names exactly if siblings differ in the spelling of resource names. -/
theorem filePath_inj_iff (ht : rs.Tree) :
    (∀ m n, m < rs.length → n < rs.length → rs.filePath m = rs.filePath n → m = n) ↔
      rs.Apart Regions.resourceSegment := by
  constructor
  · intro h m n hm hn hparent heq
    refine h m n hm hn (filePath_eq_iff.2 ?_)
    by_cases hm0 : m = 0
    · by_cases hn0 : n = 0
      · rw [hm0, hn0]
      · obtain ⟨p, -, hp, -⟩ := ht.inner_spec hn0 hn
        rw [hm0, ht.parent?_root, hp] at hparent
        cases hparent
    · obtain ⟨p, -, hp, -, hsegments⟩ := ht.inner_spec hm0 hm
      by_cases hn0 : n = 0
      · rw [hn0, ht.parent?_root, hp] at hparent
        cases hparent
      · obtain ⟨q, -, hq, -, hsegments'⟩ := ht.inner_spec hn0 hn
        obtain rfl := Option.some.inj (hp.symm.trans (hparent.trans hq))
        rw [hsegments, hsegments', List.map_append, List.map_append, List.map_singleton, List.map_singleton,
          heq]
  · exact fun h m n hm hn heq => h.eq_of_segments ht hm hn (filePath_eq_iff.1 heq)

/-- Every path starts with the name of the pack. -/
theorem head?_functionPath (ht : rs.Tree) (hn : n < rs.length) :
    (Path.parts (rs.functionPath n)).head? = some (Regions.resourceSegment (rs.at? 0).segment) := by
  have hroot : 0 ∈ rs.ancestors n := (ht.inside_of_mem_walkFrom ht.nonempty (ht.mem_walk_iff.2 hn)).2
  obtain ⟨rest, hrest⟩ := Regions.prefix_of_mem_ancestors ht hn hroot
  rw [parts_functionPath, ← hrest, Regions.segments_root ht]
  rfl

theorem isName_parts_filePath
    (h : ∀ m ∈ (rs.at? n).outer, (rs.at? m).segment ≠ "." ∧ (rs.at? m).segment ≠ "..") :
    ∀ part ∈ Path.parts (rs.filePath n), Path.IsName part := by
  rw [parts_filePath]
  intro part hpart
  rcases List.mem_append.1 hpart with hpart | hpart
  · obtain ⟨m, hm, rfl⟩ := List.mem_map.1 (List.mem_reverse.1 hpart)
    exact isName_resourceSegment (h m hm).1 (h m hm).2
  · rw [List.mem_singleton.1 hpart]
    exact isName_append_extension _

/-- The paths of the function files below their directory. -/
def functionPaths (g : Generation) : List String :=
  (if g.config.noCommands then [] else g.regions.nonEmpty.map g.regions.filePath)
    ++ g.sortedHelpers.map (·.1 ++ functionExtension)

theorem map_fst_files (time : String) (g : Generation) :
    (regionFiles time g ++ helperFiles g).map Prod.fst =
      (functionPaths g).map fun path => Path.join [functionRoot g, path] := by
  unfold regionFiles helperFiles functionPaths
  split <;> simp [Function.comp_def, regionFile]

theorem nodup_files (haccepted : g.config.problems = []) (hnodup : (functionPaths g).Nodup)
    (hparts : ∀ path ∈ functionPaths g, ∀ part ∈ Path.parts path, Path.IsName part) (time : String) :
    ((regionFiles time g ++ helperFiles g).map Prod.fst).Nodup := by
  rw [map_fst_files]
  exact hnodup.map_on fun x hx y hy =>
    Path.eq_of_join_eq (functionRoot_ne_empty haccepted) (hparts x hx) (hparts y hy)

theorem nodup_functionPaths (ht : g.regions.Tree) (hdistinct : (g.helpers.map Prod.fst).Nodup)
    (hinj : ∀ m n, m < g.regions.length → n < g.regions.length →
      g.regions.filePath m = g.regions.filePath n → m = n)
    (happart : ∀ n < g.regions.length, ∀ x ∈ g.helpers, g.regions.filePath n ≠ x.1 ++ functionExtension) :
    (functionPaths g).Nodup := by
  have hlt : ∀ n ∈ g.regions.nonEmpty, n < g.regions.length := fun n hn =>
    ht.mem_walk_iff.1 (List.mem_filter.1 hn).1
  have hregions : (g.regions.nonEmpty.map g.regions.filePath).Nodup :=
    ((ht.nodup_walkFrom ht.nonempty).filter _).map_on fun m hm n hn => hinj m n (hlt m hm) (hlt n hn)
  have hhelpers : (g.sortedHelpers.map (·.1 ++ functionExtension)).Nodup := by
    have hsorted : (g.sortedHelpers.map Prod.fst).Nodup :=
      ((List.mergeSort_perm _ _).map Prod.fst).nodup_iff.2 hdistinct
    have hmap := hsorted.map_on fun x _ y _ => (String.append_left_inj functionExtension).1
    rwa [List.map_map] at hmap
  unfold functionPaths
  refine List.nodup_append.2 ⟨?_, hhelpers, ?_⟩
  · split
    · exact List.nodup_nil
    · exact hregions
  · intro x hx y hy heq
    split at hx
    · exact absurd hx List.not_mem_nil
    · obtain ⟨n, hn, rfl⟩ := List.mem_map.1 hx
      obtain ⟨h, hh, rfl⟩ := List.mem_map.1 hy
      exact happart n (hlt n hn) h (List.mem_mergeSort.1 hh) heq

/-- No two files of a pack have one path, and every region with commands has its file, if siblings differ in
the spelling of resource names, no region around another is named for a place relative to it, and the pack
is not named as the directory of the compiler's own functions. -/
theorem files_distinct (hstart : start config p diagnostics newId = .ok g₀) (hlower : lower g₀ = (g, e))
    (haccepted : config.problems = []) (hns : config.ns ≠ engineDirectory)
    (hapart : g₀.regions.Apart Regions.resourceSegment)
    (hnames : ∀ n ∈ g.regions.nonEmpty, ∀ m ∈ (g.regions.at? n).outer,
      (g.regions.at? m).segment ≠ "." ∧ (g.regions.at? m).segment ≠ "..") (time : String) :
    (∀ m n, m < g.regions.length → n < g.regions.length → g.regions.filePath m = g.regions.filePath n →
        m = n) ∧
      (∀ n < g.regions.length, ∀ x ∈ g.helpers, g.regions.filePath n ≠ x.1 ++ functionExtension) ∧
      ((regionFiles time g ++ helperFiles g).map Prod.fst).Nodup ∧
      (config.noCommands = false → ∀ n, g.commandsAt n ≠ [] → regionFile time g n ∈ regionFiles time g) := by
  obtain ⟨hconfig, hlike, hhelpers, hdistinct⟩ := kept_of_lower hstart hlower
  obtain ⟨t, ht⟩ := exists_tree hstart
  have htree := (tree_of_start hstart).of_like hlike
  have hinj := (filePath_inj_iff htree).2 (hapart.of_like hlike)
  have hsegment : (g.regions.at? 0).segment = config.ns := by
    obtain ⟨-, -, -, -, hregions⟩ := starts_of_start hstart ht
    rw [hlike.segment, hregions, (declareParams_rest _ _).1.segment]
    exact (spec_regionsOf ht config.ns).2.2.2.1
  rw [(starts_of_start hstart ht).2.1] at hconfig
  have happart' : ∀ n < g.regions.length, ∀ x ∈ g.helpers,
      g.regions.filePath n ≠ x.1 ++ functionExtension := by
    intro n hn x hx heq
    have hpath : g.regions.functionPath n = x.1 := (String.append_left_inj functionExtension).1 heq
    -- the path of a region starts with the name of the pack, the other one does not
    have hhead : some engineDirectory = some config.ns :=
      calc some engineDirectory
        _ = (Path.parts x.1).head? := (isName_enginePath (hhelpers x hx)).1.symm
        _ = some (Regions.resourceSegment (g.regions.at? 0).segment) := by
          rw [← hpath, head?_functionPath htree hn]
        _ = some config.ns := by rw [hsegment, resourceSegment_resourceName (accepted_spec haccepted).2]
    exact hns (Option.some.inj hhead).symm
  refine ⟨hinj, happart', nodup_files ?_ (nodup_functionPaths htree hdistinct hinj happart') ?_ time, ?_⟩
  · rwa [hconfig]
  · intro path hpath
    rcases List.mem_append.1 hpath with hpath | hpath
    · split at hpath
      · exact absurd hpath List.not_mem_nil
      · obtain ⟨n, hn, rfl⟩ := List.mem_map.1 hpath
        exact isName_parts_filePath (hnames n hn)
    · obtain ⟨x, hx, rfl⟩ := List.mem_map.1 hpath
      exact (isName_enginePath (hhelpers x (List.mem_mergeSort.1 hx))).2
  · intro hcommands n hne
    rw [← hconfig] at hcommands
    unfold regionFiles
    rw [hcommands]
    exact List.mem_map_of_mem (htree.mem_nonEmpty_iff.2 hne)

theorem apart_of_identifiers (hstart : start config p diagnostics newId = .ok g₀)
    (hnames : ∀ x ∈ regionNames p.code, isIdentifier x = true) :
    g₀.regions.Apart Regions.resourceSegment := by
  obtain ⟨t, ht⟩ := exists_tree hstart
  obtain ⟨-, -, -, -, hregions⟩ := starts_of_start hstart ht
  rw [hregions]
  exact (apart_regionsOf ht config.ns hnames fun _ => resourceSegment_segment).of_like
    (declareParams_rest _ _).1

/-- Two blocks of one name. -/
def repeated : Stream :=
  [.scopeBegin "a" .block, .ret none, .scopeEnd "a" .block, .scopeBegin "a" .block, .ret none,
    .scopeEnd "a" .block]

theorem files_distinct_repeated :
    ∃ g₀ g, start {} { code := repeated } [] toString = .ok g₀ ∧ lower g₀ = (g, none) ∧
      (regionFiles "" g).map Prod.fst =
        ["out/mcfc/data/mcfc/function/mcfc/a.mcfunction",
          "out/mcfc/data/mcfc/function/mcfc/a-1.mcfunction"] ∧
      ((regionFiles "" g ++ helperFiles g).map Prod.fst).Nodup := by
  obtain ⟨g₀, g, hstart, hlower, hnames, hfiles⟩ :
      ∃ g₀ g, start {} { code := repeated } [] toString = .ok g₀ ∧ lower g₀ = (g, none) ∧
        (∀ n ∈ g.regions.nonEmpty, ∀ m ∈ (g.regions.at? n).outer,
          (g.regions.at? m).segment ≠ "." ∧ (g.regions.at? m).segment ≠ "..") ∧
        (regionFiles "" g).map Prod.fst =
          ["out/mcfc/data/mcfc/function/mcfc/a.mcfunction",
            "out/mcfc/data/mcfc/function/mcfc/a-1.mcfunction"] := by
    refine ⟨_, _, rfl, Prod.ext rfl (Option.isNone_iff_eq_none.1 ?_), ?_, ?_⟩
    all_goals decide +kernel
  have hapart := apart_of_identifiers hstart (by decide)
  exact ⟨g₀, g, hstart, hlower, hfiles,
    (files_distinct hstart hlower (by decide +kernel) (by decide) hapart hnames "").2.2.1⟩

/-- Two blocks whose names differ in the case of a letter. -/
def cased : Stream :=
  [.scopeBegin "A" .block, .ret none, .scopeEnd "A" .block, .scopeBegin "a" .block, .ret none,
    .scopeEnd "a" .block]

theorem files_cased :
    Config.problems {} = [] ∧
      ∃ g₀ g, start {} { code := cased } [] toString = .ok g₀ ∧ lower g₀ = (g, none) ∧
        2 < g.regions.length ∧ g.regions.filePath 1 = g.regions.filePath 2 ∧
        (regionFiles "" g).map Prod.fst =
          ["out/mcfc/data/mcfc/function/mcfc/a.mcfunction",
            "out/mcfc/data/mcfc/function/mcfc/a.mcfunction"] := by
  refine ⟨by decide +kernel, _, _, rfl, Prod.ext rfl (Option.isNone_iff_eq_none.1 ?_), ?_, ?_, ?_⟩
  all_goals decide +kernel

end Datapack.Output
