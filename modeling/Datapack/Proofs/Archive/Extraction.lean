import Datapack.Archive.Extraction
import Datapack.Proofs.Archive.Inflate
import Datapack.Proofs.Lookup
import Mathlib.Data.List.Infix

/-!
# What an archive leaves on a disk

An archive that is unpacked without a fault decides about every place of the disk: a place to which one of its
files leads holds the last of them, the places around its files and directories are directories, and all others
are as before.  `Adds` says this for one entry and `Fills` for all of them.  What is a file stays a file and
what is a directory stays a directory, so that later entries cannot undo what earlier ones made.
-/

namespace Datapack

/-! ## Disks -/

namespace Disk

variable {d d' d'' : Disk} {place target : Place}

theorem find?_put (e : DiskEntry) (h : target ≠ []) (place : Place) :
    (d.put target e).find? place = if place = target then some e else d.find? place := by
  cases place with
  | nil => rw [if_neg h.symm]; rfl
  | cons name names =>
      change (d.entries.filter (·.1 ≠ target) ++ [(target, e)]).lookup (name :: names) = _
      rw [List.lookup_append, lookup_filter_fst_ne, lookup_cons_ite, List.lookup_nil]
      split
      · rfl
      · exact Option.or_none

theorem isFile_iff : d.isFile place = true ↔ ∃ content, d.find? place = some (.file content) := by
  unfold isFile
  split
  · next content h => exact ⟨fun _ => ⟨content, h⟩, fun _ => rfl⟩
  · next h => exact ⟨nofun, fun ⟨content, hfile⟩ => absurd hfile (h content)⟩

theorem find?_ensure (h : d.isFile target = false) (place : Place) :
    (d.ensure target).find? place = if place = target then some .directory else d.find? place := by
  unfold ensure
  cases hfound : d.find? target with
  | none =>
      have hroot : target ≠ [] := by rintro rfl; exact nomatch hfound
      exact find?_put .directory hroot place
  | some e =>
      cases e with
      | directory =>
          by_cases hplace : place = target
          · rw [if_pos hplace, hplace]
            exact hfound
          · rw [if_neg hplace]
            rfl
      | file content =>
          rw [isFile_iff.2 ⟨content, hfound⟩] at h
          exact nomatch h

/-- The second disk holds at least what the first one holds, files in place of files and directories in place
of directories. -/
structure Keeps (d d' : Disk) : Prop where
  workDir : d'.workDir = d.workDir
  directory : ∀ place, d.find? place = some .directory → d'.find? place = some .directory
  file : ∀ place, d.isFile place = true → d'.isFile place = true

theorem Keeps.refl (d : Disk) : Keeps d d := ⟨rfl, fun _ => id, fun _ => id⟩

theorem Keeps.trans (h : Keeps d d') (h' : Keeps d' d'') : Keeps d d'' :=
  ⟨h'.workDir.trans h.workDir, fun p hp => h'.directory p (h.directory p hp),
    fun p hp => h'.file p (h.file p hp)⟩

theorem keeps_ensure (h : d.isFile target = false) : Keeps d (d.ensure target) where
  workDir := by
    unfold ensure
    split <;> rfl
  directory p hp := by
    rw [find?_ensure h]
    split
    · rfl
    · exact hp
  file p hp := by
    have hne : p ≠ target := by
      rintro rfl
      rw [h] at hp
      exact nomatch hp
    unfold isFile at hp ⊢
    rwa [find?_ensure h, if_neg hne]

theorem isFile_of_directoryProblem? {n : Nat} (h : d.directoryProblem? target n = none) :
    d.isFile target = false := by
  unfold directoryProblem? at h
  split at h
  · exact nomatch h
  · next hfile => exact Bool.eq_false_iff.2 hfile

/-- Directories that are made are there afterwards, and nothing else is. -/
theorem makeDirs_eq_none {steps : List (Place × List UInt8)} (h : d.makeDirs steps = (d', none)) :
    Keeps d d' ∧ ∀ place,
      d'.find? place = if place ∈ steps.map Prod.fst then some .directory else d.find? place := by
  induction steps generalizing d with
  | nil =>
      obtain ⟨rfl, -⟩ := Prod.mk.inj h
      exact ⟨.refl d, fun place => (if_neg List.not_mem_nil).symm⟩
  | cons step steps ih =>
      obtain ⟨target, path⟩ := step
      unfold makeDirs at h
      split at h
      · exact nomatch h
      · next hproblem =>
          have hfile := isFile_of_directoryProblem? hproblem
          obtain ⟨hkeeps, hfind⟩ := ih h
          refine ⟨(keeps_ensure hfile).trans hkeeps, fun place => ?_⟩
          rw [hfind, find?_ensure hfile, List.map_cons]
          by_cases htarget : place = target
          · rw [if_pos htarget, ite_self, if_pos (htarget ▸ List.mem_cons_self)]
          · rw [if_neg htarget]
            exact if_congr (by rw [List.mem_cons, or_iff_right htarget]) rfl rfl

theorem mem_around_iff {outer : Place} : outer ∈ around place ↔ outer ≠ [] ∧ outer <+: place := by
  simp only [around, List.mem_map, List.mem_range]
  constructor
  · rintro ⟨n, hn, rfl⟩
    refine ⟨fun hnil => ?_, List.take_prefix _ _⟩
    have hlength := congrArg List.length hnil
    rw [List.length_take, List.length_nil] at hlength
    omega
  · rintro ⟨hne, hprefix⟩
    have hpos := List.length_pos_iff.2 hne
    refine ⟨outer.length - 1, by have := hprefix.length_le; omega, ?_⟩
    rw [Nat.sub_add_cancel hpos]
    exact (List.prefix_iff_eq_take.1 hprefix).symm

theorem makeDirAt_eq_none (h : d.makeDirAt target = (d', none)) : Keeps d d' ∧ ∀ place,
    d'.find? place = if place <+: target then some .directory else d.find? place := by
  obtain ⟨hkeeps, hfind⟩ := makeDirs_eq_none h
  refine ⟨hkeeps, fun place => ?_⟩
  rw [hfind, List.map_map]
  change (if place ∈ (around target).map id then _ else _) = _
  rw [List.map_id]
  by_cases hroot : place = []
  · subst hroot
    rw [if_neg fun hmem => (mem_around_iff.1 hmem).1 rfl, if_pos List.nil_prefix]
    rfl
  · simp only [mem_around_iff, hroot, ne_eq, not_false_eq_true, true_and]

theorem createAt_eq_none {path content : List UInt8} (h : d.createAt target path content = (d', none)) :
    Keeps d d' ∧ d.find? target ≠ some .directory ∧ ∀ place,
      d'.find? place = if place = target then some (.file content) else d.find? place := by
  unfold createAt at h
  split at h
  · exact nomatch h
  · next hproblem =>
      obtain ⟨rfl, -⟩ := Prod.mk.inj h
      have hfree : d.find? target ≠ some .directory := by
        intro hdirectory
        unfold fileProblem? at hproblem
        split at hproblem
        · exact nomatch hproblem
        · exact nomatch hproblem
        · rw [if_pos hdirectory, Option.or_eq_none_iff] at hproblem
          exact nomatch hproblem.2
      have hroot : target ≠ [] := by rintro rfl; exact hfree rfl
      have hfind := find?_put (d := d) (.file content) hroot
      refine ⟨⟨rfl, fun p hp => ?_, fun p hp => ?_⟩, hfree, hfind⟩
      · rw [hfind, if_neg]
        · exact hp
        · rintro rfl
          exact hfree hp
      · rw [isFile_iff, hfind]
        split
        · exact ⟨content, rfl⟩
        · exact isFile_iff.1 hp

theorem isBelow_iff {root : Place} : isBelow place root = true ↔ root <+: place := List.isPrefixOf_iff_prefix

/-- Nothing is left at and below a place that is removed, and nothing else is changed. -/
theorem removeAll_eq_none {path : String} (h : d.removeAll path = (d', none)) : d'.workDir = d.workDir ∧
    ∀ place, d'.find? place = if place ≠ [] ∧ d.resolve path <+: place then none else d.find? place := by
  have hd' : d' = { d with entries := d.entries.filter fun e => !isBelow e.1 (d.resolve path) } := by
    unfold removeAll at h
    dsimp only at h
    split at h
    · exact nomatch h
    · exact (Prod.mk.inj h).1.symm
  subst hd'
  refine ⟨rfl, fun place => ?_⟩
  cases place with
  | nil => rw [if_neg fun h => h.1 rfl]; rfl
  | cons name names =>
      change (d.entries.filter fun e => !isBelow e.1 (d.resolve path)).lookup (name :: names) =
        if _ then _ else d.entries.lookup (name :: names)
      rw [lookup_filter_fst fun p => !isBelow p (d.resolve path)]
      simp only [Bool.not_eq_true', ← Bool.not_eq_true, isBelow_iff, ite_not, ne_eq, reduceCtorEq,
        not_false_eq_true, true_and]

end Disk

/-! ## One entry -/

namespace Archive

variable {archive : List UInt8} {root : Place} {d d' d'' : Disk} {e : Entry} {es : List Entry} {place : Place}

/-- The bytes an archive has for an entry, from a place of the archive on. -/
def Entry.bytesFrom (archive : List UInt8) (e : Entry) (start : Nat) : List UInt8 :=
  (e.reads archive start).blocks.flatten ++ (e.reads archive start).rest

theorem flatten_chunksOf (n count : Nat) (bs : List UInt8) :
    (Sha256.chunksOf n count bs).flatten = bs.take (count * n) := by
  induction count generalizing bs with
  | zero => rw [Nat.zero_mul, List.take_zero]; rfl
  | succ count ih =>
      rw [Sha256.chunksOf, List.flatten_cons, ih, Nat.succ_mul, Nat.add_comm, List.take_add]

/-- A file that is stored as it is has the bytes that the archive holds. -/
theorem Entry.bytesFrom_stored (h : e.method = 0) (archive : List UInt8) (start : Nat) :
    e.bytesFrom archive start = (archive.drop start).take e.storedSize := by
  unfold bytesFrom reads storedReads
  rw [if_pos h]
  dsimp only
  split <;> simp only [List.flatten_append, List.flatten_singleton, List.append_nil, flatten_chunksOf,
    List.take_append_drop]

/-- A compressed file whose stream stores bytes has these bytes. -/
theorem Entry.bytesFrom_storedStream {start : Nat} {chunks : List (List UInt8)} (h : e.method ≠ 0)
    (hstream : (archive.drop start).take e.storedSize = Inflate.storedStream chunks)
    (hlength : ∀ chunk ∈ chunks, chunk.length < 0x10000) :
    e.bytesFrom archive start = chunks.flatten ∧ (e.reads archive start).fault = none := by
  obtain ⟨blocks, rest, hinflate, hbytes⟩ := inflate_storedStream hlength
  have hreads : e.reads archive start = { blocks, rest, fault := none } := by
    rw [reads, if_neg h, hstream, inflatedReads, hinflate]
    rfl
  rw [bytesFrom, hreads]
  exact ⟨hbytes, rfl⟩

/-- What is read of an entry without a fault: its bytes up to the limit.  Short of the limit they are complete,
as many as the header says, and pass the check. -/
def Entry.Holds (archive : List UInt8) (e : Entry) (content : List UInt8) : Prop :=
  ∃ start, e.locate archive = .ok start ∧ content = (e.bytesFrom archive start).take contentLimit ∧
    (content.length < contentLimit → (e.reads archive start).fault = none ∧ content.length = e.size ∧
      e.checkFault archive start content = none)

section

variable {kept more : List UInt8}

theorem take_full (hkept : kept.length ≤ contentLimit) (hlimit : contentLimit ≤ kept.length)
    (more : List UInt8) : (kept ++ more).take contentLimit = kept :=
  List.take_left' (le_antisymm hkept hlimit)

theorem append_take_room (hkept : kept.length ≤ contentLimit) (more : List UInt8) :
    kept ++ more.take (contentLimit - kept.length) = (kept ++ more).take contentLimit := by
  rw [List.take_append, List.take_of_length_le hkept]

theorem take_take_append (kept more : List UInt8) :
    (kept.take contentLimit ++ more).take contentLimit = (kept ++ more).take contentLimit := by
  rw [List.take_append, List.take_append, List.take_take, min_self, List.length_take]
  congr 2
  omega

end

theorem Entry.receive_eq_none {check : List UInt8 → Option ReadFault} {rest kept content : List UInt8}
    {fault : Option ReadFault} {blocks : List (List UInt8)} (hkept : kept.length ≤ contentLimit)
    (h : e.receive check rest fault kept blocks = (content, none)) :
    content = (kept ++ (blocks.flatten ++ rest)).take contentLimit ∧
      (content.length < contentLimit → fault = none ∧ content.length = e.size ∧ check content = none) := by
  induction blocks generalizing kept with
  | nil =>
      unfold receive at h
      dsimp only at h
      rw [List.flatten_nil, List.nil_append]
      split at h
      · next hlimit =>
          obtain ⟨rfl, -⟩ := Prod.mk.inj h
          exact ⟨(take_full hkept hlimit rest).symm, fun hlt => absurd hlimit hlt.not_ge⟩
      · rw [append_take_room hkept] at h
        split at h
        · exact nomatch h
        · next hsize =>
            split at h
            · next hcut =>
                obtain ⟨rfl, -⟩ := Prod.mk.inj h
                refine ⟨rfl, fun hlt => ?_⟩
                rw [List.length_take] at hcut hlt
                rw [List.length_append] at hlt
                omega
            · split at h
              · exact nomatch h
              · split at h
                · exact nomatch h
                · next hshort =>
                    obtain ⟨rfl, hcheck⟩ := Prod.mk.inj h
                    exact ⟨rfl, fun _ => ⟨rfl, by omega, hcheck⟩⟩
  | cons block blocks ih =>
      unfold receive at h
      dsimp only at h
      split at h
      · next hlimit =>
          obtain ⟨rfl, -⟩ := Prod.mk.inj h
          exact ⟨(take_full hkept hlimit _).symm, fun hlt => absurd hlimit hlt.not_ge⟩
      · split at h
        · exact nomatch h
        · rw [append_take_room hkept] at h
          obtain ⟨hcontent, hcomplete⟩ := ih (List.length_take_le _ _) h
          rw [take_take_append] at hcontent
          refine ⟨?_, hcomplete⟩
          rw [hcontent, List.flatten_cons, List.append_assoc, List.append_assoc]

theorem Entry.holds_of_content {start : Nat} {content : List UInt8} (hstart : e.locate archive = .ok start)
    (h : e.content archive start = (content, none)) : e.Holds archive content :=
  ⟨start, hstart, Entry.receive_eq_none (Nat.zero_le _) h⟩

/-- The innermost directory that an entry needs. -/
def Entry.folder (root : Place) (e : Entry) : Place :=
  if e.isDirectory then placeOf root e.name else (placeOf root e.name).dropLast

/-- Whether an entry is a file that belongs to a place. -/
def Entry.isFileAt (root place : Place) (e : Entry) : Bool :=
  !e.isDirectory && placeOf root e.name = place

theorem Entry.isFileAt_iff :
    e.isFileAt root place = true ↔ e.isDirectory = false ∧ placeOf root e.name = place := by
  rw [isFileAt, Bool.and_eq_true, Bool.not_eq_true', decide_eq_true_eq]

/-- What unpacking an entry does to a disk. -/
structure Adds (archive : List UInt8) (root : Place) (e : Entry) (d d' : Disk) : Prop where
  inside : isInside (placeOf root e.name) root = true
  keeps : d.Keeps d'
  file : e.isDirectory = false →
    ∃ content, e.Holds archive content ∧ d'.find? (placeOf root e.name) = some (.file content)
  folder : ∀ place, place <+: e.folder root → d'.find? place = some .directory
  other : ∀ place, e.isFileAt root place = false → ¬ place <+: e.folder root → d'.find? place = d.find? place

theorem extractFile_eq_none (h : extractFile archive d place e = (d', none)) : d.Keeps d' ∧
    ∃ content, e.Holds archive content ∧ ∀ p, d'.find? p =
      if p = place then some (.file content)
      else if p <+: place.dropLast then some .directory else d.find? p := by
  unfold extractFile at h
  split at h
  · exact nomatch h
  · next made hmade =>
      obtain ⟨hkeeps, hfind⟩ := Disk.makeDirAt_eq_none hmade
      split at h
      · exact nomatch h
      · next start hstart =>
          dsimp only at h
          split at h
          · exact nomatch h
          · next filled hfilled =>
              obtain ⟨rfl, hfault⟩ := Prod.mk.inj h
              obtain ⟨hkept, -, hfile⟩ := Disk.createAt_eq_none hfilled
              have hcontent : e.content archive start = ((e.content archive start).1, none) :=
                Prod.ext rfl (Option.map_eq_none_iff.1 hfault)
              refine ⟨hkeeps.trans hkept, _, Entry.holds_of_content hstart hcontent, fun p => ?_⟩
              rw [hfile, hfind]

theorem extractEntry_eq_none {named : String} (h : extractEntry archive named root d e = (d', none)) :
    Adds archive root e d d' := by
  unfold extractEntry at h
  dsimp only at h
  split at h
  · exact nomatch h
  · next hinside =>
      have hinside : isInside (placeOf root e.name) root = true := by simpa using hinside
      split at h
      · next hdirectory =>
          have hmade : d.makeDirAt (placeOf root e.name) = (d', none) := by
            obtain ⟨hd', hfault⟩ := Prod.mk.inj h
            exact Prod.ext hd' (Option.map_eq_none_iff.1 hfault)
          obtain ⟨hkeeps, hfind⟩ := Disk.makeDirAt_eq_none hmade
          have hfolder : e.folder root = placeOf root e.name := if_pos hdirectory
          refine ⟨hinside, hkeeps, fun hfile => ?_, fun p hp => ?_, fun p _ hp => ?_⟩
          · rw [hdirectory] at hfile
            exact nomatch hfile
          · rw [hfind, if_pos (hfolder ▸ hp)]
          · rw [hfind, if_neg (hfolder ▸ hp)]
      · next hfile =>
          have hfile : e.isDirectory = false := Bool.eq_false_iff.2 hfile
          have hfolder : e.folder root = (placeOf root e.name).dropLast := if_neg (by simp [hfile])
          obtain ⟨hkeeps, content, hreads, hfind⟩ := extractFile_eq_none h
          refine ⟨hinside, hkeeps, fun _ => ⟨content, hreads, by rw [hfind, if_pos rfl]⟩, fun p hp => ?_,
            fun p hp hout => ?_⟩
          · -- the root of the disk is a directory, so that the file is not there
            have hroot : placeOf root e.name ≠ [] := by
              intro hroot
              have hfound := hfind []
              rw [if_pos hroot.symm] at hfound
              exact nomatch hfound
            have hne : p ≠ placeOf root e.name := by
              rintro rfl
              have hlength := (hfolder ▸ hp).length_le
              rw [List.length_dropLast] at hlength
              have := List.length_pos_iff.2 hroot
              omega
            rw [hfind, if_neg hne, if_pos (hfolder ▸ hp)]
          · have hne : p ≠ placeOf root e.name := by
              rintro rfl
              rw [Entry.isFileAt_iff.2 ⟨hfile, rfl⟩] at hp
              exact nomatch hp
            rw [hfind, if_neg hne, if_neg (hfolder ▸ hout)]

/-! ## All entries -/

def fileAt? (root : Place) (es : List Entry) (place : Place) : Option Entry :=
  es.reverse.find? (·.isFileAt root place)

theorem fileAt?_cons (root : Place) (e : Entry) (es : List Entry) (place : Place) :
    fileAt? root (e :: es) place =
      (fileAt? root es place).or (if e.isFileAt root place then some e else none) := by
  unfold fileAt?
  rw [List.reverse_cons, List.find?_append, List.find?_singleton]

/-- What unpacking entries one after the other does to a disk. -/
structure Fills (archive : List UInt8) (root : Place) (es : List Entry) (d d' : Disk) : Prop where
  inside : ∀ e ∈ es, isInside (placeOf root e.name) root = true
  keeps : d.Keeps d'
  file : ∀ place e, fileAt? root es place = some e →
    ∃ content, e.Holds archive content ∧ d'.find? place = some (.file content)
  folder : ∀ place, ∀ e ∈ es, place <+: e.folder root → d'.find? place = some .directory
  other : ∀ place, fileAt? root es place = none → (∀ e ∈ es, ¬ place <+: e.folder root) →
    d'.find? place = d.find? place

theorem Fills.nil (archive : List UInt8) (root : Place) (d : Disk) : Fills archive root [] d d :=
  ⟨nofun, .refl d, nofun, nofun, fun _ _ _ => rfl⟩

theorem Fills.cons (h : Adds archive root e d d') (hs : Fills archive root es d' d'') :
    Fills archive root (e :: es) d d'' where
  inside := List.forall_mem_cons.2 ⟨h.inside, hs.inside⟩
  keeps := h.keeps.trans hs.keeps
  file place e' hlast := by
    rw [fileAt?_cons] at hlast
    cases hlater : fileAt? root es place with
    | some later =>
        rw [hlater] at hlast
        obtain rfl := Option.some.inj hlast
        exact hs.file place later hlater
    | none =>
        rw [hlater, Option.none_or] at hlast
        split at hlast
        · next hplace =>
            obtain rfl := Option.some.inj hlast
            obtain ⟨hfile, rfl⟩ := Entry.isFileAt_iff.1 hplace
            obtain ⟨content, hreads, hfound⟩ := h.file hfile
            refine ⟨content, hreads, ?_⟩
            rw [hs.other _ hlater fun e' he' hfolder => ?_, hfound]
            -- a later directory would have taken the place of the file
            have hstays := hs.keeps.file _ (Disk.isFile_iff.2 ⟨content, hfound⟩)
            obtain ⟨_, hfile'⟩ := Disk.isFile_iff.1 hstays
            rw [hs.folder _ e' he' hfolder] at hfile'
            exact nomatch hfile'
        · exact nomatch hlast
  folder place := by
    rintro e' (_ | ⟨_, he'⟩) hfolder
    · exact hs.keeps.directory place (h.folder place hfolder)
    · exact hs.folder place e' he' hfolder
  other place hnone hout := by
    rw [fileAt?_cons, Option.or_eq_none_iff] at hnone
    obtain ⟨hlater, hfirst⟩ := hnone
    have hplace : e.isFileAt root place = false := by
      cases hplace : e.isFileAt root place with
      | false => rfl
      | true =>
          rw [hplace] at hfirst
          exact nomatch hfirst
    rw [hs.other place hlater fun e' he' => hout e' (List.mem_cons_of_mem e he'),
      h.other place hplace (hout e List.mem_cons_self)]

theorem extractEntries_eq_none {named : String} (h : extractEntries archive named root d es = (d', none)) :
    Fills archive root es d d' := by
  induction es generalizing d with
  | nil =>
      obtain ⟨rfl, -⟩ := Prod.mk.inj h
      exact .nil archive root d
  | cons e es ih =>
      unfold extractEntries at h
      split at h
      · next made hmade => exact .cons (extractEntry_eq_none hmade) (ih h)
      · next hfailed => exact absurd h (hfailed d')

theorem extract_eq_none {directory : String} (h : extract d archive directory = (d', none)) :
    ∃ es, entries archive = .ok es ∧ Fills archive (d.resolve directory) es d d' := by
  unfold extract at h
  cases hentries : entries archive with
  | error fault =>
      rw [hentries] at h
      exact nomatch h
  | ok es =>
      rw [hentries] at h
      exact ⟨es, rfl, extractEntries_eq_none h⟩

/-! ## An archive in place of what was there -/

/-- Below a place there is what the entries of an archive leave there and nothing else.  Outside of it nothing is
changed but that the directories around it are made. -/
structure Replaces (archive : List UInt8) (root : Place) (es : List Entry) (d d' : Disk) : Prop where
  workDir : d'.workDir = d.workDir
  inside : ∀ e ∈ es, isInside (placeOf root e.name) root = true
  file : ∀ place e, fileAt? root es place = some e →
    ∃ content, e.Holds archive content ∧ d'.find? place = some (.file content)
  folder : ∀ place, ∀ e ∈ es, place <+: e.folder root → d'.find? place = some .directory
  nothing : ∀ place, root <+: place → place ≠ [] → fileAt? root es place = none →
    (∀ e ∈ es, ¬ place <+: e.folder root) → d'.find? place = none
  outside : ∀ place, ¬ root <+: place → d'.find? place = d.find? place ∨
    place <+: root ∧ d.find? place = none ∧ d'.find? place = some .directory

theorem prefix_of_isInside (h : isInside place root = true) : root <+: place := by
  rw [isInside, Bool.or_eq_true, Bool.and_eq_true, decide_eq_true_eq, Disk.isBelow_iff] at h
  rcases h with rfl | ⟨-, h⟩
  · exact List.prefix_rfl
  · exact h

theorem Entry.folder_prefix (root : Place) (e : Entry) : e.folder root <+: placeOf root e.name := by
  unfold folder
  split
  · exact List.prefix_rfl
  · exact List.dropLast_prefix _

/-- A directory that is found where nothing was a file is made, or was there. -/
theorem made_or_same (h : d.Keeps d') (hplace : d'.find? place = some .directory) :
    d'.find? place = d.find? place ∨ d.find? place = none ∧ d'.find? place = some .directory := by
  cases hfound : d.find? place with
  | none => exact .inr ⟨rfl, hplace⟩
  | some entry =>
      cases entry with
      | directory => exact .inl hplace
      | file content =>
          obtain ⟨_, hfile⟩ := Disk.isFile_iff.1 (h.file place (Disk.isFile_iff.2 ⟨content, hfound⟩))
          rw [hplace] at hfile
          exact nomatch hfile

theorem replaces_of_extract {directory : String} {cleared : Disk} (hclear : d.removeAll directory = (cleared, none))
    (h : extract cleared archive directory = (d', none)) :
    ∃ es, entries archive = .ok es ∧ Replaces archive (d.resolve directory) es d d' := by
  obtain ⟨hwork, hcleared⟩ := Disk.removeAll_eq_none hclear
  obtain ⟨es, hentries, hfills⟩ := extract_eq_none h
  have hroot : cleared.resolve directory = d.resolve directory := by rw [Disk.resolve, hwork, Disk.resolve]
  rw [hroot] at hfills
  refine ⟨es, hentries, hfills.keeps.workDir.trans hwork, hfills.inside, hfills.file, hfills.folder,
    fun place hbelow hne hnone hout => ?_, fun place hplace => ?_⟩
  · rw [hfills.other place hnone hout, hcleared, if_pos ⟨hne, hbelow⟩]
  · have hsame : cleared.find? place = d.find? place := by rw [hcleared, if_neg fun h => hplace h.2]
    rw [← hsame]
    by_cases hfolder : ∃ e ∈ es, place <+: e.folder (d.resolve directory)
    · obtain ⟨e, he, haround⟩ := hfolder
      have htop : place <+: d.resolve directory :=
        (List.prefix_or_prefix_of_prefix (haround.trans (e.folder_prefix _))
          (prefix_of_isInside (hfills.inside e he))).resolve_right hplace
      exact (made_or_same hfills.keeps (hfills.folder place e he haround)).imp_right fun h => ⟨htop, h⟩
    · refine .inl (hfills.other place ?_ fun e he haround => hfolder ⟨e, he, haround⟩)
      cases hfile : fileAt? (d.resolve directory) es place with
      | none => rfl
      | some e =>
          have he := List.mem_reverse.1 (List.mem_of_find?_eq_some hfile)
          obtain ⟨-, rfl⟩ := Entry.isFileAt_iff.1 (List.find?_some hfile)
          exact absurd (prefix_of_isInside (hfills.inside e he)) hplace

end Archive

end Datapack
