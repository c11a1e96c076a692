import Datapack.Dependency.Install
import Datapack.Proofs.Archive.Extraction
import Datapack.Proofs.Text.Characters
import Mathlib.Control.Monad.Basic

/-!
# Only verified archives are cached or installed

An installation checks the digest of its archive before it touches the cache or the disk, wherever the
archive came from.  `install_cases` says once what an installation can do; from it follows that a cache
keeps every archive under the archive's own digest through any sequence of installations, that an installation
which succeeds leaves what its archive holds and nothing else, and that one which fails before it unpacks
anything leaves everything as it was.  The hash function is an arbitrary one, and so is the database behind the
cache as long as it keeps what it promises.
-/

namespace Datapack.Dependency

open Text

/-! ## Digests and the cache -/

theorem verifyBy_eq_ok_iff {hash : List UInt8 → List UInt8} {archive : List UInt8} {digest : String} :
    verifyBy hash archive digest = .ok () ↔ digest ≠ "" ∧ lowerAscii digest = digestBy hash archive := by
  unfold verifyBy
  dsimp only
  split
  · next hempty => exact ⟨nofun, fun h => absurd hempty h.1⟩
  · next hne =>
      split
      · next hdiffers => exact ⟨nofun, fun h => absurd h.2 hdiffers⟩
      · next hsame => exact ⟨fun _ => ⟨hne, not_not.1 hsame⟩, fun _ => rfl⟩

/-- A digest that is right up to letter case is kept under the digest itself. -/
theorem lowerCase_of_verifyBy {hash : List UInt8 → List UInt8} {archive : List UInt8} {digest : String}
    (h : verifyBy hash archive digest = .ok ()) : lowerCase digest = digestBy hash archive := by
  have hdigest := (verifyBy_eq_ok_iff.1 h).2
  rw [lowerCase_eq_lowerAscii, hdigest]
  intro c hc
  rw [hdigest] at hc
  exact lt_of_mem_hex hc

variable {κ : Type} [Bucket κ]

/-- Every archive of a cache is kept under its own digest. -/
def Cache.IsVerified (hash : List UInt8 → List UInt8) (c : Cache κ) : Prop :=
  ∀ key archive, Bucket.get? c.bucket key = some archive → bytes (digestBy hash archive) = key

theorem Cache.IsVerified.put [LawfulBucket κ] {hash : List UInt8 → List UInt8} {c c' : Cache κ}
    {digest : String} {archive : List UInt8} (h : c.IsVerified hash)
    (hverify : verifyBy hash archive digest = .ok ()) (hput : c.put digest archive = .ok c') :
    c'.IsVerified hash := by
  unfold Cache.put at hput
  cases hbucket : Bucket.put c.bucket (Cache.key digest) archive with
  | error fault =>
      rw [hbucket] at hput
      exact nomatch hput
  | ok bucket =>
      rw [hbucket] at hput
      obtain rfl := Except.ok.inj hput
      intro key stored hget
      by_cases hkey : key = Cache.key digest
      · subst hkey
        obtain rfl := Option.some.inj ((LawfulBucket.get?_put hbucket).symm.trans hget)
        rw [Cache.key, lowerCase_of_verifyBy hverify]
      · exact h key stored ((LawfulBucket.get?_put_of_ne hbucket hkey).symm.trans hget)

instance : LawfulBucket Shelf where
  get?_empty _ := rfl
  get?_put {s s' key value} h := by
    change (if key.isEmpty then _ else if keyLimit < key.length then _ else _) = _ at h
    split at h
    · exact nomatch h
    · split at h
      · exact nomatch h
      · obtain rfl := Except.ok.inj h
        exact List.lookup_cons_self
  get?_put_of_ne {s s' key key' value} h hne := by
    change (if key.isEmpty then _ else if keyLimit < key.length then _ else _) = _ at h
    split at h
    · exact nomatch h
    · split at h
      · exact nomatch h
      · obtain rfl := Except.ok.inj h
        change List.lookup key' (_ :: _) = List.lookup key' s
        rw [lookup_cons_ite, if_neg hne, lookup_filter_fst_ne, if_neg hne]
  put_nil _ _ := rfl
  put_long s key value h := by
    change (if key.isEmpty then _ else if keyLimit < key.length then _ else _) = _
    have hne : key ≠ [] := by
      rintro rfl
      exact absurd h (Nat.not_lt_zero _)
    rw [if_neg (by simpa using hne), if_pos h]

/-! ## One installation -/

/-- Whether a fault arises before anything is unpacked. -/
def InstallFault.isEarly : InstallFault → Bool
  | reservedName _ => true
  | outside _ _ => true
  | fetch _ => true
  | checksum _ => true
  | extract _ => false
  | hook _ _ => false

namespace Depot

variable {d d' : Depot κ} {dep : Config.Dependency} {root dir : String} {archive : List UInt8}

/-- What unpacking a checked archive leads to: a late fault, or the content of the archive and what the
hook makes of it. -/
inductive Unpacks (disk : Disk) (dep : Config.Dependency) (archive : List UInt8) (dir : String) :
    Except InstallFault String → Disk → Prop where
  | failed {fault : InstallFault} {after : Disk} (hlate : fault.isEarly = false) :
      Unpacks disk dep archive dir (.error fault) after
  | bare {es : List Archive.Entry} {after : Disk} (hentries : Archive.entries archive = .ok es)
      (hreplaces : Archive.Replaces archive (disk.resolve dir) es disk after) (hhook : dep.hook = none) :
      Unpacks disk dep archive dir (.ok dir) after
  | hooked {es : List Archive.Entry} {unpacked after : Disk} {hook : Config.Hook}
      (hentries : Archive.entries archive = .ok es)
      (hreplaces : Archive.Replaces archive (disk.resolve dir) es disk unpacked)
      (hhook : dep.hook = some hook) (hrun : hook unpacked dir = (after, none)) :
      Unpacks disk dep archive dir (.ok dir) after

theorem replaceBy_eq_none {disk after : Disk} (h : replaceBy disk archive dir = (after, none)) :
    ∃ es, Archive.entries archive = .ok es ∧
      Archive.Replaces archive (disk.resolve dir) es disk after := by
  unfold replaceBy at h
  split at h
  · exact nomatch h
  · next cleared hclear => exact Archive.replaces_of_extract hclear h

theorem unpack_cases (d : Depot κ) (dep : Config.Dependency) (archive : List UInt8) (dir : String) :
    ∃ result disk, d.unpack dep archive dir = (result, { d with disk }) ∧
      Unpacks d.disk dep archive dir result disk := by
  unfold unpack
  split
  · next unpacked fault _ => exact ⟨.error (.extract fault), unpacked, rfl, .failed rfl⟩
  · next unpacked hreplace =>
      obtain ⟨es, hentries, hreplaces⟩ := replaceBy_eq_none hreplace
      split
      · next hhook => exact ⟨.ok dir, unpacked, rfl, .bare hentries hreplaces hhook⟩
      · next hook hhook =>
          split
          · next after reason _ => exact ⟨.error (.hook dep.name reason), after, rfl, .failed rfl⟩
          · next after hrun => exact ⟨.ok dir, after, rfl, .hooked hentries hreplaces hhook hrun⟩

/-- What keeping an archive can do: the cache stays, or the archive is put into it. -/
theorem keep_cases (d : Depot κ) (digest : String) (archive : List UInt8) :
    d.keep digest archive = d ∨ ∃ c c', d.cache = some c ∧ c.put digest archive = .ok c' ∧
      d.keep digest archive = { d with cache := some c' } := by
  unfold keep
  cases hcache : d.cache with
  | none => exact .inl rfl
  | some c =>
      dsimp only
      cases hput : c.put digest archive with
      | ok c' => exact .inr ⟨c, c', rfl, hput, rfl⟩
      | error fault => exact .inl rfl

/-- Getting hold of an archive uses the line only. -/
theorem obtain_cases (d : Depot κ) (dep : Config.Dependency) :
    ∃ result line, d.obtain dep = (result, { d with line }) := by
  unfold Depot.obtain
  split
  · exact ⟨_, d.line, rfl⟩
  · exact ⟨_, _, rfl⟩

/-- What an installation can do: fail before it touches anything but the line, or unpack the archive it got hold
of, which is checked and at most is kept in the cache before. -/
theorem install_cases (d : Depot κ) (dep : Config.Dependency) (root : String) :
    ∃ result d', d.install dep root = (result, d') ∧ d'.hash = d.hash ∧
      ((∃ fault, result = .error fault ∧ d'.disk = d.disk ∧ d'.cache = d.cache) ∨
        ∃ dir archive cached, (d.obtain dep).1 = .ok (archive, cached) ∧
          verifyBy d.hash archive dep.digest = .ok () ∧ Unpacks d.disk dep archive dir result d'.disk ∧
          (d'.cache = d.cache ∨
            ∃ c c', d.cache = some c ∧ c.put dep.digest archive = .ok c' ∧ d'.cache = some c')) := by
  cases hdir : installDir d.disk.workDir root dep.name with
  | error fault => exact ⟨_, d, by rw [install, hdir], rfl, .inl ⟨fault, rfl, rfl, rfl⟩⟩
  | ok dir =>
      obtain ⟨result, line, hobtain⟩ := d.obtain_cases dep
      cases result with
      | error fault =>
          exact ⟨.error (.fetch fault), { d with line }, by simp only [install, hdir, hobtain], rfl,
            .inl ⟨.fetch fault, rfl, rfl, rfl⟩⟩
      | ok got =>
          obtain ⟨archive, cached⟩ := got
          have hgot : (d.obtain dep).1 = .ok (archive, cached) := by rw [hobtain]
          cases hverify : verifyBy d.hash archive dep.digest with
          | error fault =>
              exact ⟨.error (.checksum fault), { d with line },
                by simp only [install, hdir, hobtain, hverify], rfl, .inl ⟨.checksum fault, rfl, rfl, rfl⟩⟩
          | ok _ =>
              let before : Depot κ := { d with line }
              let kept := if cached then before else before.keep dep.digest archive
              have hkept : kept = before ∨ ∃ c c', d.cache = some c ∧ c.put dep.digest archive = .ok c' ∧
                  kept = { before with cache := some c' } := by
                cases cached with
                | true => exact .inl rfl
                | false => exact before.keep_cases dep.digest archive
              obtain ⟨result, disk, hunpack, hunpacks⟩ := kept.unpack_cases dep archive dir
              refine ⟨result, { kept with disk }, ?_, ?_⟩
              · rw [← hunpack]
                simp only [install, hdir, hobtain, hverify]
                rfl
              · rcases hkept with hsame | ⟨c, c', hcache, hput, hsame⟩
                · rw [hsame] at hunpacks ⊢
                  exact ⟨rfl, .inr ⟨dir, archive, cached, hgot, hverify, hunpacks, .inl rfl⟩⟩
                · rw [hsame] at hunpacks ⊢
                  exact ⟨rfl, .inr ⟨dir, archive, cached, hgot, hverify, hunpacks,
                    .inr ⟨c, c', hcache, hput, rfl⟩⟩⟩

/-! ## Many installations -/

/-- Every archive in the cache is kept under its own digest. -/
def IsVerified (d : Depot κ) : Prop := ∀ c, d.cache = some c → c.IsVerified d.hash

theorem IsVerified.install [LawfulBucket κ] (h : d.IsVerified) (dep : Config.Dependency) (root : String) :
    (d.install dep root).2.IsVerified := by
  obtain ⟨result, d', hinstall, hhash, hcases⟩ := d.install_cases dep root
  rw [hinstall]
  intro c hc
  rw [hhash]
  rcases hcases with ⟨fault, -, -, hcache⟩ |
    ⟨dir, archive, cached, -, hverify, -, hcache | ⟨old, new, hold, hput, hnew⟩⟩
  · exact h c (hcache ▸ hc)
  · exact h c (hcache ▸ hc)
  · obtain rfl := Option.some.inj (hnew.symm.trans hc)
    exact (h old hold).put hverify hput

/-- An installation that is asked for: what goes where, and the line on which its archive would come. -/
structure Order where
  dep : Config.Dependency
  root : String
  line : Line

def fill (d : Depot κ) (o : Order) : Except InstallFault String × Depot κ :=
  { d with line := o.line }.install o.dep o.root

/-- What installations leave behind, one after the other, whether they succeed or not. -/
def afterAll (d : Depot κ) (orders : List Order) : Depot κ := orders.foldl (fun d o => (d.fill o).2) d

theorem hash_fill (d : Depot κ) (o : Order) : (d.fill o).2.hash = d.hash := by
  obtain ⟨result, d', hinstall, hhash, -⟩ := install_cases { d with line := o.line } o.dep o.root
  rw [fill, hinstall]
  exact hhash

theorem hash_afterAll (d : Depot κ) (orders : List Order) : (d.afterAll orders).hash = d.hash := by
  induction orders generalizing d with
  | nil => rfl
  | cons o orders ih => exact (ih _).trans (hash_fill d o)

theorem IsVerified.afterAll [LawfulBucket κ] (h : d.IsVerified) (orders : List Order) :
    (d.afterAll orders).IsVerified := by
  induction orders generalizing d with
  | nil => exact h
  | cons o orders ih =>
      have hline : IsVerified { d with line := o.line } := h
      exact ih (hline.install o.dep o.root)

/-- Whatever was installed or failed to be installed before: each archive in the cache is kept under its own
digest.  An installation that succeeds got hold of an archive with the expected digest and replaced what was in
its directory by what this archive holds, before the hook ran.  One that fails before it unpacks anything
leaves disk and cache as they were. -/
theorem installs_verified_archives [LawfulBucket κ] (d : Depot κ)
    (hempty : ∀ c, d.cache = some c → c.bucket = Bucket.empty) (orders : List Order) :
    (∀ c, (d.afterAll orders).cache = some c → ∀ key archive, Bucket.get? c.bucket key = some archive →
      bytes (digestBy d.hash archive) = key) ∧
    ∀ o next,
      (∀ dir, (d.afterAll orders).fill o = (.ok dir, next) → o.dep.digest ≠ "" ∧
        ∃ archive cached es unpacked,
          ({ d.afterAll orders with line := o.line }.obtain o.dep).1 = .ok (archive, cached) ∧
          lowerAscii o.dep.digest = digestBy d.hash archive ∧ Archive.entries archive = .ok es ∧
          Archive.Replaces archive ((d.afterAll orders).disk.resolve dir) es (d.afterAll orders).disk unpacked ∧
          match o.dep.hook with
          | none => next.disk = unpacked
          | some hook => hook unpacked dir = (next.disk, none)) ∧
      ∀ fault, (d.afterAll orders).fill o = (.error fault, next) → fault.isEarly = true →
        next.disk = (d.afterAll orders).disk ∧ next.cache = (d.afterAll orders).cache := by
  have hstart : d.IsVerified := by
    intro c hc key archive hget
    rw [hempty c hc, LawfulBucket.get?_empty] at hget
    exact nomatch hget
  have hverified := hstart.afterAll orders
  have hhash := hash_afterAll d orders
  generalize d.afterAll orders = now at hverified hhash ⊢
  constructor
  · rw [← hhash]
    exact hverified
  · intro o next
    obtain ⟨result, d', hinstall, -, hcases⟩ := install_cases { now with line := o.line } o.dep o.root
    constructor
    · intro dir hfill
      obtain ⟨rfl, rfl⟩ := Prod.mk.inj (hinstall.symm.trans hfill)
      rcases hcases with ⟨fault, hresult, -⟩ | ⟨dir', archive, cached, hgot, hverify, hunpacks, -⟩
      · exact nomatch hresult
      · obtain ⟨hdigest, hsame⟩ := verifyBy_eq_ok_iff.1 hverify
        rw [← hhash]
        cases hunpacks with
        | bare hentries hreplaces hhook =>
            exact ⟨hdigest, archive, cached, _, _, hgot, hsame, hentries, hreplaces, by rw [hhook]⟩
        | hooked hentries hreplaces hhook hrun =>
            exact ⟨hdigest, archive, cached, _, _, hgot, hsame, hentries, hreplaces,
              by rw [hhook]; exact hrun⟩
    · intro fault hfill hearly
      obtain ⟨rfl, rfl⟩ := Prod.mk.inj (hinstall.symm.trans hfill)
      rcases hcases with ⟨fault', -, hdisk, hcache⟩ | ⟨dir, archive, cached, -, -, hunpacks, -⟩
      · exact ⟨hdisk, hcache⟩
      · cases hunpacks with
        | failed hlate =>
            rw [hlate] at hearly
            exact Bool.noConfusion hearly

/-- An archive of two files: `a.txt`, which is compressed, and `b/c`, which is stored. -/
def tickArchive : List UInt8 :=
  [0x50, 0x4b, 0x03, 0x04, 0x14, 0x00, 0x00, 0x00, 0x08, 0x00, 0x00, 0x00, 0x00, 0x00, 0x07, 0xd1, 0xd6,
    0x84, 0x09, 0x00, 0x00, 0x00, 0x0e, 0x00, 0x00, 0x00, 0x05, 0x00, 0x00, 0x00, 0x61, 0x2e, 0x74, 0x78,
    0x74, 0x2b, 0xc9, 0x4c, 0xce, 0x56, 0x28, 0x81, 0x11, 0x00, 0x50, 0x4b, 0x03, 0x04, 0x14, 0x00, 0x00,
    0x00, 0x00, 0x00, 0x00, 0x00, 0x00, 0x00, 0x83, 0x16, 0xdc, 0x8c, 0x01, 0x00, 0x00, 0x00, 0x01, 0x00,
    0x00, 0x00, 0x03, 0x00, 0x00, 0x00, 0x62, 0x2f, 0x63, 0x78, 0x50, 0x4b, 0x01, 0x02, 0x14, 0x00, 0x14,
    0x00, 0x00, 0x00, 0x08, 0x00, 0x00, 0x00, 0x00, 0x00, 0x07, 0xd1, 0xd6, 0x84, 0x09, 0x00, 0x00, 0x00,
    0x0e, 0x00, 0x00, 0x00, 0x05, 0x00, 0x00, 0x00, 0x00, 0x00, 0x00, 0x00, 0x00, 0x00, 0x00, 0x00, 0x00,
    0x00, 0x00, 0x00, 0x00, 0x00, 0x61, 0x2e, 0x74, 0x78, 0x74, 0x50, 0x4b, 0x01, 0x02, 0x14, 0x00, 0x14,
    0x00, 0x00, 0x00, 0x00, 0x00, 0x00, 0x00, 0x00, 0x00, 0x83, 0x16, 0xdc, 0x8c, 0x01, 0x00, 0x00, 0x00,
    0x01, 0x00, 0x00, 0x00, 0x03, 0x00, 0x00, 0x00, 0x00, 0x00, 0x00, 0x00, 0x00, 0x00, 0x00, 0x00, 0x00,
    0x00, 0x2c, 0x00, 0x00, 0x00, 0x62, 0x2f, 0x63, 0x50, 0x4b, 0x05, 0x06, 0x00, 0x00, 0x00, 0x00, 0x02,
    0x00, 0x02, 0x00, 0x64, 0x00, 0x00, 0x00, 0x4e, 0x00, 0x00, 0x00, 0x00, 0x00]

/-- A pack with a file of its own and the directory of an older dependency, and an empty cache. -/
def tickDepot : Depot where
  disk := (Disk.writeText (Disk.writeText {} "/pack/pack.mcmeta" "{}").1 "/pack/lib/old.txt" "old").1
  line := .scripted []
  cache := some {}

/-- An order of a dependency whose archive would come from the server. -/
def tickOrder (name digest : String) (answers : List Response) : Order where
  dep := { name, url := "http://example.com/lib.zip", digest }
  root := "/pack"
  line := .scripted answers

/-- Orders of the archive: one with a wrong digest and one with the right one. -/
def tickOrders : List Order :=
  [tickOrder "lib" "00" [.answered 200 tickArchive],
    tickOrder "first" "db4a3094d4ec5022dd1a22fb2cd47da33d30a067f2c7c87b7a61bfde0ade08a9" [.answered 200 tickArchive]]

/-- An order of the archive with the right digest in capital letters; the server is out of reach. -/
def tickAgain : Order :=
  tickOrder "lib" "DB4A3094D4EC5022DD1A22FB2CD47DA33D30A067F2C7C87B7A61BFDE0ADE08A9" [.unreachable "no network"]

/-- What a path leads to once all orders are done. -/
def tickFound (path : String) : Option DiskEntry :=
  let disk := ((tickDepot.afterAll tickOrders).fill tickAgain).2.disk
  disk.find? (disk.resolve path)

/-- The wrong digest leaves the older dependency alone.  The archive that the right digest brought into the cache
replaces it without the server. -/
theorem installs_verified_archives_tick :
    (∀ c, tickDepot.cache = some c → c.bucket = Bucket.empty) ∧
    (tickDepot.afterAll (tickOrders.take 1)).disk = tickDepot.disk ∧
    (∃ next archive es, (tickDepot.afterAll tickOrders).fill tickAgain = (.ok "/pack/lib", next) ∧
      lowerAscii tickAgain.dep.digest = digestBy tickDepot.hash archive ∧ Archive.entries archive = .ok es ∧
      Archive.Replaces archive ((tickDepot.afterAll tickOrders).disk.resolve "/pack/lib") es
        (tickDepot.afterAll tickOrders).disk next.disk) ∧
    tickFound "/pack/lib/a.txt" = some (.file (bytes "tick tick tick")) ∧
    tickFound "/pack/lib/b/c" = some (.file (bytes "x")) ∧ tickFound "/pack/lib/old.txt" = none ∧
    tickFound "/pack/pack.mcmeta" = some (.file (bytes "{}")) := by
  have hempty : ∀ c, tickDepot.cache = some c → c.bucket = Bucket.empty := by
    intro c hc
    obtain rfl := Option.some.inj hc
    rfl
  obtain ⟨hkept, hresult, hfound⟩ :
      (tickDepot.afterAll (tickOrders.take 1)).disk = tickDepot.disk ∧
        ((tickDepot.afterAll tickOrders).fill tickAgain).1 = .ok "/pack/lib" ∧
        tickFound "/pack/lib/a.txt" = some (.file (bytes "tick tick tick")) ∧
        tickFound "/pack/lib/b/c" = some (.file (bytes "x")) ∧ tickFound "/pack/lib/old.txt" = none ∧
        tickFound "/pack/pack.mcmeta" = some (.file (bytes "{}")) := by decide +kernel
  refine ⟨hempty, hkept, ?_, hfound⟩
  clear hkept hfound
  obtain ⟨-, hinstalled⟩ := installs_verified_archives tickDepot hempty tickOrders
  generalize tickDepot.afterAll tickOrders = now at hinstalled hresult ⊢
  cases hfill : now.fill tickAgain with
  | mk result next =>
      obtain rfl : result = .ok "/pack/lib" := by rw [← hresult, hfill]
      obtain ⟨-, archive, cached, es, unpacked, -, hdigest, hentries, hreplaces, hdisk⟩ :=
        (hinstalled tickAgain next).1 "/pack/lib" hfill
      have hdisk : next.disk = unpacked := hdisk
      exact ⟨next, archive, es, rfl, hdigest, hentries, hdisk ▸ hreplaces⟩

end Depot

end Datapack.Dependency
