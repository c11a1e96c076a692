import Datapack.Archive.Extraction
import Datapack.Config.Basic
import Datapack.Dependency.Cache
import Datapack.Dependency.Fetch

/-!
# Installing dependencies

A dependency is installed into a directory of its own below the pack: its archive comes from the cache or
is fetched, must have the expected digest, and replaces what was in the directory. Nothing is written
before the digest is checked.
-/

namespace Datapack.Dependency

/-- What installing works on. -/
structure Depot (κ : Type := Shelf) [Bucket κ] where
  disk : Disk := {}
  line : Line
  /-- The archive cache, if there is one. -/
  cache : Option (Cache κ) := none
  policy : RetryPolicy := {}
  /-- The function whose digests identify archives. -/
  hash : List UInt8 → List UInt8 := Archive.Sha256.digest

inductive InstallFault where
  | reservedName (name : String)
  | outside (name root : String)
  | fetch (fault : FetchFault)
  | checksum (fault : ChecksumFault)
  | extract (fault : Archive.ExtractFault)
  /-- The hook of the dependency failed. -/
  | hook (name reason : String)
  deriving DecidableEq

/-- The wording of a dependency that cannot be installed, as bytes because the names of files need not be
texts. -/
def InstallFault.messageBytes : InstallFault → List UInt8
  | reservedName name =>
    Text.bytes ("extraction failed: dependency name " ++ Text.quoted name ++ " is reserved")
  | outside name root =>
    Text.bytes ("extraction failed: dependency " ++ Text.quoted name ++ " escapes " ++ root)
  | fetch fault => Text.bytes fault.message
  | checksum fault => Text.bytes fault.message
  | extract fault => Text.bytes "extraction failed: " ++ fault.message
  | hook name reason => Text.bytes ("post-install hook failed: " ++ name ++ ": " ++ reason)

def InstallFault.message (f : InstallFault) : String := Text.ofBytes f.messageBytes

/-- The directory of a dependency: a fresh entry directly below the root. -/
def installDir (workDir root name : String) : Except InstallFault String :=
  if name = "" || Config.reservedNames.contains name then .error (.reservedName name)
  else
    let base := Path.absolute workDir root
    if Path.parent (Path.join [base, name]) ≠ base then .error (.outside name root)
    else .ok (Path.join [root, name])

namespace Depot

variable {κ : Type} [Bucket κ]

def cached? (d : Depot κ) (digest : String) : Option (List UInt8) :=
  if digest = "" then none else d.cache.bind (·.get? digest)

/-- The archive of a dependency, from the cache or fetched, and whether it was in the cache. -/
def obtain (d : Depot κ) (dep : Config.Dependency) :
    Except FetchFault (List UInt8 × Bool) × Depot κ :=
  match d.cached? dep.digest with
  | some archive => (.ok (archive, true), d)
  | none =>
    let (result, line) := d.policy.fetch dep.url d.line
    (result.map (·, false), { d with line })

/-- Keep an archive in the cache, if there is one and it takes the archive. -/
def keep (d : Depot κ) (digest : String) (archive : List UInt8) : Depot κ :=
  match d.cache with
  | none => d
  | some cache =>
    match cache.put digest archive with
    | .ok cache => { d with cache := some cache }
    | .error _ => d

/-- Unpack an archive into a directory in place of what was there. -/
def replaceBy (disk : Disk) (archive : List UInt8) (dir : String) :
    Disk × Option Archive.ExtractFault :=
  match disk.removeAll dir with
  | (disk, some fault) => (disk, some (.disk fault))
  | (disk, none) => Archive.extract disk archive dir

/-- Unpack a checked archive into a directory in place of what was there, and run the hook. -/
def unpack (d : Depot κ) (dep : Config.Dependency) (archive : List UInt8) (dir : String) :
    Except InstallFault String × Depot κ :=
  match replaceBy d.disk archive dir with
  | (disk, some fault) => (.error (.extract fault), { d with disk })
  | (disk, none) =>
    match dep.hook with
    | none => (.ok dir, { d with disk })
    | some hook =>
      match hook disk dir with
      | (disk, some reason) => (.error (.hook dep.name reason), { d with disk })
      | (disk, none) => (.ok dir, { d with disk })

/-- Install a dependency below a root; the result is its directory. -/
def install (d : Depot κ) (dep : Config.Dependency) (root : String) :
    Except InstallFault String × Depot κ :=
  match installDir d.disk.workDir root dep.name with
  | .error fault => (.error fault, d)
  | .ok dir =>
    match d.obtain dep with
    | (.error fault, d) => (.error (.fetch fault), d)
    | (.ok (archive, cached), d) =>
      match verifyBy d.hash archive dep.digest with
      | .error fault => (.error (.checksum fault), d)
      | .ok () => (if cached then d else d.keep dep.digest archive).unpack dep archive dir

end Depot

end Datapack.Dependency
