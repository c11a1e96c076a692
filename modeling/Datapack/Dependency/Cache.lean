import Datapack.Archive.Sha256
import Datapack.Text.Case
import Datapack.Text.Hash

/-!
# Digests and the archive cache

Archives are identified by their SHA-256 digest in hexadecimal; the case of its letters does not matter.
A cache keeps archives under their digests.
-/

namespace Datapack.Dependency

open Text

/-- The digest of an archive under a hash function, in lower-case hexadecimal. -/
def digestBy (hash : List UInt8 → List UInt8) (archive : List UInt8) : String := hex (hash archive)

/-- Why an archive is not the expected one. -/
inductive ChecksumFault where
  | noDigest
  | mismatch (expected got : String)
  deriving DecidableEq

def ChecksumFault.message : ChecksumFault → String
  | noDigest => "checksum mismatch: no digest given"
  | mismatch expected got => "checksum mismatch: expected " ++ expected ++ ", got " ++ got

def verifyBy (hash : List UInt8 → List UInt8) (archive : List UInt8) (digest : String) :
    Except ChecksumFault Unit :=
  let got := digestBy hash archive
  if digest = "" then .error .noDigest
  else if lowerAscii digest ≠ got then .error (.mismatch (lowerCase digest) got)
  else .ok ()

def verify (archive : List UInt8) (digest : String) : Except ChecksumFault Unit :=
  verifyBy Archive.Sha256.digest archive digest

/-- Why an archive is not kept. -/
inductive CacheFault where
  | keyRequired
  | keyTooLarge
  /-- The database fails for a reason of its own. -/
  | failed (reason : String)
  deriving DecidableEq, Repr

def CacheFault.message : CacheFault → String
  | keyRequired => "key required"
  | keyTooLarge => "key too large"
  | failed reason => reason

/-- A bucket of a key-value database.  How it keeps its values is left to the database. -/
class Bucket (κ : Type) where
  /-- A bucket that was just created. -/
  empty : κ
  get? : κ → List UInt8 → Option (List UInt8)
  /-- Put a value under a key.  A bucket that refuses stays as it is. -/
  put : κ → List UInt8 → List UInt8 → Except CacheFault κ

def keyLimit : Nat := 32768

/-- What a database promises. -/
class LawfulBucket (κ : Type) [Bucket κ] : Prop where
  get?_empty : ∀ key, Bucket.get? (Bucket.empty : κ) key = none
  get?_put : ∀ {b b' : κ} {key value}, Bucket.put b key value = .ok b' → Bucket.get? b' key = some value
  get?_put_of_ne : ∀ {b b' : κ} {key key' value}, Bucket.put b key value = .ok b' → key' ≠ key →
    Bucket.get? b' key' = Bucket.get? b key'
  put_nil : ∀ (b : κ) value, Bucket.put b [] value = .error .keyRequired
  put_long : ∀ (b : κ) {key : List UInt8} (value), keyLimit < key.length →
    Bucket.put b key value = .error .keyTooLarge

/-- A bucket in memory: values by their keys, each key once. -/
abbrev Shelf := List (List UInt8 × List UInt8)

instance : Bucket Shelf where
  empty := []
  get? s key := s.lookup key
  put s key value :=
    if key.isEmpty then .error .keyRequired
    else if keyLimit < key.length then .error .keyTooLarge
    else .ok ((key, value) :: s.filter (·.1 ≠ key))

/-- Archives in a bucket under their digests. -/
structure Cache (κ : Type := Shelf) [Bucket κ] where
  bucket : κ := Bucket.empty

namespace Cache

variable {κ : Type} [Bucket κ]

def key (digest : String) : List UInt8 := bytes (lowerCase digest)

/-- The archive kept under a digest; an empty one counts as none. -/
def get? (c : Cache κ) (digest : String) : Option (List UInt8) :=
  (Bucket.get? c.bucket (key digest)).filter (!·.isEmpty)

def put (c : Cache κ) (digest : String) (archive : List UInt8) : Except CacheFault (Cache κ) :=
  (Bucket.put c.bucket (key digest) archive).map (⟨·⟩)

end Cache

end Datapack.Dependency
