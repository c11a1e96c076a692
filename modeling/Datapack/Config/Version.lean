import Datapack.Text.Resource
import Datapack.Text.Split

/-!
# Game versions

Versions have two or three components and belong to an edition. A version whose components are all zero
is unset, and an unset bound of a range is open.
-/

namespace Datapack.Config

inductive Edition where
  | java | bedrock
  deriving DecidableEq, Repr, Inhabited

def Edition.name : Edition → String
  | java => "java"
  | bedrock => "bedrock"

structure Version where
  major : Int64 := 0
  minor : Int64 := 0
  patch : Int64 := 0
  edition : Edition := .java
  deriving DecidableEq, Inhabited

inductive VersionError where
  | unknownEdition (edition : String)
  | invalid (text : String)

def VersionError.message : VersionError → String
  | unknownEdition e => "unknown edition " ++ Text.quoted e
  | invalid s => "invalid version " ++ Text.quoted s

/-- A decimal integer of 64 bits that may carry a sign. -/
def signedInteger? (s : String) : Option Int64 :=
  let (negative, digits) :=
    match s.toList with
    | '-' :: ds => (true, ds)
    | '+' :: ds => (false, ds)
    | ds => (false, ds)
  if digits.isEmpty || !digits.all Char.isDigit then none
  else
    let n : Int := digits.foldl (fun n c => n * 10 + (c.toNat - '0'.toNat)) 0
    let v := if negative then -n else n
    if -0x8000000000000000 ≤ v ∧ v < 0x8000000000000000 then some (Int64.ofInt v) else none

namespace Version

/-- A component of a version: an integer that is not negative. -/
def component? (s : String) : Option Int64 :=
  (signedInteger? s).filter fun n => 0 ≤ n

def ofComponents (edition : Edition) (text : String) : Except VersionError Version :=
  match (Text.split '.' text).map component? with
  | [some major, some minor] => .ok ⟨major, minor, 0, edition⟩
  | [some major, some minor, some patch] => .ok ⟨major, minor, patch, edition⟩
  | _ => .error (.invalid text)

/-- The version a text spells, with its edition in front of a colon when it gives one. -/
def ofString (s : String) : Except VersionError Version :=
  match Text.cut ':' s with
  | none => ofComponents .java s
  | some (e, rest) =>
    let lower := String.ofList (e.toList.map Text.lowerResource)
    if lower = "java" then ofComponents .java rest
    else if lower = "bedrock" then ofComponents .bedrock rest
    else .error (.unknownEdition e)

/-- The text of a version; a zero patch is left out. -/
def text (v : Version) : String :=
  (if v.edition = .bedrock then "bedrock:" else "")
    ++ toString v.major.toInt ++ "." ++ toString v.minor.toInt
    ++ if v.patch = 0 then "" else "." ++ toString v.patch.toInt

/-- The sign of the first difference that is not zero. -/
def signOf : List Int64 → Ordering
  | [] => .eq
  | d :: ds => if d < 0 then .lt else if 0 < d then .gt else signOf ds

/-- The order of versions, editions left aside. -/
def compare (v w : Version) : Ordering :=
  signOf [v.major - w.major, v.minor - w.minor, v.patch - w.patch]

def atLeast (v w : Version) : Bool := v.compare w != .lt

def less (v w : Version) : Bool := v.compare w == .lt

def isUnset (v : Version) : Bool := v.major = 0 && v.minor = 0 && v.patch = 0

end Version

/-- An inclusive range of versions; an unset bound is open. -/
structure VersionRange where
  min : Version := {}
  max : Version := {}
  deriving DecidableEq, Inhabited

def VersionRange.contains (r : VersionRange) (v : Version) : Bool :=
  !(!r.min.isUnset && v.less r.min) && !(!r.max.isUnset && r.max.less v)

end Datapack.Config
