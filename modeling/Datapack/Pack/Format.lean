import Datapack.Config.Version

/-!
# Pack formats

The format number a game version expects, and the layout of the manifest it reads.
-/

namespace Datapack.Pack

open Config

/-- The formats, each with the first release that uses it, oldest first. -/
def formats : List (Version × Nat) :=
  [(⟨1, 13, 0, .java⟩, 4), (⟨1, 15, 0, .java⟩, 5), (⟨1, 16, 2, .java⟩, 6), (⟨1, 17, 0, .java⟩, 7),
    (⟨1, 18, 0, .java⟩, 8), (⟨1, 18, 2, .java⟩, 9), (⟨1, 19, 0, .java⟩, 10), (⟨1, 19, 4, .java⟩, 12),
    (⟨1, 20, 0, .java⟩, 15), (⟨1, 20, 2, .java⟩, 18), (⟨1, 20, 3, .java⟩, 26),
    (⟨1, 20, 5, .java⟩, 41), (⟨1, 21, 0, .java⟩, 48), (⟨1, 21, 2, .java⟩, 57),
    (⟨1, 21, 4, .java⟩, 61), (⟨1, 21, 5, .java⟩, 71), (⟨1, 21, 6, .java⟩, 80),
    (⟨1, 21, 7, .java⟩, 81), (⟨1, 21, 9, .java⟩, 88)]

def oldestFormat : Nat := 4

def latestFormat : Nat := 88

/-- The format of a version: that of the last release not newer than it, or the oldest. -/
def formatFor (v : Version) : Nat :=
  ((formats.takeWhile fun e => !v.less e.1).getLast?.map (·.2)).getD oldestFormat

inductive Schema where
  | legacy | mid | modern
  deriving DecidableEq, Repr

def Schema.name : Schema → String
  | legacy => "legacy"
  | mid => "mid"
  | modern => "modern"

/-- The first release that reads overlays and a span of supported formats. -/
def midSince : Version := ⟨1, 20, 2, .java⟩

/-- The first release that reads a least and a greatest format. -/
def modernSince : Version := ⟨1, 21, 9, .java⟩

def schemaFor (v : Version) : Schema :=
  if v.atLeast modernSince then .modern else if v.atLeast midSince then .mid else .legacy

end Datapack.Pack
