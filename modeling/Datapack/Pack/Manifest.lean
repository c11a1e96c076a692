import Datapack.Json.Writer
import Datapack.Pack.Format

/-!
# Pack manifests

The manifest of a pack describes it, says which formats it supports and lists its overlays: sub-packs
that are active for a range of versions only.
-/

namespace Datapack.Pack

open Config Json

/-- A sub-pack directory that is active for a range of versions. -/
structure Overlay where
  directory : String
  range : VersionRange
  deriving DecidableEq

structure Manifest where
  description : String
  version : Version
  overlays : List Overlay := []
  deriving DecidableEq

namespace Manifest

/-- Register an overlay directory; one registered before gets the new range in its old place. -/
def addOverlay (m : Manifest) (directory : String) (range : VersionRange) : Manifest :=
  if m.overlays.any (·.directory = directory) then
    { m with
      overlays := m.overlays.map fun o => if o.directory = directory then { o with range } else o }
  else { m with overlays := m.overlays ++ [⟨directory, range⟩] }

def format (m : Manifest) : Nat := formatFor m.version

def schema (m : Manifest) : Schema := schemaFor m.version

end Manifest

def formatRange (r : VersionRange) : Nat × Nat :=
  (if r.min.isUnset then oldestFormat else formatFor r.min,
    if r.max.isUnset then latestFormat else formatFor r.max)

namespace Manifest

/-- The span of the pack's own format and those of all overlays. -/
def supported (m : Manifest) : Nat × Nat :=
  m.overlays.foldl
    (fun span o => (min span.1 (formatRange o.range).1, max span.2 (formatRange o.range).2))
    (m.format, m.format)

def formatPair (p : Nat × Nat) : Tree := .list [.number p.1, .number p.2]

/-- The least and greatest format as two fields. -/
def formatFields (p : Nat × Nat) : List (String × Tree) :=
  [("min_format", .number p.1), ("max_format", .number p.2)]

def overlaySection (m : Manifest) (entry : Nat × Nat → List (String × Tree)) :
    List (String × Tree) :=
  if m.overlays.isEmpty then []
  else
    [("overlays", .record [("entries", .list (m.overlays.map fun o =>
      .record (("directory", .text o.directory) :: entry (formatRange o.range))))])]

/-- The manifest in the layout of its target version; the oldest layout has no overlays. -/
def tree (m : Manifest) : Tree :=
  let description : String × Tree := ("description", .text m.description)
  let format : String × Tree := ("pack_format", .number m.format)
  match m.schema with
  | .modern =>
    .record (("pack", .record (description :: formatFields m.supported)) ::
      m.overlaySection formatFields)
  | .mid =>
    .record (("pack", .record [description, format, ("supported_formats", formatPair m.supported)]) ::
      m.overlaySection fun p => [("formats", formatPair p)])
  | .legacy => .record [("pack", .record [description, format])]

def text (m : Manifest) : String := m.tree.indented

end Manifest

end Datapack.Pack
