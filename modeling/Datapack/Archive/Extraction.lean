import Datapack.Archive.Zip
import Datapack.Disk
import Datapack.Text.Quote

/-!
# Extraction

Unpacking an archive into a directory of a disk. A file whose name leads out of the directory is refused;
what was unpacked before a failure stays.
-/

namespace Datapack.Archive

inductive ExtractFault where
  | archive (fault : ReadFault)
  | escapes (name : List UInt8) (directory : String)
  | disk (fault : DiskFault)
  /-- A file cannot be read. -/
  | unreadable (name : List UInt8) (fault : ReadFault)
  /-- A file cannot be written. -/
  | unwritable (name : List UInt8) (fault : DiskFault)
  deriving DecidableEq

/-- The wording of a fault, as bytes because names need not be texts. -/
def ExtractFault.message : ExtractFault → List UInt8
  | archive fault => Text.bytes fault.message
  | escapes name dir => Text.bytes ("entry " ++ Text.quotedBytes name ++ " escapes " ++ dir)
  | disk fault => fault.message
  | unreadable name fault => name ++ Text.bytes (": " ++ fault.message)
  | unwritable name fault => name ++ Text.bytes ": " ++ fault.message

/-- Follow one part of a path from a place: a single dot stays there and a double dot leads to the place
around it. -/
def follow (place : Place) (part : FileName) : Place :=
  if part = [] || part = [0x2e] then place
  else if part = [0x2e, 0x2e] then place.dropLast
  else place ++ [part]

def pathParts : List UInt8 → List FileName
  | [] => [[]]
  | b :: bs =>
    if b = 0x2f then [] :: pathParts bs
    else
      match pathParts bs with
      | [] => [[b]]
      | part :: parts => (b :: part) :: parts

/-- The place a name of an archive leads to from a directory. -/
def placeOf (root : Place) (name : List UInt8) : Place := (pathParts name).foldl follow root

def extractFile (archive : List UInt8) (d : Disk) (place : Place) (e : Entry) :
    Disk × Option ExtractFault :=
  match d.makeDirAt place.dropLast with
  | (d, some fault) => (d, some (.unwritable e.name fault))
  | (d, none) =>
    match e.locate archive with
    | .error fault => (d, some (.unreadable e.name fault))
    | .ok start =>
      let (content, fault) := e.content archive start
      match d.createAt place (Disk.rootedPath place) content with
      | (d, some fault) => (d, some (.unwritable e.name fault))
      | (d, none) => (d, fault.map (.unreadable e.name))

/-- Whether a place is a directory or lies below it. Nothing counts as below the root of the disk, so that
no archive is unpacked over the whole disk. -/
def isInside (place root : Place) : Bool :=
  place = root || (!root.isEmpty && Disk.isBelow place root)

/-- Unpack a file or directory below a directory, which is given as it was named and by its place. -/
def extractEntry (archive : List UInt8) (named : String) (root : Place) (d : Disk) (e : Entry) :
    Disk × Option ExtractFault :=
  let place := placeOf root e.name
  if !isInside place root then (d, some (.escapes e.name named))
  else if e.isDirectory then
    let (d, fault) := d.makeDirAt place
    (d, fault.map .disk)
  else extractFile archive d place e

/-- Unpack files one after the other up to the first that fails. -/
def extractEntries (archive : List UInt8) (named : String) (root : Place) :
    Disk → List Entry → Disk × Option ExtractFault
  | d, [] => (d, none)
  | d, e :: es =>
    match extractEntry archive named root d e with
    | (d, none) => extractEntries archive named root d es
    | failed => failed

/-- Unpack the files of an archive as far as they could be listed. -/
def extractListed (archive : List UInt8) (named : String) (root : Place) (d : Disk) :
    Except ReadFault (List Entry) → Disk × Option ExtractFault
  | .error fault => (d, some (.archive fault))
  | .ok es => extractEntries archive named root d es

def extract (d : Disk) (archive : List UInt8) (directory : String) : Disk × Option ExtractFault :=
  extractListed archive directory (d.resolve directory) d (entries archive)

end Datapack.Archive
