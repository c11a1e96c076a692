import Datapack.Path
import Datapack.Text.Utf8

/-!
# Disks

What a compilation leaves behind is a `Disk`: a finite map from places to files and directories. A place
is the list of the names that lead to it from the root; names are bytes, since the files of an archive need
not be named by a text. Paths are given as texts, seen from the working directory, and lead to the place
that remains after cleaning.

Writing a file makes the directories around it. It fails where a file stands in the place of a directory
or a directory in the place of the file, and where a name is too long or holds a zero byte. Directories
made before a failure stay.
-/

namespace Datapack

/-- The name of a file or directory within the directory around it. -/
abbrev FileName := List UInt8

/-- The names that lead from the root to a file or directory. -/
abbrev Place := List FileName

inductive DiskEntry where
  | directory
  | file (content : List UInt8)
  deriving DecidableEq, Inhabited

/-- The files and directories written so far, each place once. -/
structure Disk where
  /-- The directory from which relative paths are seen. -/
  workDir : String := "/"
  entries : List (Place × DiskEntry) := []
  deriving DecidableEq, Inhabited

inductive DiskAction where
  | makeDirectory
  | openFile
  | remove
  deriving DecidableEq, Repr

def DiskAction.name : DiskAction → String
  | makeDirectory => "mkdir"
  | openFile => "open"
  | remove => "unlinkat"

inductive DiskProblem where
  /-- A file stands where a directory is needed. -/
  | notDirectory
  /-- A directory stands where a file is to be written. -/
  | isDirectory
  /-- A name or the whole path is too long. -/
  | tooLong
  /-- A name holds a zero byte. -/
  | invalidName
  /-- Nothing stands there. -/
  | missing
  deriving DecidableEq, Repr

def DiskProblem.message : DiskProblem → String
  | notDirectory => "not a directory"
  | isDirectory => "is a directory"
  | tooLong => "file name too long"
  | invalidName => "invalid argument"
  | missing => "no such file or directory"

/-- A refused action with the path it was asked for. -/
structure DiskFault where
  action : DiskAction
  path : List UInt8
  problem : DiskProblem
  deriving DecidableEq

/-- The wording of a refused action, as bytes because the path need not be a text. -/
def DiskFault.message (f : DiskFault) : List UInt8 :=
  Text.bytes (f.action.name ++ " ") ++ f.path ++ Text.bytes (": " ++ f.problem.message)

/-- The longest name, in bytes. -/
def nameLimit : Nat := 255

/-- Paths are shorter than this, in bytes. -/
def pathLimit : Nat := 4096

namespace Disk

def resolve (d : Disk) (path : String) : Place :=
  (Path.cleanParts (Path.absolute d.workDir path)).map Text.bytes

def rootedPath (place : Place) : List UInt8 :=
  if place.isEmpty then [0x2f] else place.flatMap (0x2f :: ·)

def isBelow (place root : Place) : Bool := root.isPrefixOf place

/-- What a place holds. The root is a directory. -/
def find? (d : Disk) (place : Place) : Option DiskEntry :=
  if place.isEmpty then some .directory else d.entries.lookup place

def isFile (d : Disk) (place : Place) : Bool := d.find? place matches some (.file _)

def put (d : Disk) (place : Place) (e : DiskEntry) : Disk :=
  { d with entries := d.entries.filter (·.1 ≠ place) ++ [(place, e)] }

/-- Make a directory unless the place is taken. -/
def ensure (d : Disk) (place : Place) : Disk :=
  if (d.find? place).isSome then d else d.put place .directory

/-- The places around a place, outermost first, the place itself last. -/
def around (place : Place) : List Place :=
  (List.range place.length).map fun n => place.take (n + 1)

def nameProblem? (name : FileName) : Option DiskProblem :=
  if name.contains 0 then some .invalidName
  else if nameLimit < name.length then some .tooLong
  else none

/-- Why no directory can be made at a place in a directory that exists, given the length of its path. -/
def directoryProblem? (d : Disk) (place : Place) (pathLength : Nat) : Option DiskProblem :=
  if d.isFile place then some .notDirectory
  else
    (place.getLast?.bind nameProblem?).or (if pathLimit ≤ pathLength then some .tooLong else none)

/-- Make directories one after the other, each with the path it is asked for by. -/
def makeDirs : Disk → List (Place × List UInt8) → Disk × Option DiskFault
  | d, [] => (d, none)
  | d, (place, path) :: rest =>
    match d.directoryProblem? place path.length with
    | some problem => (d, some ⟨.makeDirectory, path, problem⟩)
    | none => (d.ensure place).makeDirs rest

/-- The path of an outer place, shortened from the path of the inner one. -/
def shorten (path : String) (levels : Nat) : String :=
  Nat.repeat Path.parent levels (Path.clean path)

/-- The places around the place of a path, with the paths by which they are asked for. -/
def aroundPath (d : Disk) (path : String) : List (Place × List UInt8) :=
  let place := d.resolve path
  (around place).map fun outer =>
    (outer, Text.bytes (shorten path (place.length - outer.length)))

/-- Make the directory at a path and the directories around it. -/
def makeDir (d : Disk) (path : String) : Disk × Option DiskFault := d.makeDirs (d.aroundPath path)

/-- Make the directory at a place and the directories around it. -/
def makeDirAt (d : Disk) (place : Place) : Disk × Option DiskFault :=
  d.makeDirs ((around place).map fun outer => (outer, rootedPath outer))

/-- Why no file can be put at a place, given the length of its path. -/
def fileProblem? (d : Disk) (place : Place) (pathLength : Nat) : Option DiskProblem :=
  match d.find? place.dropLast with
  | none => some .missing
  | some (.file _) => some .notDirectory
  | some .directory =>
    ((place.getLast?.bind nameProblem?).or
      (if pathLimit ≤ pathLength then some .tooLong else none)).or
      (if d.find? place = some .directory then some .isDirectory else none)

/-- Create or replace a file at a place. The path is the one it is asked for by. -/
def createAt (d : Disk) (place : Place) (path content : List UInt8) : Disk × Option DiskFault :=
  match d.fileProblem? place path.length with
  | some problem => (d, some ⟨.openFile, path, problem⟩)
  | none => (d.put place (.file content), none)

/-- Write a file, making the directories around it. -/
def write (d : Disk) (path : String) (content : List UInt8) : Disk × Option DiskFault :=
  match d.makeDir (Path.parent path) with
  | (d, none) => d.createAt (d.resolve path) (Text.bytes path) content
  | failed => failed

def writeText (d : Disk) (path text : String) : Disk × Option DiskFault :=
  d.write path (Text.bytes text)

/-- Why nothing can be looked up below a place that is already walked. A name that cannot be looked up is
noticed where the walk comes to it. -/
def walkProblem? (d : Disk) (walked : Place) : List FileName → Option DiskProblem
  | [] => none
  | name :: names =>
    match d.find? walked with
    | some (.file _) => some .notDirectory
    | none => some .missing
    | some .directory =>
      if nameLimit < name.length then some .tooLong else d.walkProblem? (walked ++ [name]) names

/-- Why nothing can be read at a place, given the length of its path. -/
def readProblem? (d : Disk) (place : Place) (pathLength : Nat) : Option DiskProblem :=
  if place.any (·.contains 0) then some .invalidName
  else if pathLimit ≤ pathLength then some .tooLong
  else
    (d.walkProblem? [] place).or (if (d.find? place).isNone then some .missing else none)

/-- Remove the place of a path and everything below it. In a directory that exists, a name that cannot be
looked up is refused. -/
def removeAll (d : Disk) (path : String) : Disk × Option DiskFault :=
  let place := d.resolve path
  match place.getLast?.bind nameProblem?, d.find? place.dropLast with
  | some problem, some .directory => (d, some ⟨.remove, Text.bytes path, problem⟩)
  | _, _ => ({ d with entries := d.entries.filter fun e => !isBelow e.1 place }, none)

def isEmptyAt (d : Disk) (place : Place) : Bool :=
  d.entries.all fun e => !(isBelow e.1 place && e.1 ≠ place)

def relativePath : Place → List UInt8
  | [] => []
  | [name] => name
  | name :: names => name ++ 0x2f :: relativePath names

/-- The files and the empty directories strictly below a path, by the rest of their paths. A directory
has no content. -/
def below (d : Disk) (root : String) : List (List UInt8 × Option (List UInt8)) :=
  let top := d.resolve root
  d.entries.filterMap fun (place, e) =>
    if isBelow place top && place ≠ top then
      let path := relativePath (place.drop top.length)
      match e with
      | .file content => some (path, some content)
      | .directory => if d.isEmptyAt place then some (path ++ [0x2f], none) else none
    else none

end Disk

end Datapack
