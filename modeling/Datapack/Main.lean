import Std.Time.DateTime.Timestamp
import Datapack.CommandLine.Run
import Datapack.CommandLine.Stamp

/-!
# The command

Reads the input file, runs the command and puts what it wrote on the real disk.
-/

open Datapack Datapack.CommandLine

/-- The disk with the input file on it, seen from the current directory. -/
def readInput (args : List String) : IO Disk := do
  let disk : Disk := { workDir := (← IO.currentDir).toString }
  match inputFile? args with
  | none => return disk
  | some path =>
    try
      let content ← IO.FS.readBinFile path
      return disk.put (disk.resolve path) (.file content.toList)
    catch _ => return disk

/-- Put everything that is new on a disk on the real one. -/
def writeOutput (before after : Disk) : IO Unit := do
  for (place, entry) in after.entries do
    if before.find? place ≠ some entry then
      let path := Text.ofBytes (Disk.rootedPath place)
      match entry with
      | .directory => IO.FS.createDirAll path
      | .file content =>
        IO.FS.createDirAll (Path.parent path)
        IO.FS.writeBinFile path ⟨content.toArray⟩

def randomNumber : IO Nat := do
  return (← IO.getRandomBytes 10).toList.foldl (fun n b => n * 256 + b.toNat) 0

def main (args : List String) : IO UInt32 := do
  let seconds := (← Std.Time.Timestamp.now).toSecondsSinceUnixEpoch.val.toNat
  let disk ← readInput args
  let colours := ((← IO.getEnv "NO_COLOR").getD "") = ""
  let surroundings : Surroundings :=
    { time := timeText seconds
      newId := identifier (seconds * 1000) (← randomNumber)
      colours
      depot := { disk, line := .scripted [.unreachable "no network"] } }
  let exit := run surroundings args
  writeOutput disk exit.disk
  (← IO.getStdout).putStr exit.stdout
  (← IO.getStderr).putStr exit.stderr
  return UInt32.ofNat exit.code
