import Datapack.Output.Writer

/-!
# The files of a pack

The standard writers: a function file per region with commands, the compiler's own functions, the
dependencies, the manifest, a tag per lifecycle hook, and the program itself if it is to be kept. The
dependencies come before the manifest, which lists them. How the program is dumped is left to a pretty
printer.
-/

namespace Datapack.Output

open Generation Dependency

variable {κ : Type} [Bucket κ]

def functionRoot (g : Generation) : String := Path.join [g.target, "data", g.ns, "function"]

/-- The lines a debug build puts in front of the commands of a region. -/
def header (time : String) (g : Generation) (n : Nat) : String :=
  let r := g.regions.at? n
  "# scope: " ++ g.regions.absolutePath n ++ "\n# kind: " ++ r.kind.name ++ "\n# commands: "
    ++ toString r.commands.length ++ "\n# generated: " ++ time ++ " by mcfc\n"

def functionText (cs : List Command) : String :=
  "\n".intercalate (cs.map Command.text) ++ "\n"

def regionFile (time : String) (g : Generation) (n : Nat) : String × String :=
  (Path.join [functionRoot g, g.regions.filePath n],
    (if g.config.debug then header time g n else "") ++ functionText (g.regions.at? n).commands)

def regionFiles (time : String) (g : Generation) : List (String × String) :=
  if g.config.noCommands then [] else g.regions.nonEmpty.map (regionFile time g)

def helperFiles (g : Generation) : List (String × String) :=
  g.sortedHelpers.map fun (path, body) =>
    (Path.join [functionRoot g, path ++ functionExtension], functionText body)

def manifestFiles (g : Generation) : List (String × String) :=
  [(Path.join [g.target, "pack.mcmeta"], g.manifest.text)]

def tagText (refs : List String) : String :=
  (Json.Tree.record [("values", .list (refs.map .text))]).indented

def tagFiles (g : Generation) : List (String × String) :=
  (g.sortedTags.filter (!·.2.isEmpty)).map fun (hook, refs) =>
    (Path.join [g.target, "data", "minecraft", "tags", "functions", hook ++ ".json"], tagText refs)

/-- The writer of the function files of all regions with commands. -/
def commandWriter (time : String) : Writer κ :=
  ⟨"commands", fun s => s.writeChecked (regionFiles time s.generation)⟩

/-- The writer of the program itself, if it is to be kept: its listing and its dump. A program that cannot
be dumped aborts it after the listing. -/
def programWriter (dump : Ir.Program → String) : Writer κ :=
  ⟨"ir", fun s =>
    let g := s.generation
    let base := Path.join [g.config.target, g.ns]
    if g.config.keepIr then
      match s.writeFiles [(base ++ ".ir", g.program.listing)] with
      | (s, none) =>
        if g.program.isDumpable then s.writeFiles [(base ++ ".ir.dump", dump g.program)]
        else (s, some .aborted)
      | failed => failed
    else (s, none)⟩

def dependencyCode : InstallFault → String
  | .checksum _ => Code.dependencyChecksum
  | .reservedName _ | .outside .. | .extract _ => Code.dependencyExtract
  | .hook .. => Code.dependencyHook
  | .fetch _ => Code.dependencyFetch

/-- Install a dependency and list it in the manifest. One that fails is reported and left out; in debug
mode it ends the writer. -/
def addDependency (s : Site κ) (dep : Config.Dependency) : Site κ × Option WriteFault :=
  match s.depot.install dep s.generation.target with
  | (.error fault, depot) =>
    let s := { s with depot }
    if s.debug then (s, some (.install fault))
    else (s.report (.dependencySkipped dep.name (dependencyCode fault) fault.message), none)
  | (.ok _, depot) =>
    let g := s.generation
    let manifest := g.manifest.addOverlay dep.name dep.versions
    ({ s with depot, generation := { g with manifest } }.tell (.overlay dep.name dep.versions), none)

def addDependencies : List Config.Dependency → Site κ → Site κ × Option WriteFault
  | [], s => (s, none)
  | dep :: deps, s =>
    match addDependency s dep with
    | (s, none) => addDependencies deps s
    | failed => failed

def dependencyWriter (installs : Bool) : Writer κ :=
  ⟨"dependencies", fun s =>
    match s.generation.config.dependencies with
    | [] => (s, none)
    | deps => if installs then addDependencies deps s else (s, some .noInstaller)⟩

def standardWriters (time : String) (installs : Bool)
    (dump : Ir.Program → String := fun _ => "<dump>") : List (Writer κ) :=
  [commandWriter time, .ofFiles "functions" helperFiles, dependencyWriter installs,
    .ofFiles "metadata" manifestFiles, .ofFiles "tags" tagFiles, programWriter dump]

end Datapack.Output
