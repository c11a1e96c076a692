import Datapack.Config.Level
import Datapack.Config.Version
import Datapack.Disk

/-!
# Configurations

What every stage of a compilation reads. `Config.problems` lists what makes a configuration unusable.
-/

namespace Datapack

namespace Config

/-- What runs after a dependency was unpacked into a directory. It may fail with a message, and what it
wrote before stays. -/
abbrev Hook := Disk → String → Disk × Option String

/-- A prebuilt pack mounted as an overlay. -/
structure Dependency where
  name : String
  url : String
  /-- The expected digest of the archive in hexadecimal. -/
  digest : String
  versions : VersionRange := {}
  hook : Option Hook := none

/-- Entries of the pack that the directory of a dependency may not shadow. -/
def reservedNames : List String := ["data", "pack.mcmeta"]

end Config

open Config Text

/-- The record every stage of a compilation reads. -/
structure Config where
  /-- The directory below which everything is written. -/
  target : String := "out"
  /-- The name of the pack and of the global region. -/
  ns : String := "mcfc"
  level : OptLevel := .o1
  version : Version := ⟨1, 21, 4, .java⟩
  /-- The generator to use; empty to choose one. -/
  backend : String := ""
  /-- Verbose output, and failures end the compilation. -/
  debug : Bool := false
  /-- Leave out the function files. -/
  noCommands : Bool := false
  /-- Keep the optimized program next to the pack. -/
  keepIr : Bool := false
  /-- Require a generator that supports recursion. -/
  recursion : Bool := false
  description : String := "Generated by mcfc"
  dependencies : List Dependency := []
  /-- The directory of the archive cache; empty for the default. -/
  cacheDir : String := ""

namespace Config

inductive Problem where
  | noTarget
  | badNamespace (ns : String)
  | unknownLevel (rank : Int)
  | noVersion
  | badDependencyName (name : String)
  | reservedDependency (name : String)
  | duplicateDependency (name : String)
  | noUrl (name : String)
  deriving DecidableEq

def Problem.message : Problem → String
  | noTarget => "target path is empty"
  | badNamespace ns => "namespace " ++ quoted ns ++ " must match [a-z0-9_.-]+"
  | unknownLevel rank => "unknown optimization level " ++ toString rank
  | noVersion => "minecraft version is not set"
  | badDependencyName name => "dependency name " ++ quoted name ++ " must match [a-z0-9_-]+"
  | reservedDependency name => "dependency name " ++ quoted name ++ " is reserved"
  | duplicateDependency name => "duplicate dependency " ++ quoted name
  | noUrl name => "dependency " ++ quoted name ++ " has no url"

/-- Names of dependencies are resource names without dots. -/
def isDependencyName (s : String) : Bool := isResourceName s && !s.toList.contains '.'

/-- The problem of a dependency that follows others of the given names. -/
def dependencyProblem (ns : String) (seen : List String) (d : Dependency) : Option Problem :=
  if !isDependencyName d.name then some (.badDependencyName d.name)
  else if reservedNames.contains d.name || d.name = ns then some (.reservedDependency d.name)
  else if seen.contains d.name then some (.duplicateDependency d.name)
  else if d.url = "" then some (.noUrl d.name)
  else none

def dependencyProblems (ns : String) : List String → List Dependency → List Problem
  | _, [] => []
  | seen, d :: ds =>
    (dependencyProblem ns seen d).toList ++ dependencyProblems ns (d.name :: seen) ds

def problems (c : Config) : List Problem :=
  (if c.target = "" then [.noTarget] else [])
    ++ (if isResourceName c.ns then [] else [.badNamespace c.ns])
    ++ (if 0 ≤ c.level.rank ∧ c.level.rank ≤ 3 then [] else [.unknownLevel c.level.rank])
    ++ (if c.version.major = 0 ∧ c.version.minor = 0 then [.noVersion] else [])
    ++ dependencyProblems c.ns [] c.dependencies

def problemText (ps : List Problem) : String := "\n".intercalate (ps.map Problem.message)

def packRoot (c : Config) : String := Path.join [c.target, c.ns]

def cachePath (c : Config) : String :=
  if c.cacheDir = "" then Path.join [c.target, ".mcfc"] else c.cacheDir

end Config

end Datapack
