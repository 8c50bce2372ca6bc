import PathFilter.GitConfig.Settings
import PathFilter.Source
/-!
The hierarchy of ignore files below a root. It begins with the rules that always hold; the rules
of a nested ignore file join it once, when its directory is first reached, after those of the
directories above. Rules that join later win, so deeper files do.
-/

namespace PathFilter

/-- The rules of ignore files that are known so far. -/
structure Hierarchy where
  /-- The root directory, with a slash at its end. -/
  root : Text
  /-- The rules that hold from the beginning. -/
  seed : List Rule
  /-- The directories loaded since, relative to the root, each with the rules of its ignore
  file. -/
  loads : List (Text × List Rule)

/-- The name of an ignore file. -/
def ignoreFileName : Text := ".gitignore".toList

namespace Hierarchy

/-- The rules in the order in which they are applied. -/
def rules (g : Hierarchy) : List Rule :=
  g.seed ++ g.loads.flatMap (·.2)

/-- The rules as an ignore list. -/
def toRuleList (g : Hierarchy) : RuleList :=
  ⟨g.rules, false⟩

/-- The directories whose ignore files are known; the root is among them from the beginning. -/
def loaded (g : Hierarchy) : List Text :=
  [] :: g.loads.map (·.1)

/-- The loaded directories in the order of their code points. -/
def loadedDirectories (g : Hierarchy) : List Text :=
  Text.sort g.loaded

/-- The sources that hold from the beginning: the version control directory, the ignore file for
all repositories, that of the repository, and that of the root directory. -/
def seedSources (root globalFile : Text) : List Source :=
  [{ origin := .lines [".git".toList], root := some ['/'] },
   { origin := .file globalFile false, root := some root },
   { origin := .file (Path.join root ".git/info/exclude".toList) false, root := some root },
   { origin := .file (Path.join root ignoreFileName) false, root := some root }]

/-- The hierarchy of a root directory, before any nested ignore file is known. If the root must
have an ignore file, a missing one is an error. The ignore file for all repositories is looked up
where none is given. -/
def create (h : Host) (root : Text) (globalFile : Option Text) (required : Bool) :
    Except Failure Hierarchy := do
  let root := Path.slashed root
  if required && !h.hasFile (Path.join root ignoreFileName) then
    throw (.setup (.missingIgnoreFile root))
  let globalFile ← match globalFile with
    | some file => pure file
    | none => GitConfig.globalIgnoreFile h root
  let parts ← (seedSources root globalFile).mapM (·.rules h root)
  return { root, seed := parts.flatten, loads := [] }

/-- The path of the ignore file in a directory. -/
def ignoreFile (h : Host) (g : Hierarchy) (dir : Text) : Text :=
  Source.pathFrom h g.root (Path.join (Path.join g.root dir) ignoreFileName)

/-- The rules of the ignore file in a directory. -/
def rulesIn (h : Host) (g : Hierarchy) (dir : Text) : Except Errno (List Rule) :=
  let file := g.ignoreFile h dir
  (h.readLines file).map (·.filterMap (Rule.ofLine? (Path.slashed (Path.parent file)) false))

/-- Loads the ignore file of a directory, unless that has been done. A file that is known to be
absent is not looked for. -/
def load (h : Host) (dir : Text) (present : Option Bool) (g : Hierarchy) :
    Except Errno Hierarchy :=
  if g.loaded.contains dir then .ok g
  else if present = some false then .ok { g with loads := g.loads ++ [(dir, [])] }
  else (g.rulesIn h dir).map fun rules => { g with loads := g.loads ++ [(dir, rules)] }

/-- Loads the ignore files of directories in order. What was loaded before a failure stays. -/
def loadAll (h : Host) : List Text → Hierarchy → Hierarchy × Except Errno Unit
  | [], g => (g, .ok ())
  | dir :: rest, g =>
    match g.load h dir none with
    | .ok g => loadAll h rest g
    | .error e => (g, .error e)

/-- Loads the ignore files of all directories above a path, from the highest down. -/
def loadAbove (h : Host) (path : Text) (g : Hierarchy) : Hierarchy × Except Errno Unit :=
  g.loadAll h (Path.ancestors path)

end Hierarchy
end PathFilter
