import PathFilter.GitConfig.Script
import PathFilter.Host
/-!
The settings of a configuration file. Assignments are carried out one after the other; one to
`include.path` takes over the settings of the file that it names, which is read with all that it
includes before the next assignment is carried out.

The settings name the ignore file that holds for all repositories of a user. The first configuration
file to name one decides, of the repository, the user and the system in this order; otherwise it is
the file `ignore` in the user's configuration directory.
-/

namespace PathFilter.GitConfig

/-- The values of keys, in the order in which the keys were first assigned. -/
abbrev Settings := List (Text × Text)

/-- Gives a key a value. -/
def Settings.set (key value : Text) : Settings → Settings
  | [] => [(key, value)]
  | (k, v) :: rest => if k = key then (key, value) :: rest else (k, v) :: set key value rest

/-- The value of a key. -/
def Settings.get? (s : Settings) (key : Text) : Option Text :=
  s.lookup key

/-- Gives keys the values that they have in other settings. -/
def Settings.update (s t : Settings) : Settings :=
  t.foldl (fun s (key, value) => s.set key value) s

/-- The key that includes another file. -/
def includeKey : Text := "include.path".toList

/-- How deep a file may be included. -/
def includeLimit : Nat := 10

/-- The path of a configuration file in normal form. -/
def filePath (h : Host) (path : Text) : Text :=
  h.absolute (h.expand path)

/-- The path of the file that another one includes, relative to the directory of that. -/
def includedPath (h : Host) (file path : Text) : Text :=
  filePath h (Path.join (Path.parent file) (h.expand path))

/-- The settings once an assignment is carried out, if those of an included file are found by
`included`. -/
def Settings.carryOut (included : Text → Except Failure Settings) (s : Settings)
    (a : Assignment) : Except Failure Settings :=
  if a.key = includeKey then (included a.value).map s.update else .ok (s.set a.key a.value)

/-- The settings of a file; files may be nested as many deep as `room` says. -/
def Settings.ofFile (h : Host) : Nat → Text → Except Failure Settings
  | 0, file => .error (.gitConfig ⟨.includeTooDeep, file, 0⟩)
  | room + 1, file => do
    let lines ← (h.readLines file).mapError .access
    let script := Script.ofLines lines
    let s ← script.assignments.foldlM
      (Settings.carryOut fun path => ofFile h room (includedPath h file path)) []
    match script.fault with
    | some (cause, line) => throw (.gitConfig ⟨cause, file, line⟩)
    | none => return s

/-- The settings of a file that is included at the given depth, zero for a file of its own. -/
def settings (h : Host) (path : Text) (depth : Int) : Except Failure Settings :=
  Settings.ofFile h (includeLimit + 1 - depth).toNat (filePath h path)

/-! ## The ignore file for all repositories -/

/-- The key that names the ignore file. -/
def excludesKey : Text := "core.excludesfile".toList

/-- The directory for the user's configuration files. -/
def configDirectory (h : Host) : Text :=
  h.configDirectory "git".toList

/-- The ignore file that a configuration file names, relative to a repository. -/
def excludesFile (h : Host) (root config : Text) : Except Failure (Option Text) := do
  let s ← settings h config 0
  return (s.get? excludesKey).bind fun file =>
    if file.isEmpty then none else some (h.absolute (Path.join root (h.expand file)))

/-- The configuration files that are asked, in order. -/
def configFiles (h : Host) (root : Text) : List Text :=
  [Path.join (Path.join root ".git".toList) "config".toList,
   h.expand "~/.gitconfig".toList,
   Path.join (configDirectory h) "config".toList,
   "/etc/gitconfig".toList]

/-- The first ignore file that one of the configuration files names. -/
def firstExcludesFile (h : Host) (root : Text) : List Text → Except Failure (Option Text)
  | [] => .ok none
  | config :: rest => do
    match ← excludesFile h root config with
    | some file => return some file
    | none => firstExcludesFile h root rest

/-- The ignore file that holds for all repositories. -/
def globalIgnoreFile (h : Host) (root : Text) : Except Failure Text := do
  let file ← firstExcludesFile h root (configFiles h root)
  return file.getD (Path.join (configDirectory h) "ignore".toList)

end PathFilter.GitConfig
