import PathFilter.FileSystem.Lookup
import PathFilter.Path.Resolver
import PathFilter.Text.Utf8
/-!
The surroundings in which patterns are read and paths are judged: the files, the current
directory, and the home and configuration directories.
-/

namespace PathFilter

/-- The directory for the configuration files of a program, where those of all programs are kept in
one directory: the one that the environment names, unless that is blank, and otherwise `.config` in
the user's home directory. -/
def Homes.configDirectory (homes : Homes) (named : Option Text) (program : Text) : Text :=
  let home := match named with
    | some dir => if (Text.strip dir).isEmpty then homes.expand "~/.config".toList else dir
    | none => homes.expand "~/.config".toList
  Path.join home program

/-- The surroundings of a filter. -/
structure Host where
  files : FileSystem
  cwd : Text
  homes : Homes
  /-- The directory for configuration files that the environment names, if any. -/
  configHome : Option Text
  /-- The directory for a user's configuration files of a program. Where that is, is for the
  platform to say, and nothing is asked of it here. -/
  configDirectory : Text → Text := homes.configDirectory configHome

namespace Host

/-- A path as it is looked up: a relative one from the current directory. -/
def fromCwd (h : Host) (path : Text) : Text :=
  if path.isEmpty then path else Path.join h.cwd path

/-- The normal form of a path looked up from the current directory. -/
def absolute (h : Host) (path : Text) : Text :=
  Path.absolute h.cwd path

/-- A path with its home directory written out. -/
def expand (h : Host) (path : Text) : Text :=
  h.homes.expand path

/-- What is at a path, a final link followed or not. -/
def stat (h : Host) (followLast : Bool) (path : Text) : Except Errno Node :=
  h.files.stat followLast (h.fromCwd path)

/-- Whether a path leads to anything; one that cannot be probed does not. -/
def present (h : Host) (path : Text) : Bool :=
  (h.stat true path).isOk

/-- Whether a path leads to a file; one that cannot be probed does not. -/
def hasFile (h : Host) (path : Text) : Bool :=
  match h.stat true path with
  | .ok { kind := .file _, .. } => true
  | _ => false

/-- Whether a path leads to a directory; one that cannot be probed does not. -/
def hasDirectory (h : Host) (path : Text) : Bool :=
  match h.stat true path with
  | .ok { kind := .directory, .. } => true
  | _ => false

/-- Whether what is at a path is a directory. -/
def isDirectory (h : Host) (followLast : Bool) (path : Text) : Except Errno Bool :=
  (h.stat followLast path).map (·.kind = .directory)

/-- The names in the directory at a path. -/
def list (h : Host) (path : Text) : Except Errno (List Text) :=
  h.files.list (h.fromCwd path)

/-- The text of the file at a path, every line end written as a line feed. -/
def readText (h : Host) (path : Text) : Except Errno Text :=
  (h.files.read (h.fromCwd path)).map fun bytes => Text.unifyLineEnds (Text.Utf8.decode bytes)

/-- Reads a file, and gives `absent` where there is none that can be read. -/
def readOr {α : Type} (h : Host) (path : Text) (absent : α) (use : Text → α) : Except Errno α :=
  match h.readText path with
  | .ok t => .ok (use t)
  | .error e => if e.meansAbsent || e = .isDirectory then .ok absent else .error e

/-- The lines of a file; a missing file has none. -/
def readLines (h : Host) (path : Text) : Except Errno (List Text) :=
  h.readOr path [] Text.lines

/-- The first line of a file, if it can be read. -/
def firstLine (h : Host) (path : Text) : Except Errno (Option Text) :=
  h.readOr path none fun t => some t.firstLine

end Host
end PathFilter
