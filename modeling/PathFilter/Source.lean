import PathFilter.Failure
import PathFilter.Host
import PathFilter.Rule.Basic
import PathFilter.Rule.RuleList
/-!
Sources of patterns: lines that are given, or a file that holds them, with the directory that the
patterns are relative to and the format that they are written in. Resolving a source makes its
paths absolute and checks it; its rules are read from the resolved source.
-/

namespace PathFilter

/-- How patterns are written. -/
inductive PatternFormat where
  /-- As in an ignore file, relative to the root of the source. -/
  | gitignore
  /-- As paths of files, such as the arguments of a command. -/
  | paths
deriving DecidableEq, Repr

/-- The names of the formats. -/
def PatternFormat.written : List (Text × PatternFormat) :=
  [("gitignore".toList, gitignore), ("expand_path".toList, paths)]

/-- The format that a value names, if it names one. -/
def PatternFormat.ofSetting? : Setting → Option PatternFormat
  | .text t => written.lookup t
  | .absent | .flag _ => none

/-- The name of a format. -/
def PatternFormat.name : PatternFormat → Text
  | .gitignore => "gitignore".toList
  | .paths => "expand_path".toList

/-- Where the lines of a source come from: they are given, or they are read from a file, which
may be required to exist. -/
inductive Origin where
  | lines (ls : List Text)
  | file (path : Text) (required : Bool)
deriving DecidableEq

/-- A source of patterns as it is asked for. -/
structure Source where
  origin : Origin
  /-- The directory that the patterns are relative to: that of the file, or the one of the caller,
  if none is given. -/
  root : Option Text := none
  /-- Whether the patterns make an include list. -/
  allow : Bool := false
  format : Setting := .text PatternFormat.gitignore.name
deriving DecidableEq

/-- A source with absolute paths and a known format. -/
structure ResolvedSource where
  origin : Origin
  root : Text
  allow : Bool
  format : PatternFormat
deriving DecidableEq

/-- The origin of given texts, each of which may hold several lines. -/
def Origin.ofTexts (ts : List Text) : Origin :=
  .lines (ts.flatMap (Text.splitOn '\n'))

/-- The lines that are given; none for a file. -/
def Origin.givenLines : Origin → List Text
  | .lines ls => ls
  | .file _ _ => []

/-- The file that the lines are read from, if any. -/
def Origin.file? : Origin → Option Text
  | .lines _ => none
  | .file path _ => some path

/-- Whether a missing file is an error. -/
def Origin.required : Origin → Bool
  | .lines _ => false
  | .file _ required => required

namespace Source

/-- The normal form of a path that is looked up from a directory. -/
def pathFrom (h : Host) (dir path : Text) : Text :=
  h.absolute (Path.join dir (h.expand path))

/-- The directory that a source gives for its patterns. -/
def givenRoot (h : Host) (callerRoot : Text) (s : Source) : Option Text :=
  match s.root with
  | none | some [] => none
  | some root => some (Path.slashed (pathFrom h callerRoot root))

/-- The source with absolute paths. A relative file is looked up from the directory that the
source gives, or else from that of the caller. -/
def resolve (h : Host) (callerRoot : Text) (s : Source) : Except SetupError ResolvedSource :=
  match PatternFormat.ofSetting? s.format with
  | none => .error (.unknownFormat s.format)
  | some format =>
    let given := s.givenRoot h callerRoot
    match s.origin with
    | .lines ls => .ok { s with
        origin := .lines ls, root := given.getD (Path.slashed callerRoot), format }
    | .file path required =>
      let file := pathFrom h (given.getD callerRoot) path
      if required && !h.hasFile file then .error (.missingPatternFile file)
      else .ok { s with
        origin := .file file required
        root := given.getD (Path.slashed (Path.parent file))
        format }

end Source

namespace ResolvedSource

/-- The lines of the source; a missing file has none. -/
def lines (h : Host) (s : ResolvedSource) : Except Errno (List Text) :=
  match s.origin with
  | .lines ls => .ok ls
  | .file path _ => h.readLines path

/-- The rule on a line of the source, if it holds one. -/
def rule? (homes : Homes) (s : ResolvedSource) (line : Text) : Option Rule :=
  match s.format with
  | .gitignore => Rule.ofLine? s.root s.allow line
  | .paths => Rule.ofPathLine? homes s.root s.allow line

/-- The rules of the source. -/
def rules (h : Host) (s : ResolvedSource) : Except Errno (List Rule) :=
  (s.lines h).map (·.filterMap (s.rule? h.homes))

end ResolvedSource

namespace Source

/-- The rules of a source that is resolved first. -/
def rules (h : Host) (callerRoot : Text) (s : Source) : Except Failure (List Rule) := do
  let resolved ← (s.resolve h callerRoot).mapError .setup
  (resolved.rules h).mapError .access

end Source
end PathFilter
