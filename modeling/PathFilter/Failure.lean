import PathFilter.FileSystem.Basic
import PathFilter.Path.Resolver
import PathFilter.Text.Quoted
/-!
All that can go wrong while a filter is set up or asked: a setting or a source cannot be used, a
configuration file is malformed, a home directory is not known, or a file cannot be accessed. A
message about a setting shows the value that the setting was given.
-/

namespace PathFilter

/-! ## Configuration files -/

namespace GitConfig

/-- The ways in which a configuration file is malformed. -/
inductive Cause where
  | invalidHeader
  | invalidKey
  | keyOutsideSection
  | expectedEquals
  | unterminatedQuote
  | invalidEscape
  | includeTooDeep
deriving DecidableEq, Repr

/-- The text that names a cause. -/
def Cause.message : Cause → Text
  | .invalidHeader => "Invalid section header".toList
  | .invalidKey => "Invalid key".toList
  | .keyOutsideSection => "Key outside of a section".toList
  | .expectedEquals => "Expected '='".toList
  | .unterminatedQuote => "Unterminated quote".toList
  | .invalidEscape => "Invalid escape".toList
  | .includeTooDeep => "Include depth exceeded".toList

/-- A cause with the file and the line that it was met in. Lines are counted from one; what
concerns the whole file is at line zero. -/
structure Error where
  cause : Cause
  path : Text
  line : Nat
deriving DecidableEq, Repr

/-- The text of an error, with its place. -/
def Error.message (e : Error) : Text :=
  e.cause.message ++ " (".toList ++ e.path ++ ":".toList ++ Text.ofNat e.line ++ ")".toList

end GitConfig

/-! ## Settings and sources -/

/-- A value that a setting is given. -/
inductive Setting where
  | absent
  | flag (b : Bool)
  | text (t : Text)
deriving DecidableEq

/-- The form in which a message shows the value. -/
def Setting.shown : Setting → Text
  | .absent => "None".toList
  | .flag true => "True".toList
  | .flag false => "False".toList
  | .text t => Text.Quoted.encode t

/-- A pattern source or a setting that cannot be used. -/
inductive SetupError where
  | unknownFormat (value : Setting)
  | missingPatternFile (path : Text)
  | missingIgnoreFile (root : Text)
  | rootNotDirectory (root : Text)
  | invalidIgnoreFiles (value : Setting)
  | invalidPrecedence (value : Setting)
deriving DecidableEq

/-- The text that names the cause. -/
def SetupError.message : SetupError → Text
  | .unknownFormat value => "Unknown pattern format: ".toList ++ value.shown
  | .missingPatternFile path => "Pattern file does not exist: ".toList ++ path
  | .missingIgnoreFile root => "No .gitignore in ".toList ++ root
  | .rootNotDirectory root => "Root is not a directory: ".toList ++ root
  | .invalidIgnoreFiles value =>
    "gitignore must be 'auto', True or False, got ".toList ++ value.shown
  | .invalidPrecedence value =>
    "precedence must be one of last_opinion, all_allow, got ".toList ++ value.shown

/-! ## Failures -/

/-- Why an answer could not be given. -/
inductive Failure where
  | access (e : Errno)
  | setup (e : SetupError)
  | gitConfig (e : GitConfig.Error)
  | home (e : HomeError)
deriving DecidableEq

/-- The text of a failure. -/
def Failure.message : Failure → Text
  | .access e => e.name
  | .setup e => e.message
  | .gitConfig e => e.message
  | .home e => e.message

end PathFilter
