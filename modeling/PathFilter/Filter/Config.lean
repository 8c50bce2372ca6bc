import PathFilter.Failure
import PathFilter.Rule.RuleList
/-!
The settings of a filter, as they are given and as they are once checked.
-/

namespace PathFilter

/-- What is done with the ignore files below the root. -/
inductive IgnoreFiles where
  /-- Those that exist are consulted. -/
  | auto
  /-- Likewise, and the root must have one. -/
  | required
  | off
deriving DecidableEq, Repr

/-- Settings with known meanings. -/
structure Config where
  /-- Whether found paths are given relative to the root. -/
  relative : Bool
  /-- Whether a link to a directory is a directory. -/
  followLinks : Bool
  ignoreFiles : IgnoreFiles
  precedence : Precedence
  /-- The ignore file for all repositories, if it is not to be looked up. -/
  globalFile : Option Text
deriving DecidableEq

/-- Settings as they are given. -/
structure Options where
  relative : Bool := false
  followLinks : Bool := false
  ignoreFiles : Setting := .text "auto".toList
  precedence : Setting := .text Precedence.lastOpinion.name
  globalFile : Option Text := none
deriving DecidableEq

namespace Options

/-- The settings that hold where none are given. -/
def standard : Options := {}

/-- Every list must allow a path. -/
def strict : Options := { precedence := .text Precedence.allAllow.name }

/-- Only the rules of the caller count. -/
def withoutIgnoreFiles : Options := { ignoreFiles := .flag false }

/-- What a value says about ignore files, if it says anything. -/
def ignoreFiles? : Setting → Option IgnoreFiles
  | .flag true => some .required
  | .flag false => some .off
  | .text t => if t = "auto".toList then some .auto else none
  | .absent => none

/-- The precedence that a value names, if it names one. -/
def precedence? : Setting → Option Precedence
  | .text t => Precedence.written.lookup t
  | .flag _ | .absent => none

/-- The settings once checked. -/
def check (o : Options) : Except SetupError Config :=
  match ignoreFiles? o.ignoreFiles, precedence? o.precedence with
  | none, _ => .error (.invalidIgnoreFiles o.ignoreFiles)
  | some _, none => .error (.invalidPrecedence o.precedence)
  | some ignoreFiles, some precedence => .ok { o with ignoreFiles, precedence }

end Options
end PathFilter
