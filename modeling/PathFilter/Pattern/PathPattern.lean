import PathFilter.Pattern.Glob
import PathFilter.Pattern.Line
/-!
Path patterns, ready to be matched against paths relative to the root of their list.
-/

namespace PathFilter.Pattern

/-- A path pattern: the steps of its glob, whether it is tied to its root, and whether it asks for
directories only. -/
structure PathPattern where
  steps : List Step
  anchored : Bool
  directoryOnly : Bool
deriving DecidableEq

/-- The step that a segment stands for. -/
def Step.ofSegment (s : Segment) : Except Malformed Step :=
  if s = globstar then .ok .anyDepth else (pieces s).map .component

/-- Whether a slash ties the segments to their root: one separates two of them, a first and a last
`**` not counted. -/
def tiedBySlash (ss : List Segment) : Bool :=
  let core := if ss.head? = some globstar then ss.tail else ss
  let core := if 1 < core.length && core.getLast? = some globstar then core.dropLast else core
  1 < core.length

/-- The pattern with a given body. A body of one segment `**` asks for what `*` does. -/
def PathPattern.ofBody (body : PathBody) : Except Malformed PathPattern := do
  let ss ← segments body.text
  if ss.isEmpty then throw .emptyPattern
  let ss := if ss = [globstar] then [star] else ss
  return {
    steps := ← ss.mapM Step.ofSegment
    anchored := body.leadingSlash || tiedBySlash ss
    directoryOnly := body.directoryOnly }

/-- How a pattern meets a path: it matches the path itself, or a directory that the path is
inside of. -/
inductive Meeting where
  | itself
  | inside
deriving DecidableEq

/-- How what is left of a path behind a glob completes a match; only the patterns of include lists
reach inside. -/
def Meeting.ofRest (allow : Bool) : Text → Option Meeting
  | [] => some .itself
  | '/' :: _ => if allow then some .inside else none
  | _ => none

/-- How the pattern meets a path relative to its root. A pattern that is not anchored may begin at
any depth. -/
def PathPattern.meets (p : PathPattern) (allow : Bool) (path : Text) : Option Meeting :=
  matchSteps (Meeting.ofRest allow) (if p.anchored then p.steps else .anyDepth :: p.steps) path

/-- Whether the pattern, of an include list, matches a directory or another file at a path
relative to its root. What is inside of a matched directory counts as matched. -/
def PathPattern.accepts (p : PathPattern) (allow : Bool) (path : Text) (isDir : Bool) : Bool :=
  match p.meets allow path with
  | none => false
  | some meeting => !p.directoryOnly || isDir || meeting = .inside

/-- Whether the pattern of an include list may match something below a directory. -/
def PathPattern.mayMatchBelow (p : PathPattern) (allow : Bool) (path : Text) : Bool :=
  !p.anchored || (allow && matchesLeading p.steps path)

end PathFilter.Pattern
