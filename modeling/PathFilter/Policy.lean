import PathFilter.Hierarchy
import PathFilter.Rule.RuleList
/-!
The policy of a root directory: its hierarchy of ignore files, the caller's ignore lists, the
caller's include lists and any further lists, in this order, with the precedence by which their
verdicts combine.
-/

namespace PathFilter

/-- The lists that decide about the paths below a root. -/
structure Policy where
  /-- The root directory, with a slash at its end. -/
  root : Text
  precedence : Precedence
  /-- The ignore files, unless they are not to be consulted. -/
  hierarchy : Option Hierarchy
  /-- The lists of the caller. -/
  lists : List RuleList

/-- What a policy is made from. -/
structure PolicyPlan where
  root : Text
  /-- Whether ignore files are consulted. -/
  ignoreFiles : Bool := true
  /-- Whether the root must have an ignore file. -/
  ignoreFileRequired : Bool := false
  precedence : Precedence := .lastOpinion
  ignoring : List Source := []
  including : List Source := []
  further : List Source := []
  /-- The ignore file for all repositories, if it is not to be looked up. -/
  globalFile : Option Text := none

namespace Policy

/-- The list that a source makes in a given role. -/
def listOf (h : Host) (root : Text) (allow : Bool) (s : Source) : Except Failure RuleList :=
  (s.rules h root).map fun rules => ⟨rules, allow⟩

/-- The policy of a plan. -/
def create (h : Host) (plan : PolicyPlan) : Except Failure Policy := do
  let root := Path.slashed plan.root
  let hierarchy ←
    if plan.ignoreFiles then
      some <$> Hierarchy.create h root plan.globalFile plan.ignoreFileRequired
    else pure none
  let ignoring ← plan.ignoring.mapM (listOf h root false)
  let including ← plan.including.mapM (listOf h root true)
  let further ← plan.further.mapM fun s => listOf h root s.allow s
  return {
    root, hierarchy
    precedence := plan.precedence
    lists := ignoring ++ including ++ further }

/-- All lists of the policy, in order. -/
def allLists (p : Policy) : List RuleList :=
  (p.hierarchy.map Hierarchy.toRuleList).toList ++ p.lists

/-- The loaded directories of the hierarchy, if there is one. -/
def loadedDirectories (p : Policy) : Option (List Text) :=
  p.hierarchy.map Hierarchy.loadedDirectories

/-- Whether a list looks at first lines. -/
def readsFirstLine (p : Policy) : Bool :=
  p.allLists.any RuleList.readsFirstLine

/-- Whether the first line of what bears a name is needed to decide about it. -/
def wantsFirstLine (p : Policy) (isDir : Bool) (name : Text) : Bool :=
  mayBeScript isDir name && p.readsFirstLine

/-- Loads the ignore file of a directory. -/
def load (h : Host) (dir : Text) (present : Option Bool) (p : Policy) : Except Errno Policy :=
  match p.hierarchy with
  | none => .ok p
  | some g => (g.load h dir present).map fun g => { p with hierarchy := some g }

/-- Loads the ignore files of all directories above a path. -/
def loadAbove (h : Host) (path : Text) (p : Policy) : Policy × Except Errno Unit :=
  match p.hierarchy with
  | none => (p, .ok ())
  | some g =>
    let (g, result) := g.loadAbove h path
    ({ p with hierarchy := some g }, result)

/-- Whether a candidate is allowed if the directories above it are. -/
def allowsAlone (p : Policy) (c : Candidate) : Bool :=
  p.precedence.allows p.allLists c

/-- The candidate at a path relative to the root. -/
def candidate (p : Policy) (path : Text) (isDir : Bool) (firstLine : Option Text) : Candidate :=
  ⟨p.root ++ path, isDir, firstLine⟩

/-- Whether every directory above a path relative to the root is allowed. -/
def allowsAbove (p : Policy) (path : Text) : Bool :=
  (Path.ancestors path).all fun dir =>
    p.allowsAlone (p.candidate (Text.dropTrailing (· = '/') dir) true none)

/-- Whether a path relative to the root and every directory above it are allowed, by the ignore
files that are loaded. -/
def allows (p : Policy) (path : Text) (isDir : Bool) (firstLine : Option Text) : Bool :=
  p.allowsAbove path && p.allowsAlone (p.candidate path isDir firstLine)

/-- Decides about a path, with the ignore files of the directories above it loaded first. -/
def judge (h : Host) (path : Text) (isDir : Bool) (firstLine : Option Text) (p : Policy) :
    Policy × Except Errno Bool :=
  let (p, result) := p.loadAbove h path
  (p, result.map fun _ => p.allows path isDir firstLine)

end Policy
end PathFilter
