import PathFilter.Filter.Config
import PathFilter.Path.Resolver
import PathFilter.Policy
/-!
Filters. A filter decides which paths below its root are allowed: those that exist, that no list
rules out, and whose directories no list rules out. What a query leaves open is looked up in the
file system. Nothing in a filter changes but the set of ignore files that have been loaded.
-/

namespace PathFilter

/-- A filter for the paths below a root. -/
structure Filter where
  config : Config
  resolver : Resolver
  policy : Policy

/-- What a filter is made from. -/
structure FilterPlan where
  /-- The root directory; the current one if none is given. -/
  root : Option Text := none
  options : Options := {}
  ignoreRules : List Text := []
  ignoreFiles : List Text := []
  includeRules : List Text := []
  includeFiles : List Text := []
  /-- Paths to include with all that is below them. -/
  includePaths : List Text := []
  /-- Further sources, each a list of its own. -/
  sources : List Source := []

namespace FilterPlan

/-- The source of rules that are given, unless there are none. -/
def ofRules (rules : List Text) (allow : Bool) (format : PatternFormat) : List Source :=
  if rules.isEmpty then []
  else [{ origin := .ofTexts rules, allow, format := .text format.name }]

/-- The source of a file, which must exist. -/
def ofFile (allow : Bool) (file : Text) : Source :=
  { origin := .file file true, allow }

/-- The policy that the plan asks for. -/
def policy (plan : FilterPlan) (root : Text) (config : Config) : PolicyPlan :=
  { root
    ignoreFiles := config.ignoreFiles ≠ .off
    ignoreFileRequired := config.ignoreFiles = .required
    precedence := config.precedence
    ignoring := ofRules plan.ignoreRules false .gitignore ++ plan.ignoreFiles.map (ofFile false)
    including := ofRules plan.includeRules true .gitignore ++ plan.includeFiles.map (ofFile true) ++
      ofRules plan.includePaths true .paths
    further := plan.sources
    globalFile := config.globalFile }

end FilterPlan

/-- A question about a path, with what is known of it. -/
structure Query where
  path : Text
  isDir : Option Bool := none
  /-- The text of the file, of which the first line counts. -/
  content : Option Text := none
  present : Option Bool := none
  /-- Whether directories can be allowed. -/
  includeDirectories : Bool := false

namespace Filter

/-- The filter of a plan. -/
def create (h : Host) (plan : FilterPlan) : Except Failure Filter := do
  let config ← plan.options.check.mapError .setup
  let resolver ← (Resolver.create h.homes h.cwd plan.root).mapError .home
  if !h.hasDirectory resolver.root then throw (.setup (.rootNotDirectory resolver.root))
  let policy ← Policy.create h (plan.policy resolver.root config)
  return { config, resolver, policy }

/-- The root as a directory path. -/
def root (f : Filter) : Text :=
  f.resolver.root

/-- Whether what is at a path is a directory, and whether it is present as far as is known. What
cannot be probed is no directory, and absent unless the query says otherwise. -/
def probe (h : Host) (f : Filter) (full : Text) (q : Query) :
    Except Errno (Bool × Option Bool) :=
  match q.isDir with
  | some isDir => .ok (isDir, q.present)
  | none =>
    match h.isDirectory f.config.followLinks full with
    | .ok isDir => .ok (isDir, q.present)
    | .error e => if e.meansAbsent then .ok (false, some (q.present.getD false)) else .error e

/-- The first line of a text that is given. -/
def firstLineOf (content : Text) : Text :=
  Text.dropTrailing (· = '\r') (content.beforeFirst '\n')

/-- The first line of a file, if it is given or needed. -/
def firstLine? (h : Host) (f : Filter) (relative : Text) (isDir : Bool) (q : Query) :
    Except Errno (Option Text) :=
  match q.content with
  | some content => .ok (some (firstLineOf content))
  | none =>
    if f.policy.wantsFirstLine isDir (Path.name relative) then h.firstLine (f.root ++ relative)
    else .ok none

/-- Decides about what is at a path relative to the root, with the ignore files of the directories
above it loaded first. -/
def decideAt (h : Host) (relative : Text) (isDir : Bool) (q : Query) (f : Filter) :
    Filter × Except Errno Bool :=
  let (policy, loaded) := f.policy.loadAbove h relative
  let f := { f with policy }
  (f, do
    loaded
    let firstLine ← f.firstLine? h relative isDir q
    return f.policy.allows relative isDir firstLine)

/-- Decides about a path relative to the root. -/
def decideBelow (h : Host) (relative : Text) (q : Query) (f : Filter) :
    Filter × Except Errno Bool :=
  let full := f.root ++ relative
  match f.probe h full q with
  | .error e => (f, .error e)
  | .ok (isDir, present) =>
    if isDir && !q.includeDirectories then (f, .ok false)
    else if !present.getD (h.present full) then (f, .ok false)
    else f.decideAt h relative isDir q

/-- Asks whether a path is allowed. Nothing outside the root is, nor is the root itself. -/
def ask (h : Host) (q : Query) (f : Filter) : Filter × Except Failure Bool :=
  match f.resolver.relative? h.homes q.path with
  | .error e => (f, .error (.home e))
  | .ok none => (f, .ok false)
  | .ok (some relative) =>
    let (f, answer) := f.decideBelow h relative q
    (f, answer.mapError .access)

/-- The allowed ones of the given paths. -/
def keep (h : Host) : List Text → Filter → Filter × Except Failure (List Text)
  | [], f => (f, .ok [])
  | path :: rest, f =>
    match f.ask h { path } with
    | (f, .error e) => (f, .error e)
    | (f, .ok allowed) =>
      let (f, kept) := keep h rest f
      (f, kept.map fun paths => if allowed then path :: paths else paths)

end Filter
end PathFilter
