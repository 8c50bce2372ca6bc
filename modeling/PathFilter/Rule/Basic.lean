import PathFilter.Path.Resolver
import PathFilter.Pattern.PathPattern
import PathFilter.Text.LetterCase
import PathFilter.Text.WordChar
/-!
Rules: patterns tied to the directory that they are relative to, and the candidates that they are
applied to. A rule for paths matches below its root, a rule for an interpreter matches files by
their first line, and a rule whose pattern is malformed matches nothing. Lines are read as rules: of
an ignore file, or of a list of paths such as the arguments of a command.

The name of an interpreter is found wherever it stands in the first line of a script behind `#!`, in
any case of its letters, if it begins and ends where a word begins or ends.
-/

namespace PathFilter

/-! ## Candidates -/

/-- A path that rules are applied to. -/
structure Candidate where
  /-- The absolute path, without a slash at its end. -/
  path : Text
  isDir : Bool
  /-- The first line of the file, if it is known. -/
  firstLine : Option Text
deriving DecidableEq

/-- Whether what bears a name may be a script, so that its first line can matter: a file without
an extension. -/
def mayBeScript (isDir : Bool) (name : Text) : Bool :=
  !isDir && !name.contains '.'

namespace Candidate

/-- What leads from a root to the candidate, if it lies strictly below that. -/
def below? (c : Candidate) (root : Text) : Option Text :=
  Path.below? root c.path

/-- Whether the candidate is a directory that a root lies in or is. -/
def encloses (c : Candidate) (root : Text) : Bool :=
  c.isDir && (Text.dropTrailing (· = '/') c.path ++ ['/']).isPrefixOf root

/-- The first line of the candidate, where it can matter and is known. -/
def content (c : Candidate) : Option Text :=
  if mayBeScript c.isDir (Path.name c.path) then c.firstLine else none

end Candidate

/-! ## Interpreters -/

namespace Shebang

/-- Whether a word begins or ends between two neighbours, where the line may end as well. -/
def wordBoundary (before : Char) (after : Option Char) : Bool :=
  Text.isWordChar before != after.any Text.isWordChar

/-- Whether a name stands at the beginning of a text, behind the character `before`, and ends at a
word boundary. -/
def nameHere (before : Char) : Text → Text → Bool
  | [], t => wordBoundary before t.head?
  | _ :: _, [] => false
  | n :: name, c :: t => Text.sameLetter n c && nameHere c name t

/-- Whether a name stands in what is left of a line behind the character `before`. It may itself
hold a line feed, but none may precede it. -/
def nameWithin (name : Text) (before : Char) (t : Text) : Bool :=
  wordBoundary before t.head? && nameHere before name t ||
  match t with
  | [] => false
  | c :: rest => c ≠ '\n' && nameWithin name c rest

/-- Whether a line names an interpreter. -/
def names (line name : Text) : Bool :=
  match line with
  | '#' :: '!' :: rest => nameWithin name '!' rest
  | _ => false

end Shebang

/-! ## Rules -/

/-- A rule for paths. -/
structure PathRule where
  /-- The line that the rule was written as. -/
  line : Text
  /-- The directory that the pattern is relative to, with a slash at its end. -/
  root : Text
  negated : Bool
  /-- Whether the rule belongs to an include list. -/
  allow : Bool
  pattern : Pattern.PathPattern
deriving DecidableEq

/-- A rule for the files that an interpreter runs. -/
structure InterpreterRule where
  line : Text
  root : Text
  negated : Bool
  interpreter : Text
deriving DecidableEq

/-- A rule. -/
inductive Rule where
  | path (r : PathRule)
  | interpreter (r : InterpreterRule)
  | unmatchable (line : Text) (negated : Bool)
deriving DecidableEq

namespace Rule

/-- The line that a rule was written as. -/
def line : Rule → Text
  | path r => r.line
  | interpreter r => r.line
  | unmatchable line _ => line

/-- Whether a rule speaks against what the other rules of its list say. -/
def negated : Rule → Bool
  | path r => r.negated
  | interpreter r => r.negated
  | unmatchable _ negated => negated

/-- Whether a rule looks at the first line of a file. -/
def readsFirstLine : Rule → Bool
  | interpreter _ => true
  | path _ | unmatchable _ _ => false

/-- Whether a rule matches a candidate. -/
def appliesTo (c : Candidate) : Rule → Bool
  | path r => (c.below? r.root).any fun p => r.pattern.accepts r.allow p c.isDir
  | interpreter r => (c.below? r.root).isSome && c.content.any (Shebang.names · r.interpreter)
  | unmatchable _ _ => false

/-- Whether a rule of an include list may match something below a directory of that kind, given
what leads from its root to the directory. -/
def mayMatchBelow (p : Text) : Rule → Bool
  | path r => r.pattern.mayMatchBelow r.allow p
  | interpreter _ => true
  | unmatchable _ _ => false

/-- The directory that the pattern of a rule is relative to. -/
def root? : Rule → Option Text
  | path r => some r.root
  | interpreter r => some r.root
  | unmatchable _ _ => none

/-- Whether a candidate is a directory in which an include rule may match something. -/
def mayMatchWithin (c : Candidate) (r : Rule) : Bool :=
  c.isDir && !r.negated && r.root?.any fun root =>
    c.encloses root || (c.below? root).any r.mayMatchBelow

/-! ### Rules of lines -/

/-- The rule for a pattern that was read from a line. -/
def ofPattern (root : Text) (allow : Bool) (line : Text) : Pattern.Line → Rule
  | .interpreter negated name =>
    if name.isEmpty then .unmatchable line negated
    else .interpreter { line, root, negated, interpreter := name }
  | .path negated body =>
    match Pattern.PathPattern.ofBody body with
    | .error _ => .unmatchable line negated
    | .ok pattern => .path { line, root, negated, allow, pattern }

/-- The rule on a line of an ignore file, if it holds one. -/
def ofLine? (root : Text) (allow : Bool) (line : Text) : Option Rule :=
  (Pattern.Line.read line).map (ofPattern (Path.slashed root) allow line)

/-- The pattern for a path that is looked up from a root directory: `**` for the root itself,
nothing for what lies outside. What begins with a star is a pattern already. -/
def patternOfPath (homes : Homes) (root path : Text) : Option Text :=
  if path.head? = some '*' then some path
  else
    let full := Path.normalize (Path.join root (homes.expand path))
    if Path.slashed full = root then some ['*', '*']
    else (root.isPrefixOf? full).map fun p =>
      '/' :: p ++ if path.endsIn '/' then ['/'] else []

/-- The rule on a line of a list of paths, if it holds one. -/
def ofPathLine? (homes : Homes) (root : Text) (allow : Bool) (line : Text) : Option Rule :=
  if (Text.strip line).isEmpty then ofLine? root allow line
  else
    let negated := line.head? = some '!'
    match patternOfPath homes (Path.slashed root) (if negated then line.tail else line) with
    | none => some (.unmatchable line negated)
    | some pattern => ofLine? root allow (if negated then '!' :: pattern else pattern)

end Rule
end PathFilter
