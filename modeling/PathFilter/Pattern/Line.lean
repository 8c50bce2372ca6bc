import PathFilter.Text.Basic
/-!
The structure of one line of a pattern list. Blanks at its end are dropped unless a backslash
escapes them; an empty line and a comment hold no pattern; `!` negates the pattern; `#!:` begins
the name of an interpreter; slashes at either end of a path pattern are set apart from its body.
-/

namespace PathFilter.Pattern

/-- Whether a character is escaped, by the text before it read backwards: an odd number of
backslashes stands directly before it. -/
def escapedAfter (before : Text) : Bool :=
  (before.takeWhile (· = '\\')).length % 2 == 1

/-- A text, read backwards, without the unescaped spaces and tabs that it begins with. -/
def dropBlanksReversed : Text → Text
  | [] => []
  | c :: before =>
    if (c = ' ' || c = '\t') && !escapedAfter before then dropBlanksReversed before
    else c :: before

/-- The text, read backwards, without the given character where it begins with that. -/
def dropOne (c : Char) : Text → Text
  | [] => []
  | a :: rest => if a = c then rest else a :: rest

/-- The line without its line end and without unescaped spaces and tabs before that. -/
def stripLineEnd (line : Text) : Text :=
  (dropBlanksReversed (dropOne '\r' (dropOne '\n' line.reverse))).reverse

/-- A path pattern without the slashes at its ends. A final slash restricts the pattern to
directories, a leading one ties it to its root. -/
structure PathBody where
  text : Text
  leadingSlash : Bool
  directoryOnly : Bool
deriving DecidableEq

/-- Whether a text ends in a slash that no backslash escapes. -/
def endsInBareSlash (t : Text) : Bool :=
  match t.reverse with
  | [] => false
  | c :: before => c = '/' && !escapedAfter before

/-- Sets apart the slashes at the ends of a path pattern, all that stand there. -/
def PathBody.ofText (t : Text) : PathBody :=
  let directoryOnly := endsInBareSlash t
  let t := if directoryOnly then Text.dropTrailing (· = '/') t else t
  let leadingSlash := t.head? == some '/'
  { text := if leadingSlash then t.dropWhile (· = '/') else t
    leadingSlash
    directoryOnly }

/-- What a line asks for: files run by an interpreter, or paths of a certain form. -/
inductive Line where
  | interpreter (negated : Bool) (name : Text)
  | path (negated : Bool) (body : PathBody)
deriving DecidableEq

/-- The pattern on a line, or nothing on an empty line and on a comment. -/
def Line.read (line : Text) : Option Line :=
  match stripLineEnd line with
  | [] => none
  | '#' :: '!' :: ':' :: name => some (.interpreter false (Text.strip name))
  | '#' :: _ => none
  | '!' :: '#' :: '!' :: ':' :: name => some (.interpreter true (Text.strip name))
  | '!' :: body => some (.path true (.ofText body))
  | body => some (.path false (.ofText body))

end PathFilter.Pattern
