import PathFilter.Text.Basic
/-!
Pathnames. A pathname is a list of components below an anchor; empty components and `.` carry
nothing. Exactly two leading slashes are an anchor of their own, three or more are one slash.
Normalising a pathname lets each `..` cancel the component before it, without a look at the files.

Paths are texts elsewhere. A directory path ends in a slash, so that what lies below it is the path
and a name written one after the other.
-/

namespace PathFilter

/-- What a pathname starts from. -/
inductive Anchor where
  | relative
  | slash
  | doubleSlash
deriving DecidableEq, Repr

/-- The slashes that an anchor is written with. -/
def Anchor.toText : Anchor → Text
  | .relative => []
  | .slash => ['/']
  | .doubleSlash => ['/', '/']

/-- The anchor of a text. -/
def Anchor.ofText : Text → Anchor
  | '/' :: '/' :: '/' :: _ => .slash
  | '/' :: '/' :: _ => .doubleSlash
  | '/' :: _ => .slash
  | _ => .relative

/-- An anchor and the components below it. -/
structure Pathname where
  anchor : Anchor
  components : List Text
deriving DecidableEq, Repr

namespace Pathname

/-- The component that stands for the directory it is found in. -/
def here : Text := ['.']

/-- The component that stands for the directory above. -/
def above : Text := ['.', '.']

/-- The components of a text, those left out that carry nothing. -/
def componentsOf (t : Text) : List Text :=
  (Text.splitOn '/' t).filter fun c => c ≠ [] && c ≠ here

/-- The pathname that a text is read as. -/
def ofText (t : Text) : Pathname :=
  ⟨Anchor.ofText t, componentsOf t⟩

/-- The text of a pathname; a relative one without components is written `.`. -/
def toText (p : Pathname) : Text :=
  if p.anchor = .relative && p.components.isEmpty then here
  else p.anchor.toText ++ Text.joinWith '/' p.components

/-- Puts a component on a stack of components. Above an anchor there is nothing to go up to. -/
def push (anchor : Anchor) (stack : List Text) (c : Text) : List Text :=
  if c ≠ above then c :: stack
  else match stack with
    | [] => if anchor = .relative then [above] else []
    | top :: rest => if top = above then above :: stack else rest

/-- The pathname with every `..` resolved that has something before it to cancel. -/
def normalize (p : Pathname) : Pathname :=
  { p with components := (p.components.foldl (push p.anchor) []).reverse }

/-- The pathname that is reached from a directory: the given one itself if it is anchored. -/
def under (dir p : Pathname) : Pathname :=
  if p.anchor = .relative then ⟨dir.anchor, dir.components ++ p.components⟩ else p

/-- The components that lead from a directory down to something strictly below it. -/
def below? (dir p : Pathname) : Option (List Text) :=
  if p.anchor = dir.anchor then
    match dir.components.isPrefixOf? p.components with
    | some [] => none
    | rest => rest
  else none

end Pathname

/-! ## Paths as texts -/

namespace Path

/-- The path that `p` names when it is looked up from `dir`. -/
def join (dir p : Text) : Text :=
  if p.head? = some '/' then p
  else if dir.isEmpty || dir.endsIn '/' then dir ++ p
  else dir ++ '/' :: p

/-- The normal form of a path. -/
def normalize (p : Text) : Text :=
  (Pathname.ofText p).normalize.toText

/-- The normal form of a path looked up from the directory `cwd`. -/
def absolute (cwd p : Text) : Text :=
  normalize (join cwd p)

/-- The directory part of a path: what precedes its last component, without the slashes that end
it unless it holds nothing else. -/
def parent (p : Text) : Text :=
  let head := (p.reverse.dropWhile (· ≠ '/')).reverse
  if head.all (· = '/') then head else Text.dropTrailing (· = '/') head

/-- A path written as that of a directory, with a slash at its end. -/
def slashed (p : Text) : Text :=
  if p.endsIn '/' then p else p ++ ['/']

/-- The directories that are met on the way down through components, each written with all those
above it. -/
def descend (above : Text) : List Text → List Text
  | [] => []
  | c :: rest => let dir := above ++ c ++ ['/']; dir :: descend dir rest

/-- The directories above a relative path, from the highest down. -/
def ancestors (p : Text) : List Text :=
  descend [] (Text.splitOn '/' (Text.dropTrailing (· = '/') p)).dropLast

/-- The last component of a path. -/
def name (p : Text) : Text :=
  p.afterLast '/'

/-- What leads from a directory path to something strictly below it. -/
def below? (dir p : Text) : Option Text :=
  match dir.isPrefixOf? p with
  | some [] => none
  | rest => rest

end Path
end PathFilter
