import PathFilter.Path.Pathname
/-!
Home directories, and resolving paths against a root directory. A path that begins with `~` names
the home directory of the current user, or of the user whose name follows; what cannot be expanded
stays as it is. A path is looked up from the root and normalised as text, so a symbolic link goes by
its own name; what then lies strictly below the root has a name relative to it.
-/

namespace PathFilter

/-! ## Home directories -/

/-- The home directories that are known. -/
structure Homes where
  /-- The home directory of the current user. -/
  own : Option Text
  /-- The home directories of users by name. -/
  users : List (Text × Text)

/-- Why a path has no meaning: it begins with a home directory that is not known. -/
inductive HomeError where
  | undetermined
deriving DecidableEq

/-- The text that names the cause. -/
def HomeError.message : HomeError → Text
  | .undetermined => "Could not determine home directory.".toList

namespace Homes

/-- The home directory of a user; the empty name stands for the current one. -/
def of (homes : Homes) (user : Text) : Option Text :=
  if user.isEmpty then homes.own else homes.users.lookup user

/-- A path with the home directory that it begins with written out. -/
def expand (homes : Homes) (p : Text) : Text :=
  match p with
  | '~' :: t =>
    match homes.of (Text.beforeFirst '/' t) with
    | none => p
    | some home =>
      let expanded := Text.dropTrailing (· = '/') home ++ t.dropWhile (· ≠ '/')
      if expanded.isEmpty then ['/'] else expanded
  | _ => p

/-- A pathname with the home directory that its first component names put in its place. -/
def expandPathname (homes : Homes) (p : Pathname) : Except HomeError Pathname :=
  match p with
  | ⟨.relative, first :: rest⟩ =>
    if first.head? = some '~' then
      let home := homes.expand first
      if home.head? = some '~' then .error .undetermined
      else .ok { Pathname.ofText home with
        components := (Pathname.ofText home).components ++ rest }
    else .ok p
  | _ => .ok p

end Homes

/-! ## Resolvers -/

/-- The directory that paths are resolved against. -/
structure Resolver where
  base : Pathname
deriving DecidableEq

namespace Resolver

/-- The resolver for a root directory looked up from `cwd`, which is the root if none is given. -/
def create (homes : Homes) (cwd : Text) (root : Option Text) : Except HomeError Resolver :=
  match root with
  | none => .ok ⟨(Pathname.ofText cwd).normalize⟩
  | some root => (homes.expandPathname (.ofText root)).map fun p =>
      ⟨Pathname.ofText (Path.absolute cwd p.toText)⟩

/-- The root as a directory path. -/
def root (r : Resolver) : Text :=
  Path.slashed r.base.toText

/-- The normal form of a path that is looked up from the root. -/
def resolve (homes : Homes) (r : Resolver) (path : Text) : Except HomeError Pathname :=
  (homes.expandPathname (.ofText path)).map fun p => (r.base.under p).normalize

/-- The name of a path relative to the root, if it lies strictly below it. -/
def relative? (homes : Homes) (r : Resolver) (path : Text) : Except HomeError (Option Text) :=
  (r.resolve homes path).map fun p => (r.base.below? p).map (Text.joinWith '/')

end Resolver

end PathFilter
