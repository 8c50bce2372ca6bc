import PathFilter.Filter.Basic
/-!
Enumerating the allowed files below the root. Directories are visited depth first and their names
in the order of code points; a directory that is not allowed is not entered, and what cannot be
probed or listed is passed over. An iteration does no work before its first file is asked for, and
stops right behind the last file asked for; what it has still to visit is kept in frames, one for
each directory that it is inside of.
-/

namespace PathFilter

/-- A directory that an iteration is inside of. -/
structure Frame where
  /-- The path of the directory, with a slash at its end. -/
  directory : Text
  /-- The same relative to the root, empty for the root itself. -/
  relative : Text
  /-- The names that have not been visited yet. -/
  pending : List Text
  /-- The inode numbers of the directory and of those above it, where links are followed. -/
  inodes : List Nat
  /-- Whether a rule looked at first lines when the directory was entered. -/
  readsFirstLine : Bool
deriving DecidableEq

/-- An iteration: not begun, or inside of directories, the innermost first. -/
inductive Walk where
  | unstarted
  | inside (frames : List Frame)
deriving DecidableEq

/-- Why an iteration has stopped. -/
inductive Halt where
  | finished
  | failed (e : Errno)
  | paused (frames : List Frame)

/-- What an iteration has done: the files found, the policy it leaves, how many more files were
asked for if not all, and why it has stopped. -/
structure Progress where
  found : List Text
  policy : Policy
  wanted : Option Nat
  halt : Halt

/-- What is done with a name in a directory. -/
inductive Visit where
  | pass
  | file (path : Text)
  | directory

namespace Walk

/-- Goes on with what comes after, unless the iteration has stopped; a directory that it has
stopped within lies inside of `outer`. -/
def andThen (p : Progress) (outer : List Frame) (next : Policy → Option Nat → Progress) :
    Progress :=
  match p.halt with
  | .finished =>
    let q := next p.policy p.wanted
    { q with found := p.found ++ q.found }
  | .failed _ => p
  | .paused frames => { p with halt := .paused (frames ++ outer) }

/-- An answer of the file system, or nothing where there is none that can be used. -/
def orAbsent {α : Type} : Except Errno α → Except Errno (Option α)
  | .ok a => .ok (some a)
  | .error e => if e.meansAbsent then .ok none else .error e

/-- The inode numbers of a directory and of those above it; nothing if it is one of them. -/
def chain (h : Host) (c : Config) (directory : Text) (above : List Nat) :
    Except Errno (Option (List Nat)) :=
  if c.followLinks then
    (h.stat true directory).map fun n =>
      if above.contains n.inode then none else some (n.inode :: above)
  else .ok (some above)

/-- The inode numbers and the names that an iteration meets in a directory; nothing if it is not
to be entered. -/
def contents (h : Host) (c : Config) (directory : Text) (above : List Nat) :
    Except Errno (Option (List Nat × List Text)) := do
  match ← chain h c directory above with
  | none => return none
  | some inodes => return some (inodes, ← h.list directory)

/-- The frame for a directory, with its ignore file loaded; nothing if it is not to be entered. -/
def openDirectory (h : Host) (c : Config) (directory relative : Text) (above : List Nat)
    (policy : Policy) : Except Errno (Option (Frame × Policy)) := do
  match (← orAbsent (contents h c directory above)).join with
  | none => return none
  | some (inodes, names) =>
    let policy ← policy.load h relative (some (names.contains ignoreFileName))
    return some (⟨directory, relative, names, inodes, policy.readsFirstLine⟩, policy)

/-- What is done with a name, once it is known whether it is a directory. -/
def visitKind (h : Host) (c : Config) (policy : Policy) (f : Frame) (name : Text) (isDir : Bool) :
    Except Errno Visit := do
  let path := f.directory ++ name
  let firstLine ←
    if f.readsFirstLine && mayBeScript isDir name then h.firstLine path else pure none
  if !policy.allowsAlone ⟨path, isDir, firstLine⟩ then return .pass
  else if isDir then return .directory
  else return .file (if c.relative then f.relative ++ name else path)

/-- What is done with a name in the directory of a frame. -/
def visit (h : Host) (c : Config) (policy : Policy) (f : Frame) (name : Text) :
    Except Errno Visit := do
  match ← orAbsent (h.isDirectory c.followLinks (f.directory ++ name)) with
  | none => return .pass
  | some isDir => visitKind h c policy f name isDir

/-- Visits the names of a directory that are pending, entering directories by `enter`. -/
def scan (h : Host) (c : Config)
    (enter : Text → Text → List Nat → Policy → Option Nat → Progress) (f : Frame) :
    List Text → Policy → Option Nat → Progress
  | [], policy, wanted => ⟨[], policy, wanted, .finished⟩
  | name :: rest, policy, wanted =>
    if wanted = some 0 then ⟨[], policy, wanted, .paused [{ f with pending := name :: rest }]⟩
    else match visit h c policy f name with
      | .error e => ⟨[], policy, wanted, .failed e⟩
      | .ok .pass => scan h c enter f rest policy wanted
      | .ok (.file path) =>
        andThen ⟨[path], policy, wanted.map (· - 1), .finished⟩ [] (scan h c enter f rest)
      | .ok .directory =>
        andThen (enter (f.directory ++ name ++ ['/']) (f.relative ++ name ++ ['/']) f.inodes
          policy wanted) [{ f with pending := rest }] (scan h c enter f rest)

/-- Enters a directory and visits what is in it. No chain of directories is longer than `room`,
since the directories on it are different ones. -/
def enter (h : Host) (c : Config) :
    Nat → Text → Text → List Nat → Policy → Option Nat → Progress
  | 0, _, _, _, policy, wanted => ⟨[], policy, wanted, .finished⟩
  | room + 1, directory, relative, above, policy, wanted =>
    match openDirectory h c directory relative above policy with
    | .error e => ⟨[], policy, wanted, .failed e⟩
    | .ok none => ⟨[], policy, wanted, .finished⟩
    | .ok (some (f, policy)) => scan h c (enter h c room) f f.pending policy wanted

/-- How many directories a chain can hold, and one more for finding that it has closed. -/
def roomFor (h : Host) : Nat :=
  h.files.directoryCount + 1

/-- Goes on inside of directories, from the innermost outwards. -/
def resume (h : Host) (c : Config) : List Frame → Policy → Option Nat → Progress
  | [], policy, wanted => ⟨[], policy, wanted, .finished⟩
  | f :: outer, policy, wanted =>
    andThen (scan h c (enter h c (roomFor h)) f f.pending policy wanted) outer
      (resume h c outer)

/-- Begins an iteration at a root directory, or goes on with it. -/
def advance (h : Host) (c : Config) (root : Text) (policy : Policy) (wanted : Option Nat) :
    Walk → Progress
  | .inside frames => resume h c frames policy wanted
  | .unstarted => enter h c (roomFor h) root [] [] policy wanted

end Walk

/-- An iteration that has been advanced: the files found, what it has still to do, and the error
that ended it, if one did. -/
structure Advance where
  found : List Text
  walk : Walk
  error : Option Errno

namespace Filter

/-- Advances an iteration by the given number of files, or to its end. An iteration that has ended
stays so. -/
def advance (h : Host) (wanted : Option Nat) (w : Walk) (f : Filter) : Filter × Advance :=
  if wanted = some 0 then (f, ⟨[], w, none⟩)
  else
    let p := w.advance h f.config f.root f.policy wanted
    let f := { f with policy := p.policy }
    match p.halt with
    | .finished => (f, ⟨p.found, .inside [], none⟩)
    | .failed e => (f, ⟨p.found, .inside [], some e⟩)
    | .paused frames => (f, ⟨p.found, .inside frames, none⟩)

/-- All allowed files below the root. -/
def enumerate (h : Host) (f : Filter) : Filter × Advance :=
  f.advance h none .unstarted

end Filter
end PathFilter
