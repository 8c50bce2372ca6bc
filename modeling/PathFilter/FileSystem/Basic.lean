import PathFilter.Text.Basic
/-!
A file system as a finite map from locations to nodes. A node is a file, a directory or a symbolic
link; it has an inode number of its own, and errors may be attached to it that strike when it is
reached. Some errors only say that a path leads to nothing that can be used. Directories above an
entry come into being with it.
-/

namespace PathFilter

/-! ## Errors -/

/-- Why an operation on a file failed. -/
inductive Errno where
  | noEntry
  | accessDenied
  | notDirectory
  | linkLoop
  | nameTooLong
  | isDirectory
  | other (name : Text)
deriving DecidableEq

namespace Errno

/-- The symbols of the errors that have a constructor of their own. -/
def symbols : List (Text × Errno) :=
  [("ENOENT".toList, noEntry), ("EACCES".toList, accessDenied), ("ENOTDIR".toList, notDirectory),
   ("ELOOP".toList, linkLoop), ("ENAMETOOLONG".toList, nameTooLong),
   ("EISDIR".toList, isDirectory)]

/-- The error that a symbol stands for. -/
def ofName (name : Text) : Errno :=
  (symbols.lookup name).getD (.other name)

/-- The symbol of an error. -/
def name : Errno → Text
  | noEntry => "ENOENT".toList
  | accessDenied => "EACCES".toList
  | notDirectory => "ENOTDIR".toList
  | linkLoop => "ELOOP".toList
  | nameTooLong => "ENAMETOOLONG".toList
  | isDirectory => "EISDIR".toList
  | other name => name

/-- Whether an error that is met while a path is probed means that nothing usable is there. -/
def meansAbsent : Errno → Bool
  | noEntry | accessDenied | notDirectory | linkLoop | nameTooLong => true
  | isDirectory | other _ => false

end Errno

/-! ## Nodes -/

/-- What a node is. -/
inductive NodeKind where
  | file (bytes : List UInt8)
  | directory
  | link (target : Text)
deriving DecidableEq

/-- The errors that strike when a node is reached: in asking what it is, in opening it, and in
listing it. -/
structure Faults where
  stat : Option Errno := none
  opening : Option Errno := none
  listing : Option Errno := none
deriving DecidableEq

/-- What is put at a location. -/
structure Entry where
  kind : NodeKind
  faults : Faults := {}
deriving DecidableEq

/-- An entry in place, with its inode number. -/
structure Node extends Entry where
  inode : Nat
deriving DecidableEq

/-- The names that lead from the root directory to a node, through no link. -/
abbrev Location := List Text

/-- The nodes by location, and the next free inode number. -/
structure FileSystem where
  nodes : List (Location × Node)
  nextInode : Nat

namespace FileSystem

/-- The file system that holds the root directory only. -/
def empty : FileSystem :=
  ⟨[([], { kind := .directory, inode := 0 })], 1⟩

/-- The node at a location. -/
def get? (fs : FileSystem) (l : Location) : Option Node :=
  fs.nodes.lookup l

/-- Puts an entry at a location where nothing is, under a new inode number. -/
def add (fs : FileSystem) (l : Location) (e : Entry) : FileSystem :=
  ⟨(l, { e with inode := fs.nextInode }) :: fs.nodes, fs.nextInode + 1⟩

/-- The file system without what is at a location and below it. -/
def removeAt (fs : FileSystem) (l : Location) : FileSystem :=
  { fs with nodes := fs.nodes.filter fun (k, _) => !l.isPrefixOf k }

/-- Adds the directories that are missing on the way down from a location. -/
def addDirectories (fs : FileSystem) (l : Location) : List Text → FileSystem
  | [] => fs
  | [_] => fs
  | name :: rest =>
    let l := l ++ [name]
    (match fs.get? l with
      | some _ => fs
      | none => fs.add l { kind := .directory }).addDirectories l rest

/-- Puts an entry at a location in place of what is there. A directory put where a directory is
keeps what is below it, and its inode number. -/
def putAt (fs : FileSystem) (l : Location) (e : Entry) : FileSystem :=
  let fs := fs.addDirectories [] l
  match e.kind, fs.get? l with
  | .directory, some { kind := .directory, inode, .. } =>
    { fs with nodes := (l, { e with inode }) :: fs.nodes.filter fun (k, _) => k ≠ l }
  | _, _ => (fs.removeAt l).add l e

/-- The location that an absolute path names if it meets no link. -/
def locationOf (path : Text) : Location :=
  (Text.splitOn '/' path).filter (· ≠ [])

/-- Puts an entry at a path. -/
def put (fs : FileSystem) (path : Text) (e : Entry) : FileSystem :=
  fs.putAt (locationOf path) e

/-- Removes an entry and all below it. -/
def remove (fs : FileSystem) (path : Text) : FileSystem :=
  fs.removeAt (locationOf path)

/-- The file system that holds the given entries. -/
def ofEntries (entries : List (Text × Entry)) : FileSystem :=
  entries.foldl (fun fs (path, e) => fs.put path e) empty

/-- The number of directories. -/
def directoryCount (fs : FileSystem) : Nat :=
  fs.nodes.countP fun (_, n) => n.kind = .directory

end FileSystem

end PathFilter
