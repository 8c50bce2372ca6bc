import PathFilter.FileSystem.Basic
import PathFilter.Path.Pathname
/-!
Finding the node that a path leads to, and what can be asked of it: what it is, its bytes, and the
names in it. Names are looked up one after the other, each in the directory reached so far; a link
on the way is replaced by the names of its target. `..` goes to the directory that holds the one
reached, which after a link need not be the one named before.
-/

namespace PathFilter.FileSystem

/-- The greatest length of a name in bytes. -/
def nameLimit : Nat := 255

/-- How many links a lookup may follow. -/
def linkLimit : Nat := 40

/-- The number of bytes that a name takes in UTF-8. -/
def nameSize (name : Text) : Nat :=
  name.foldl (fun size c => size + c.utf8Size) 0

/-- The names to look up for a path. A slash at its end asks for a directory, as a final `.`
does. -/
def lookupNames (path : Text) : List Text :=
  (Text.splitOn '/' path).filter (· ≠ []) ++ if path.endsIn '/' then [Pathname.here] else []

/-- Looks names up from a directory. A link is handed to `detour` with the directory that holds
it, its target and the names behind it; the last name's link is not followed unless asked for. -/
def descend (fs : FileSystem) (followLast : Bool)
    (detour : Location → Text → List Text → Except Errno Location) :
    Location → List Text → Except Errno Location
  | l, [] => .ok l
  | l, name :: rest =>
    if (fs.get? l).all (·.kind ≠ .directory) then .error .notDirectory
    else if name = Pathname.here then descend fs followLast detour l rest
    else if name = Pathname.above then descend fs followLast detour l.dropLast rest
    else if nameLimit < nameSize name then .error .nameTooLong
    else match fs.get? (l ++ [name]) with
      | none => .error .noEntry
      | some { kind := .link target, .. } =>
        if rest.isEmpty && !followLast then .ok (l ++ [name]) else detour l target rest
      | some _ => descend fs followLast detour (l ++ [name]) rest

/-- Looks names up from a directory, following at most the given number of links. -/
def locateFrom (fs : FileSystem) (followLast : Bool) :
    Nat → Location → List Text → Except Errno Location
  | 0 => descend fs followLast fun _ _ _ => .error .linkLoop
  | links + 1 => descend fs followLast fun l target rest =>
    if target.isEmpty then .error .noEntry
    else locateFrom fs followLast links (if target.head? = some '/' then [] else l)
      (lookupNames target ++ rest)

/-- The location that an absolute path leads to. -/
def locate (fs : FileSystem) (followLast : Bool) (path : Text) : Except Errno Location :=
  if path.isEmpty then .error .noEntry
  else locateFrom fs followLast linkLimit [] (lookupNames path)

/-- The node that a path leads to. -/
def node (fs : FileSystem) (followLast : Bool) (path : Text) : Except Errno (Location × Node) := do
  let l ← fs.locate followLast path
  match fs.get? l with
  | none => throw .noEntry
  | some n => return (l, n)

/-- Fails with the error, if there is one. -/
def raise : Option Errno → Except Errno Unit
  | none => .ok ()
  | some e => .error e

/-- What is at a path. -/
def stat (fs : FileSystem) (followLast : Bool) (path : Text) : Except Errno Node := do
  let (_, n) ← fs.node followLast path
  raise n.faults.stat
  return n

/-- The bytes of the file at a path. -/
def read (fs : FileSystem) (path : Text) : Except Errno (List UInt8) := do
  let (_, n) ← fs.node true path
  raise n.faults.opening
  match n.kind with
  | .file bytes => return bytes
  | .directory => throw .isDirectory
  | .link _ => throw .linkLoop

/-- The names of the nodes directly below a location, in the order of their code points. -/
def childrenAt (fs : FileSystem) (l : Location) : List Text :=
  Text.sort (fs.nodes.filterMap fun (k, _) => if k.dropLast = l then k.getLast? else none)

/-- The names in the directory at a path. -/
def list (fs : FileSystem) (path : Text) : Except Errno (List Text) := do
  let (l, n) ← fs.node true path
  raise n.faults.listing
  match n.kind with
  | .directory => return fs.childrenAt l
  | _ => throw .notDirectory

end PathFilter.FileSystem
