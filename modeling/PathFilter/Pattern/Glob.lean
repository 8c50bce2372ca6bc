import PathFilter.Pattern.CharClass
/-!
Globs and what they match. A component glob is a list of pieces; a glob is a list of steps, each a
component glob or a stretch of any depth. Matching tries the ways to divide a text in a fixed
order, the longest stretch first, and passes what is left of the text on, so that the first way
in which the rest succeeds decides.
-/

namespace PathFilter.Pattern

/-- A piece of a component glob. -/
inductive Piece where
  | char (c : Char)
  | anyChar
  | anyRun
  | oneOf (k : CharClass)
deriving DecidableEq

/-- The pieces of a segment behind its first `skip` glyphs. Neighbouring stars are one piece. -/
def piecesFrom : Nat → Segment → Except Malformed (List Piece)
  | _, [] => .ok []
  | skip + 1, _ :: rest => piecesFrom skip rest
  | 0, g :: rest =>
    if g = .bare '*' then
      if rest.head? = some (.bare '*') then piecesFrom 0 rest
      else (piecesFrom 0 rest).map (.anyRun :: ·)
    else if g = .bare '?' then (piecesFrom 0 rest).map (.anyChar :: ·)
    else if g = .bare '[' then do
      let (k, behind) ← CharClass.read rest
      (piecesFrom (rest.length - behind.length) rest).map (.oneOf k :: ·)
    else (piecesFrom 0 rest).map (.char g.char :: ·)

/-- The pieces of a segment. -/
def pieces (s : Segment) : Except Malformed (List Piece) :=
  piecesFrom 0 s

section Matching
variable {α : Type}

/-- Tries what is left behind each run without a slash, the longest run first. -/
def afterRun (next : Text → Option α) : Text → Option α
  | [] => next []
  | c :: rest =>
    if c = '/' then next (c :: rest)
    else match afterRun next rest with
      | some found => some found
      | none => next (c :: rest)

/-- Tries what is left behind each slash, the last slash first. -/
def afterSlash (next : Text → Option α) : Text → Option α
  | [] => none
  | c :: rest =>
    match afterSlash next rest with
    | some found => some found
    | none => if c = '/' then next rest else none

/-- Matches pieces at the beginning of a text and passes on what is left. -/
def matchPieces (next : Text → Option α) : List Piece → Text → Option α
  | [], t => next t
  | .char a :: ps, c :: rest => if c = a then matchPieces next ps rest else none
  | .anyChar :: ps, c :: rest => if c = '/' then none else matchPieces next ps rest
  | .anyRun :: ps, t => afterRun (matchPieces next ps) t
  | .oneOf k :: ps, c :: rest => if k.admits c then matchPieces next ps rest else none
  | _ :: _, [] => none

/-- A step of a glob: one component, or any number of components. -/
inductive Step where
  | component (ps : List Piece)
  | anyDepth
deriving DecidableEq

/-- Passes on what follows a slash at the beginning of a text. -/
def behindSlash (next : Text → Option α) : Text → Option α
  | '/' :: rest => next rest
  | _ => none

/-- Matches the steps of a glob at the beginning of a text and passes on what is left. Slashes
separate the components; a last stretch of any depth takes all of a text, which must not be
empty, and a stretch before other steps may take nothing. -/
def matchSteps (next : Text → Option α) : List Step → Text → Option α
  | [], t => next t
  | [.component ps], t => matchPieces next ps t
  | [.anyDepth], t => if t.isEmpty then none else next []
  | .component ps :: step :: steps, t =>
    matchPieces (behindSlash (matchSteps next (step :: steps))) ps t
  | .anyDepth :: step :: steps, t =>
    match afterSlash (matchSteps next (step :: steps)) t with
    | some found => some found
    | none => matchSteps next (step :: steps) t

end Matching

/-- Whether a path is matched by one or more of the steps before the last one, taken from the
first on, so that what the glob matches may lie below it. A stretch of any depth admits every
path. -/
def matchesLeading : List Step → Text → Bool
  | [], _ => false
  | [_], _ => false
  | .anyDepth :: _ :: _, _ => true
  | .component ps :: step :: steps, t =>
    (matchPieces (fun rest =>
      if rest.isEmpty then some ()
      else behindSlash (fun below => if matchesLeading (step :: steps) below then some () else none)
        rest) ps t).isSome

end PathFilter.Pattern
