import PathFilter.Failure
/-!
A configuration file as a sequence of assignments. Keys are written flat, `section.key` or
`section.subsection.key`. A malformed line ends the sequence; what stands before it does not
depend on the lines behind it.

`[name]` opens a section and `[name "sub"]` a subsection of it, whose name keeps its case and may
hold any character, a quote and a backslash behind a backslash. A value is the text behind the
equals sign without the blanks at its ends, up to a comment. Between double quotes blanks and
comment signs are ordinary characters, a backslash begins an escape, and one at the end of a line
makes the value go on in the next line.
-/

namespace PathFilter.GitConfig

/-! ## Section headers -/

/-- The characters of a section name. -/
def isSectionChar (c : Char) : Bool :=
  c.isAlphanum || c = '.' || c = '-'

/-- Reads the name of a subsection up to the quote that ends it. -/
def readSubsection : Text → Option (Text × Text)
  | [] => none
  | ['\\'] => none
  | '\\' :: c :: rest => (readSubsection rest).map fun (name, behind) => (c :: name, behind)
  | c :: rest =>
    if c = '"' then some ([], rest)
    else (readSubsection rest).map fun (name, behind) => (c :: name, behind)

/-- A name without regard to the case of its ASCII letters. -/
def lower (name : Text) : Text :=
  name.map Char.toLower

/-- Reads a section header behind its opening bracket, and returns the name of the section with
what follows the header in the line. -/
def readHeader (t : Text) : Except Cause (Text × Text) :=
  let t := t.dropWhile Text.isBlank
  let name := t.takeWhile isSectionChar
  let behind := t.dropWhile isSectionChar
  let next := behind.dropWhile Text.isBlank
  if name.isEmpty then .error .invalidHeader
  else match next with
    | ']' :: rest => .ok (lower name, rest)
    | '"' :: rest =>
      if behind.head? = some '"' then .error .invalidHeader
      else match readSubsection rest with
        | none => .error .invalidHeader
        | some (sub, rest) =>
          match rest.dropWhile Text.isBlank with
          | ']' :: rest => .ok (lower name ++ '.' :: sub, rest)
          | _ => .error .invalidHeader
    | _ => .error .invalidHeader

/-! ## Values -/

/-- How far a value has been read. -/
structure ValueReader where
  /-- The characters read so far, without the blanks that may yet turn out to end the value. -/
  read : Text := []
  /-- The blanks read since then. -/
  held : Text := []
  /-- Whether anything but blanks has been read, an empty pair of quotes included. -/
  started : Bool := false
  /-- Whether a quote is open. -/
  quoted : Bool := false
deriving DecidableEq

/-- Whether a character begins a comment. -/
def isCommentSign (c : Char) : Bool :=
  c = '#' || c = ';'

/-- The character that an escape stands for. -/
def escapes : List (Char × Char) :=
  [('\\', '\\'), ('"', '"'), ('n', '\n'), ('t', '\t'), ('b', '\x08')]

namespace ValueReader

/-- Takes characters into the value, and the blanks before them. -/
def take (r : ValueReader) (t : Text) : ValueReader :=
  { r with read := r.read ++ r.held ++ t, held := [], started := true }

/-- Takes a blank outside quotes, which counts only if more follows and something came before. -/
def hold (r : ValueReader) (c : Char) : ValueReader :=
  if r.started then { r with held := r.held ++ [c] } else r

/-- Opens or closes a quote. -/
def toggle (r : ValueReader) : ValueReader :=
  { r.take [] with quoted := !r.quoted }

end ValueReader

/-- What a line leaves of a value: it is complete, or it goes on in the next line. -/
inductive ValueStep where
  | complete (value : Text)
  | goesOn (r : ValueReader)
deriving DecidableEq

/-- Reads what a line holds of a value. -/
def readValue (r : ValueReader) : Text → Except Cause ValueStep
  | [] => if r.quoted then .error .unterminatedQuote else .ok (.complete r.read)
  | ['\\'] => .ok (.goesOn r)
  | '\\' :: c :: rest =>
    match escapes.lookup c with
    | none => .error .invalidEscape
    | some meant => readValue (r.take [meant]) rest
  | c :: rest =>
    if c = '"' then readValue r.toggle rest
    else if !r.quoted && isCommentSign c then .ok (.complete r.read)
    else if !r.quoted && (c = ' ' || c = '\t') then readValue (r.hold c) rest
    else readValue (r.take [c]) rest

/-! ## Lines -/

/-- A flat key and the value that it is given. -/
structure Assignment where
  key : Text
  value : Text
deriving DecidableEq

/-- What the lines read so far leave behind: the section that is open, and the key and value of an
assignment that goes on. -/
structure LineReader where
  inSection : Option Text := none
  pending : Option (Text × ValueReader) := none
deriving DecidableEq

/-- Whether there is nothing but a comment. -/
def isVoid (t : Text) : Bool :=
  t.head?.all isCommentSign

/-- The value `true`, which a key without an equals sign is given. -/
def flagValue : Text := "true".toList

/-- Goes on with a value. -/
def LineReader.continueValue (r : LineReader) (key : Text) (v : ValueReader) (t : Text) :
    Except Cause (LineReader × Option Assignment) := do
  match ← readValue v t with
  | .complete value => return ({ r with pending := none }, some ⟨key, value⟩)
  | .goesOn v => return ({ r with pending := some (key, v) }, none)

/-- Reads an assignment. -/
def LineReader.readAssignment (r : LineReader) (t : Text) :
    Except Cause (LineReader × Option Assignment) :=
  if !t.head?.any Char.isAlpha then .error .invalidKey
  else match r.inSection with
    | none => .error .keyOutsideSection
    | some name =>
      let isKeyChar (c : Char) : Bool := c.isAlphanum || c = '-'
      let key := name ++ '.' :: lower (t.takeWhile isKeyChar)
      let rest := (t.dropWhile isKeyChar).dropWhile Text.isBlank
      match rest with
      | '=' :: value => r.continueValue key {} (value.dropWhile Text.isBlank)
      | _ => if isVoid rest then .ok (r, some ⟨key, flagValue⟩) else .error .expectedEquals

/-- Reads a line. An assignment may follow a section header in its line. -/
def LineReader.readLine (r : LineReader) (line : Text) :
    Except Cause (LineReader × Option Assignment) :=
  match r.pending with
  | some (key, v) => r.continueValue key v line
  | none =>
    match Text.strip line with
    | '[' :: header => do
      let (name, rest) ← readHeader header
      let r := { r with inSection := some name }
      let rest := Text.strip rest
      if isVoid rest then return (r, none) else r.readAssignment rest
    | t => if isVoid t then .ok (r, none) else r.readAssignment t

/-- The assignments of a file, and where it is malformed, if it is. -/
structure Script where
  assignments : List Assignment
  fault : Option (Cause × Nat)
deriving DecidableEq

/-- The script of the lines from a given number on. A value that goes on where the file ends is
complete. -/
def Script.ofLinesFrom (number : Nat) (r : LineReader) : List Text → Script
  | [] => ⟨(r.pending.map fun (key, v) => ⟨key, v.read⟩).toList, none⟩
  | line :: rest =>
    match r.readLine line with
    | .error cause => ⟨[], some (cause, number)⟩
    | .ok (r, assignment) =>
      let s := ofLinesFrom (number + 1) r rest
      { s with assignments := assignment.toList ++ s.assignments }

/-- The script of the lines of a file. -/
def Script.ofLines (lines : List Text) : Script :=
  ofLinesFrom 1 {} lines

end PathFilter.GitConfig
