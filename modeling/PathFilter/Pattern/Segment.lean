import PathFilter.Text.Basic
/-!
The segments of a pattern body. A backslash makes the next character an escaped glyph, which
stands for itself; unescaped slashes separate the segments, and empty segments are dropped. A
malformed pattern can match nothing.
-/

namespace PathFilter.Pattern

/-- The ways in which the body of a pattern is malformed. -/
inductive Malformed where
  | trailingBackslash
  | emptyPattern
  | unterminatedClass
  | unterminatedClassName
  | unknownClassName (name : Text)
  | reversedRange (low high : Char)
deriving DecidableEq

/-- The text that names the cause. -/
def Malformed.message : Malformed → Text
  | .trailingBackslash => "trailing backslash".toList
  | .emptyPattern => "empty pattern".toList
  | .unterminatedClass => "unterminated character class".toList
  | .unterminatedClassName => "unterminated POSIX class".toList
  | .unknownClassName name => "unknown POSIX class ".toList ++ name
  | .reversedRange low high => "reversed range ".toList ++ [low, '-', high]

/-- A character of a pattern and whether a backslash escapes it. -/
structure Glyph where
  char : Char
  escaped : Bool
deriving DecidableEq

/-- The glyph of a character that no backslash escapes. -/
def Glyph.bare (c : Char) : Glyph := ⟨c, false⟩

/-- The characters that a glyph is written with. -/
def Glyph.toText (g : Glyph) : Text :=
  if g.escaped then ['\\', g.char] else [g.char]

/-- The glyphs of a text; its backslashes are paired from the left, and the last one must have a
partner. -/
def glyphs : Text → Except Malformed (List Glyph)
  | [] => .ok []
  | ['\\'] => .error .trailingBackslash
  | '\\' :: c :: rest => (glyphs rest).map (⟨c, true⟩ :: ·)
  | c :: rest => (glyphs rest).map (.bare c :: ·)

/-- One segment of a pattern, between two unescaped slashes. -/
abbrev Segment := List Glyph

/-- The text that a segment is written with. -/
def Segment.toText (s : Segment) : Text :=
  s.flatMap Glyph.toText

/-- The segment `**`, which stands for any number of components. -/
def globstar : Segment := [.bare '*', .bare '*']

/-- The segment `*`, which stands for any one component. -/
def star : Segment := [.bare '*']

/-- The runs of glyphs between unescaped slashes, empty ones included. -/
def cutAtSlashes : List Glyph → List Segment
  | [] => [[]]
  | g :: rest =>
    if g = .bare '/' then [] :: cutAtSlashes rest
    else match cutAtSlashes rest with
      | [] => [[g]]
      | s :: more => (g :: s) :: more

/-- The segments of a pattern body. -/
def segments (body : Text) : Except Malformed (List Segment) :=
  (glyphs body).map fun gs => (cutAtSlashes gs).filter (· ≠ [])

end PathFilter.Pattern
