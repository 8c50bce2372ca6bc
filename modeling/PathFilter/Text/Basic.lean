/-!
Text as the list of its characters. A text is cut at a character (`splitOn`), put together again
(`joinWith`), trimmed at its ends (`trim`), and ordered by code points (`le`, `sort`). Properties of
characters are sets given by ranges of code points, of which the blank characters are one. The text
of a file is read as lines (`lines`): a carriage return, alone or before a line feed, ends a line as
a line feed does, and there are as many lines as line ends, and one more if text follows the last of
them.
-/

namespace PathFilter

/-- Ranges of code points, both ends included, disjoint and in increasing order. -/
abbrev CodePoint.Ranges := List (Nat × Nat)

/-- Whether a code point lies in one of the ranges; the search ends at the first range that
begins above it. -/
def CodePoint.Ranges.contains (n : Nat) : CodePoint.Ranges → Bool
  | [] => false
  | (lo, hi) :: rest => if n < lo then false else if n ≤ hi then true else contains n rest

/-- Text is the list of its characters, so that reading it is a recursion on its structure. -/
abbrev Text := List Char

namespace Text

/-- The pieces between the occurrences of a separator: one more than there are separators, so
the empty text has one empty piece. -/
def splitOn (sep : Char) : Text → List Text
  | [] => [[]]
  | c :: rest =>
    if c = sep then [] :: splitOn sep rest
    else match splitOn sep rest with
      | [] => [[c]]
      | piece :: pieces => (c :: piece) :: pieces

/-- The pieces with a separator between each two of them. -/
def joinWith (sep : Char) : List Text → Text
  | [] => []
  | [piece] => piece
  | piece :: next :: pieces => piece ++ sep :: joinWith sep (next :: pieces)

/-- The text without the longest final run of characters that satisfy `p`. -/
def dropTrailing (p : Char → Bool) (t : Text) : Text :=
  (t.reverse.dropWhile p).reverse

/-- The text without the runs of characters that satisfy `p` at either end. -/
def trim (p : Char → Bool) (t : Text) : Text :=
  dropTrailing p (t.dropWhile p)

/-- What follows the last occurrence of a character; the whole text where it does not occur. -/
def afterLast (sep : Char) (t : Text) : Text :=
  (t.reverse.takeWhile (· ≠ sep)).reverse

/-- What precedes the first occurrence of a character; the whole text where it does not occur. -/
def beforeFirst (sep : Char) (t : Text) : Text :=
  t.takeWhile (· ≠ sep)

/-- Whether the text ends in the given character. -/
def endsIn (c : Char) (t : Text) : Bool :=
  t.getLast? == some c

/-- Lexicographic order by code points. -/
def le : Text → Text → Bool
  | [], _ => true
  | _ :: _, [] => false
  | a :: s, b :: t => a < b || (a = b && le s t)

/-- Puts a text in its place among texts in increasing order, unless it is there already. -/
def insertSorted (t : Text) : List Text → List Text
  | [] => [t]
  | s :: rest =>
    if t = s then s :: rest
    else if le t s then t :: s :: rest
    else s :: insertSorted t rest

/-- The texts in the order of their code points, each of them once. -/
def sort : List Text → List Text
  | [] => []
  | t :: rest => insertSorted t (sort rest)

/-- The lower-case hexadecimal digit of a number below sixteen. -/
def hexDigit (n : Nat) : Char :=
  if n < 10 then Char.ofNat (48 + n) else Char.ofNat (87 + n)

/-- The last `width` hexadecimal digits of a number, the most significant first. -/
def hexDigits : Nat → Nat → Text
  | 0, _ => []
  | width + 1, n => hexDigits width (n / 16) ++ [hexDigit (n % 16)]

/-- The decimal digits of a number. -/
def ofNat (n : Nat) : Text :=
  Nat.toDigits 10 n

/-! ## Blank characters -/

/-- The code points of the blank characters: the Unicode white space, with the four separators
U+001C to U+001F. -/
def blankRanges : CodePoint.Ranges :=
  [(9, 13), (28, 32), (133, 133), (160, 160), (5760, 5760), (8192, 8202), (8232, 8233),
   (8239, 8239), (8287, 8287), (12288, 12288)]

/-- Whether a character is blank. -/
def isBlank (c : Char) : Bool :=
  blankRanges.contains c.toNat

/-- The text without the blank characters at either end. -/
def strip (t : Text) : Text :=
  trim isBlank t

/-! ## Lines -/

/-- The text with every line end written as a line feed. -/
def unifyLineEnds : Text → Text
  | [] => []
  | '\r' :: '\n' :: rest => '\n' :: unifyLineEnds rest
  | c :: rest => (if c = '\r' then '\n' else c) :: unifyLineEnds rest

/-- The list without its last element if that is empty. -/
def dropFinalEmpty : List Text → List Text
  | [] => []
  | [[]] => []
  | line :: rest => line :: dropFinalEmpty rest

/-- The lines of a text whose line ends are line feeds. -/
def lines (t : Text) : List Text :=
  dropFinalEmpty (splitOn '\n' t)

/-- How many characters of a file are read for its first line. -/
def firstLineLimit : Nat := 4096

/-- The first line of a text whose line ends are line feeds, as far as it is read. -/
def firstLine (t : Text) : Text :=
  beforeFirst '\n' (t.take firstLineLimit)

end Text
end PathFilter
