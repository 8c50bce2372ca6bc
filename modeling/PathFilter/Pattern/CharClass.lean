import PathFilter.Pattern.Segment
/-!
Bracket expressions. A class lists characters, ranges of code points and names such as `alpha`;
`!` or `^` behind the opening bracket turns it round. It stands for one character, which is never
a slash.
-/

namespace PathFilter.Pattern

/-- The named classes of ASCII characters. -/
inductive ClassName where
  | alnum | alpha | blank | cntrl | digit | graph | lower | print | punct | space | upper | xdigit
deriving DecidableEq

/-- The names as they are written between `[:` and `:]`. -/
def ClassName.written : List (Text × ClassName) :=
  [("alnum".toList, alnum), ("alpha".toList, alpha), ("blank".toList, blank),
   ("cntrl".toList, cntrl), ("digit".toList, digit), ("graph".toList, graph),
   ("lower".toList, lower), ("print".toList, print), ("punct".toList, punct),
   ("space".toList, space), ("upper".toList, upper), ("xdigit".toList, xdigit)]

/-- The ranges of ASCII characters that a name stands for. -/
def ClassName.ranges : ClassName → List (Char × Char)
  | .alnum => [('a', 'z'), ('A', 'Z'), ('0', '9')]
  | .alpha => [('a', 'z'), ('A', 'Z')]
  | .blank => [(' ', ' '), ('\t', '\t')]
  | .cntrl => [('\x00', '\x1f'), ('\x7f', '\x7f')]
  | .digit => [('0', '9')]
  | .graph => [('!', '~')]
  | .lower => [('a', 'z')]
  | .print => [(' ', '~')]
  | .punct => [('!', '/'), (':', '@'), ('[', '\x60'), ('\x7b', '~')]
  | .space => [(' ', ' '), ('\t', '\r')]
  | .upper => [('A', 'Z')]
  | .xdigit => [('0', '9'), ('A', 'F'), ('a', 'f')]

/-- One item of a class. -/
inductive ClassItem where
  | single (c : Char)
  | range (low high : Char)
  | named (name : ClassName)
deriving DecidableEq

/-- Whether an item lists a character. -/
def ClassItem.lists (c : Char) : ClassItem → Bool
  | .single a => c == a
  | .range low high => low ≤ c && c ≤ high
  | .named name => name.ranges.any fun (low, high) => low ≤ c && c ≤ high

/-- A bracket expression. -/
structure CharClass where
  negated : Bool
  items : List ClassItem
deriving DecidableEq

/-- Whether a class admits a character. -/
def CharClass.admits (k : CharClass) (c : Char) : Bool :=
  c ≠ '/' && (k.items.any (·.lists c) != k.negated)

/-- Where the reading of a class stands: at an item, the first of the class or a later one, or
within a name, of which the glyphs read so far are known. -/
inductive ClassPosition where
  | item (first : Bool)
  | name (read : List Glyph)

/-- The class that glyphs without an escaped one name. -/
def ClassName.ofGlyphs (gs : List Glyph) : Except Malformed ClassName :=
  match written.lookup (gs.map Glyph.char) with
  | some name => if gs.any Glyph.escaped then .error (.unknownClassName (Segment.toText gs))
    else .ok name
  | none => .error (.unknownClassName (Segment.toText gs))

/-- Reads the items of a class up to its closing bracket, and returns them with the glyphs behind
the bracket. A closing bracket is an item where it comes first; a dash between two characters
makes a range, unless a closing bracket follows it. -/
def classItems : ClassPosition → List Glyph → Except Malformed (List ClassItem × List Glyph)
  | .item _, [] => .error .unterminatedClass
  | .item first, [g] =>
    if g = .bare ']' && !first then .ok ([], []) else .error .unterminatedClass
  | .item first, [g, h] =>
    if g = .bare ']' && !first then .ok ([], [h])
    else if g = .bare '[' && h = .bare ':' then .error .unterminatedClassName
    else (classItems (.item false) [h]).map fun (items, rest) => (.single g.char :: items, rest)
  | .item first, g :: h :: i :: rest =>
    if g = .bare ']' && !first then .ok ([], h :: i :: rest)
    else if g = .bare '[' && h = .bare ':' then classItems (.name []) (i :: rest)
    else if h = .bare '-' && i ≠ .bare ']' then
      if i.char < g.char then .error (.reversedRange g.char i.char)
      else (classItems (.item false) rest).map fun (items, rest) =>
        (.range g.char i.char :: items, rest)
    else (classItems (.item false) (h :: i :: rest)).map fun (items, rest) =>
      (.single g.char :: items, rest)
  | .name _, [] => .error .unterminatedClassName
  | .name _, [_] => .error .unterminatedClassName
  | .name read, g :: h :: rest =>
    if g.char = ':' && h = .bare ']' then do
      let name ← ClassName.ofGlyphs (if g.escaped then read ++ [g] else read)
      let (items, rest) ← classItems (.item false) rest
      return (.named name :: items, rest)
    else classItems (.name (read ++ [g])) (h :: rest)

/-- Reads a class behind its opening bracket, and returns it with the glyphs behind its closing
one. -/
def CharClass.read : List Glyph → Except Malformed (CharClass × List Glyph)
  | [] => .error .unterminatedClass
  | g :: rest =>
    let negated := g = .bare '!' || g = .bare '^'
    (classItems (.item true) (if negated then rest else g :: rest)).map fun (items, rest) =>
      (⟨negated, items⟩, rest)

end PathFilter.Pattern
