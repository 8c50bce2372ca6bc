import PathFilter.Text.Basic
/-!
Reading bytes as UTF-8 without failing. Each longest run of bytes that begins a well-formed
sequence but does not complete one is read as one replacement character, and so is each byte that
can begin none. A byte order mark is an ordinary character.
-/

namespace PathFilter.Text.Utf8

/-- The character read in place of an ill-formed run of bytes. -/
def replacement : Char := '\uFFFD'

/-- A sequence that has begun: how many bytes are still due, the bounds of the next one, and the
bits read so far. -/
structure Partial where
  due : Nat
  lo : Nat
  hi : Nat
  bits : Nat

/-- What a byte gives where a character may begin: the characters that are complete with it, and
the sequence that it begins, if any. The bounds on a second byte exclude overlong forms,
surrogates and code points above U+10FFFF. -/
def start (b : Nat) : Text × Option Partial :=
  if b < 0x80 then ([Char.ofNat b], none)
  else if b < 0xC2 then ([replacement], none)
  else if b < 0xE0 then ([], some ⟨1, 0x80, 0xBF, b - 0xC0⟩)
  else if b = 0xE0 then ([], some ⟨2, 0xA0, 0xBF, 0⟩)
  else if b = 0xED then ([], some ⟨2, 0x80, 0x9F, 0xD⟩)
  else if b < 0xF0 then ([], some ⟨2, 0x80, 0xBF, b - 0xE0⟩)
  else if b = 0xF0 then ([], some ⟨3, 0x90, 0xBF, 0⟩)
  else if b < 0xF4 then ([], some ⟨3, 0x80, 0xBF, b - 0xF0⟩)
  else if b = 0xF4 then ([], some ⟨3, 0x80, 0x8F, 4⟩)
  else ([replacement], none)

/-- What a byte gives after a sequence already begun, if any: it continues the sequence, or the
sequence is ill-formed and the byte stands where a character may begin. -/
def next : Option Partial → Nat → Text × Option Partial
  | none, b => start b
  | some p, b =>
    if p.lo ≤ b && b ≤ p.hi then
      let bits := p.bits * 64 + b % 64
      match p.due with
      | due + 2 => ([], some ⟨due + 1, 0x80, 0xBF, bits⟩)
      | _ => ([Char.ofNat bits], none)
    else
      let (read, begun) := start b
      (replacement :: read, begun)

/-- The characters of the bytes that follow a sequence already begun, if any. -/
def decodeFrom : Option Partial → List UInt8 → Text
  | none, [] => []
  | some _, [] => [replacement]
  | begun, b :: rest =>
    let (read, begun) := next begun b.toNat
    read ++ decodeFrom begun rest

/-- The text that bytes stand for. -/
def decode (bytes : List UInt8) : Text :=
  decodeFrom none bytes

end PathFilter.Text.Utf8
