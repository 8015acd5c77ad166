import Linkage.Bytes

/-!
# Reading UTF-8 without refusing anything

A byte string that is not UTF-8 still has a text: each longest run of bytes that begins a
character and does not finish it stands for one replacement character, and so does each byte
that can begin none.  The bytes are read one at a time by a machine that is either between
characters or inside one.
-/

namespace Linkage.Text

/-- The character that stands for bytes which make none. -/
def replacement : Char := '�'

/-- A character that has begun: the bits so far, how many bytes it still needs, and the least
and greatest value the next of them may have. -/
structure Begun where
  /-- The bits read so far. -/
  bits : Nat
  /-- How many further bytes are needed after the next one. -/
  more : Nat
  /-- Least value of the next byte. -/
  low : UInt8
  /-- Greatest value of the next byte. -/
  high : UInt8
  deriving DecidableEq, Repr

/-- What a byte between two characters is. -/
inductive Lead where
  /-- A whole character. -/
  | whole (c : Char)
  /-- The first byte of a longer character. -/
  | opens (b : Begun)
  /-- A byte no character begins with. -/
  | stray
  deriving DecidableEq, Repr

/-- Classifies a first byte.  The narrower ranges after `E0`, `ED`, `F0` and `F4` leave out
overlong forms, surrogates and values beyond the last code point. -/
def Lead.of (b : UInt8) : Lead :=
  let n := b.toNat
  if n < 0x80 then .whole (Char.ofNat n)
  else if n < 0xC2 then .stray
  else if n < 0xE0 then .opens ⟨n % 0x20, 0, 0x80, 0xBF⟩
  else if n = 0xE0 then .opens ⟨0, 1, 0xA0, 0xBF⟩
  else if n = 0xED then .opens ⟨0xD, 1, 0x80, 0x9F⟩
  else if n < 0xF0 then .opens ⟨n % 0x10, 1, 0x80, 0xBF⟩
  else if n = 0xF0 then .opens ⟨0, 2, 0x90, 0xBF⟩
  else if n < 0xF4 then .opens ⟨n % 0x08, 2, 0x80, 0xBF⟩
  else if n = 0xF4 then .opens ⟨4, 2, 0x80, 0x8F⟩
  else .stray

/-- The machine: the characters of the bytes that are left, given the character begun. -/
def decodeFrom : Option Begun → Bytes → List Char
  | none, [] => []
  | some _, [] => [replacement]
  | none, b :: s =>
    match Lead.of b with
    | .whole c => c :: decodeFrom none s
    | .opens p => decodeFrom (some p) s
    | .stray => replacement :: decodeFrom none s
  | some p, b :: s =>
    if p.low ≤ b ∧ b ≤ p.high then
      let bits := p.bits * 0x40 + b.toNat % 0x40
      match p.more with
      | 0 => Char.ofNat bits :: decodeFrom none s
      | n + 1 => decodeFrom (some ⟨bits, n, 0x80, 0xBF⟩) s
    else
      match Lead.of b with
      | .whole c => replacement :: c :: decodeFrom none s
      | .opens q => replacement :: decodeFrom (some q) s
      | .stray => replacement :: replacement :: decodeFrom none s

/-- The text of a byte string. -/
def decodeLossy (s : Bytes) : String :=
  String.ofList (decodeFrom none s)

/-- The UTF-8 bytes of a text. -/
def encode (s : String) : Bytes :=
  s.toList.flatMap String.utf8EncodeChar

end Linkage.Text
