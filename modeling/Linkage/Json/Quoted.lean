/-!
# Quoted JSON text

Writing a string between quotes and reading it back.  Only the quote, the backslash and the
control characters are escaped when writing.  Reading distinguishes two degrees of success: a
literal that is *lexically* whole, and one that also *denotes* a text, which fails when it spells
half of a surrogate pair.
-/

namespace Linkage.Json.Quoted

/-! ## Writing -/

/-- The lower-case hexadecimal digit of `n < 16`. -/
def hexDigit (n : Nat) : Char :=
  if n < 10 then Char.ofNat ('0'.toNat + n) else Char.ofNat ('a'.toNat + (n - 10))

/-- How one character stands between quotes. -/
def escape (c : Char) : List Char :=
  if c = '"' then ['\\', '"']
  else if c = '\\' then ['\\', '\\']
  else if c = '\n' then ['\\', 'n']
  else if c = '\r' then ['\\', 'r']
  else if c = '\t' then ['\\', 't']
  else if c = '\x08' then ['\\', 'b']
  else if c = '\x0c' then ['\\', 'f']
  else if c.toNat < 0x20 then
    ['\\', 'u', '0', '0', hexDigit (c.toNat / 16), hexDigit (c.toNat % 16)]
  else [c]

/-- A text between quotes. -/
def write (s : String) : List Char :=
  '"' :: (s.toList.flatMap escape ++ ['"'])

/-! ## Reading -/

/-- One element of a literal: a character, or a 16-bit unit spelled in hexadecimal. -/
inductive Piece where
  /-- A character, plain or escaped by a letter. -/
  | char (c : Char)
  /-- A unit `\uXXXX`. -/
  | unit (u : Nat)
  deriving DecidableEq, Repr

/-- The value of a hexadecimal digit of either case. -/
def hexValue? (c : Char) : Option Nat :=
  if '0' ≤ c ∧ c ≤ '9' then some (c.toNat - '0'.toNat)
  else if 'a' ≤ c ∧ c ≤ 'f' then some (c.toNat - 'a'.toNat + 10)
  else if 'A' ≤ c ∧ c ≤ 'F' then some (c.toNat - 'A'.toNat + 10)
  else none

/-- The character a backslash and a letter stand for. -/
def unescape? (c : Char) : Option Char :=
  match c with
  | '"' => some '"'
  | '\\' => some '\\'
  | '/' => some '/'
  | 'b' => some '\x08'
  | 'f' => some '\x0c'
  | 'n' => some '\n'
  | 'r' => some '\r'
  | 't' => some '\t'
  | _ => none

/-- The value of four hexadecimal digits. -/
def unit? (a b c d : Char) : Option Nat := do
  let a ← hexValue? a
  let b ← hexValue? b
  let c ← hexValue? c
  let d ← hexValue? d
  return ((a * 16 + b) * 16 + c) * 16 + d

/-- Reads pieces up to the closing quote and returns what follows it; nothing if the literal is
cut short, holds a control character or has an unknown escape. -/
def scan : List Char → Option (List Piece × List Char)
  | [] => none
  | '"' :: s => some ([], s)
  | '\\' :: 'u' :: a :: b :: c :: d :: s =>
    match unit? a b c d with
    | none => none
    | some u => (scan s).map fun (ps, rest) => (.unit u :: ps, rest)
  | '\\' :: e :: s =>
    match unescape? e with
    | none => none
    | some c => (scan s).map fun (ps, rest) => (.char c :: ps, rest)
  | c :: s =>
    if c.toNat < 0x20 ∨ c = '\\' then none
    else (scan s).map fun (ps, rest) => (.char c :: ps, rest)

/-- Is the unit the first half of a surrogate pair? -/
def isHigh (u : Nat) : Bool := 0xD800 ≤ u && u < 0xDC00

/-- Is the unit the second half of a surrogate pair? -/
def isLow (u : Nat) : Bool := 0xDC00 ≤ u && u < 0xE000

/-- The characters pieces denote: halves of surrogate pairs must stand side by side. -/
def denote : List Piece → Option (List Char)
  | [] => some []
  | .char c :: ps => (denote ps).map (c :: ·)
  | .unit u :: .unit v :: ps =>
    if isHigh u then
      if isLow v then
        (denote ps).map (Char.ofNat (0x10000 + (u - 0xD800) * 0x400 + (v - 0xDC00)) :: ·)
      else none
    else if isLow u then none
    else (denote (.unit v :: ps)).map (Char.ofNat u :: ·)
  | .unit u :: ps =>
    if isHigh u || isLow u then none
    else (denote ps).map (Char.ofNat u :: ·)

/-- Reads the literal whose opening quote has been passed: the text it denotes, if it denotes
one, and what follows. -/
def read (s : List Char) : Option (Option String × List Char) :=
  (scan s).map fun (ps, rest) => ((denote ps).map String.ofList, rest)

end Linkage.Json.Quoted
