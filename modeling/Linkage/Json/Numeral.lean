import Linkage.Json.Double

/-!
# Numerals of JSON

A numeral as it is spelled: sign, digits before and after the point, exponent.  The library's own
numbers are natural, and a numeral denotes one only when it is written without sign, point and
exponent; any other numeral matters only for whether it is in range.

The range is that of doubles, reached in steps: the digits are taken as long as they fit a 64-bit
word, the word and the power of ten that is left are rounded to doubles, and these are multiplied.
Near the end of the range more digits can therefore make a number fit that does not without them.
-/

namespace Linkage.Json

/-- A spelled number. -/
structure Numeral where
  /-- Is there a minus sign? -/
  negative : Bool
  /-- The digits before the point. -/
  whole : List Nat
  /-- The digits after the point, if there is a point. -/
  fraction : Option (List Nat)
  /-- The exponent, if there is one. -/
  exponent : Option Int
  deriving DecidableEq, Repr

namespace Numeral

/-- The value of a run of digits. -/
def valueOf (ds : List Nat) : Nat :=
  ds.foldl (fun n d => n * 10 + d) 0

/-- The natural number a bare run of digits denotes. -/
def natural? (n : Numeral) : Option Nat :=
  if n.negative || n.fraction.isSome || n.exponent.isSome then none else some (valueOf n.whole)

/-! ## Range -/

/-- Numbers below this bound fit a word. -/
def wordBound : Nat := Nat.pow 2 64

/-- Appends digits to a number as long as it fits a word.  The digits from the first that does
not are left over. -/
def absorb : Nat → List Nat → Nat × List Nat
  | n, [] => (n, [])
  | n, d :: ds => if n * 10 + d < wordBound then absorb (n * 10 + d) ds else (n, d :: ds)

/-- The word and the power of ten that stand for a numeral.  Digits left over before the point
count for the power only, and those after the point not at all. -/
def scaled (n : Numeral) : Nat × Int :=
  let fraction := n.fraction.getD []
  let (word, dropped) := absorb 0 n.whole
  let (word, ignored) := absorb word fraction
  let taken : Nat := fraction.length - ignored.length
  (word, n.exponent.getD 0 + dropped.length - taken)

/-- Is the number in range?  A number that is divided by a power of ten always is. -/
def isFinite (n : Numeral) : Bool :=
  let (word, power) := n.scaled
  word = 0 || power < 0 || Double.scalesTo word power.toNat

/-! ## Reading -/

/-- The digit a character stands for. -/
def digitOf (c : Char) : Nat :=
  c.toNat - '0'.toNat

/-- The digits at the front of a text, and the rest. -/
def spanDigits (s : List Char) : List Nat × List Char :=
  ((s.takeWhile Char.isDigit).map digitOf, s.dropWhile Char.isDigit)

/-- The digits after a point, if there is one; a point without digits is refused. -/
def fraction? (s : List Char) : Option (Option (List Nat) × List Char) :=
  match s with
  | '.' :: s =>
    match spanDigits s with
    | ([], _) => none
    | (ds, rest) => some (some ds, rest)
  | s => some (none, s)

/-- The sign and digits after an exponent mark, if there is one. -/
def exponent? (s : List Char) : Option (Option Int × List Char) :=
  match s with
  | [] => some (none, [])
  | e :: t =>
    if e = 'e' ∨ e = 'E' then
      let (minus, t) := match t with
        | '-' :: t => (true, t)
        | '+' :: t => (false, t)
        | t => (false, t)
      match spanDigits t with
      | ([], _) => none
      | (ds, rest) => some (some (if minus then -(valueOf ds : Int) else valueOf ds), rest)
    else some (none, e :: t)

/-- Reads a numeral and what follows it.  A zero stands alone before the point. -/
def read (s : List Char) : Option (Numeral × List Char) := do
  let (negative, s) := match s with
    | '-' :: t => (true, t)
    | t => (false, t)
  let (whole, s) := spanDigits s
  guard (whole ≠ [] ∧ (whole.head? ≠ some 0 ∨ whole.length = 1))
  let (fraction, s) ← fraction? s
  let (exponent, s) ← exponent? s
  return (⟨negative, whole, fraction, exponent⟩, s)

end Numeral

end Linkage.Json
