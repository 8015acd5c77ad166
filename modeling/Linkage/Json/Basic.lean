import Linkage.Ascending
import Linkage.Json.Quoted

/-!
# JSON values and their text

The values the library writes: objects keep the order of their members, and numbers are natural.
A value is written on one line or, with the same function, one item per line; a `Layout` says
what stands between the items.
-/

namespace Linkage

/-- A JSON value with natural numbers and ordered objects. -/
inductive Json where
  /-- The value `null`. -/
  | null
  /-- A truth value. -/
  | bool (b : Bool)
  /-- A natural number. -/
  | number (n : Nat)
  /-- A text. -/
  | string (s : String)
  /-- A list of values. -/
  | array (items : List Json)
  /-- Named values, in the order they are written. -/
  | object (members : List (String × Json))
  deriving Repr, Inhabited

namespace Json

/-- How a text is laid out. -/
structure Layout where
  /-- Spaces per level, one item a line; nothing for a text on one line. -/
  indent : Option Nat
  /-- What stands between a name and its value. -/
  colon : List Char

/-- Everything on one line, without blanks. -/
def Layout.compact : Layout := ⟨none, [':']⟩

/-- One item a line, two spaces a level. -/
def Layout.pretty : Layout := ⟨some 2, [':', ' ']⟩

/-- What stands in front of an item at `depth`. -/
def Layout.lineBreak (l : Layout) (depth : Nat) : List Char :=
  match l.indent with
  | none => []
  | some n => '\n' :: List.replicate (n * depth) ' '

mutual

/-- The text of a value that stands at `depth`. -/
def chars (l : Layout) (depth : Nat) : Json → List Char
  | .null => ['n', 'u', 'l', 'l']
  | .bool true => ['t', 'r', 'u', 'e']
  | .bool false => ['f', 'a', 'l', 's', 'e']
  | .number n => Nat.toDigits 10 n
  | .string s => Quoted.write s
  | .array [] => ['[', ']']
  | .array (v :: vs) =>
    '[' :: (l.lineBreak (depth + 1) ++ chars l (depth + 1) v ++ itemsChars l (depth + 1) vs
      ++ l.lineBreak depth ++ [']'])
  | .object [] => ['\x7b', '\x7d']
  | .object ((k, v) :: ms) =>
    '\x7b' :: (l.lineBreak (depth + 1) ++ Quoted.write k ++ l.colon ++ chars l (depth + 1) v
      ++ membersChars l (depth + 1) ms ++ l.lineBreak depth ++ ['\x7d'])

/-- The text of the items after the first. -/
def itemsChars (l : Layout) (depth : Nat) : List Json → List Char
  | [] => []
  | v :: vs => ',' :: (l.lineBreak depth ++ chars l depth v ++ itemsChars l depth vs)

/-- The text of the members after the first. -/
def membersChars (l : Layout) (depth : Nat) : List (String × Json) → List Char
  | [] => []
  | (k, v) :: ms =>
    ',' :: (l.lineBreak depth ++ Quoted.write k ++ l.colon ++ chars l depth v
      ++ membersChars l depth ms)

end

/-- The value on one line. -/
def compact (v : Json) : String :=
  String.ofList (v.chars .compact 0)

/-- The value with one item a line. -/
def pretty (v : Json) : String :=
  String.ofList (v.chars .pretty 0)

/-- An object whose members are put in ascending order of their names. -/
def sortedObject (members : List (String × Json)) : Json :=
  .object (members.mergeSort fun a b => textLe a.1 b.1)

/-- A value or `null`. -/
def ofOption (f : α → Json) : Option α → Json
  | none => .null
  | some a => f a

/-- A list of values. -/
def ofList (f : α → Json) (xs : List α) : Json :=
  .array (xs.map f)

end Json

end Linkage
