import Linkage.Json.Quoted
import Linkage.Json.Numeral

/-!
# What a text says before it stops being JSON

Reading never fails: it returns the tree of the text as far as it goes.  Where the text stops
being JSON, the tree is cut, and every list or object around the cut is marked as not closed.  A
consumer that walks the tree in the order of the text therefore meets the first fault of the
text exactly where a reader that consumes it character by character would.
-/

namespace Linkage.Json

/-- The tree of a text. -/
inductive Reading where
  /-- The word `null`. -/
  | null
  /-- The word `true` or `false`. -/
  | bool (b : Bool)
  /-- A number, as it is spelled. -/
  | number (n : Numeral)
  /-- A literal between quotes; no text if it spells half of a surrogate pair. -/
  | string (s : Option String)
  /-- Items in order, and whether the list is closed. -/
  | array (items : List Reading) (closed : Bool)
  /-- Members in order, repeated names kept, and whether the object is closed. -/
  | object (members : List (Option String × Reading)) (closed : Bool)
  /-- No value begins here. -/
  | cut
  deriving Repr, Inhabited

/-- A text that has been read: its value, and whether only blanks follow it. -/
structure Document where
  /-- The value at the start of the text. -/
  root : Reading
  /-- Does the text end after it? -/
  ended : Bool
  deriving Repr

namespace Reading

/-- Is the value whole?  A list or object can only be closed when all it holds is whole. -/
def isWhole : Reading → Bool
  | .array _ closed => closed
  | .object _ closed => closed
  | .cut => false
  | _ => true

/-- The characters that may stand between two tokens. -/
def isBlank (c : Char) : Bool :=
  c = ' ' || c = '\n' || c = '\t' || c = '\r'

/-- The text from the first character that is no blank. -/
def skipBlanks (s : List Char) : List Char :=
  s.dropWhile isBlank

mutual

/-- Reads a value.  The rest of the text is returned unless the text is cut. -/
def value : Nat → List Char → Reading × Option (List Char)
  | 0, _ => (.cut, none)
  | fuel + 1, s =>
    match skipBlanks s with
    | 'n' :: 'u' :: 'l' :: 'l' :: s => (.null, some s)
    | 't' :: 'r' :: 'u' :: 'e' :: s => (.bool true, some s)
    | 'f' :: 'a' :: 'l' :: 's' :: 'e' :: s => (.bool false, some s)
    | '"' :: s =>
      match Quoted.read s with
      | none => (.cut, none)
      | some (text, s) => (.string text, some s)
    | '[' :: s =>
      match skipBlanks s with
      | ']' :: s => (.array [] true, some s)
      | s =>
        match items fuel s with
        | (vs, rest) => (.array vs rest.isSome, rest)
    | '\x7b' :: s =>
      match skipBlanks s with
      | '\x7d' :: s => (.object [] true, some s)
      | s =>
        match members fuel s with
        | (ms, rest) => (.object ms rest.isSome, rest)
    | s =>
      match Numeral.read s with
      | none => (.cut, none)
      | some (n, s) => (.number n, some s)

/-- Reads the items of a list up to its closing bracket. -/
def items : Nat → List Char → List Reading × Option (List Char)
  | 0, _ => ([], none)
  | fuel + 1, s =>
    match value fuel s with
    | (v, none) => ([v], none)
    | (v, some s) =>
      match skipBlanks s with
      | ',' :: s =>
        match items fuel s with
        | (vs, rest) => (v :: vs, rest)
      | ']' :: s => ([v], some s)
      | _ => ([v], none)

/-- Reads the members of an object up to its closing brace. -/
def members : Nat → List Char → List (Option String × Reading) × Option (List Char)
  | 0, _ => ([], none)
  | fuel + 1, s =>
    match skipBlanks s with
    | '"' :: s =>
      match Quoted.read s with
      | none => ([], none)
      | some (name, s) =>
        match skipBlanks s with
        | ':' :: s =>
          match value fuel s with
          | (v, none) => ([(name, v)], none)
          | (v, some s) =>
            match skipBlanks s with
            | ',' :: s =>
              match members fuel s with
              | (ms, rest) => ((name, v) :: ms, rest)
            | '\x7d' :: s => ([(name, v)], some s)
            | _ => ([(name, v)], none)
        | _ => ([(name, .cut)], none)
    | _ => ([], none)

end

end Reading

/-- Reads a text.  Every call consumes a character or ends, so twice the length is enough. -/
def Document.ofChars (s : List Char) : Document :=
  match Reading.value (2 * s.length + 1) s with
  | (v, none) => ⟨v, false⟩
  | (v, some rest) => ⟨v, (Reading.skipBlanks rest).isEmpty⟩

/-- Reads a text. -/
def Document.ofText (s : String) : Document :=
  .ofChars s.toList

end Linkage.Json
