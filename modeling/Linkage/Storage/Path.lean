import Linkage.Text.Split
import Linkage.Json.Decoder

/-!
# Paths

A path keeps its text and is compared by its components.  Repeated slashes, a slash at the end and
single dots after the first component do not count; a slash at the front is a component of its
own, and so are a single dot at the front and every double dot.
-/

namespace Linkage

/-- A path as it was given. -/
structure Path where
  /-- The text, shown unchanged. -/
  text : String
  deriving DecidableEq, Repr, Inhabited

/-- A part of a path that counts when paths are compared. -/
inductive Component where
  /-- The root directory. -/
  | root
  /-- The current directory, at the front only. -/
  | current
  /-- The parent directory. -/
  | parent
  /-- A name. -/
  | name (s : String)
  deriving DecidableEq, Repr

namespace Component

/-- Root, then single dot, then double dot, then names. -/
def rank : Component → Nat
  | .root => 0
  | .current => 1
  | .parent => 2
  | .name _ => 3

/-- The order of components; names by their characters. -/
def compare : Component → Component → Ordering
  | .name a, .name b => Ord.compare a b
  | a, b => Ord.compare a.rank b.rank

end Component

namespace Path

/-- The pieces of a text between slashes, empty ones included. -/
def splitSlash : List Char → List (List Char)
  | [] => [[]]
  | c :: s =>
    if c = '/' then [] :: splitSlash s
    else match splitSlash s with
      | [] => [[c]]
      | p :: ps => (c :: p) :: ps

/-- The pieces of the path's text between slashes. -/
def segments (p : Path) : List String :=
  (splitSlash p.text.toList).map String.ofList

/-- Does the path start at the root? -/
def isAbsolute (p : Path) : Bool :=
  Text.startsWith "/" p.text

/-- Is the last segment, slashes aside, a single or double dot? -/
def endsInDots (p : Path) : Bool :=
  match (p.segments.filter (· != "")).getLast? with
  | some s => s == "." || s == ".."
  | none => false

/-- The component of a segment that is not at the front. -/
def innerComponent? (s : String) : Option Component :=
  if s = "" ∨ s = "." then none
  else if s = ".." then some .parent
  else some (.name s)

/-- The components of the path. -/
def components (p : Path) : List Component :=
  match p.segments with
  | [] => []
  | first :: rest =>
    let front :=
      if p.isAbsolute then [.root]
      else if first = "." then [.current]
      else (innerComponent? first).toList
    front ++ rest.filterMap innerComponent?

/-- Are the paths the same, component by component? -/
def sameAs (p q : Path) : Bool :=
  p.components == q.components

/-- Lexicographic order of lists of components. -/
def compareComponents : List Component → List Component → Ordering
  | [], [] => .eq
  | [], _ :: _ => .lt
  | _ :: _, [] => .gt
  | a :: as, b :: bs => (a.compare b).then (compareComponents as bs)

/-- The order of paths, component by component. -/
def compare (p q : Path) : Ordering :=
  compareComponents p.components q.components

/-- The last component if it is a name, else the whole text. -/
def fileName (p : Path) : String :=
  match p.components.getLast? with
  | some (.name s) => s
  | _ => p.text

/-- The path as a location. -/
def location (p : Path) : String :=
  "file:" ++ p.text

/-- The path of an entry inside a directory.  An absolute entry stands for itself. -/
def join (p : Path) (entry : String) : Path :=
  if Text.startsWith "/" entry || p.text.isEmpty then ⟨entry⟩
  else if Text.endsWith "/" p.text then ⟨p.text ++ entry⟩
  else ⟨p.text ++ "/" ++ entry⟩

/-- The text. -/
def toJson (p : Path) : Json :=
  .string p.text

/-- Reads the text. -/
def decoder {ε : Type} : Json.Decoder ε Path :=
  Json.Decoder.string.map Path.mk

end Path

end Linkage
