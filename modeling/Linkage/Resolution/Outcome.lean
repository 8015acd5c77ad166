import Linkage.Storage.Path
import Linkage.Text.Escaped

/-!
# Outcomes of resolving a reference

A reference resolves or is broken, for one of three causes.  A cause that lies inside the target
class says which artifact that class comes from; a missing class has no such place.
-/

namespace Linkage

/-- Why a reference is broken. -/
inductive Cause where
  /-- The target class is not defined. -/
  | classNotFound
  /-- The target class, which comes from here, has no such member. -/
  | symbolNotFound (location : Path)
  /-- The class or member, which comes from here, may not be used by the source. -/
  | inaccessible (location : Path)
  deriving DecidableEq, Repr, Inhabited

/-- A cause without its place. -/
inductive Reason where
  /-- The target class is not defined. -/
  | classNotFound
  /-- The target class has no such member. -/
  | symbolNotFound
  /-- The class or member may not be used by the source. -/
  | inaccessible
  deriving DecidableEq, Repr, Inhabited

/-- The outcome of resolving a reference. -/
inductive Outcome where
  /-- The target is there and may be used. -/
  | resolved
  /-- It is not. -/
  | broken (cause : Cause)
  deriving DecidableEq, Repr, Inhabited

namespace Reason

/-- The reason as a word. -/
def text : Reason → String
  | .classNotFound => "CLASS_NOT_FOUND"
  | .symbolNotFound => "SYMBOL_NOT_FOUND"
  | .inaccessible => "INACCESSIBLE"

/-- The reason as a word. -/
def toJson (r : Reason) : Json := .string r.text

/-- Reads the word. -/
def decoder {ε : Type} : Json.Decoder ε Reason :=
  .variant fun
    | "CLASS_NOT_FOUND" => some (.word .classNotFound)
    | "SYMBOL_NOT_FOUND" => some (.word .symbolNotFound)
    | "INACCESSIBLE" => some (.word .inaccessible)
    | _ => none

end Reason

namespace Cause

/-- The cause without its place. -/
def reason : Cause → Reason
  | .classNotFound => .classNotFound
  | .symbolNotFound _ => .symbolNotFound
  | .inaccessible _ => .inaccessible

/-- The artifact the target class comes from. -/
def location? : Cause → Option Path
  | .classNotFound => none
  | .symbolNotFound location => some location
  | .inaccessible location => some location

/-- A place is known exactly when the class was found. -/
theorem location?_eq_none_iff (c : Cause) : c.location? = none ↔ c.reason = .classNotFound := by
  cases c <;> simp [location?, reason]

end Cause

namespace Outcome

/-- Did the reference resolve? -/
def isResolved : Outcome → Bool
  | .resolved => true
  | .broken _ => false

/-- A path as it stands in the text of an outcome. -/
def pathText (p : Path) : String :=
  "ArtifactPath(" ++ Text.escaped p.text ++ ")"

/-- The outcome for people. -/
def text : Outcome → String
  | .resolved => "Resolved"
  | .broken .classNotFound => "ClassNotFound"
  | .broken (.symbolNotFound location) => "SymbolNotFound(" ++ pathText location ++ ")"
  | .broken (.inaccessible location) => "Inaccessible(" ++ pathText location ++ ")"

/-- A word, with the place if there is one. -/
def toJson : Outcome → Json
  | .resolved => .string "Resolved"
  | .broken .classNotFound => .string "ClassNotFound"
  | .broken (.symbolNotFound location) => .object [("SymbolNotFound", location.toJson)]
  | .broken (.inaccessible location) => .object [("Inaccessible", location.toJson)]

/-- Reads an outcome. -/
def decoder {ε : Type} : Json.Decoder ε Outcome :=
  .variant fun
    | "Resolved" => some (.word .resolved)
    | "ClassNotFound" => some (.word (.broken .classNotFound))
    | "SymbolNotFound" => some (.carries (Path.decoder.map fun p => .broken (.symbolNotFound p)))
    | "Inaccessible" => some (.carries (Path.decoder.map fun p => .broken (.inaccessible p)))
    | _ => none

end Outcome

end Linkage
