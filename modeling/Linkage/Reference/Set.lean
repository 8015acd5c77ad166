import Linkage.Ascending
import Linkage.Reference.Basic

/-!
# Sets of references

The symbol references of some classes, by kind.  Each kind is a strictly ascending list, so two sets
with the same members are equal.
-/

namespace Linkage

/-- Sets of references of the three kinds. -/
structure ReferenceSet where
  /-- References to classes, ascending. -/
  classes : List ClassReference
  /-- References to methods, ascending. -/
  methods : List MethodReference
  /-- References to fields, ascending. -/
  fields : List FieldReference
  deriving DecidableEq, Repr, Inhabited

namespace ReferenceSet

/-- The set with the given members. -/
def ofLists (classes : List ClassReference) (methods : List MethodReference)
    (fields : List FieldReference) : ReferenceSet :=
  ⟨ascending ClassReference.le classes, ascending MethodReference.le methods,
    ascending FieldReference.le fields⟩

/-- The set of what three lists hold. -/
def normalized (s : ReferenceSet) : ReferenceSet :=
  ofLists s.classes s.methods s.fields

/-- The members of any of the sets. -/
def unions (sets : List ReferenceSet) : ReferenceSet :=
  ofLists (sets.flatMap classes) (sets.flatMap methods) (sets.flatMap fields)

/-- How many references there are. -/
def size (s : ReferenceSet) : Nat :=
  s.classes.length + s.methods.length + s.fields.length

/-- Are there none? -/
def isEmpty (s : ReferenceSet) : Bool := s.size == 0

/-- All references: to classes, to methods, to fields. -/
def toList (s : ReferenceSet) : List Reference :=
  s.classes.map .toClass ++ s.methods.map .toMethod ++ s.fields.map .toField

/-- The three sets by name. -/
def toJson (s : ReferenceSet) : Json :=
  .object [("class_references", .ofList ClassReference.toJson s.classes),
    ("method_references", .ofList MethodReference.toJson s.methods),
    ("field_references", .ofList FieldReference.toJson s.fields)]

/-- A set that is being read.  Each part is absent until it is read. -/
structure Draft where
  /-- References to classes. -/
  classes : Option (List ClassReference) := none
  /-- References to methods. -/
  methods : Option (List MethodReference) := none
  /-- References to fields. -/
  fields : Option (List FieldReference) := none

/-- Reads three lists as they stand. -/
def listsDecoder {ε : Type} : Json.Decoder ε ReferenceSet :=
  .record .all
    [.of "class_references" Draft.classes (fun d v => { d with classes := some v })
      (.list ClassReference.decoder),
     .of "method_references" Draft.methods (fun d v => { d with methods := some v })
      (.list MethodReference.decoder),
     .of "field_references" Draft.fields (fun d v => { d with fields := some v })
      (.list FieldReference.decoder)]
    {}
    fun d => do return ⟨← d.classes, ← d.methods, ← d.fields⟩

/-- Reads a set; order and repetition in the text do not matter. -/
def decoder {ε : Type} : Json.Decoder ε ReferenceSet :=
  listsDecoder.map normalized

end ReferenceSet

end Linkage
