import Linkage.ClassName
import Linkage.Json.Decoder

/-!
# References between classes

A symbol reference records that one class mentions another, or a method or field of it.  Where and
how often does not matter, so equal references are one.  References of a kind are ordered by their
parts from left to right, texts by code points.
-/

namespace Linkage

/-- A class mentions another. -/
structure ClassReference where
  /-- The class that mentions. -/
  source : ClassName
  /-- The class mentioned. -/
  target : ClassName
  deriving DecidableEq, Repr, Inhabited

/-- A class mentions a method of another. -/
structure MethodReference where
  /-- The class that mentions. -/
  source : ClassName
  /-- The class the method is looked up in. -/
  target : ClassName
  /-- The method's name. -/
  method : String
  /-- The method's descriptor. -/
  descriptor : String
  deriving DecidableEq, Repr, Inhabited

/-- A class mentions a field of another. -/
structure FieldReference where
  /-- The class that mentions. -/
  source : ClassName
  /-- The class the field is looked up in. -/
  target : ClassName
  /-- The field's name. -/
  field : String
  deriving DecidableEq, Repr, Inhabited

/-- A reference of any kind. -/
inductive Reference where
  /-- To a class. -/
  | toClass (r : ClassReference)
  /-- To a method. -/
  | toMethod (r : MethodReference)
  /-- To a field. -/
  | toField (r : FieldReference)
  deriving DecidableEq, Repr, Inhabited

namespace ClassReference

/-- The order of references to classes. -/
def le (a b : ClassReference) : Bool :=
  a.source < b.source || (a.source = b.source && a.target ≤ b.target)

/-- The reference in words. -/
def text (r : ClassReference) : String :=
  "ClassSymbolReference\x7bsourceClassName=" ++ r.source ++ ", targetClassName=" ++ r.target
    ++ "\x7d"

/-- Fields and their values. -/
def members (r : ClassReference) : List (String × Json) :=
  [("source_class_name", .string r.source), ("target_class_name", .string r.target)]

/-- The reference by field names. -/
def toJson (r : ClassReference) : Json := .object r.members

/-- A reference that is being read. -/
structure Draft where
  /-- The class that mentions, once read. -/
  source : Option ClassName := none
  /-- The class mentioned, once read. -/
  target : Option ClassName := none

/-- Reads a reference. -/
def decoder {ε : Type} : Json.Decoder ε ClassReference :=
  .record .all
    [.of "source_class_name" Draft.source (fun d v => { d with source := some v }) .string,
     .of "target_class_name" Draft.target (fun d v => { d with target := some v }) .string]
    {}
    fun d => do return ⟨← d.source, ← d.target⟩

end ClassReference

namespace MethodReference

/-- The order of references to methods. -/
def le (a b : MethodReference) : Bool :=
  a.source < b.source || (a.source = b.source &&
    (a.target < b.target || (a.target = b.target &&
      (a.method < b.method || (a.method = b.method && a.descriptor ≤ b.descriptor)))))

/-- The reference in words. -/
def text (r : MethodReference) : String :=
  "MethodSymbolReference\x7bsourceClassName=" ++ r.source ++ ", targetClassName=" ++ r.target
    ++ ", methodName=" ++ r.method ++ ", descriptor=" ++ r.descriptor ++ "\x7d"

/-- Fields and their values. -/
def members (r : MethodReference) : List (String × Json) :=
  [("source_class_name", .string r.source), ("target_class_name", .string r.target),
    ("method_name", .string r.method), ("descriptor", .string r.descriptor)]

/-- The reference by field names. -/
def toJson (r : MethodReference) : Json := .object r.members

/-- A reference that is being read. -/
structure Draft where
  /-- The class that mentions, once read. -/
  source : Option ClassName := none
  /-- The class the method is looked up in, once read. -/
  target : Option ClassName := none
  /-- The method's name, once read. -/
  method : Option String := none
  /-- The method's descriptor, once read. -/
  descriptor : Option String := none

/-- Reads a reference. -/
def decoder {ε : Type} : Json.Decoder ε MethodReference :=
  .record .all
    [.of "source_class_name" Draft.source (fun d v => { d with source := some v }) .string,
     .of "target_class_name" Draft.target (fun d v => { d with target := some v }) .string,
     .of "method_name" Draft.method (fun d v => { d with method := some v }) .string,
     .of "descriptor" Draft.descriptor (fun d v => { d with descriptor := some v }) .string]
    {}
    fun d => do return ⟨← d.source, ← d.target, ← d.method, ← d.descriptor⟩

end MethodReference

namespace FieldReference

/-- The order of references to fields. -/
def le (a b : FieldReference) : Bool :=
  a.source < b.source || (a.source = b.source &&
    (a.target < b.target || (a.target = b.target && a.field ≤ b.field)))

/-- The reference in words. -/
def text (r : FieldReference) : String :=
  "FieldSymbolReference\x7bsourceClassName=" ++ r.source ++ ", targetClassName=" ++ r.target
    ++ ", fieldName=" ++ r.field ++ "\x7d"

/-- Fields and their values. -/
def members (r : FieldReference) : List (String × Json) :=
  [("source_class_name", .string r.source), ("target_class_name", .string r.target),
    ("field_name", .string r.field)]

/-- The reference by field names. -/
def toJson (r : FieldReference) : Json := .object r.members

/-- A reference that is being read. -/
structure Draft where
  /-- The class that mentions, once read. -/
  source : Option ClassName := none
  /-- The class the field is looked up in, once read. -/
  target : Option ClassName := none
  /-- The field's name, once read. -/
  field : Option String := none

/-- Reads a reference. -/
def decoder {ε : Type} : Json.Decoder ε FieldReference :=
  .record .all
    [.of "source_class_name" Draft.source (fun d v => { d with source := some v }) .string,
     .of "target_class_name" Draft.target (fun d v => { d with target := some v }) .string,
     .of "field_name" Draft.field (fun d v => { d with field := some v }) .string]
    {}
    fun d => do return ⟨← d.source, ← d.target, ← d.field⟩

end FieldReference

namespace Reference

/-- The class that mentions. -/
def source : Reference → ClassName
  | .toClass r => r.source
  | .toMethod r => r.source
  | .toField r => r.source

/-- The class mentioned. -/
def target : Reference → ClassName
  | .toClass r => r.target
  | .toMethod r => r.target
  | .toField r => r.target

/-- The reference in words. -/
def text : Reference → String
  | .toClass r => r.text
  | .toMethod r => r.text
  | .toField r => r.text

/-- The fields of the reference after its kind. -/
def toJson : Reference → Json
  | .toClass r => .object (("kind", .string "class") :: r.members)
  | .toMethod r => .object (("kind", .string "method") :: r.members)
  | .toField r => .object (("kind", .string "field") :: r.members)

/-- Reads a reference of the kind it names. -/
def decoder {ε : Type} : Json.Decoder ε Reference :=
  .tagged "kind" fun
    | "class" => some (ClassReference.decoder.map .toClass)
    | "method" => some (MethodReference.decoder.map .toMethod)
    | "field" => some (FieldReference.decoder.map .toField)
    | _ => none

end Reference

end Linkage
