import Linkage.ClassName
import Linkage.Json.Decoder

/-!
# Types of fields and methods

The types a descriptor can name, and the signature of a method: its parameter types and its
result, which is absent for `void`.
-/

namespace Linkage

/-- The eight primitive types. -/
inductive Primitive where
  /-- Eight bits. -/
  | byte
  /-- A character. -/
  | char
  /-- Double precision. -/
  | double
  /-- Single precision. -/
  | float
  /-- Thirty-two bits. -/
  | int
  /-- Sixty-four bits. -/
  | long
  /-- Sixteen bits. -/
  | short
  /-- A truth value. -/
  | boolean
  deriving DecidableEq, Repr, Inhabited

/-- The type of a field, parameter or result. -/
inductive FieldType where
  /-- A primitive type. -/
  | primitive (p : Primitive)
  /-- A class or interface, by its binary name. -/
  | reference (name : ClassName)
  /-- One array dimension over an element type. -/
  | array (element : FieldType)
  deriving DecidableEq, Repr, Inhabited

/-- The parameter types of a method, and its result unless it is `void`. -/
structure Signature where
  /-- Parameter types in order. -/
  parameters : List FieldType
  /-- The result; absent for `void`. -/
  result : Option FieldType
  deriving DecidableEq, Repr, Inhabited

namespace Primitive

/-- The letter that stands for the type in a descriptor. -/
def letter : Primitive → Char
  | .byte => 'B'
  | .char => 'C'
  | .double => 'D'
  | .float => 'F'
  | .int => 'I'
  | .long => 'J'
  | .short => 'S'
  | .boolean => 'Z'

/-- The type a letter stands for. -/
def ofLetter? : Char → Option Primitive
  | 'B' => some .byte
  | 'C' => some .char
  | 'D' => some .double
  | 'F' => some .float
  | 'I' => some .int
  | 'J' => some .long
  | 'S' => some .short
  | 'Z' => some .boolean
  | _ => none

/-- The keyword of the language. -/
def keyword : Primitive → String
  | .byte => "byte"
  | .char => "char"
  | .double => "double"
  | .float => "float"
  | .int => "int"
  | .long => "long"
  | .short => "short"
  | .boolean => "boolean"

/-- The name of the type in JSON. -/
def word : Primitive → String
  | .byte => "Byte"
  | .char => "Char"
  | .double => "Double"
  | .float => "Float"
  | .int => "Int"
  | .long => "Long"
  | .short => "Short"
  | .boolean => "Boolean"

/-- The type with a given name in JSON. -/
def ofWord? : String → Option Primitive
  | "Byte" => some .byte
  | "Char" => some .char
  | "Double" => some .double
  | "Float" => some .float
  | "Int" => some .int
  | "Long" => some .long
  | "Short" => some .short
  | "Boolean" => some .boolean
  | _ => none

theorem ofLetter?_letter (p : Primitive) : ofLetter? p.letter = some p := by
  cases p <;> rfl

theorem ofWord?_word (p : Primitive) : ofWord? p.word = some p := by
  cases p <;> rfl

end Primitive

namespace FieldType

/-- Is this an array type? -/
def isArray : FieldType → Bool
  | .array _ => true
  | _ => false

/-- Is this a primitive type? -/
def isPrimitive : FieldType → Bool
  | .primitive _ => true
  | _ => false

/-- The class the type names, through any array dimensions. -/
def className? : FieldType → Option ClassName
  | .primitive _ => none
  | .reference name => some name
  | .array element => element.className?

/-- The type as the language writes it. -/
def text : FieldType → String
  | .primitive p => p.keyword
  | .reference name => name
  | .array element => element.text ++ "[]"

/-- `n` array dimensions over an element type. -/
def arrays : Nat → FieldType → FieldType
  | 0, t => t
  | n + 1, t => .array (arrays n t)

/-- A primitive type is a word; the others are a word with a value. -/
def toJson : FieldType → Json
  | .primitive p => .string p.word
  | .reference name => .object [("Reference", .string name)]
  | .array element => .object [("Array", element.toJson)]

/-- The alternatives by name, given how the element of an array is read. -/
def caseOf {ε : Type} (element : Json.Decoder ε FieldType) (w : String) :
    Option (Json.Decoder.Case ε FieldType) :=
  match Primitive.ofWord? w with
  | some p => some (.word (.primitive p))
  | none =>
    if w = "Reference" then some (.carries (Json.Decoder.string.map .reference))
    else if w = "Array" then some (.carries (element.map .array))
    else none

/-- Reads a type.  Each array dimension enters one level. -/
def decoder {ε : Type} : Json.Decoder ε FieldType
  | 0, r => Json.Decoder.variant (caseOf fun _ _ => .error .malformed) 0 r
  | levels + 1, r => Json.Decoder.variant (caseOf fun _ => decoder levels) (levels + 1) r

end FieldType

namespace Signature

/-- Parameters and result by name. -/
def toJson (s : Signature) : Json :=
  .object [("parameters", .ofList FieldType.toJson s.parameters),
    ("return_type", .ofOption FieldType.toJson s.result)]

/-- A signature that is being read. -/
structure Draft where
  /-- The parameters, once read. -/
  parameters : Option (List FieldType)
  /-- The result, once read. -/
  result : Option (Option FieldType)

/-- Reads a signature; a result that is not given is `void`. -/
def decoder {ε : Type} : Json.Decoder ε Signature :=
  .record .all
    [.of "parameters" Draft.parameters (fun d v => ⟨some v, d.result⟩) (.list FieldType.decoder),
     .of "return_type" Draft.result (fun d v => ⟨d.parameters, some v⟩)
      (.option FieldType.decoder)]
    ⟨none, none⟩
    fun d => do return ⟨← d.parameters, d.result.getD none⟩

end Signature

end Linkage
