import Linkage.Descriptor.Type

/-!
# Reading descriptors

The grammar, on the characters of a descriptor:

    method  =  "(" field* ")" ( field | "V" )
    field   =  "["* ( one of BCDFIJSZ | "L" name ";" )

with at most 255 brackets in a row and a name that is not empty and holds no semicolon.  A fault
says where reading stopped, in bytes from the start of the descriptor, and shows an unexpected
character by its first byte.
-/

namespace Linkage.Descriptor

/-- Why a text is no descriptor. -/
inductive Fault where
  /-- It ends too early. -/
  | unexpectedEnd
  /-- Another character has to stand here. -/
  | expected (wanted : Char) (offset : Nat) (found : UInt8)
  /-- A descriptor ends here and the text goes on. -/
  | trailing (offset : Nat)
  /-- Too many brackets, counted from here. -/
  | tooManyDimensions (offset : Nat)
  /-- A class name without its semicolon. -/
  | unterminatedName
  /-- A class name without characters. -/
  | emptyName
  /-- No type begins with this character. -/
  | unexpectedTag (found : UInt8) (offset : Nat)
  deriving DecidableEq, Repr

/-- Most array dimensions a type may have. -/
def maxDimensions : Nat := 255

/-- A byte shown as the character with that code. -/
def shown (b : UInt8) : String :=
  String.singleton (Char.ofNat b.toNat)

/-- The fault in words. -/
def Fault.message : Fault → String
  | .unexpectedEnd => "unexpected end of descriptor"
  | .expected wanted offset found =>
    let wanted := String.singleton wanted
    let found := shown found
    s!"expected '{wanted}' at offset {offset}, found '{found}'"
  | .trailing offset => s!"trailing characters at offset {offset}"
  | .tooManyDimensions offset =>
    s!"more than {maxDimensions} array dimensions at offset {offset}"
  | .unterminatedName => "unterminated class name"
  | .emptyName => "empty class name"
  | .unexpectedTag found offset =>
    let found := shown found
    s!"unexpected tag '{found}' at offset {offset}"

/-- A place in a descriptor: the bytes before it and the characters after it. -/
structure Place where
  /-- How many bytes have been read. -/
  offset : Nat
  /-- The characters that are left. -/
  rest : List Char
  deriving DecidableEq, Repr

/-- The start of a text. -/
def Place.start (s : String) : Place := ⟨0, s.toList⟩

/-- The number of bytes of some characters in UTF-8. -/
def byteLength (cs : List Char) : Nat :=
  cs.foldr (fun c n => c.utf8Size + n) 0

/-- The first byte of a character in UTF-8. -/
def firstByte (c : Char) : UInt8 :=
  (String.utf8EncodeChar c).headD 0

/-- Reads the character `wanted`. -/
def expect (wanted : Char) (p : Place) : Except Fault Place :=
  match p.rest with
  | [] => .error .unexpectedEnd
  | c :: s =>
    if c = wanted then .ok ⟨p.offset + 1, s⟩
    else .error (.expected wanted p.offset (firstByte c))

/-- Reads a type that is no array. -/
def elementType (p : Place) : Except Fault (FieldType × Place) :=
  match p.rest with
  | [] => .error .unexpectedEnd
  | 'L' :: s =>
    let name := s.takeWhile (· != ';')
    match s.dropWhile (· != ';') with
    | [] => .error .unterminatedName
    | _ :: rest =>
      if name.isEmpty then .error .emptyName
      else .ok (.reference (.ofInternal (String.ofList name)),
        ⟨p.offset + byteLength name + 2, rest⟩)
  | c :: s =>
    match Primitive.ofLetter? c with
    | some t => .ok (.primitive t, ⟨p.offset + 1, s⟩)
    | none => .error (.unexpectedTag (firstByte c) p.offset)

/-- Reads a type. -/
def fieldType (p : Place) : Except Fault (FieldType × Place) :=
  let dimensions := (p.rest.takeWhile (· == '[')).length
  if maxDimensions < dimensions then .error (.tooManyDimensions p.offset)
  else do
    let (t, q) ← elementType ⟨p.offset + dimensions, p.rest.drop dimensions⟩
    return (t.arrays dimensions, q)

/-- Reads types up to the closing parenthesis.  Each takes a character at least, so as many
steps as characters are enough. -/
def parameterTypes : Nat → Place → Except Fault (List FieldType × Place)
  | 0, _ => .error .unexpectedEnd
  | fuel + 1, p =>
    match p.rest with
    | [] => .error .unexpectedEnd
    | ')' :: _ => .ok ([], p)
    | _ => do
      let (t, p) ← fieldType p
      let (ts, p) ← parameterTypes fuel p
      return (t :: ts, p)

/-- Reads the type of a result, where `V` means none. -/
def resultType (p : Place) : Except Fault (Option FieldType × Place) :=
  match p.rest with
  | [] => .error .unexpectedEnd
  | 'V' :: s => .ok (none, ⟨p.offset + 1, s⟩)
  | _ => do
    let (t, p) ← fieldType p
    return (some t, p)

/-- Makes sure that the text ends here. -/
def finish (p : Place) : Except Fault Unit :=
  if p.rest.isEmpty then .ok () else .error (.trailing p.offset)

/-- The type a field descriptor stands for. -/
def readField (s : String) : Except Fault FieldType := do
  let (t, p) ← fieldType (.start s)
  finish p
  return t

/-- The signature a method descriptor stands for. -/
def readMethod (s : String) : Except Fault Signature := do
  let p ← expect '(' (.start s)
  let (parameters, p) ← parameterTypes p.rest.length p
  let p ← expect ')' p
  let (result, p) ← resultType p
  finish p
  return ⟨parameters, result⟩

end Linkage.Descriptor
