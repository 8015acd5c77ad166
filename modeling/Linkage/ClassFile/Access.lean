import Linkage.Json.Decoder

/-!
# Access flags

The flag word of a class, field or method, and the four degrees of visibility it encodes.  Public
wins over the other bits, then protected, then private; no bit at all means package-private.
-/

namespace Linkage

/-- The flag word of a class or member. -/
structure AccessFlags where
  /-- The word as stored. -/
  bits : UInt16
  deriving DecidableEq, Repr, Inhabited

/-- Who may see a class or member. -/
inductive Visibility where
  /-- Everyone. -/
  | everyone
  /-- The package and subclasses. -/
  | subclasses
  /-- The package. -/
  | package
  /-- The outermost class it is declared in. -/
  | nest
  deriving DecidableEq, Repr, Inhabited

namespace AccessFlags

/-- Visible to everyone. -/
def publicBit : UInt16 := 0x0001

/-- Visible inside the outermost class. -/
def privateBit : UInt16 := 0x0002

/-- Visible to subclasses. -/
def protectedBit : UInt16 := 0x0004

/-- Belongs to the class, not to its instances. -/
def staticBit : UInt16 := 0x0008

/-- May not be overridden. -/
def finalBit : UInt16 := 0x0010

/-- Set on every class since the first class file versions. -/
def superBit : UInt16 := 0x0020

/-- Marks an interface. -/
def interfaceBit : UInt16 := 0x0200

/-- Does the word share a bit with `mask`? -/
def contains (f : AccessFlags) (mask : UInt16) : Bool :=
  f.bits &&& mask != 0

/-- Is the public bit set? -/
def isPublic (f : AccessFlags) : Bool := f.contains publicBit

/-- Is the private bit set? -/
def isPrivate (f : AccessFlags) : Bool := f.contains privateBit

/-- Is the protected bit set? -/
def isProtected (f : AccessFlags) : Bool := f.contains protectedBit

/-- Is the static bit set? -/
def isStatic (f : AccessFlags) : Bool := f.contains staticBit

/-- Is the interface bit set? -/
def isInterface (f : AccessFlags) : Bool := f.contains interfaceBit

/-- The visibility the word encodes. -/
def visibility (f : AccessFlags) : Visibility :=
  if f.isPublic then .everyone
  else if f.isProtected then .subclasses
  else if f.isPrivate then .nest
  else .package

/-- The word as a number. -/
def toJson (f : AccessFlags) : Json :=
  .number f.bits.toNat

/-- Reads a 16-bit number. -/
def decoder {ε : Type} : Json.Decoder ε AccessFlags :=
  (Json.Decoder.natural 0x10000).map fun n => ⟨UInt16.ofNat n⟩

end AccessFlags

namespace Visibility

/-- From narrowest to widest. -/
def rank : Visibility → Nat
  | .nest => 0
  | .package => 1
  | .subclasses => 2
  | .everyone => 3

/-- The modifier in the words of the language. -/
def text : Visibility → String
  | .everyone => "public"
  | .subclasses => "protected"
  | .package => "package-private"
  | .nest => "private"

/-- The name of the modifier in JSON. -/
def word : Visibility → String
  | .everyone => "Public"
  | .subclasses => "Protected"
  | .package => "PackagePrivate"
  | .nest => "Private"

/-- The modifier by its name. -/
def toJson (v : Visibility) : Json :=
  .string v.word

/-- Reads the modifier's name. -/
def decoder {ε : Type} : Json.Decoder ε Visibility :=
  .variant fun
    | "Public" => some (.word .everyone)
    | "Protected" => some (.word .subclasses)
    | "PackagePrivate" => some (.word .package)
    | "Private" => some (.word .nest)
    | _ => none

end Visibility

end Linkage
