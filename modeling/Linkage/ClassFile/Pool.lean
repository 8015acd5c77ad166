import Linkage.ClassName
import Linkage.Text.Lossy

/-!
# The constant pool

A class file keeps its names in a numbered table.  Slot 0 is unusable, and so is the second slot
of a constant that takes two.  Following an index fails when the slot is unusable or outside the
table, or when it holds another kind of constant.
-/

namespace Linkage.ClassFile

/-- The kinds of constant an index can be required to have. -/
inductive Kind where
  /-- A text. -/
  | utf8
  /-- A class by its name. -/
  | classInfo
  /-- A member's name and descriptor. -/
  | nameAndType
  deriving DecidableEq, Repr

/-- Why bytes are no class file. -/
inductive Fault where
  /-- They end inside a structure. -/
  | unexpectedEnd
  /-- They do not start with the four magic bytes. -/
  | badMagic
  /-- A constant of an unknown kind. -/
  | unknownTag (tag : UInt8)
  /-- An index outside the pool, or of an unusable slot. -/
  | badIndex (index : UInt16)
  /-- An index of another kind of constant. -/
  | wrongKind (index : UInt16) (wanted : Kind)
  deriving DecidableEq, Repr

/-- The kind by the name the format gives it. -/
def Kind.name : Kind → String
  | .utf8 => "Utf8"
  | .classInfo => "Class"
  | .nameAndType => "NameAndType"

/-- The fault in words. -/
def Fault.message : Fault → String
  | .unexpectedEnd => "unexpected end of class file"
  | .badMagic => "invalid class file magic header"
  | .unknownTag tag =>
    let tag := tag.toNat
    s!"unsupported constant pool tag {tag}"
  | .badIndex index =>
    let index := index.toNat
    s!"invalid constant pool index {index}"
  | .wrongKind index wanted =>
    let index := index.toNat
    let wanted := wanted.name
    s!"constant pool index {index} is not a {wanted} entry"

/-- One slot of the pool. -/
inductive Constant where
  /-- A text. -/
  | utf8 (text : String)
  /-- A class, by the index of its internal name. -/
  | classInfo (name : UInt16)
  /-- A field, by the indexes of its class and of its name and descriptor. -/
  | fieldRef (owner pair : UInt16)
  /-- A method of a class or an interface, by the same two indexes. -/
  | methodRef (ofInterface : Bool) (owner pair : UInt16)
  /-- A name and a descriptor, by their indexes. -/
  | nameAndType (name descriptor : UInt16)
  /-- A constant linkage has no use for. -/
  | other
  /-- A slot that holds nothing. -/
  | unusable
  deriving DecidableEq, Repr, Inhabited

/-- The table, slot 0 included. -/
structure Pool where
  /-- The slots by index. -/
  slots : Array Constant
  deriving Repr

/-- What a constant mentions of another class. -/
inductive Mention where
  /-- A class. -/
  | ofClass (name : ClassName)
  /-- A method, by class, name and descriptor. -/
  | ofMethod (owner : ClassName) (name descriptor : String)
  /-- A field, by class, name and descriptor. -/
  | ofField (owner : ClassName) (name descriptor : String)
  deriving DecidableEq, Repr

namespace Pool

/-- The constant at a usable index. -/
def get (p : Pool) (index : UInt16) : Except Fault Constant :=
  match p.slots[index.toNat]? with
  | some .unusable => .error (.badIndex index)
  | some c => .ok c
  | none => .error (.badIndex index)

/-- The text at an index. -/
def utf8 (p : Pool) (index : UInt16) : Except Fault String := do
  match ← p.get index with
  | .utf8 text => return text
  | _ => throw (.wrongKind index .utf8)

/-- The binary name of the class at an index. -/
def className (p : Pool) (index : UInt16) : Except Fault ClassName := do
  match ← p.get index with
  | .classInfo name => return .ofInternal (← p.utf8 name)
  | _ => throw (.wrongKind index .classInfo)

/-- The name and descriptor at an index. -/
def nameAndType (p : Pool) (index : UInt16) : Except Fault (String × String) := do
  match ← p.get index with
  | .nameAndType name descriptor => return (← p.utf8 name, ← p.utf8 descriptor)
  | _ => throw (.wrongKind index .nameAndType)

/-- What a constant mentions, if anything.  The class is followed before the name. -/
def mention (p : Pool) : Constant → Except Fault (Option Mention)
  | .classInfo name => do
    let text ← p.utf8 name
    return some (.ofClass (.ofInternal text))
  | .fieldRef owner pair => do
    let owner ← p.className owner
    let (name, descriptor) ← p.nameAndType pair
    return some (.ofField owner name descriptor)
  | .methodRef _ owner pair => do
    let owner ← p.className owner
    let (name, descriptor) ← p.nameAndType pair
    return some (.ofMethod owner name descriptor)
  | _ => return none

/-- Everything the pool mentions, in slot order. -/
def mentions (p : Pool) : Except Fault (List Mention) := do
  let found ← p.slots.toList.mapM p.mention
  return found.filterMap id

end Pool

end Linkage.ClassFile
