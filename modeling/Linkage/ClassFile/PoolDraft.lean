import Std.Data.HashMap
import Linkage.ClassFile.Pool

/-!
# Building a constant pool

Constants are added on demand and shared: asking twice for the same one gives the same index.  A
constant goes in after those it refers to.  The indexes are 16-bit words and the count written is
one more than the last of them, so the pool is full with 65534 constants.
-/

namespace Linkage.ClassFile

/-- What makes two constants the same.  A mentioned member is told apart by its class as given,
not by the internal form of it. -/
inductive Key where
  /-- A text. -/
  | utf8 (text : String)
  /-- A class by its internal name. -/
  | classInfo (name : String)
  /-- A name and a descriptor. -/
  | nameAndType (name descriptor : String)
  /-- A field. -/
  | fieldRef (owner : ClassName) (name descriptor : String)
  /-- A method of a class or an interface. -/
  | methodRef (ofInterface : Bool) (owner : ClassName) (name descriptor : String)
  deriving DecidableEq, Hashable, Repr

/-- A pool that is being filled. -/
structure PoolDraft where
  /-- The constants so far, newest first. -/
  newestFirst : List Constant := []
  /-- The index the next constant will get. -/
  next : Nat := 1
  /-- The index of every key. -/
  indexes : Std.HashMap Key Nat := ∅

/-- Why a class cannot be written. -/
inductive Unwritable where
  /-- The pool holds as many constants as it can, and another was asked for. -/
  | poolFull
  /-- The length of the nested class table does not fit. -/
  | tableTooLong
  deriving DecidableEq, Repr

/-- The number that does not fit, in words. -/
def Unwritable.message : Unwritable → String
  | .poolFull => "attempt to add with overflow"
  | .tableTooLong => "attempt to multiply with overflow"

/-- A step that adds to a pool. -/
abbrev Build := StateT PoolDraft (Except Unwritable)

namespace PoolDraft

/-- Most constants a pool can hold. -/
def capacity : Nat := 65534

/-- The index of a key, adding its constant if it is new. -/
def intern (key : Key) (c : Constant) : Build UInt16 := fun b =>
  match b.indexes[key]? with
  | some index => .ok (UInt16.ofNat index, b)
  | none =>
    if capacity < b.next then .error .poolFull
    else .ok (UInt16.ofNat b.next,
      ⟨c :: b.newestFirst, b.next + 1, b.indexes.insert key b.next⟩)

/-- The index of a text. -/
def utf8 (text : String) : Build UInt16 :=
  intern (.utf8 text) (.utf8 text)

/-- The index of a class. -/
def classInfo (name : ClassName) : Build UInt16 := do
  let text ← utf8 name.internal
  intern (.classInfo name.internal) (.classInfo text)

/-- The index of a name and a descriptor. -/
def nameAndType (name descriptor : String) : Build UInt16 := do
  let n ← utf8 name
  let d ← utf8 descriptor
  intern (.nameAndType name descriptor) (.nameAndType n d)

/-- The index of a field. -/
def fieldRef (owner : ClassName) (name descriptor : String) : Build UInt16 := do
  let o ← classInfo owner
  let nt ← nameAndType name descriptor
  intern (.fieldRef owner name descriptor) (.fieldRef o nt)

/-- The index of a method. -/
def methodRef (ofInterface : Bool) (owner : ClassName) (name descriptor : String) :
    Build UInt16 := do
  let o ← classInfo owner
  let nt ← nameAndType name descriptor
  intern (.methodRef ofInterface owner name descriptor) (.methodRef ofInterface o nt)

/-- The constants in the order of their indexes. -/
def constants (b : PoolDraft) : List Constant :=
  b.newestFirst.reverse

end PoolDraft

end Linkage.ClassFile
