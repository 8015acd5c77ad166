import Linkage.ClassFile.Blueprint
import Linkage.ClassFile.Decode
import Linkage.ClassFile.PoolDraft

/-!
# Writing class files

The class file writer.  A blueprint is laid out in two steps: first every constant gets its index,
in the order the parts of the class ask for them, then the tables are written with these indexes.
Counts and lengths are written as words, so they are taken modulo the size of a word.  Only the
length of the nested class table has to fit.
-/

namespace Linkage.ClassFile

/-- A row of the nested class table by indexes. -/
structure NestedRow where
  /-- The nested class. -/
  inner : UInt16
  /-- The declaring class, zero for none. -/
  outer : UInt16
  /-- The name in the source. -/
  simple : UInt16
  deriving DecidableEq, Repr

/-- A field or method by indexes. -/
structure MemberRow where
  /-- Its flags. -/
  access : UInt16
  /-- Its name. -/
  name : UInt16
  /-- Its descriptor. -/
  descriptor : UInt16
  deriving DecidableEq, Repr

/-- The tables of a class by indexes into its pool. -/
structure Skeleton where
  /-- The class itself. -/
  this : UInt16
  /-- The superclass, zero for none. -/
  super : UInt16
  /-- The interfaces. -/
  interfaces : List UInt16
  /-- The fields. -/
  fields : List MemberRow
  /-- The methods. -/
  methods : List MemberRow
  /-- The nested class table and the index of its name; absent if there are no rows. -/
  nested : Option (UInt16 × List NestedRow)
  deriving DecidableEq, Repr

open PoolDraft

/-- The index of a class, or zero. -/
def optionalClassInfo : Option ClassName → Build UInt16
  | none => pure 0
  | some name => classInfo name

/-- The indexes of a declared member. -/
def memberRow (m : MemberPlan) : Build MemberRow := do
  let name ← utf8 m.name
  let descriptor ← utf8 m.descriptor
  return ⟨m.access, name, descriptor⟩

/-- The indexes of a row of the nested class table. -/
def nestedRowOf (row : ClassName × Option ClassName) : Build NestedRow := do
  let inner ← classInfo row.1
  let outer ← optionalClassInfo row.2
  let simple ← utf8 row.1.simple
  return ⟨inner, outer, simple⟩

/-- The nested class table, unless it would be empty. -/
def nestedTable (rows : List (ClassName × Option ClassName)) :
    Build (Option (UInt16 × List NestedRow)) := do
  if rows.isEmpty then return none
  let name ← utf8 nestedTableName
  let rows ← rows.mapM nestedRowOf
  return some (name, rows)

/-- Gives every constant of a blueprint its index. -/
def skeleton (b : Blueprint) : Build Skeleton := do
  let this ← classInfo b.name
  let super ← optionalClassInfo b.superclass
  let interfaces ← b.interfaces.mapM classInfo
  let fields ← b.fields.mapM memberRow
  let methods ← b.methods.mapM memberRow
  let nested ← nestedTable b.nested
  b.classRefs.forM fun name => discard (classInfo name)
  b.methodRefs.forM fun m => discard (methodRef m.ofInterface m.owner m.name m.descriptor)
  b.fieldRefs.forM fun f => discard (fieldRef f.owner f.name f.descriptor)
  return { this, super, interfaces, fields, methods, nested }

/-! ## Bytes -/

/-- A number as a word; what does not fit is dropped. -/
def wordOf (n : Nat) : Bytes :=
  Bytes.ofWord (UInt16.ofNat n)

/-- A constant with its tag. -/
def Constant.bytes : Constant → Bytes
  | .utf8 text =>
    let bytes := Text.encode text
    1 :: (wordOf bytes.length ++ bytes)
  | .classInfo name => 7 :: Bytes.ofWord name
  | .fieldRef owner pair => 9 :: (Bytes.ofWord owner ++ Bytes.ofWord pair)
  | .methodRef false owner pair => 10 :: (Bytes.ofWord owner ++ Bytes.ofWord pair)
  | .methodRef true owner pair => 11 :: (Bytes.ofWord owner ++ Bytes.ofWord pair)
  | .nameAndType name descriptor => 12 :: (Bytes.ofWord name ++ Bytes.ofWord descriptor)
  | .other => []
  | .unusable => []

/-- A member without attributes. -/
def MemberRow.bytes (m : MemberRow) : Bytes :=
  Bytes.ofWord m.access ++ Bytes.ofWord m.name ++ Bytes.ofWord m.descriptor ++ wordOf 0

/-- A row of the nested class table; every nested class counts as public. -/
def NestedRow.bytes (r : NestedRow) : Bytes :=
  Bytes.ofWord r.inner ++ Bytes.ofWord r.outer ++ Bytes.ofWord r.simple
    ++ Bytes.ofWord AccessFlags.publicBit

/-- A count and what is counted. -/
def countedBytes {α : Type} (f : α → Bytes) (xs : List α) : Bytes :=
  wordOf xs.length ++ xs.flatMap f

/-- The attributes of a class: the nested class table, or none. -/
def attributesBytes : Option (UInt16 × List NestedRow) → Bytes
  | none => wordOf 0
  | some (name, rows) =>
    wordOf 1 ++ Bytes.ofWord name ++ Bytes.ofDoubleWord (UInt32.ofNat (2 + 8 * rows.length))
      ++ countedBytes NestedRow.bytes rows

/-- Does the length of the rows of the nested class table fit a 32-bit word?  It is computed from
their number as such a word. -/
def tableFits : Option (UInt16 × List NestedRow) → Bool
  | none => true
  | some (_, rows) => 8 * (UInt32.ofNat rows.length).toNat < UInt32.size

/-- The class file version that is written. -/
def majorVersion : Nat := 52

/-- The bytes of a class. -/
def Skeleton.bytes (s : Skeleton) (access : UInt16) (b : PoolDraft) : Bytes :=
  Bytes.ofDoubleWord magic ++ wordOf 0 ++ wordOf majorVersion
    ++ wordOf b.next ++ b.constants.flatMap Constant.bytes
    ++ Bytes.ofWord access ++ Bytes.ofWord s.this ++ Bytes.ofWord s.super
    ++ countedBytes Bytes.ofWord s.interfaces
    ++ countedBytes MemberRow.bytes s.fields
    ++ countedBytes MemberRow.bytes s.methods
    ++ attributesBytes s.nested

/-- Writes the class file of a blueprint. -/
def Blueprint.encode (b : Blueprint) : Except Unwritable Bytes := do
  let (s, pool) ← (skeleton b).run {}
  if tableFits s.nested then return s.bytes b.access pool
  else throw .tableTooLong

end Linkage.ClassFile
