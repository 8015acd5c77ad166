import Mathlib.Data.List.Forall2
import Linkage.ClassFile.Encode

/-!
# The layout of a class file

The grammar of class files as a type, apart from any reader: `ClassLayout` is a class file taken
apart, with every number and every skipped byte it holds, `ClassLayout.bytes` is its written form,
and `ClassLayout.Denotes` says which view it stands for.  Counts and lengths are not stored; a
list that is written after its length carries the proof that the length fits.

* `ConstantLayout`: the constants of the pool, each with its tag and the slots it fills.
* `Pool.TextAt`, `Pool.ClassAt`, `Pool.PairAt`: what an index has to point to.
* `ClassLayout.Denotes`: all indexes that count point to what they should, and the view is made of
  what they point to.
-/

namespace Linkage.ClassFile

/-- Rows that can be counted by a 16-bit word. -/
structure Table (α : Type) where
  /-- The rows in order. -/
  rows : List α
  /-- Their number fits. -/
  fits : rows.length < 65536

/-! ## The pool -/

/-- A constant as it is written. -/
inductive ConstantLayout where
  /-- A text, by bytes that need not be UTF-8. -/
  | text (bytes : Bytes) (fits : bytes.length < 65536)
  /-- A number of 32 bits. -/
  | integer (value : UInt32)
  /-- A single float, by its bits. -/
  | float (bits : UInt32)
  /-- A number of 64 bits, in two halves. -/
  | long (high low : UInt32)
  /-- A double float, by its bits in two halves. -/
  | double (high low : UInt32)
  /-- A class, by the index of its name. -/
  | classInfo (name : UInt16)
  /-- A string, by the index of its text. -/
  | string (text : UInt16)
  /-- A field, by the indexes of its class and of its name and descriptor. -/
  | fieldRef (owner pair : UInt16)
  /-- A method of a class or an interface, by the same two indexes. -/
  | methodRef (ofInterface : Bool) (owner pair : UInt16)
  /-- A name and a descriptor, by their indexes. -/
  | nameAndType (name descriptor : UInt16)
  /-- A method handle. -/
  | methodHandle (kind : UInt8) (reference : UInt16)
  /-- A method type. -/
  | methodType (descriptor : UInt16)
  /-- A constant computed at run time. -/
  | dynamic (bootstrap pair : UInt16)
  /-- A call site computed at run time. -/
  | invokeDynamic (bootstrap pair : UInt16)
  /-- A module. -/
  | moduleInfo (name : UInt16)
  /-- A package. -/
  | packageInfo (name : UInt16)

namespace ConstantLayout

/-- The byte that tells the kinds apart. -/
def tag : ConstantLayout → UInt8
  | .text _ _ => 1
  | .integer _ => 3
  | .float _ => 4
  | .long _ _ => 5
  | .double _ _ => 6
  | .classInfo _ => 7
  | .string _ => 8
  | .fieldRef _ _ => 9
  | .methodRef false _ _ => 10
  | .methodRef true _ _ => 11
  | .nameAndType _ _ => 12
  | .methodHandle _ _ => 15
  | .methodType _ => 16
  | .dynamic _ _ => 17
  | .invokeDynamic _ _ => 18
  | .moduleInfo _ => 19
  | .packageInfo _ => 20

/-- What follows the tag. -/
def payload : ConstantLayout → Bytes
  | .text bytes _ => wordOf bytes.length ++ bytes
  | .integer value => Bytes.ofDoubleWord value
  | .float bits => Bytes.ofDoubleWord bits
  | .long high low => Bytes.ofDoubleWord high ++ Bytes.ofDoubleWord low
  | .double high low => Bytes.ofDoubleWord high ++ Bytes.ofDoubleWord low
  | .classInfo name => Bytes.ofWord name
  | .string index => Bytes.ofWord index
  | .fieldRef owner pair => Bytes.ofWord owner ++ Bytes.ofWord pair
  | .methodRef _ owner pair => Bytes.ofWord owner ++ Bytes.ofWord pair
  | .nameAndType name descriptor => Bytes.ofWord name ++ Bytes.ofWord descriptor
  | .methodHandle kind reference => kind :: Bytes.ofWord reference
  | .methodType descriptor => Bytes.ofWord descriptor
  | .dynamic bootstrap pair => Bytes.ofWord bootstrap ++ Bytes.ofWord pair
  | .invokeDynamic bootstrap pair => Bytes.ofWord bootstrap ++ Bytes.ofWord pair
  | .moduleInfo name => Bytes.ofWord name
  | .packageInfo name => Bytes.ofWord name

/-- The constant as written. -/
def bytes (e : ConstantLayout) : Bytes :=
  e.tag :: e.payload

/-- The slots the constant fills.  Of two slots the second is unusable. -/
def slots : ConstantLayout → List Constant
  | .text bytes _ => [.utf8 (Text.decodeLossy bytes)]
  | .classInfo name => [.classInfo name]
  | .fieldRef owner pair => [.fieldRef owner pair]
  | .methodRef ofInterface owner pair => [.methodRef ofInterface owner pair]
  | .nameAndType name descriptor => [.nameAndType name descriptor]
  | .long _ _ => [.other, .unusable]
  | .double _ _ => [.other, .unusable]
  | _ => [.other]

end ConstantLayout

/-- A pool as it is written: a count and constants that fill exactly the slots from one up to the
count. -/
structure PoolLayout where
  /-- One more than the last index. -/
  count : UInt16
  /-- The constants in order. -/
  constants : List ConstantLayout
  /-- They fill all slots but the first. -/
  fills : (constants.flatMap ConstantLayout.slots).length = count.toNat - 1

namespace PoolLayout

/-- The pool as written. -/
def bytes (l : PoolLayout) : Bytes :=
  Bytes.ofWord l.count ++ l.constants.flatMap ConstantLayout.bytes

/-- The table the constants make. -/
def pool (l : PoolLayout) : Pool :=
  ⟨(.unusable :: l.constants.flatMap ConstantLayout.slots).toArray⟩

end PoolLayout

/-! ## What an index points to -/

namespace Pool

/-- The index is that of a text. -/
def TextAt (p : Pool) (index : UInt16) (text : String) : Prop :=
  p.slots[index.toNat]? = some (.utf8 text)

/-- The index is that of a class, whose name in the pool has slashes for dots. -/
def ClassAt (p : Pool) (index : UInt16) (name : ClassName) : Prop :=
  ∃ nameIndex text, p.slots[index.toNat]? = some (.classInfo nameIndex) ∧ p.TextAt nameIndex text
    ∧ name = .ofInternal text

/-- The index is that of a class, or zero for none. -/
def OptionalClassAt (p : Pool) (index : UInt16) (name : Option ClassName) : Prop :=
  if index = 0 then name = none else ∃ n, p.ClassAt index n ∧ name = some n

/-- The index is that of a name and a descriptor. -/
def PairAt (p : Pool) (index : UInt16) (name descriptor : String) : Prop :=
  ∃ nameIndex descriptorIndex,
    p.slots[index.toNat]? = some (.nameAndType nameIndex descriptorIndex)
      ∧ p.TextAt nameIndex name ∧ p.TextAt descriptorIndex descriptor

/-- The name a class constant mentions, by the index it holds. -/
def NameAt (p : Pool) (nameIndex : UInt16) (name : ClassName) : Prop :=
  ∃ text, p.TextAt nameIndex text ∧ name = .ofInternal text

/-- The member a field or method constant mentions, by the two indexes it holds. -/
def MemberAt (p : Pool) (indexes : UInt16 × UInt16) (m : MemberMention) : Prop :=
  p.ClassAt indexes.1 m.owner ∧ p.PairAt indexes.2 m.name m.descriptor

end Pool

namespace Constant

/-- The index a class constant holds. -/
def classIndex? : Constant → Option UInt16
  | .classInfo name => some name
  | _ => none

/-- The indexes a method constant holds, whatever kind of class it is in. -/
def methodIndexes? : Constant → Option (UInt16 × UInt16)
  | .methodRef _ owner pair => some (owner, pair)
  | _ => none

/-- The indexes a field constant holds. -/
def fieldIndexes? : Constant → Option (UInt16 × UInt16)
  | .fieldRef owner pair => some (owner, pair)
  | _ => none

end Constant

/-! ## Members and attributes -/

/-- An attribute: the index of its name and any bytes. -/
structure AttributeLayout where
  /-- The index of the name. -/
  name : UInt16
  /-- The content. -/
  body : Bytes
  /-- Its length can be written. -/
  fits : body.length < 4294967296

/-- A field or method. -/
structure MemberLayout where
  /-- The flags. -/
  access : UInt16
  /-- The index of the name. -/
  name : UInt16
  /-- The index of the descriptor. -/
  descriptor : UInt16
  /-- The attributes, which nobody looks at. -/
  attributes : Table AttributeLayout

/-- A row of the nested class table. -/
structure NestedLayout where
  /-- The index of the nested class. -/
  inner : UInt16
  /-- The index of the declaring class, zero for none. -/
  outer : UInt16
  /-- The index of the name in the source, which nobody follows. -/
  simple : UInt16
  /-- The flags. -/
  access : UInt16

namespace AttributeLayout

/-- The attribute as written, its length before its content. -/
def bytes (a : AttributeLayout) : Bytes :=
  Bytes.ofWord a.name ++ Bytes.ofDoubleWord (UInt32.ofNat a.body.length) ++ a.body

end AttributeLayout

namespace MemberLayout

/-- The member as written. -/
def bytes (m : MemberLayout) : Bytes :=
  Bytes.ofWord m.access ++ Bytes.ofWord m.name ++ Bytes.ofWord m.descriptor
    ++ countedBytes AttributeLayout.bytes m.attributes.rows

/-- The member the layout stands for. -/
def Denotes (p : Pool) (l : MemberLayout) (m : Member) : Prop :=
  p.TextAt l.name m.name ∧ p.TextAt l.descriptor m.descriptor ∧ m.access = ⟨l.access⟩

end MemberLayout

namespace NestedLayout

/-- The row as written. -/
def bytes (r : NestedLayout) : Bytes :=
  Bytes.ofWord r.inner ++ Bytes.ofWord r.outer ++ Bytes.ofWord r.simple ++ Bytes.ofWord r.access

/-- The nested class the row stands for. -/
def Denotes (p : Pool) (l : NestedLayout) (n : NestedClass) : Prop :=
  p.ClassAt l.inner n.name ∧ p.OptionalClassAt l.outer n.outer

end NestedLayout

namespace AttributeLayout

/-- The content of an attribute starts with the nested class table `rows`.  What follows the last
row is not looked at. -/
def HoldsTable (p : Pool) (a : AttributeLayout) (rows : List NestedClass) : Prop :=
  ∃ (table : Table NestedLayout) (junk : Bytes),
    a.body = countedBytes NestedLayout.bytes table.rows ++ junk
      ∧ List.Forall₂ (NestedLayout.Denotes p) table.rows rows

/-- What an attribute of a class contributes: the nested class table if that is its name, else
nothing. -/
def Denotes (p : Pool) (a : AttributeLayout) (table : Option (List NestedClass)) : Prop :=
  ∃ name, p.TextAt a.name name ∧
    if name = "InnerClasses" then ∃ rows, a.HoldsTable p rows ∧ table = some rows
    else table = none

end AttributeLayout

/-! ## The class -/

/-- A class file taken apart. -/
structure ClassLayout where
  /-- The lower half of the version. -/
  minor : UInt16
  /-- The upper half of the version. -/
  major : UInt16
  /-- The constants. -/
  pool : PoolLayout
  /-- The flags. -/
  access : UInt16
  /-- The index of the class itself. -/
  this : UInt16
  /-- The index of the superclass, zero for none. -/
  super : UInt16
  /-- The indexes of the interfaces. -/
  interfaces : Table UInt16
  /-- The fields. -/
  fields : Table MemberLayout
  /-- The methods. -/
  methods : Table MemberLayout
  /-- The attributes of the class. -/
  attributes : Table AttributeLayout

namespace ClassLayout

/-- The class file as written. -/
def bytes (l : ClassLayout) : Bytes :=
  [0xCA, 0xFE, 0xBA, 0xBE] ++ Bytes.ofWord l.minor ++ Bytes.ofWord l.major ++ l.pool.bytes
    ++ Bytes.ofWord l.access ++ Bytes.ofWord l.this ++ Bytes.ofWord l.super
    ++ countedBytes Bytes.ofWord l.interfaces.rows
    ++ countedBytes MemberLayout.bytes l.fields.rows
    ++ countedBytes MemberLayout.bytes l.methods.rows
    ++ countedBytes AttributeLayout.bytes l.attributes.rows

/-- The view a class file stands for.  Indexes that are not mentioned here may hold anything. -/
structure Denotes (l : ClassLayout) (c : ClassView) : Prop where
  /-- The class has the name its own index points to. -/
  name : l.pool.pool.ClassAt l.this c.name
  /-- The superclass is the one its index points to, if there is one. -/
  superclass : l.pool.pool.OptionalClassAt l.super c.superclass
  /-- The flags are those stored. -/
  access : c.access = ⟨l.access⟩
  /-- The interfaces are those pointed to, in order. -/
  interfaces : List.Forall₂ l.pool.pool.ClassAt l.interfaces.rows c.interfaces
  /-- The fields are those stored, in order. -/
  fields : List.Forall₂ (MemberLayout.Denotes l.pool.pool) l.fields.rows c.fields
  /-- The methods are those stored, in order. -/
  methods : List.Forall₂ (MemberLayout.Denotes l.pool.pool) l.methods.rows c.methods
  /-- Every attribute has a name, every nested class table can be read, and the last of them
  counts. -/
  nested : ∃ tables, List.Forall₂ (AttributeLayout.Denotes l.pool.pool) l.attributes.rows tables
    ∧ c.nested = tables.reduceOption.getLast?.getD []
  /-- One class is mentioned for each class constant, in the order of the slots. -/
  classRefs : List.Forall₂ l.pool.pool.NameAt
    (l.pool.pool.slots.toList.filterMap Constant.classIndex?) c.classRefs
  /-- One method is mentioned for each method constant, in the order of the slots. -/
  methodRefs : List.Forall₂ l.pool.pool.MemberAt
    (l.pool.pool.slots.toList.filterMap Constant.methodIndexes?) c.methodRefs
  /-- One field is mentioned for each field constant, in the order of the slots. -/
  fieldRefs : List.Forall₂ l.pool.pool.MemberAt
    (l.pool.pool.slots.toList.filterMap Constant.fieldIndexes?) c.fieldRefs

end ClassLayout

end Linkage.ClassFile
