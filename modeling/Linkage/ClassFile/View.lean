import Linkage.Ascending
import Linkage.ClassName
import Linkage.ClassFile.Access

/-!
# The structural view of a class

A parsed class, or what linkage needs to know of a compiled one: its name, supertypes and flags, the
members it declares, the rows of its nested class table, and every class, method and field its
constant pool mentions.
-/

namespace Linkage

/-- A field or method a class declares. -/
structure Member where
  /-- Its name. -/
  name : String
  /-- Its type, as a descriptor. -/
  descriptor : String
  /-- Its flags. -/
  access : AccessFlags
  deriving DecidableEq, Repr, Inhabited

/-- A mention of a field or method of some class. -/
structure MemberMention where
  /-- The class the member is looked up in. -/
  owner : ClassName
  /-- The member's name. -/
  name : String
  /-- The member's type, as a descriptor. -/
  descriptor : String
  deriving DecidableEq, Repr, Inhabited

/-- A row of the nested class table. -/
structure NestedClass where
  /-- The nested class. -/
  name : ClassName
  /-- The class that declares it; absent for local and anonymous classes. -/
  outer : Option ClassName
  deriving DecidableEq, Repr, Inhabited

/-- The structural view of one compiled class. -/
structure ClassView where
  /-- Its binary name. -/
  name : ClassName
  /-- Its superclass; absent only at the root of the hierarchy. -/
  superclass : Option ClassName
  /-- The interfaces it implements or, for an interface, extends. -/
  interfaces : List ClassName
  /-- Its flags. -/
  access : AccessFlags
  /-- Declared fields. -/
  fields : List Member
  /-- Declared methods, constructors included. -/
  methods : List Member
  /-- The nested class table. -/
  nested : List NestedClass
  /-- Every class its constant pool names, in pool order. -/
  classRefs : List ClassName
  /-- Every method its constant pool mentions, in pool order. -/
  methodRefs : List MemberMention
  /-- Every field its constant pool mentions, in pool order. -/
  fieldRefs : List MemberMention
  deriving DecidableEq, Repr, Inhabited

namespace Member

/-- The member by field names. -/
def toJson (m : Member) : Json :=
  .object [("name", .string m.name), ("descriptor", .string m.descriptor),
    ("access_flags", m.access.toJson)]

/-- A member that is being read. -/
structure Draft where
  /-- The name, once read. -/
  name : Option String := none
  /-- The descriptor, once read. -/
  descriptor : Option String := none
  /-- The flags, once read. -/
  access : Option AccessFlags := none

/-- Reads a member. -/
def decoder {ε : Type} : Json.Decoder ε Member :=
  .record .all
    [.of "name" Draft.name (fun d v => { d with name := some v }) .string,
     .of "descriptor" Draft.descriptor (fun d v => { d with descriptor := some v }) .string,
     .of "access_flags" Draft.access (fun d v => { d with access := some v })
      AccessFlags.decoder]
    {}
    fun d => do return ⟨← d.name, ← d.descriptor, ← d.access⟩

end Member

namespace MemberMention

/-- The mention by field names. -/
def toJson (r : MemberMention) : Json :=
  .object [("class_name", .string r.owner), ("name", .string r.name),
    ("descriptor", .string r.descriptor)]

/-- A mention that is being read. -/
structure Draft where
  /-- The class, once read. -/
  owner : Option ClassName := none
  /-- The name, once read. -/
  name : Option String := none
  /-- The descriptor, once read. -/
  descriptor : Option String := none

/-- Reads a mention. -/
def decoder {ε : Type} : Json.Decoder ε MemberMention :=
  .record .all
    [.of "class_name" Draft.owner (fun d v => { d with owner := some v }) .string,
     .of "name" Draft.name (fun d v => { d with name := some v }) .string,
     .of "descriptor" Draft.descriptor (fun d v => { d with descriptor := some v }) .string]
    {}
    fun d => do return ⟨← d.owner, ← d.name, ← d.descriptor⟩

end MemberMention

namespace NestedClass

/-- The row by field names. -/
def toJson (n : NestedClass) : Json :=
  .object [("name", .string n.name), ("outer_name", .ofOption .string n.outer)]

/-- A row that is being read. -/
structure Draft where
  /-- The nested class, once read. -/
  name : Option ClassName := none
  /-- The declaring class, once read. -/
  outer : Option (Option ClassName) := none

/-- Reads a row; a declaring class that is not given is absent. -/
def decoder {ε : Type} : Json.Decoder ε NestedClass :=
  .record .all
    [.of "name" Draft.name (fun d v => { d with name := some v }) .string,
     .of "outer_name" Draft.outer (fun d v => { d with outer := some v }) (.option .string)]
    {}
    fun d => do return ⟨← d.name, d.outer.getD none⟩

end NestedClass

namespace ClassView

/-- Is the class public? -/
def isPublic (c : ClassView) : Bool := c.access.isPublic

/-- Is this an interface? -/
def isInterface (c : ClassView) : Bool := c.access.isInterface

/-- The first declared field with this name. -/
def findField? (c : ClassView) (name : String) : Option Member :=
  c.fields.find? fun m => m.name == name

/-- The first declared method with this name and descriptor. -/
def findMethod? (c : ClassView) (name descriptor : String) : Option Member :=
  c.methods.find? fun m => m.name == name && m.descriptor == descriptor

/-- The classes declared directly inside this one, in ascending order without repetition.  A row
without a declaring class counts when its name extends this one by a dollar. -/
def nestedNames (c : ClassView) : List ClassName :=
  let own := c.nested.filter fun n =>
    n.name != c.name &&
      match n.outer with
      | some outer => outer == c.name
      | none => Text.startsWith (c.name ++ "$") n.name
  ascending textLe (own.map NestedClass.name)

/-- The view by field names. -/
def toJson (c : ClassView) : Json :=
  .object [("name", .string c.name),
    ("super_class", .ofOption .string c.superclass),
    ("interfaces", .ofList .string c.interfaces),
    ("access_flags", c.access.toJson),
    ("fields", .ofList Member.toJson c.fields),
    ("methods", .ofList Member.toJson c.methods),
    ("inner_classes", .ofList NestedClass.toJson c.nested),
    ("class_references", .ofList .string c.classRefs),
    ("method_references", .ofList MemberMention.toJson c.methodRefs),
    ("field_references", .ofList MemberMention.toJson c.fieldRefs)]

/-- A view that is being read. -/
structure Draft where
  /-- The name, once read. -/
  name : Option ClassName := none
  /-- The superclass, once read. -/
  superclass : Option (Option ClassName) := none
  /-- The interfaces, once read. -/
  interfaces : Option (List ClassName) := none
  /-- The flags, once read. -/
  access : Option AccessFlags := none
  /-- The fields, once read. -/
  fields : Option (List Member) := none
  /-- The methods, once read. -/
  methods : Option (List Member) := none
  /-- The nested class table, once read. -/
  nested : Option (List NestedClass) := none
  /-- The classes mentioned, once read. -/
  classRefs : Option (List ClassName) := none
  /-- The methods mentioned, once read. -/
  methodRefs : Option (List MemberMention) := none
  /-- The fields mentioned, once read. -/
  fieldRefs : Option (List MemberMention) := none

/-- Reads a view; a superclass that is not given is absent. -/
def decoder {ε : Type} : Json.Decoder ε ClassView :=
  .record .all
    [.of "name" Draft.name (fun d v => { d with name := some v }) .string,
     .of "super_class" Draft.superclass (fun d v => { d with superclass := some v })
      (.option .string),
     .of "interfaces" Draft.interfaces (fun d v => { d with interfaces := some v })
      (.list .string),
     .of "access_flags" Draft.access (fun d v => { d with access := some v })
      AccessFlags.decoder,
     .of "fields" Draft.fields (fun d v => { d with fields := some v }) (.list Member.decoder),
     .of "methods" Draft.methods (fun d v => { d with methods := some v })
      (.list Member.decoder),
     .of "inner_classes" Draft.nested (fun d v => { d with nested := some v })
      (.list NestedClass.decoder),
     .of "class_references" Draft.classRefs (fun d v => { d with classRefs := some v })
      (.list .string),
     .of "method_references" Draft.methodRefs (fun d v => { d with methodRefs := some v })
      (.list MemberMention.decoder),
     .of "field_references" Draft.fieldRefs (fun d v => { d with fieldRefs := some v })
      (.list MemberMention.decoder)]
    {}
    fun d => do
      return ⟨← d.name, d.superclass.getD none, ← d.interfaces, ← d.access, ← d.fields,
        ← d.methods, ← d.nested, ← d.classRefs, ← d.methodRefs, ← d.fieldRefs⟩

end ClassView

end Linkage
