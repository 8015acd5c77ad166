import Linkage.ClassFile.View
import Linkage.Descriptor.Reading
import Linkage.Reference.Set

/-!
# The references a class makes

The extraction of symbol references.  A class refers to its supertypes, to every class its pool
names, and to every class named in the types of the members it declares.  The class itself,
primitive types, `void` and array types are left out.  References to methods and fields come from
the pool alone; members of array types are left out.
-/

namespace Linkage

/-- A declared member whose descriptor cannot be read. -/
structure MalformedDescriptor where
  /-- The descriptor. -/
  descriptor : String
  /-- What is wrong with it. -/
  fault : Descriptor.Fault
  deriving DecidableEq, Repr

namespace ClassView

/-- The type of a declared field. -/
def fieldTypes (m : Member) : Except MalformedDescriptor (List FieldType) :=
  match Descriptor.readField m.descriptor with
  | .ok t => .ok [t]
  | .error fault => .error ⟨m.descriptor, fault⟩

/-- The parameter types and result of a declared method. -/
def methodTypes (m : Member) : Except MalformedDescriptor (List FieldType) :=
  match Descriptor.readMethod m.descriptor with
  | .ok s => .ok (s.parameters ++ s.result.toList)
  | .error fault => .error ⟨m.descriptor, fault⟩

/-- All types in the declarations of the class: fields first. -/
def declaredTypes (c : ClassView) : Except MalformedDescriptor (List FieldType) := do
  let fields ← c.fields.mapM fieldTypes
  let methods ← c.methods.mapM methodTypes
  return fields.flatten ++ methods.flatten

/-- Can a class refer to this name? -/
def isTarget (c : ClassView) (name : ClassName) : Bool :=
  name != c.name && !name.isPrimitive && !name.isArray

/-- The references the class makes. -/
def references (c : ClassView) : Except MalformedDescriptor ReferenceSet := do
  let types ← c.declaredTypes
  let named := c.superclass.toList ++ c.interfaces ++ c.classRefs
    ++ types.filterMap FieldType.className?
  return .ofLists
    ((named.filter c.isTarget).map fun target => ⟨c.name, target⟩)
    ((c.methodRefs.filter fun r => !r.owner.isArray).map fun r =>
      ⟨c.name, r.owner, r.name, r.descriptor⟩)
    ((c.fieldRefs.filter fun r => !r.owner.isArray).map fun r => ⟨c.name, r.owner, r.name⟩)

end ClassView

/-- The references any of the classes makes. -/
def allReferences (classes : List ClassView) : Except MalformedDescriptor ReferenceSet := do
  let sets ← classes.mapM ClassView.references
  return .unions sets

end Linkage
