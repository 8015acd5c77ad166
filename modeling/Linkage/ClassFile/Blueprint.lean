import Linkage.ClassFile.View

/-!
# Blueprints of class files

What the class file writer is asked for: the content of a class file to be written.  It has no code:
the classes, methods and fields it refers to are listed, and become constants.
-/

namespace Linkage.ClassFile

/-- A field or method to declare. -/
structure MemberPlan where
  /-- Its name. -/
  name : String
  /-- Its descriptor. -/
  descriptor : String
  /-- Its flags. -/
  access : UInt16
  deriving DecidableEq, Repr

/-- A method to mention. -/
structure MethodMention where
  /-- The class it is looked up in. -/
  owner : ClassName
  /-- Its name. -/
  name : String
  /-- Its descriptor. -/
  descriptor : String
  /-- Is it mentioned as a method of an interface? -/
  ofInterface : Bool
  deriving DecidableEq, Repr

/-- A class to be written. -/
structure Blueprint where
  /-- Its binary name. -/
  name : ClassName
  /-- Its superclass, if any. -/
  superclass : Option ClassName := some "java.lang.Object"
  /-- Its flags. -/
  access : UInt16 := AccessFlags.publicBit ||| AccessFlags.superBit
  /-- Its interfaces. -/
  interfaces : List ClassName := []
  /-- Fields to declare. -/
  fields : List MemberPlan := []
  /-- Methods to declare. -/
  methods : List MemberPlan := []
  /-- Rows of the nested class table: a class and the one that declares it. -/
  nested : List (ClassName × Option ClassName) := []
  /-- Classes to mention. -/
  classRefs : List ClassName := []
  /-- Methods to mention. -/
  methodRefs : List MethodMention := []
  /-- Fields to mention. -/
  fieldRefs : List MemberMention := []
  deriving DecidableEq, Repr

/-- The entry the class is stored under. -/
def Blueprint.entry (b : Blueprint) : String :=
  ClassName.entry b.name

end Linkage.ClassFile
