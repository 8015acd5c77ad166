import Linkage.Text.Split

/-!
# Binary class names

A binary name is written with dots between packages and dollars between nested classes
(`com.example.Outer$Inner`).  Nesting and package are read off the text alone: every dollar of the
last segment counts as nesting, whether or not the class was nested in its source.
-/

namespace Linkage

/-- A class name in binary form. -/
abbrev ClassName := String

namespace ClassName

/-- The outermost class: the last segment cut at its first dollar. -/
def topLevel (n : ClassName) : ClassName :=
  String.ofList (Text.throughLast '.' n.toList
    ++ (Text.afterLast '.' n.toList).takeWhile (· != '$'))

/-- The package of a class; empty for the unnamed package. -/
def package (n : ClassName) : String :=
  String.ofList ((Text.beforeLast? '.' n.topLevel.toList).getD [])

/-- Are both classes in the same package? -/
def samePackage (a b : ClassName) : Bool :=
  a.package == b.package

/-- The class directly around a nested one. -/
def enclosing? (n : ClassName) : Option ClassName :=
  (Text.beforeLast? '$' n.toList).map String.ofList

/-- The last part of a nested name, as written in its source. -/
def simple (n : ClassName) : String :=
  String.ofList (Text.afterLast '$' n.toList)

/-- Is this an array type, which keeps its descriptor form? -/
def isArray (n : ClassName) : Bool :=
  Text.startsWith "[" n

/-- The words of the language that look like class names and name none. -/
def primitives : List String :=
  ["byte", "char", "double", "float", "int", "long", "short", "boolean", "void"]

/-- Is this one of the primitive types, or `void`? -/
def isPrimitive (n : ClassName) : Bool :=
  primitives.contains n

/-- The form used inside class files, with slashes between packages. -/
def internal (n : ClassName) : String :=
  Text.replaceChar '.' '/' n

/-- The binary name of an internal one. -/
def ofInternal (s : String) : ClassName :=
  Text.replaceChar '/' '.' s

/-- The suffix of class file entries. -/
def entrySuffix : String := ".class"

/-- The entry a class is stored under. -/
def entry (n : ClassName) : String :=
  n.internal ++ entrySuffix

/-- The class an entry stores: its name without one class suffix, dots for slashes. -/
def ofEntry (e : String) : ClassName :=
  if Text.endsWith entrySuffix e then
    ofInternal (String.ofList (e.toList.take (e.toList.length - entrySuffix.toList.length)))
  else ofInternal e

end ClassName

end Linkage
