import Linkage.ClassFile.Decode

/-!
# Which entries hold classes, and how they are read

A dialect is a parser of class structures: it decides which entries of an artifact are class files
and turns their bytes into views.  Everything above this module sees classes through a dialect only.
-/

namespace Linkage.ClassFile

/-- A way to find and read classes. -/
structure Dialect where
  /-- Does the entry with this name hold a class? -/
  accepts : String → Bool
  /-- The class some bytes hold. -/
  read : Bytes → Except Fault ClassView

namespace Dialect

/-- The entry that describes a module, and holds no class. -/
def moduleEntry : String := "module-info.class"

/-- Class files by their suffix, module descriptions left out. -/
def acceptsClassFile (entry : String) : Bool :=
  Text.endsWith ClassName.entrySuffix entry && entry != moduleEntry
    && !Text.endsWith ("/" ++ moduleEntry) entry

/-- Class files under their usual names. -/
def standard : Dialect := ⟨acceptsClassFile, decode⟩

/-- Class files under any names with the given suffix. -/
def ofSuffix (suffix : String) : Dialect := ⟨Text.endsWith suffix, decode⟩

/-- Is this an entry to be listed?  The directory of metadata holds none. -/
def lists (d : Dialect) (entry : String) : Bool :=
  !Text.startsWith "META-INF/" entry && d.accepts entry

end Dialect

end Linkage.ClassFile
