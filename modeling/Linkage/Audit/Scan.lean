import Linkage.Event

/-!
# Scanning for references

The symbol references that the classes of an artifact make, reported once they are known.
-/

namespace Linkage.Logged

/-- The references any of the classes makes. -/
def allReferences (classes : List ClassView) : Logged ReferenceSet := do
  match Linkage.allReferences classes with
  | .error malformed => throw (.malformedDescriptor malformed)
  | .ok references =>
    note (.extracted references.size classes.length)
    return references

/-- The references of all classes of the artifact at a path. -/
def scan (t : FileTree) (dialect : ClassFile.Dialect) (limit : Nat) (p : Path) :
    Logged ReferenceSet := do
  match Artifact.open t p >>= Artifact.views t dialect limit with
  | .error cause => throw (.artifact cause)
  | .ok classes => allReferences classes

end Linkage.Logged
