import Linkage.Audit.Tally
import Linkage.Reference.OfClass
import Linkage.Storage.Artifact

/-!
# Failures

The errors of a checker: why a class path could not be indexed, a class not loaded or an artifact
not checked.  A broken reference is no failure but the answer of a check.
-/

namespace Linkage

/-- Why an operation on a class path has no answer. -/
inductive Failure where
  /-- The class path has no artifacts. -/
  | emptyClassPath
  /-- An artifact of the class path is there and cannot be read. -/
  | cannotRead (path : Path) (cause : ArtifactFailure)
  /-- An artifact is missing, or a class in it cannot be read. -/
  | artifact (cause : ArtifactFailure)
  /-- No artifact defines the class. -/
  | classNotFound (name : ClassName)
  /-- A class declares a member whose descriptor cannot be read. -/
  | malformedDescriptor (malformed : MalformedDescriptor)
  /-- The artifact is not on the class path. -/
  | notOnClassPath (path : Path)
  /-- The counters do not fit. -/
  | overflow (cause : Tally.Overflow)
  deriving DecidableEq, Repr

/-- The descriptor and its fault in words. -/
def MalformedDescriptor.message (m : MalformedDescriptor) : String :=
  "Malformed descriptor '" ++ m.descriptor ++ "': " ++ m.fault.message

namespace Failure

/-- The failure in words. -/
def message : Failure → String
  | .emptyClassPath => "Invalid classpath: no artifacts given"
  | .cannotRead path cause =>
    "Invalid classpath: cannot read " ++ path.text ++ ": " ++ cause.message
  | .artifact cause => cause.message
  | .classNotFound name => "Class not found: " ++ name
  | .malformedDescriptor malformed => malformed.message
  | .notOnClassPath path => "Artifact is not on the classpath: " ++ path.text
  | .overflow cause => cause.message

/-- The failure of an artifact while the class path is indexed.  A missing artifact speaks for
itself. -/
def ofIndexing (path : Path) : ArtifactFailure → Failure
  | .missing path fault => .artifact (.missing path fault)
  | cause => .cannotRead path cause

end Failure

end Linkage
