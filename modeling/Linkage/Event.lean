import Linkage.Failure
import Linkage.Resolution.Outcome

/-!
# Events

What operations report while they work.  Events are kept in the order they happen, also those
before a failure.
-/

namespace Linkage

/-- How much an event matters. -/
inductive Level where
  /-- A result. -/
  | info
  /-- A step towards it. -/
  | debug
  /-- A single decision. -/
  | trace
  deriving DecidableEq, Repr

/-- Something worth reporting. -/
inductive Event where
  /-- A definition that is not used, and the artifact whose definition is. -/
  | shadowed (name : ClassName) (artifact winner : Path)
  /-- A class path has been indexed. -/
  | indexed (classes artifacts images : Nat)
  /-- References have been extracted. -/
  | extracted (references classes : Nat)
  /-- A reference has been resolved. -/
  | decided (reference : Reference) (outcome : Outcome)
  /-- A class is taken to be supplied by the platform. -/
  | assumed (name : ClassName)
  /-- A class of the hierarchy is not defined. -/
  | skipped (name : ClassName)
  /-- An artifact has been checked. -/
  | checkedArtifact (artifact : Path) (classes references errors : Nat)
  /-- A class path has been checked. -/
  | checkedClassPath (artifacts errors : Nat)
  deriving DecidableEq, Repr

namespace Level

/-- The level as a word. -/
def word : Level → String
  | .info => "INFO"
  | .debug => "DEBUG"
  | .trace => "TRACE"

end Level

namespace Event

/-- How much the event matters. -/
def level : Event → Level
  | .shadowed _ _ _ => .debug
  | .indexed _ _ _ => .info
  | .extracted _ _ => .debug
  | .decided _ _ => .trace
  | .assumed _ => .debug
  | .skipped _ => .debug
  | .checkedArtifact _ _ _ _ => .info
  | .checkedClassPath _ _ => .info

/-- The event in words. -/
def message : Event → String
  | .shadowed name artifact winner =>
    name ++ " in " ++ artifact.text ++ " is shadowed by " ++ winner.text
  | .indexed classes artifacts images =>
    s!"Indexed {classes} classes from {artifacts} artifacts ({images} platform)"
  | .extracted references classes =>
    s!"Extracted {references} references from {classes} classes"
  | .decided reference outcome => reference.text ++ " => " ++ outcome.text
  | .assumed name => "Assuming " ++ name ++ " is provided by the JDK"
  | .skipped name => "Skipping " ++ name ++ " during hierarchy walk: not on classpath"
  | .checkedArtifact artifact classes references errors =>
    let artifact := artifact.text
    s!"Checked {artifact}: {classes} classes, {references} references, {errors} errors"
  | .checkedClassPath artifacts errors => s!"Checked {artifacts} artifacts: {errors} errors"

/-- The event with its level. -/
def line (e : Event) : String :=
  e.level.word ++ " " ++ e.message

end Event

/-- An operation that may fail and reports events, which outlive a failure. -/
abbrev Logged := ExceptT Failure (StateM (Array Event))

namespace Logged

/-- Reports an event. -/
def note (e : Event) : Logged Unit :=
  modify (·.push e)

end Logged

end Linkage
