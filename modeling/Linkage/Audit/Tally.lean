import Linkage.Json.Decoder

/-!
# Counters of checks

The metrics of a checker: what its checks have done so far.  Counters are 64-bit words that never
wrap: a sum that does not fit is an error.  Time is kept in nanoseconds and written in whole
milliseconds.
-/

namespace Linkage

/-- Counters over any number of checks. -/
structure Tally where
  /-- Artifacts checked. -/
  artifacts : UInt64
  /-- Classes read. -/
  classes : UInt64
  /-- Distinct references resolved. -/
  references : UInt64
  /-- References that are broken. -/
  errors : UInt64
  /-- Time spent, in nanoseconds. -/
  time : Nat
  deriving DecidableEq, Repr, Inhabited

namespace Tally

/-- Why two counters have no sum. -/
inductive Overflow where
  /-- A counter does not fit its word. -/
  | counter
  /-- The time has more seconds than fit a word. -/
  | duration
  deriving DecidableEq, Repr

/-- The divisor of an average is zero as a 32-bit word. -/
inductive ZeroDivisor where
  /-- Nothing to divide by. -/
  | zeroDivisor
  deriving DecidableEq, Repr

/-- The sum that does not fit, in words. -/
def Overflow.message : Overflow → String
  | .counter => "attempt to add with overflow"
  | .duration => "overflow when adding durations"

/-- The division that cannot be made, in words. -/
def ZeroDivisor.message : ZeroDivisor → String
  | .zeroDivisor => "divide by zero error when dividing duration by scalar"

/-- Nothing counted yet. -/
def zero : Tally := ⟨0, 0, 0, 0, 0⟩

/-- Values of a counter are below this bound. -/
def counterBound : Nat := Nat.pow 2 64

/-- Nanoseconds in a second. -/
def second : Nat := Nat.pow 10 9

/-- Nanoseconds in a millisecond. -/
def millisecond : Nat := Nat.pow 10 6

/-- The sum of two counters, if it fits. -/
def addCounter (a b : UInt64) : Except Overflow UInt64 :=
  if a.toNat + b.toNat < counterBound then .ok (a + b) else .error .counter

/-- The sum of two times, if its seconds fit. -/
def addTime (a b : Nat) : Except Overflow Nat :=
  if a + b < counterBound * second then .ok (a + b) else .error .duration

/-- Adds up two sets of counters, from the first counter to the time. -/
def add (a b : Tally) : Except Overflow Tally := do
  let artifacts ← addCounter a.artifacts b.artifacts
  let classes ← addCounter a.classes b.classes
  let references ← addCounter a.references b.references
  let errors ← addCounter a.errors b.errors
  let time ← addTime a.time b.time
  return ⟨artifacts, classes, references, errors, time⟩

/-- The part of the references that is broken, nearest double; zero without references. -/
def brokenRate (m : Tally) : Float :=
  if m.references = 0 then 0 else m.errors.toFloat / m.references.toFloat

/-- Time per artifact in nanoseconds, rounded down.  The divisor is the number of artifacts as a
32-bit word. -/
def meanTime (m : Tally) : Except ZeroDivisor Nat :=
  if m.artifacts = 0 then .ok 0
  else
    let divisor := m.artifacts.toUInt32.toNat
    if divisor = 0 then .error .zeroDivisor else .ok (m.time / divisor)

/-- The counters by name; milliseconds as a 64-bit word. -/
def toJson (m : Tally) : Json :=
  .object [("artifacts_checked", .number m.artifacts.toNat),
    ("classes_scanned", .number m.classes.toNat),
    ("references_resolved", .number m.references.toNat),
    ("errors_found", .number m.errors.toNat),
    ("total_check_time", .number (m.time / millisecond % counterBound))]

/-- Counters that are being read; each is absent until it is. -/
structure Draft where
  artifacts : Option UInt64 := none
  classes : Option UInt64 := none
  references : Option UInt64 := none
  errors : Option UInt64 := none
  time : Option Nat := none

/-- Reads a counter. -/
def counterDecoder {ε : Type} : Json.Decoder ε UInt64 :=
  (Json.Decoder.natural counterBound).map UInt64.ofNat

/-- Reads counters. -/
def decoder {ε : Type} : Json.Decoder ε Tally :=
  .record .all
    [.of "artifacts_checked" Draft.artifacts (fun d v => { d with artifacts := some v })
      counterDecoder,
     .of "classes_scanned" Draft.classes (fun d v => { d with classes := some v })
      counterDecoder,
     .of "references_resolved" Draft.references (fun d v => { d with references := some v })
      counterDecoder,
     .of "errors_found" Draft.errors (fun d v => { d with errors := some v }) counterDecoder,
     .of "total_check_time" Draft.time (fun d v => { d with time := some v })
      ((Json.Decoder.natural counterBound).map (· * millisecond))]
    {}
    fun d => do
      return ⟨← d.artifacts, ← d.classes, ← d.references, ← d.errors, ← d.time⟩

end Tally

end Linkage
