import Linkage.Resolution.Outcome

/-!
# Broken references

A linkage error on a reference: the reference with the cause that breaks it.  In JSON the reason and
the place stand apart, and a text that pairs them wrongly is refused: a missing class has no place,
and every other reason has one.
-/

namespace Linkage

/-- A reference that does not link. -/
structure BrokenReference (ρ : Type) where
  /-- The reference. -/
  reference : ρ
  /-- Why it does not link. -/
  cause : Cause
  deriving DecidableEq, Repr, Inhabited

/-- A reason paired with the wrong kind of place. -/
inductive Mispairing where
  /-- A missing class cannot have a place. -/
  | placeOfMissingClass (location : Path)
  /-- This reason needs a place. -/
  | noPlace (reason : Reason)
  deriving DecidableEq, Repr

/-- The mistake in words. -/
def Mispairing.message : Mispairing → String
  | .placeOfMissingClass location =>
    Reason.classNotFound.text ++ " error cannot carry a target class location ("
      ++ location.location ++ ")"
  | .noPlace reason => reason.text ++ " error requires a target class location"

/-- The cause a reason and a place make up. -/
def Cause.ofPair : Reason → Option Path → Except Mispairing Cause
  | .classNotFound, none => .ok .classNotFound
  | .symbolNotFound, some location => .ok (.symbolNotFound location)
  | .inaccessible, some location => .ok (.inaccessible location)
  | .classNotFound, some location => .error (.placeOfMissingClass location)
  | reason, none => .error (.noPlace reason)

/-- Every cause is made up of its own reason and place. -/
theorem Cause.ofPair_eq_ok_iff {reason : Reason} {place : Option Path} {c : Cause} :
    Cause.ofPair reason place = .ok c ↔ c.reason = reason ∧ c.location? = place := by
  cases reason <;> cases place <;> cases c <;> simp [ofPair, Cause.reason, location?, eq_comm]

namespace BrokenReference

variable {ρ : Type}

/-- The broken reference of an outcome, if it is one. -/
def ofOutcome? (reference : ρ) : Outcome → Option (BrokenReference ρ)
  | .resolved => none
  | .broken cause => some ⟨reference, cause⟩

/-- The broken references among outcomes, in order. -/
def ofOutcomes (outcomes : List (ρ × Outcome)) : List (BrokenReference ρ) :=
  outcomes.filterMap fun (reference, outcome) => ofOutcome? reference outcome

/-- Where the target class comes from, in words. -/
def placeText : Option Path → String
  | some location => "target class from " ++ location.location
  | none => "target class location not found"

/-- The broken reference in words. -/
def text (show_ : ρ → String) (b : BrokenReference ρ) : String :=
  show_ b.reference ++ ", reason: " ++ b.cause.reason.text ++ ", " ++ placeText b.cause.location?

/-- Reference, reason and place by name. -/
def toJson (f : ρ → Json) (b : BrokenReference ρ) : Json :=
  .object [("reference", f b.reference), ("reason", b.cause.reason.toJson),
    ("target_class_location", .ofOption Path.toJson b.cause.location?)]

/-- A broken reference that is being read. -/
structure Draft (ρ : Type) where
  /-- The reference, once read. -/
  reference : Option ρ := none
  /-- The reason, once read. -/
  reason : Option Reason := none
  /-- The place, once read. -/
  location : Option (Option Path) := none

/-- Reads reference, reason and place, whatever the pairing. -/
def recordDecoder {ε : Type} (d : Json.Decoder ε ρ) : Json.Decoder ε (ρ × Reason × Option Path) :=
  .record .all
    [.of "reference" Draft.reference (fun d v => { d with reference := some v }) d,
     .of "reason" Draft.reason (fun d v => { d with reason := some v }) Reason.decoder,
     .of "target_class_location" Draft.location (fun d v => { d with location := some v })
      (.option Path.decoder)]
    {}
    fun d => do return (← d.reference, ← d.reason, d.location.getD none)

/-- Reads a broken reference. -/
def decoder (d : Json.Decoder Mispairing ρ) : Json.Decoder Mispairing (BrokenReference ρ) :=
  fun levels r => do
    let (reference, reason, location) ← recordDecoder d levels r
    match Cause.ofPair reason location with
    | .ok cause => return ⟨reference, cause⟩
    | .error mistake => throw (.refused mistake)

end BrokenReference

end Linkage
