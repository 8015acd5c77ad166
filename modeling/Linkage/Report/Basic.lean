import Linkage.Reference.Basic
import Linkage.Report.BrokenReference

/-!
# Reports

Linkage reports: the broken references of one artifact, by kind, and the reports of all artifacts
that were checked, in the order of the class path.
-/

namespace Linkage

/-- The broken references of one artifact. -/
structure ArtifactReport where
  /-- The artifact. -/
  artifact : Path
  /-- Broken references to classes. -/
  classes : List (BrokenReference ClassReference)
  /-- Broken references to methods. -/
  methods : List (BrokenReference MethodReference)
  /-- Broken references to fields. -/
  fields : List (BrokenReference FieldReference)
  deriving DecidableEq, Repr, Inhabited

/-- The reports of a class path. -/
structure ClassPathReport where
  /-- One report for each artifact checked. -/
  artifacts : List ArtifactReport
  deriving DecidableEq, Repr, Inhabited

namespace ArtifactReport

/-- The report of some outcomes: the broken ones, in order. -/
def ofOutcomes (artifact : Path) (classes : List (ClassReference × Outcome))
    (methods : List (MethodReference × Outcome)) (fields : List (FieldReference × Outcome)) :
    ArtifactReport :=
  ⟨artifact, BrokenReference.ofOutcomes classes, BrokenReference.ofOutcomes methods,
    BrokenReference.ofOutcomes fields⟩

/-- How many references are broken. -/
def total (r : ArtifactReport) : Nat :=
  r.classes.length + r.methods.length + r.fields.length

/-- Is nothing broken? -/
def isClean (r : ArtifactReport) : Bool := r.total == 0

/-- The broken references in words: to classes, to methods, to fields. -/
def lines (r : ArtifactReport) : List String :=
  r.classes.map (·.text ClassReference.text) ++ r.methods.map (·.text MethodReference.text)
    ++ r.fields.map (·.text FieldReference.text)

/-- The report in words: a heading, then a line for each broken reference. -/
def text (r : ArtifactReport) : String :=
  let name := r.artifact.fileName
  let total := r.total
  s!"{name} ({total} errors):\n" ++ String.join (r.lines.map fun line => "  " ++ line ++ "\n")

/-- The report by field names. -/
def toJson (r : ArtifactReport) : Json :=
  .object [("artifact_path", r.artifact.toJson),
    ("missing_class_errors", .ofList (·.toJson ClassReference.toJson) r.classes),
    ("missing_method_errors", .ofList (·.toJson MethodReference.toJson) r.methods),
    ("missing_field_errors", .ofList (·.toJson FieldReference.toJson) r.fields)]

/-- A report that is being read, with what stands for a broken reference.  Each part is absent until
it is read. -/
structure Draft (β : Type → Type) where
  /-- The artifact. -/
  artifact : Option Path := none
  /-- Broken references to classes. -/
  classes : Option (List (β ClassReference)) := none
  /-- Broken references to methods. -/
  methods : Option (List (β MethodReference)) := none
  /-- Broken references to fields. -/
  fields : Option (List (β FieldReference)) := none

/-- Reads the parts of a report, given how a broken reference is read and what they make up. -/
def recordDecoder {α : Type} {β : Type → Type}
    (broken : {ρ : Type} → Json.Decoder Mispairing ρ → Json.Decoder Mispairing (β ρ))
    (make : Path → List (β ClassReference) → List (β MethodReference) →
      List (β FieldReference) → α) :
    Json.Decoder Mispairing α :=
  .record .all
    [.of "artifact_path" Draft.artifact (fun d v => { d with artifact := some v }) Path.decoder,
     .of "missing_class_errors" Draft.classes (fun d v => { d with classes := some v })
      (.list (broken ClassReference.decoder)),
     .of "missing_method_errors" Draft.methods (fun d v => { d with methods := some v })
      (.list (broken MethodReference.decoder)),
     .of "missing_field_errors" Draft.fields (fun d v => { d with fields := some v })
      (.list (broken FieldReference.decoder))]
    {}
    fun d => do return make (← d.artifact) (← d.classes) (← d.methods) (← d.fields)

/-- Reads a report. -/
def decoder : Json.Decoder Mispairing ArtifactReport :=
  recordDecoder BrokenReference.decoder ArtifactReport.mk

end ArtifactReport

namespace ClassPathReport

/-- How many references are broken in all. -/
def total (r : ClassPathReport) : Nat :=
  r.artifacts.foldr (fun a n => a.total + n) 0

/-- The first report of an artifact, if it was checked. -/
def reportFor? (r : ClassPathReport) (artifact : Path) : Option ArtifactReport :=
  r.artifacts.find? fun a => a.artifact.sameAs artifact

/-- The reports in words, one after the other. -/
def text (r : ClassPathReport) : String :=
  String.join (r.artifacts.map ArtifactReport.text)

/-- The reports by name. -/
def toJson (r : ClassPathReport) : Json :=
  .object [("jar_reports", .ofList ArtifactReport.toJson r.artifacts)]

/-- Reports that are being read; absent until they are. -/
structure Draft (β : Type) where
  /-- The reports. -/
  artifacts : Option (List β) := none

/-- Reads the reports of a class path, given how one is read and what they make up. -/
def recordDecoder {α β : Type} (report : Json.Decoder Mispairing β) (make : List β → α) :
    Json.Decoder Mispairing α :=
  .record .all
    [.of "jar_reports" Draft.artifacts (fun _ v => { artifacts := some v }) (.list report)]
    {}
    fun d => do return make (← d.artifacts)

/-- Reads the reports of a class path. -/
def decoder : Json.Decoder Mispairing ClassPathReport :=
  recordDecoder ArtifactReport.decoder ClassPathReport.mk

end ClassPathReport

end Linkage
