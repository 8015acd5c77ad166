import Linkage.Report.Basic

/-!
# Reports for other programs

Reports as JSON texts with one item a line and names in ascending order.  Places are written as
locations, and every report states how many broken references it holds.
-/

namespace Linkage

/-- A broken reference, its members in ascending order of their names. -/
def BrokenReference.exported {ρ : Type} (members : ρ → List (String × Json))
    (b : BrokenReference ρ) : Json :=
  .sortedObject [("reference", .sortedObject (members b.reference)),
    ("reason", b.cause.reason.toJson),
    ("target_class_location", .ofOption (fun p => .string p.location) b.cause.location?)]

/-- The report of an artifact. -/
def ArtifactReport.exported (r : ArtifactReport) : Json :=
  .sortedObject [("artifact", r.artifact.toJson),
    ("total_errors", .number r.total),
    ("class_errors", .ofList (·.exported ClassReference.members) r.classes),
    ("method_errors", .ofList (·.exported MethodReference.members) r.methods),
    ("field_errors", .ofList (·.exported FieldReference.members) r.fields)]

/-- The report of a class path. -/
def ClassPathReport.exported (r : ClassPathReport) : Json :=
  .sortedObject [("total_errors", .number r.total),
    ("reports", .ofList ArtifactReport.exported r.artifacts)]

/-- The report of an artifact as a text. -/
def ArtifactReport.exportText (r : ArtifactReport) : String := r.exported.pretty

/-- The report of a class path as a text. -/
def ClassPathReport.exportText (r : ClassPathReport) : String := r.exported.pretty

end Linkage
