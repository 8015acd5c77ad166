import Linkage.Proofs.Json.Trees
import Linkage.Proofs.Reports
import Linkage.Report.Export

/-!
# Exported reports lose nothing

A report is exported with sorted names, places as locations and one item a line.  All of this can
be undone, so different reports have different texts, whatever the names in them look like.  The
totals a text states are those of the errors it lists.

* `BrokenReference.exported_injective`: an exported error tells the reference, the reason and the
  place.
* `Reading.StatesTotal`: a total that is stated is the number of errors below it.
* `exports_faithful`: both for whole texts.
-/

namespace Linkage

open Json

/-! ## Telling reports apart -/

theorem Path.location_injective : Function.Injective fun p : Path => Json.string p.location := by
  rintro ⟨s⟩ ⟨s'⟩ h
  have htext : "file:" ++ s = "file:" ++ s' := Json.string.inj h
  simpa using htext

theorem BrokenReference.exported_injective {ρ : Type} {members : ρ → List (String × Json)}
    (names : List String) (hnames : ∀ r, (members r).map Prod.fst = names) (hnodup : names.Nodup)
    (hmembers : Function.Injective members) :
    Function.Injective (exported members) := by
  refine sortedObject_injective ["reference", "reason", "target_class_location"] (fun _ => rfl)
    (by decide) ?_
  rintro ⟨r, c⟩ ⟨r', c'⟩ h
  simp only [List.cons.injEq, Prod.mk.injEq, true_and, and_true] at h
  obtain ⟨hreference, hreason, hplace⟩ := h
  have hr : r = r' := sortedObject_injective names hnames hnodup hmembers hreference
  have hreason := (Reason.inverts_decoder (ε := Empty)).injective hreason
  have hplace := Json.ofOption_injective Path.location_injective (by simp) hplace
  rw [hr, Cause.eq_of_pair hreason hplace]

theorem ClassReference.exported_injective :
    Function.Injective (BrokenReference.exported ClassReference.members) :=
  BrokenReference.exported_injective ["source_class_name", "target_class_name"] (fun _ => rfl)
    (by decide) fun _ _ h => (inverts_decoder (ε := Empty)).injective (congrArg Json.object h)

theorem MethodReference.exported_injective :
    Function.Injective (BrokenReference.exported MethodReference.members) :=
  BrokenReference.exported_injective
    ["source_class_name", "target_class_name", "method_name", "descriptor"] (fun _ => rfl)
    (by decide) fun _ _ h => (inverts_decoder (ε := Empty)).injective (congrArg Json.object h)

theorem FieldReference.exported_injective :
    Function.Injective (BrokenReference.exported FieldReference.members) :=
  BrokenReference.exported_injective ["source_class_name", "target_class_name", "field_name"]
    (fun _ => rfl) (by decide) fun _ _ h =>
      (inverts_decoder (ε := Empty)).injective (congrArg Json.object h)

theorem ArtifactReport.exported_injective : Function.Injective exported := by
  refine sortedObject_injective
    ["artifact", "total_errors", "class_errors", "method_errors", "field_errors"] (fun _ => rfl)
    (by decide) ?_
  rintro ⟨p, cs, ms, fs⟩ ⟨p', cs', ms', fs'⟩ h
  simp only [List.cons.injEq, Prod.mk.injEq, true_and, and_true] at h
  obtain ⟨hpath, -, hclasses, hmethods, hfields⟩ := h
  have hpath : p = p' := (Path.inverts_decoder (ε := Empty)).injective hpath
  have hclasses : cs = cs' := ofList_injective ClassReference.exported_injective hclasses
  have hmethods : ms = ms' := ofList_injective MethodReference.exported_injective hmethods
  have hfields : fs = fs' := ofList_injective FieldReference.exported_injective hfields
  rw [hpath, hclasses, hmethods, hfields]

theorem ClassPathReport.exported_injective : Function.Injective exported := by
  refine sortedObject_injective ["total_errors", "reports"] (fun _ => rfl) (by decide) ?_
  rintro ⟨rs⟩ ⟨rs'⟩ h
  simp only [List.cons.injEq, Prod.mk.injEq, true_and, and_true] at h
  rw [ofList_injective ArtifactReport.exported_injective h.2]

/-! ## Totals -/

/-- If the tree states a total, it is the number of errors in it: of objects that give a reason. -/
def Json.Reading.StatesTotal (r : Reading) : Prop :=
  ∀ stated, (some "total_errors", stated) ∈ r.ownMembers →
    ∃ n, stated = .number n ∧ n.natural? = some (r.objectsWith "reason")

theorem Json.Reading.statesTotal_of_not_has {r : Reading} (h : r.has "total_errors" = false) :
    r.StatesTotal := by
  intro stated hstated
  rw [Reading.has, List.any_eq_false] at h
  exact absurd (beq_self_eq_true _) (h _ hstated)

/-- An object states a total if that is a number and the number of errors in its members. -/
theorem statesTotal_sortedObject {ms : List (String × Json)}
    (h : ∀ v, ("total_errors", v) ∈ ms →
      v = .number ((sortedObject ms).reading.objectsWith "reason")) :
    (sortedObject ms).reading.StatesTotal := by
  intro stated hstated
  obtain ⟨v, hv, rfl⟩ := mem_ownMembers_sortedObject.mp hstated
  exact ⟨_, congrArg Json.reading (h v hv), Numeral.natural?_ofNat _⟩

/-- The names by which errors and totals are known. -/
def countedNames : List String := ["reason", "total_errors"]

theorem mem_countedNames {name : String} :
    name ∈ countedNames ↔ name = "reason" ∨ name = "total_errors" := by
  simp [countedNames]

/-- The members of a reference: texts, none of them a reason or a total. -/
def PlainMembers (ms : List (String × Json)) : Prop :=
  ∀ m ∈ ms, m.1 ∉ countedNames ∧ ∃ s, m.2 = .string s

theorem PlainMembers.objectsWith {ms : List (String × Json)} (h : PlainMembers ms) {name : String}
    (hname : name ∈ countedNames) : (sortedObject ms).reading.objectsWith name = 0 := by
  have hvalues : (ms.map fun m => m.2.reading.objectsWith name).sum = 0 := by
    refine List.sum_eq_zero_iff_forall_eq_nat.mpr fun n hn => ?_
    obtain ⟨m, hm, rfl⟩ := List.mem_map.mp hn
    obtain ⟨-, s, hs⟩ := h m hm
    rw [hs, objectsWith_string]
  have habsent : name ∉ ms.map Prod.fst := by
    intro hmem
    obtain ⟨m, hm, rfl⟩ := List.mem_map.mp hmem
    exact (h m hm).1 hname
  rw [objectsWith_sortedObject, hvalues, if_neg habsent]

theorem PlainMembers.throughout {ms : List (String × Json)} (h : PlainMembers ms) :
    (sortedObject ms).reading.Throughout Reading.StatesTotal := by
  refine throughout_sortedObject.mpr ⟨statesTotal_sortedObject fun v hv => ?_, fun m hm => ?_⟩
  · exact absurd (mem_countedNames.mpr (.inr rfl)) (h _ hv).1
  · obtain ⟨-, s, hs⟩ := h m hm
    rw [hs, throughout_string]
    exact Reading.statesTotal_of_not_has rfl

namespace BrokenReference

variable {ρ : Type} {members : ρ → List (String × Json)} (hplain : ∀ r, PlainMembers (members r))

include hplain

/-- An exported error is one error and states no total. -/
theorem objectsWith_exported (b : BrokenReference ρ) {name : String}
    (hname : name ∈ countedNames) :
    (b.exported members).reading.objectsWith name = if name = "reason" then 1 else 0 := by
  have hplace : (ofOption (fun p => Json.string p.location) b.cause.location?).reading.objectsWith
      name = 0 := by
    cases b.cause.location? <;> rfl
  have hreason : b.cause.reason.toJson.reading.objectsWith name = 0 := rfl
  rw [exported, objectsWith_sortedObject]
  simp only [List.map_cons, List.map_nil, List.sum_cons, List.sum_nil,
    (hplain b.reference).objectsWith hname, hreason, hplace]
  rcases mem_countedNames.mp hname with rfl | rfl <;> simp

theorem throughout_exported (b : BrokenReference ρ) :
    (b.exported members).reading.Throughout Reading.StatesTotal := by
  refine throughout_sortedObject.mpr ⟨statesTotal_sortedObject (by simp), ?_⟩
  simp only [List.forall_mem_cons, List.not_mem_nil, false_implies, implies_true, and_true]
  refine ⟨(hplain b.reference).throughout, ?_, ?_⟩
  · rw [Reason.toJson, throughout_string]
    exact Reading.statesTotal_of_not_has rfl
  · cases b.cause.location? with
    | none => exact throughout_null.mpr (Reading.statesTotal_of_not_has rfl)
    | some p => exact throughout_string.mpr (Reading.statesTotal_of_not_has rfl)

/-- Exported errors are as many errors and state no totals. -/
theorem objectsWith_ofList_exported (bs : List (BrokenReference ρ)) {name : String}
    (hname : name ∈ countedNames) :
    (ofList (exported members) bs).reading.objectsWith name
      = if name = "reason" then bs.length else 0 := by
  rw [objectsWith_ofList, List.map_congr_left fun b _ => objectsWith_exported hplain b hname]
  split <;> simp

theorem throughout_ofList_exported (bs : List (BrokenReference ρ)) :
    (ofList (exported members) bs).reading.Throughout Reading.StatesTotal :=
  throughout_ofList.mpr
    ⟨Reading.statesTotal_of_not_has rfl, fun b _ => throughout_exported hplain b⟩

end BrokenReference

theorem ClassReference.plainMembers (r : ClassReference) : PlainMembers r.members := by
  simp [PlainMembers, members, countedNames]

theorem MethodReference.plainMembers (r : MethodReference) : PlainMembers r.members := by
  simp [PlainMembers, members, countedNames]

theorem FieldReference.plainMembers (r : FieldReference) : PlainMembers r.members := by
  simp [PlainMembers, members, countedNames]

namespace ArtifactReport

/-- An exported report holds all its errors and states one total. -/
theorem objectsWith_exported (r : ArtifactReport) {name : String} (hname : name ∈ countedNames) :
    r.exported.reading.objectsWith name = if name = "reason" then r.total else 1 := by
  have hartifact : r.artifact.toJson.reading.objectsWith name = 0 := rfl
  have hclasses := BrokenReference.objectsWith_ofList_exported ClassReference.plainMembers
    r.classes hname
  have hmethods := BrokenReference.objectsWith_ofList_exported MethodReference.plainMembers
    r.methods hname
  have hfields := BrokenReference.objectsWith_ofList_exported FieldReference.plainMembers
    r.fields hname
  rw [exported, objectsWith_sortedObject]
  simp only [List.map_cons, List.map_nil, List.sum_cons, List.sum_nil, hartifact,
    objectsWith_number, hclasses, hmethods, hfields, total]
  rcases mem_countedNames.mp hname with rfl | rfl
  · simp [Nat.add_assoc]
  · simp

theorem throughout_exported (r : ArtifactReport) :
    r.exported.reading.Throughout Reading.StatesTotal := by
  refine throughout_sortedObject.mpr ⟨statesTotal_sortedObject fun v hv => ?_, ?_⟩
  · have htotal := r.objectsWith_exported (mem_countedNames.mpr (.inl rfl))
    rw [if_pos rfl, exported] at htotal
    rw [htotal]
    simpa using hv
  · simp only [List.forall_mem_cons, List.not_mem_nil, false_implies, implies_true, and_true]
    refine ⟨?_, ?_, ?_, ?_, ?_⟩
    · exact throughout_string.mpr (Reading.statesTotal_of_not_has rfl)
    · exact throughout_number.mpr (Reading.statesTotal_of_not_has rfl)
    · exact BrokenReference.throughout_ofList_exported ClassReference.plainMembers r.classes
    · exact BrokenReference.throughout_ofList_exported MethodReference.plainMembers r.methods
    · exact BrokenReference.throughout_ofList_exported FieldReference.plainMembers r.fields

end ArtifactReport

namespace ClassPathReport

theorem total_eq_sum (r : ClassPathReport) :
    r.total = (r.artifacts.map ArtifactReport.total).sum := by
  rw [List.sum_eq_foldr, List.foldr_map]
  rfl

/-- The exported reports of a class path hold all their errors and state a total each, and one
more. -/
theorem objectsWith_exported (r : ClassPathReport) {name : String} (hname : name ∈ countedNames) :
    r.exported.reading.objectsWith name
      = if name = "reason" then r.total else r.artifacts.length + 1 := by
  rw [exported, objectsWith_sortedObject]
  simp only [List.map_cons, List.map_nil, List.sum_cons, List.sum_nil, objectsWith_number]
  rw [objectsWith_ofList, List.map_congr_left fun a _ => a.objectsWith_exported hname]
  rcases mem_countedNames.mp hname with rfl | rfl
  · simp [total_eq_sum]
  · simp

theorem throughout_exported (r : ClassPathReport) :
    r.exported.reading.Throughout Reading.StatesTotal := by
  refine throughout_sortedObject.mpr ⟨statesTotal_sortedObject fun v hv => ?_, ?_⟩
  · have htotal := r.objectsWith_exported (mem_countedNames.mpr (.inl rfl))
    rw [if_pos rfl, exported] at htotal
    rw [htotal]
    simpa using hv
  · simp only [List.forall_mem_cons, List.not_mem_nil, false_implies, implies_true, and_true]
    refine ⟨throughout_number.mpr (Reading.statesTotal_of_not_has rfl), ?_⟩
    exact throughout_ofList.mpr
      ⟨Reading.statesTotal_of_not_has rfl, fun a _ => a.throughout_exported⟩

end ClassPathReport

/-! ## Texts -/

/-- Reports with one text are one report, with the same artifact and the same errors in the same
order; so are the reports of a class path.  The text of a report is read whole, its errors are those
of the report, and it states one total; the text of a class path states one total more than it has
reports.  Every total that is stated anywhere in a text is the number of errors below it. -/
theorem exports_faithful :
    Function.Injective ArtifactReport.exportText
      ∧ Function.Injective ClassPathReport.exportText
      ∧ (∀ r : ArtifactReport, ∃ tree, Document.ofText r.exportText = ⟨tree, true⟩
        ∧ tree.Throughout Reading.StatesTotal ∧ tree.objectsWith "total_errors" = 1
        ∧ tree.objectsWith "reason" = r.classes.length + r.methods.length + r.fields.length)
      ∧ ∀ r : ClassPathReport, ∃ tree, Document.ofText r.exportText = ⟨tree, true⟩
        ∧ tree.Throughout Reading.StatesTotal
        ∧ tree.objectsWith "total_errors" = r.artifacts.length + 1
        ∧ tree.objectsWith "reason" = (r.artifacts.map ArtifactReport.total).sum := by
  refine ⟨?_, ?_, fun r => ?_, fun r => ?_⟩
  · exact pretty_injective.comp ArtifactReport.exported_injective
  · exact pretty_injective.comp ClassPathReport.exported_injective
  · exact ⟨r.exported.reading, ofText_pretty _, r.throughout_exported,
      r.objectsWith_exported (mem_countedNames.mpr (.inr rfl)),
      r.objectsWith_exported (mem_countedNames.mpr (.inl rfl))⟩
  · exact ⟨r.exported.reading, ofText_pretty _, r.throughout_exported,
      r.objectsWith_exported (mem_countedNames.mpr (.inr rfl)),
      (r.objectsWith_exported (mem_countedNames.mpr (.inl rfl))).trans r.total_eq_sum⟩

end Linkage
