import Linkage.Proofs.Artifacts
import Linkage.Proofs.Audit.Inspection
import Linkage.Proofs.ClassPath.FirstMatch
import Linkage.Proofs.Tallies

/-!
# An audit reports exactly what is broken

What the audit of an artifact has to report, said by the entries of the artifact and by what a
fresh linker makes of each reference.  A report lists the broken references of each kind, ascending
and each once, with the cause a fresh linker gives.  An audit without a report has met an obstacle,
and tells of the first: listing comes before reading, reading before extracting, extracting before
resolving methods, and that before resolving fields; of several obstacles of one kind the least
counts.

* `ListsBroken`: what a list of broken references has to be.
* `Obstacle`: what an audit fails with.
* `auditArtifact_single`: the report on an archive with one class.
* `auditArtifact_exact`: audits do as these say.
-/

namespace Linkage

/-! ## Failures of a linker -/

/-- An inquiry fails only as one of its questions does. -/
theorem Inquiry.exists_of_run_eq_error {α ε : Type}
    {lookUp : ClassName → Except ε (Option ClassView)} {x : Inquiry α} {e : ε}
    (h : x.run lookUp = .error e) : ∃ name, lookUp name = .error e := by
  induction x with
  | done a => cases h
  | ask name next ih =>
    rcases except_bind_eq_error_iff.mp h with h | ⟨answer, -, h⟩
    · exact ⟨name, h⟩
    · exact ih answer h

theorem ClassIndex.load_of_answer_eq_error {t : FileTree} {i : ClassIndex} {name : ClassName}
    {failure : Failure} (h : i.answer t name = .error failure) :
    ∃ cause, failure = .artifact cause ∧ i.load t name = .error (.artifact cause) := by
  cases hview : i.view? t name with
  | ok answer =>
    rw [answer_of_view?_ok hview] at h
    cases h
  | error cause =>
    rw [answer_of_view?_error hview] at h
    cases h
    exact ⟨cause, rfl, by simp [load, hview]⟩

namespace Audit

/-! ## What is read and what is made of it -/

/-- An entry of the artifact is read as the class `c`. -/
def ClassAt (t : FileTree) (i : ClassIndex) (l : Listing) (e : String) (c : ClassView) : Prop :=
  l.artifact.Holds t i.dialect e ∧ l.artifact.view t i.dialect i.limit e = .ok c

/-- A class of the artifact makes the reference. -/
def Makes (t : FileTree) (i : ClassIndex) (l : Listing) (r : Reference) : Prop :=
  ∃ e c refs, ClassAt t i l e c ∧ c.references = .ok refs ∧ r ∈ refs.toList

/-- An entry of the artifact cannot be read. -/
def Unreadable (t : FileTree) (i : ClassIndex) (l : Listing) (e : String) : Prop :=
  l.artifact.Holds t i.dialect e ∧ ∃ cause, l.artifact.view t i.dialect i.limit e = .error cause

/-- An entry of the artifact holds a class that declares a malformed descriptor. -/
def Unscannable (t : FileTree) (i : ClassIndex) (l : Listing) (e : String) : Prop :=
  ∃ c, ClassAt t i l e c ∧ c.Malformed

/-- A reference of the artifact cannot be resolved, since a class fails to load. -/
def Unresolvable (t : FileTree) (i : ClassIndex) (l : Listing) (r : Reference) : Prop :=
  Makes t i l r ∧ ∃ name cause, i.load t name = .error (.artifact cause)
    ∧ resolution t i r = .error (.artifact cause)

/-! ## What an audit has to give -/

/-- The list holds the broken references of a kind that the artifact makes, ascending and each
once, with the cause a fresh linker gives. -/
structure ListsBroken {ρ : Type} (t : FileTree) (i : ClassIndex) (l : Listing)
    (wrap : ρ → Reference) (le : ρ → ρ → Bool) (bs : List (BrokenReference ρ)) : Prop where
  /-- Ascending, each once. -/
  ascending : StrictlyAscending le (bs.map BrokenReference.reference)
  /-- The broken ones and no others. -/
  mem_iff : ∀ b, b ∈ bs ↔
    Makes t i l (wrap b.reference) ∧ resolution t i (wrap b.reference) = .ok (.broken b.cause)

/-- The report of an artifact. -/
structure Reports (t : FileTree) (i : ClassIndex) (l : Listing) (report : ArtifactReport) :
    Prop where
  /-- It is about the artifact. -/
  artifact : report.artifact = l.artifact.path
  /-- Broken references to classes. -/
  classes : ListsBroken t i l .toClass ClassReference.le report.classes
  /-- Broken references to methods. -/
  methods : ListsBroken t i l .toMethod MethodReference.le report.methods
  /-- Broken references to fields. -/
  fields : ListsBroken t i l .toField FieldReference.le report.fields

/-- What an audit fails with if it cannot report. -/
inductive Obstacle (t : FileTree) (i : ClassIndex) (l : Listing) : Failure → Prop where
  /-- The artifact cannot be listed. -/
  | listing {cause : ArtifactFailure} (h : l.artifact.allEntries t = .error cause) :
    Obstacle t i l (.artifact cause)
  /-- The least entry that cannot be read. -/
  | reading {e : String} {cause : ArtifactFailure} (hleast : Least textLe (Unreadable t i l) e)
      (h : l.artifact.view t i.dialect i.limit e = .error cause) : Obstacle t i l (.artifact cause)
  /-- The first malformed descriptor of the class at the least entry with one. -/
  | scanning {e : String} {c : ClassView} {m : MalformedDescriptor}
      (hread : ∀ e, ¬ Unreadable t i l e) (hleast : Least textLe (Unscannable t i l) e)
      (hc : ClassAt t i l e c) (h : c.FirstMalformed m) : Obstacle t i l (.malformedDescriptor m)
  /-- The least reference to a method that cannot be resolved. -/
  | method {r : MethodReference} {failure : Failure} (hread : ∀ e, ¬ Unreadable t i l e)
      (hscan : ∀ e, ¬ Unscannable t i l e)
      (hleast : Least MethodReference.le (fun r => Unresolvable t i l (.toMethod r)) r)
      (h : resolution t i (.toMethod r) = .error failure) : Obstacle t i l failure
  /-- The least reference to a field that cannot be resolved. -/
  | field {r : FieldReference} {failure : Failure} (hread : ∀ e, ¬ Unreadable t i l e)
      (hscan : ∀ e, ¬ Unscannable t i l e) (hmethods : ∀ r, ¬ Unresolvable t i l (.toMethod r))
      (hleast : Least FieldReference.le (fun r => Unresolvable t i l (.toField r)) r)
      (h : resolution t i (.toField r) = .error failure) : Obstacle t i l failure

/-- Something about the artifact keeps it from being reported on. -/
def Faulty (t : FileTree) (i : ClassIndex) (l : Listing) : Prop :=
  (∃ cause, l.artifact.allEntries t = .error cause) ∨ (∃ e, Unreadable t i l e)
    ∨ (∃ e, Unscannable t i l e) ∨ (∃ r, Unresolvable t i l (.toMethod r))
    ∨ ∃ r, Unresolvable t i l (.toField r)

variable {t : FileTree} {i : ClassIndex} {l : Listing}

/-! ## Reading -/

theorem ClassAt.lists {e : String} {c : ClassView} (h : ClassAt t i l e c) :
    ∃ all, l.artifact.allEntries t = .ok all := by
  obtain ⟨⟨all, hall, -⟩, -⟩ := h
  exact ⟨all, hall⟩

theorem Makes.lists {r : Reference} (h : Makes t i l r) :
    ∃ all, l.artifact.allEntries t = .ok all := by
  obtain ⟨e, c, refs, hc, -⟩ := h
  exact hc.lists

theorem viewsOf_eq_error_iff {cause : ArtifactFailure} :
    i.viewsOf t l = .error cause ↔ l.artifact.allEntries t = .error cause
      ∨ ∃ e, l.artifact.view t i.dialect i.limit e = .error cause
        ∧ Least textLe (Unreadable t i l) e := by
  unfold ClassIndex.viewsOf Artifact.views
  rw [except_bind_eq_error_iff, Artifact.entries_eq_error_iff]
  have hleast : ∀ es, l.artifact.entries t i.dialect = .ok es →
      (es.mapM (l.artifact.view t i.dialect i.limit) = .error cause ↔
        ∃ e, l.artifact.view t i.dialect i.limit e = .error cause
          ∧ Least textLe (Unreadable t i l) e) := by
    intro es hes
    rw [mapM_eq_error_iff, firstFailure_iff_least totalOrder_textLe (Artifact.pairwise_entries hes)]
    simp only [Artifact.mem_entries_iff hes]
    rfl
  refine or_congr Iff.rfl ⟨?_, ?_⟩
  · rintro ⟨es, hes, h⟩
    exact (hleast es hes).mp h
  · rintro ⟨e, he, hmin⟩
    obtain ⟨all, hall, -⟩ := hmin.1.1
    obtain ⟨es, hes⟩ := Artifact.exists_entries_iff.mpr ⟨all, hall⟩
    exact ⟨es, hes, (hleast es hes).mpr ⟨e, he, hmin⟩⟩

theorem exists_viewsOf_iff : (∃ classes, i.viewsOf t l = .ok classes) ↔
    (∃ all, l.artifact.allEntries t = .ok all) ∧ ∀ e, ¬ Unreadable t i l e := by
  constructor
  · rintro ⟨classes, hclasses⟩
    obtain ⟨es, hes, hviews⟩ := except_bind_eq_ok_iff.mp hclasses
    refine ⟨Artifact.exists_entries_iff.mp ⟨es, hes⟩, ?_⟩
    rintro e ⟨he, cause, hcause⟩
    obtain ⟨c, hc⟩ := exists_mapM_eq_ok_iff.mp ⟨_, hviews⟩ e ((Artifact.mem_entries_iff hes).mpr he)
    rw [hcause] at hc
    cases hc
  · rintro ⟨⟨all, hall⟩, hread⟩
    cases hclasses : i.viewsOf t l with
    | ok classes => exact ⟨classes, rfl⟩
    | error cause =>
      rcases viewsOf_eq_error_iff.mp hclasses with h | ⟨e, -, hleast⟩
      · rw [hall] at h
        cases h
      · exact absurd hleast.1 (hread e)

section

variable {classes : List ClassView} (hclasses : i.viewsOf t l = .ok classes)

include hclasses

theorem mem_viewsOf_iff {c : ClassView} : c ∈ classes ↔ ∃ e, ClassAt t i l e c := by
  obtain ⟨es, hes, hviews⟩ := except_bind_eq_ok_iff.mp hclasses
  rw [mem_of_mapM_eq_ok hviews]
  simp only [Artifact.mem_entries_iff hes]
  rfl

/-- Extracting fails with the first malformed descriptor of the class at the least entry with
one. -/
theorem allReferences_eq_error_iff_least {m : MalformedDescriptor} :
    Linkage.allReferences classes = .error m ↔
      ∃ e c, ClassAt t i l e c ∧ c.FirstMalformed m ∧ Least textLe (Unscannable t i l) e := by
  obtain ⟨es, hes, hviews⟩ := except_bind_eq_ok_iff.mp hclasses
  have hall : List.Forall₂ (ClassAt t i l) es classes :=
    (List.forall₂_and_left ..).mpr
      ⟨fun e he => (Artifact.mem_entries_iff hes).mp he, mapM_eq_ok_iff.mp hviews⟩
  have hunique : Relator.RightUnique (ClassAt t i l) := by
    rintro e c c' ⟨-, hc⟩ ⟨-, hc'⟩
    rw [hc] at hc'
    cases hc'
    rfl
  rw [allReferences_eq_error_iff,
    firstFailure_iff_least_key totalOrder_textLe hunique (Artifact.pairwise_entries hes) hall]
  simp only [ClassView.references_eq_error_iff]
  refine exists_congr fun e => exists_congr fun c => and_congr_right fun _ =>
    and_congr_right fun _ => least_congr fun e' => ?_
  simp only [Unscannable, ← ClassView.exists_firstMalformed_iff, exists_and_left]
  refine and_iff_right_of_imp ?_
  rintro ⟨c', hc', -⟩
  exact (Artifact.mem_entries_iff hes).mpr hc'.1

theorem exists_allReferences_iff_scannable :
    (∃ refs, Linkage.allReferences classes = .ok refs) ↔ ∀ e, ¬ Unscannable t i l e := by
  rw [exists_allReferences_iff]
  simp only [mem_viewsOf_iff hclasses, Unscannable]
  constructor
  · rintro h e ⟨c, hc, hmalformed⟩
    exact h c ⟨e, hc⟩ hmalformed
  · rintro h c ⟨e, hc⟩ hmalformed
    exact h e ⟨c, hc, hmalformed⟩

theorem mem_references_iff {refs : ReferenceSet} (hrefs : Linkage.allReferences classes = .ok refs)
    {r : Reference} : r ∈ refs.toList ↔ Makes t i l r := by
  rw [mem_allReferences hrefs]
  simp only [mem_viewsOf_iff hclasses, Makes]
  constructor
  · rintro ⟨c, ⟨e, hc⟩, own, hown, hr⟩
    exact ⟨e, c, own, hc, hown, hr⟩
  · rintro ⟨e, c, own, hc, hown, hr⟩
    exact ⟨c, ⟨e, hc⟩, own, hown, hr⟩

end

/-! ## Resolving -/

theorem resolution_toClass (r : ClassReference) :
    resolution t i (.toClass r) = .ok (i.classOutcome r.target) :=
  resolution_eq_run _

theorem load_of_resolution_eq_error {r : Reference} {failure : Failure}
    (h : resolution t i r = .error failure) : ∃ name cause,
      i.load t name = .error (.artifact cause) ∧ failure = .artifact cause := by
  rw [resolution_eq_run] at h
  obtain ⟨name, hname⟩ := Inquiry.exists_of_run_eq_error h
  obtain ⟨cause, hcause, hload⟩ := ClassIndex.load_of_answer_eq_error hname
  exact ⟨name, cause, hload, hcause⟩

theorem unresolvable_iff {r : Reference} : Unresolvable t i l r ↔
    Makes t i l r ∧ ∃ failure, resolution t i r = .error failure := by
  refine and_congr_right fun _ => ⟨?_, ?_⟩
  · rintro ⟨-, cause, -, h⟩
    exact ⟨.artifact cause, h⟩
  · rintro ⟨failure, h⟩
    obtain ⟨name, cause, hload, rfl⟩ := load_of_resolution_eq_error h
    exact ⟨name, cause, hload, h⟩

section

variable {ρ : Type} {wrap : ρ → Reference} {le : ρ → ρ → Bool} {refs : List ρ}

theorem decided_eq_ok_iff {r : ρ} {decision : ρ × Outcome} :
    decided t i wrap r = .ok decision ↔
      decision.1 = r ∧ resolution t i (wrap r) = .ok decision.2 := by
  obtain ⟨r', o⟩ := decision
  unfold decided
  cases resolution t i (wrap r) <;>
    simp [bind, Except.bind, pure, Except.pure, eq_comm]

theorem decided_eq_error_iff {r : ρ} {failure : Failure} :
    decided t i wrap r = .error failure ↔ resolution t i (wrap r) = .error failure := by
  unfold decided
  cases resolution t i (wrap r) <;> simp [bind, Except.bind, pure, Except.pure]

/-- The broken references among those that were decided. -/
theorem mem_ofOutcomes_iff {decisions : List (ρ × Outcome)}
    (h : refs.mapM (decided t i wrap) = .ok decisions) {b : BrokenReference ρ} :
    b ∈ BrokenReference.ofOutcomes decisions ↔
      b.reference ∈ refs ∧ resolution t i (wrap b.reference) = .ok (.broken b.cause) := by
  have hof : ∀ (r : ρ) (o : Outcome),
      BrokenReference.ofOutcome? r o = some b ↔ r = b.reference ∧ o = .broken b.cause := by
    intro r o
    obtain ⟨r', cause⟩ := b
    cases o <;> simp [BrokenReference.ofOutcome?]
  simp only [BrokenReference.ofOutcomes, List.mem_filterMap, mem_of_mapM_eq_ok h,
    decided_eq_ok_iff, hof]
  constructor
  · rintro ⟨⟨r, o⟩, ⟨r', hr', rfl, ho⟩, rfl, rfl⟩
    exact ⟨hr', ho⟩
  · rintro ⟨hb, ho⟩
    exact ⟨(b.reference, .broken b.cause), ⟨b.reference, hb, rfl, ho⟩, rfl, rfl⟩

/-- They stand in the order of the references. -/
theorem map_reference_ofOutcomes_sublist {decisions : List (ρ × Outcome)}
    (h : refs.mapM (decided t i wrap) = .ok decisions) :
    ((BrokenReference.ofOutcomes decisions).map BrokenReference.reference).Sublist refs := by
  rw [mapM_eq_ok_iff] at h
  induction h with
  | nil => exact .slnil
  | @cons r decision refs decisions hr _ ih =>
    obtain ⟨r', o⟩ := decision
    obtain ⟨rfl, -⟩ := decided_eq_ok_iff.mp hr
    cases o with
    | resolved => exact ih.cons _
    | broken cause => exact ih.cons_cons _

variable (hascending : StrictlyAscending le refs)
  (hmem : ∀ r, r ∈ refs ↔ Makes t i l (wrap r))

include hmem

theorem exists_decided_iff : (∃ decisions, refs.mapM (decided t i wrap) = .ok decisions) ↔
    ∀ r, ¬ Unresolvable t i l (wrap r) := by
  rw [exists_mapM_eq_ok_iff]
  simp only [hmem, unresolvable_iff, not_and]
  refine forall_congr' fun r => imp_congr_right fun _ => ?_
  unfold decided
  cases resolution t i (wrap r) <;> simp [bind, Except.bind, pure, Except.pure]

include hascending

theorem listsBroken_of_decided {decisions : List (ρ × Outcome)}
    (h : refs.mapM (decided t i wrap) = .ok decisions) :
    ListsBroken t i l wrap le (BrokenReference.ofOutcomes decisions) where
  ascending := hascending.sublist (map_reference_ofOutcomes_sublist h)
  mem_iff b := by rw [mem_ofOutcomes_iff h, hmem]

/-- Resolving references in order fails with the least that cannot be resolved. -/
theorem decided_eq_error_iff_least (hle : TotalOrder le) {failure : Failure} :
    refs.mapM (decided t i wrap) = .error failure ↔
      ∃ r, resolution t i (wrap r) = .error failure
        ∧ Least le (fun r => Unresolvable t i l (wrap r)) r := by
  have hsorted : refs.Pairwise fun r r' => le r r' = true := hascending.imp And.left
  rw [mapM_eq_error_iff, firstFailure_iff_least hle hsorted]
  simp only [decided_eq_error_iff, hmem, unresolvable_iff]

end

/-! ## The audit -/

section

variable {classes : List ClassView} {refs : ReferenceSet}
  (hclasses : i.viewsOf t l = .ok classes) (hrefs : Linkage.allReferences classes = .ok refs)

include hclasses hrefs

theorem mem_classes_iff (r : ClassReference) : r ∈ refs.classes ↔ Makes t i l (.toClass r) := by
  rw [← mem_references_iff hclasses hrefs, ReferenceSet.toClass_mem_toList]

theorem mem_methods_iff (r : MethodReference) : r ∈ refs.methods ↔ Makes t i l (.toMethod r) := by
  rw [← mem_references_iff hclasses hrefs, ReferenceSet.toMethod_mem_toList]

theorem mem_fields_iff (r : FieldReference) : r ∈ refs.fields ↔ Makes t i l (.toField r) := by
  rw [← mem_references_iff hclasses hrefs, ReferenceSet.toField_mem_toList]

theorem reported_eq_ok {report : ArtifactReport}
    (h : reported t i l.artifact.path refs = .ok report) :
    Reports t i l report ∧ (∀ r, ¬ Unresolvable t i l (.toMethod r))
      ∧ ∀ r, ¬ Unresolvable t i l (.toField r) := by
  have hascends := ascends_allReferences hrefs
  have hmethods := mem_methods_iff hclasses hrefs
  have hfields := mem_fields_iff hclasses hrefs
  obtain ⟨cs, hcs, h⟩ := except_bind_eq_ok_iff.mp h
  obtain ⟨ms, hms, h⟩ := except_bind_eq_ok_iff.mp h
  obtain ⟨fs, hfs, h⟩ := except_bind_eq_ok_iff.mp h
  cases h
  refine ⟨⟨rfl, ?_, ?_, ?_⟩, ?_, ?_⟩
  · exact listsBroken_of_decided hascends.classes (mem_classes_iff hclasses hrefs) hcs
  · exact listsBroken_of_decided hascends.methods hmethods hms
  · exact listsBroken_of_decided hascends.fields hfields hfs
  · exact (exists_decided_iff hmethods).mp ⟨ms, hms⟩
  · exact (exists_decided_iff hfields).mp ⟨fs, hfs⟩

theorem reported_eq_error_iff {failure : Failure} :
    reported t i l.artifact.path refs = .error failure ↔
      (∃ r, resolution t i (.toMethod r) = .error failure
          ∧ Least MethodReference.le (fun r => Unresolvable t i l (.toMethod r)) r)
        ∨ (∀ r, ¬ Unresolvable t i l (.toMethod r)) ∧
          ∃ r, resolution t i (.toField r) = .error failure
            ∧ Least FieldReference.le (fun r => Unresolvable t i l (.toField r)) r := by
  have hascends := ascends_allReferences hrefs
  have hmethods := mem_methods_iff hclasses hrefs
  have hfields := mem_fields_iff hclasses hrefs
  -- references to classes resolve without loading any
  obtain ⟨cs, hcs⟩ := (exists_decided_iff (mem_classes_iff hclasses hrefs)).mpr fun r hr => by
    obtain ⟨-, -, cause, -, h⟩ := hr
    rw [resolution_toClass] at h
    cases h
  unfold reported
  rw [hcs]
  show (refs.methods.mapM (decided t i .toMethod) >>= _) = .error failure ↔ _
  rw [except_bind_eq_error_iff,
    decided_eq_error_iff_least hascends.methods hmethods MethodReference.totalOrder_le,
    ← exists_decided_iff hmethods,
    ← decided_eq_error_iff_least hascends.fields hfields FieldReference.totalOrder_le]
  refine or_congr Iff.rfl ⟨?_, ?_⟩
  · rintro ⟨ms, hms, h⟩
    rcases except_bind_eq_error_iff.mp h with h | ⟨fs, -, h⟩
    · exact ⟨⟨ms, hms⟩, h⟩
    · cases h
  · rintro ⟨⟨ms, hms⟩, h⟩
    exact ⟨ms, hms, except_bind_eq_error_iff.mpr (.inl h)⟩

end

theorem inspected_eq_ok {report : ArtifactReport} {m : Tally}
    (h : inspected t i l = .ok (report, m)) : Reports t i l report ∧ ¬ Faulty t i l
      ∧ ∃ classes refs, i.viewsOf t l = .ok classes ∧ Linkage.allReferences classes = .ok refs
        ∧ m = contribution classes refs report := by
  obtain ⟨classes, hclasses, h⟩ := except_bind_eq_ok_iff.mp h
  obtain ⟨refs, hrefs, h⟩ := except_bind_eq_ok_iff.mp h
  obtain ⟨report', hreport, h⟩ := except_bind_eq_ok_iff.mp h
  cases h
  rw [mapError_eq_ok_iff] at hclasses hrefs
  obtain ⟨hreports, hmethods, hfields⟩ := reported_eq_ok hclasses hrefs hreport
  obtain ⟨⟨all, hall⟩, hread⟩ := exists_viewsOf_iff.mp ⟨classes, hclasses⟩
  have hscan := (exists_allReferences_iff_scannable hclasses).mp ⟨refs, hrefs⟩
  refine ⟨hreports, ?_, classes, refs, hclasses, hrefs, rfl⟩
  rintro (⟨cause, h⟩ | ⟨e, h⟩ | ⟨e, h⟩ | ⟨r, h⟩ | ⟨r, h⟩)
  · rw [hall] at h
    cases h
  · exact hread e h
  · exact hscan e h
  · exact hmethods r h
  · exact hfields r h

theorem inspected_eq_error_iff {failure : Failure} :
    inspected t i l = .error failure ↔ Obstacle t i l failure := by
  unfold inspected
  simp only [except_bind_eq_error_iff, mapError_eq_error_iff, mapError_eq_ok_iff]
  constructor
  · rintro (⟨cause, h, rfl⟩ | ⟨classes, hclasses, h⟩)
    · rcases viewsOf_eq_error_iff.mp h with h | ⟨e, h, hleast⟩
      · exact .listing h
      · exact .reading hleast h
    have hread := (exists_viewsOf_iff.mp ⟨classes, hclasses⟩).2
    rcases h with ⟨m, h, rfl⟩ | ⟨refs, hrefs, h | ⟨report, -, h⟩⟩
    · obtain ⟨e, c, hc, hm, hleast⟩ := (allReferences_eq_error_iff_least hclasses).mp h
      exact .scanning hread hleast hc hm
    · have hscan := (exists_allReferences_iff_scannable hclasses).mp ⟨refs, hrefs⟩
      rcases (reported_eq_error_iff hclasses hrefs).mp h with
        ⟨r, h, hleast⟩ | ⟨hmethods, r, h, hleast⟩
      · exact .method hread hscan hleast h
      · exact .field hread hscan hmethods hleast h
    · cases h
  · intro h
    cases h with
    | listing h => exact .inl ⟨_, viewsOf_eq_error_iff.mpr (.inl h), rfl⟩
    | @reading e _ hleast h => exact .inl ⟨_, viewsOf_eq_error_iff.mpr (.inr ⟨e, h, hleast⟩), rfl⟩
    | @scanning e c _ hread hleast hc h =>
      obtain ⟨classes, hclasses⟩ := exists_viewsOf_iff.mpr ⟨hc.lists, hread⟩
      have hrefs := (allReferences_eq_error_iff_least hclasses).mpr ⟨e, c, hc, h, hleast⟩
      exact .inr ⟨classes, hclasses, .inl ⟨_, hrefs, rfl⟩⟩
    | @method r _ hread hscan hleast h =>
      obtain ⟨classes, hclasses⟩ := exists_viewsOf_iff.mpr ⟨hleast.1.1.lists, hread⟩
      obtain ⟨refs, hrefs⟩ := (exists_allReferences_iff_scannable hclasses).mpr hscan
      exact .inr ⟨classes, hclasses, .inr ⟨refs, hrefs,
        .inl ((reported_eq_error_iff hclasses hrefs).mpr (.inl ⟨r, h, hleast⟩))⟩⟩
    | @field r _ hread hscan hmethods hleast h =>
      obtain ⟨classes, hclasses⟩ := exists_viewsOf_iff.mpr ⟨hleast.1.1.lists, hread⟩
      obtain ⟨refs, hrefs⟩ := (exists_allReferences_iff_scannable hclasses).mpr hscan
      exact .inr ⟨classes, hclasses, .inr ⟨refs, hrefs,
        .inl ((reported_eq_error_iff hclasses hrefs).mpr (.inr ⟨hmethods, r, h, hleast⟩))⟩⟩

/-! ## Obstacles -/

theorem Obstacle.faulty {failure : Failure} (h : Obstacle t i l failure) : Faulty t i l := by
  cases h with
  | listing h => exact .inl ⟨_, h⟩
  | reading hleast _ => exact .inr (.inl ⟨_, hleast.1⟩)
  | scanning _ hleast _ _ => exact .inr (.inr (.inl ⟨_, hleast.1⟩))
  | method _ _ hleast _ => exact .inr (.inr (.inr (.inl ⟨_, hleast.1⟩)))
  | field _ _ _ hleast _ => exact .inr (.inr (.inr (.inr ⟨_, hleast.1⟩)))

theorem Obstacle.ne_overflow {failure : Failure} (h : Obstacle t i l failure)
    (o : Tally.Overflow) : failure ≠ .overflow o := by
  rintro rfl
  cases h with
  | method _ _ _ h | field _ _ _ _ h =>
    obtain ⟨_, _, -, h⟩ := load_of_resolution_eq_error h
    cases h

/-- Every report is about an artifact of the class path, and is the one due for it. -/
theorem reports_of_auditArtifact {a : Audit} {path : Path} {report : ArtifactReport}
    (h : (a.perform (a.auditArtifact t path)).1 = .ok report) :
    ∃ l, a.index.artifact? path = some l ∧ Reports t a.index l report := by
  cases hl : a.index.artifact? path with
  | none =>
    have hthrow : (a.perform (a.auditArtifact t path)).1 = .error (.notOnClassPath path) := by
      show ((a.auditArtifact t path).run.run ⟨a.tally, #[]⟩).1 = _
      unfold auditArtifact
      rw [hl]
      rfl
    rw [hthrow] at h
    cases h
  | some l =>
    rw [auditArtifact_answer hl] at h
    obtain ⟨⟨report', m⟩, hmade, h⟩ := except_bind_eq_ok_iff.mp h
    obtain ⟨_, -, h⟩ := except_bind_eq_ok_iff.mp h
    cases h
    exact ⟨l, rfl, (inspected_eq_ok hmade).1⟩

/-! ## Archives with one class -/

/-- An archive with one entry, as listed. -/
def singleListing (archive entry : String) (bytes : Bytes) : Listing :=
  ⟨⟨⟨archive⟩, some [⟨entry, bytes, false⟩]⟩, [entry]⟩

/-- An audit of the listings. -/
def ofListings (dialect : ClassFile.Dialect) (listings : List Listing) : Audit :=
  ⟨.ofListings {} dialect 100 listings, {}, .zero⟩

theorem definer?_ofListings (dialect : ClassFile.Dialect) (listings : List Listing)
    (name : ClassName) : (ofListings dialect listings).index.definer? name
      = (listings.findSome? fun l => l.place? name).map fun place => place.artifact.path := by
  rw [ClassIndex.definer?, ofListings, ClassIndex.ofListings_places]

section

variable {t : FileTree} {dialect : ClassFile.Dialect} {archive entry : String} {bytes : Bytes}

theorem entries_single (hentry : dialect.lists entry = true) :
    (singleListing archive entry bytes).artifact.entries t dialect = .ok [entry] := by
  show Except.ok (([entry].filter _).mergeSort textLe) = _
  rw [List.filter_cons_of_pos hentry, List.filter_nil, List.mergeSort_singleton]

theorem view_single {c : ClassView} {limit : Nat} (hsize : bytes.length ≤ limit)
    (hread : dialect.read bytes = .ok c) :
    (singleListing archive entry bytes).artifact.view t dialect limit entry = .ok c :=
  Artifact.view_of_find? (List.find?_cons_of_pos (beq_self_eq_true entry)) hsize rfl hread

/-- The report on an archive with one class is made of what becomes of its references, whatever
stands behind it on the class path. -/
theorem auditArtifact_single (t : FileTree) (dialect : ClassFile.Dialect)
    (archive entry : String) (bytes : Bytes) (more : List Listing) {c : ClassView}
    {refs : ReferenceSet} {report : ArtifactReport} (hentry : dialect.lists entry = true)
    (hsize : bytes.length ≤ 100) (hread : dialect.read bytes = .ok c)
    (hrefs : c.references = .ok refs) :
    let a := ofListings dialect (singleListing archive entry bytes :: more)
    a.index.artifact? ⟨archive⟩ = some (singleListing archive entry bytes)
      ∧ (reported t a.index ⟨archive⟩ refs = .ok report →
        (a.perform (a.auditArtifact t ⟨archive⟩)).1 = .ok report) := by
  intro a
  have hartifact : a.index.artifact? ⟨archive⟩ = some (singleListing archive entry bytes) := by
    simp [a, ofListings, ClassIndex.artifact?, ClassIndex.ofListings, ClassIndex.assemble,
      singleListing, Path.sameAs]
  have hviews : a.index.viewsOf t (singleListing archive entry bytes) = .ok [c] := by
    show ((singleListing archive entry bytes).artifact.entries t dialect >>= _) = _
    rw [entries_single hentry]
    show [entry].mapM ((singleListing archive entry bytes).artifact.view t dialect 100) = _
    rw [List.mapM_cons, view_single hsize hread]
    rfl
  refine ⟨hartifact, fun hreported => ?_⟩
  rw [auditArtifact_answer hartifact,
    inspected_of_reported hviews (allReferences_singleton hrefs) hreported]
  have hcounted : Tally.zero.add (contribution [c] refs report)
      = .ok (contribution [c] refs report) :=
    Tally.zero_add (show 0 < Tally.counterBound * Tally.second by decide)
  show (Tally.zero.add (contribution [c] refs report)).mapError Failure.overflow >>= _ = _
  rw [hcounted]
  rfl

end

/-! ## Audits -/

/-- An audit of an artifact of the class path that gives a report gives the one that is due.  It
fails exactly if something about the artifact is at fault, with the first obstacle; only counters
that do not fit the tally can keep it from reporting on an artifact without fault. -/
theorem auditArtifact_exact (t : FileTree) (a : Audit) (path : Path) (l : Listing)
    (hl : a.index.artifact? path = some l) :
    let result := (a.perform (a.auditArtifact t path)).1
    (∀ report, result = .ok report → Reports t a.index l report)
      ∧ (∀ failure, (∀ o, failure ≠ .overflow o) →
        (result = .error failure ↔ Obstacle t a.index l failure))
      ∧ ((∃ failure, (∀ o, failure ≠ .overflow o) ∧ result = .error failure)
        ↔ Faulty t a.index l)
      ∧ (¬ Faulty t a.index l → ∃ classes refs report, a.index.viewsOf t l = .ok classes
        ∧ Linkage.allReferences classes = .ok refs ∧ Reports t a.index l report
        ∧ result = match a.tally.add (contribution classes refs report) with
          | .ok _ => .ok report
          | .error o => .error (.overflow o)) := by
  intro result
  refine ⟨fun report h => ?_, ?_⟩
  · obtain ⟨l', hl', hreports⟩ := reports_of_auditArtifact h
    rw [hl] at hl'
    cases hl'
    exact hreports
  have hanswer : result = _ := auditArtifact_answer hl
  cases hmade : inspected t a.index l with
  | error failure =>
    have hresult : result = .error failure := by rw [hanswer, hmade]; rfl
    have hobstacle := inspected_eq_error_iff.mp hmade
    simp only [hresult, ← inspected_eq_error_iff, hmade]
    refine ⟨fun _ _ => ?_, ?_, fun h => absurd hobstacle.faulty h⟩
    · simp
    · exact iff_of_true ⟨failure, hobstacle.ne_overflow, rfl⟩ hobstacle.faulty
  | ok made =>
    obtain ⟨report, m⟩ := made
    obtain ⟨hreports, hclean, classes, refs, hclasses, hrefs, rfl⟩ := inspected_eq_ok hmade
    have hresult : result = match a.tally.add (contribution classes refs report) with
        | .ok _ => .ok report
        | .error o => .error (.overflow o) := by
      rw [hanswer, hmade]
      show (a.tally.add (contribution classes refs report)).mapError Failure.overflow
        >>= (fun _ => .ok report) = _
      cases a.tally.add (contribution classes refs report) <;> rfl
    have hnot : ∀ failure, (∀ o, failure ≠ .overflow o) → result ≠ .error failure := by
      intro failure hfailure h
      rw [hresult] at h
      cases hsum : a.tally.add (contribution classes refs report) with
      | ok sum =>
        rw [hsum] at h
        cases h
      | error o =>
        rw [hsum] at h
        cases h
        exact hfailure o rfl
    refine ⟨?_, ?_, fun _ => ⟨classes, refs, report, hclasses, hrefs, hreports, hresult⟩⟩
    · intro failure hfailure
      exact iff_of_false (hnot failure hfailure) fun h => hclean h.faulty
    · refine iff_of_false ?_ hclean
      rintro ⟨failure, hfailure, h⟩
      exact hnot failure hfailure h

/-! An archive with several faults: in the order of its entries a class with a malformed
descriptor, an entry that is corrupt and one that is no class file.  Metadata is left out. -/

/-- The archive. -/
def damagedArchive : Artifact :=
  ⟨⟨"d.jar"⟩, some [⟨"c/C.class", [], false⟩, ⟨"META-INF/A.class", [], true⟩,
    ⟨"b/B.class", [0], true⟩, ⟨"a/A.class", [0], false⟩]⟩

/-- Its only class. -/
def damagedRead : Bytes → Except ClassFile.Fault ClassView
  | [] => .error .unexpectedEnd
  | _ => .ok ⟨"a.A", none, [], ⟨1⟩, [], [⟨"m", "(", ⟨1⟩⟩], [], [], [], []⟩

/-- The archive as listed. -/
def damagedListing : Listing :=
  ⟨damagedArchive, ["a/A.class", "b/B.class", "c/C.class"]⟩

/-- An audit of the archive. -/
def damagedAudit : Audit where
  index :=
    { images := []
      artifacts := [damagedListing]
      places := ((∅ : Places).insert "a.A" ⟨damagedArchive, "a/A.class"⟩).insert "b.B"
        ⟨damagedArchive, "b/B.class"⟩ |>.insert "c.C" ⟨damagedArchive, "c/C.class"⟩
      platform := {}
      dialect := ⟨ClassFile.Dialect.acceptsClassFile, damagedRead⟩
      limit := 100 }
  settings := {}
  tally := .zero

theorem damaged_holds_iff {t : FileTree} {e : String} :
    damagedListing.artifact.Holds t damagedAudit.index.dialect e
      ↔ e ∈ ["c/C.class", "b/B.class", "a/A.class"] := by
  have hall : damagedListing.artifact.allEntries t
      = .ok ["c/C.class", "META-INF/A.class", "b/B.class", "a/A.class"] := rfl
  have hlists : ["c/C.class", "META-INF/A.class", "b/B.class", "a/A.class"].filter
      damagedAudit.index.dialect.lists = ["c/C.class", "b/B.class", "a/A.class"] := by decide
  rw [← hlists, List.mem_filter]
  simp only [Artifact.Holds, hall, Except.ok.injEq, exists_eq_left']

/-! An archive whose only class extends a class that may be missing. -/

/-- The class. -/
def awaitingView : ClassView :=
  ⟨"p.S", some "q.Gone", [], ⟨1⟩, [], [], [], [], [], []⟩

/-- The class and its superclass, by the byte that stands for each. -/
def awaitingRead : Bytes → Except ClassFile.Fault ClassView
  | [0] => .ok awaitingView
  | _ => .ok ⟨"q.Gone", none, [], ⟨1⟩, [], [], [], [], [], []⟩

/-- How they are read. -/
def awaitingDialect : ClassFile.Dialect := ⟨ClassFile.Dialect.acceptsClassFile, awaitingRead⟩

/-- The archive of the class. -/
def awaitingListing : Listing := singleListing "a.jar" "p/S.class" [0]

/-- An audit of the archive of the class with others behind it. -/
def awaitingAudit (more : List Listing) : Audit :=
  ofListings awaitingDialect (awaitingListing :: more)

/-- The class refers to its superclass and nothing else. -/
theorem awaiting_audit (more : List Listing) (t : FileTree) :
    let a := awaitingAudit more
    a.index.artifact? ⟨"a.jar"⟩ = some awaitingListing
      ∧ (a.perform (a.auditArtifact t ⟨"a.jar"⟩)).1 = .ok (.ofOutcomes ⟨"a.jar"⟩
        [(⟨"p.S", "q.Gone"⟩, a.index.classOutcome "q.Gone")] [] []) := by
  intro a
  have hascends : (⟨[⟨"p.S", "q.Gone"⟩], [], []⟩ : ReferenceSet).Ascends :=
    ⟨by decide, by decide, by decide⟩
  have hrefs : awaitingView.references = .ok ⟨[⟨"p.S", "q.Gone"⟩], [], []⟩ :=
    congrArg Except.ok hascends.ofLists_eq
  obtain ⟨hartifact, haudit⟩ := auditArtifact_single t awaitingDialect "a.jar" "p/S.class" [0] more
    (by decide) (by decide) rfl hrefs
  refine ⟨hartifact, haudit ?_⟩
  simp only [reported, decided, List.mapM_cons, List.mapM_nil, resolution_toClass]
  rfl

/-- Without its own archive the superclass is missing. -/
theorem awaiting_gone :
    (awaitingAudit []).index.classOutcome "q.Gone" = .broken .classNotFound := by
  have hundefined : (awaitingAudit []).index.contains "q.Gone" = false := by
    rw [ClassIndex.contains_eq_isSome_definer?, awaitingAudit, definer?_ofListings]
    decide
  rw [ClassIndex.classOutcome, ClassIndex.assumes, hundefined]
  rfl

/-- The audit of the one archive tells of the corrupt entry, that of the other lists the missing
superclass. -/
theorem auditArtifact_exact_damaged :
    let t : FileTree := ⟨[], []⟩
    let report : ArtifactReport := ⟨⟨"a.jar"⟩, [⟨⟨"p.S", "q.Gone"⟩, .classNotFound⟩], [], []⟩
    damagedAudit.index.artifact? ⟨"d.jar"⟩ = some damagedListing
      ∧ (damagedAudit.perform (damagedAudit.auditArtifact t ⟨"d.jar"⟩)).1
        = .error (.artifact (.unreadable ⟨"d.jar"⟩ .checksum))
      ∧ (awaitingAudit []).index.artifact? ⟨"a.jar"⟩ = some awaitingListing
      ∧ ((awaitingAudit []).perform ((awaitingAudit []).auditArtifact t ⟨"a.jar"⟩)).1 = .ok report
      ∧ Reports t (awaitingAudit []).index awaitingListing report := by
  intro t report
  have hl : damagedAudit.index.artifact? ⟨"d.jar"⟩ = some damagedListing := by
    simp [ClassIndex.artifact?, damagedAudit, damagedListing, damagedArchive, Path.sameAs]
  have hfails := (auditArtifact_exact t damagedAudit ⟨"d.jar"⟩ damagedListing hl).2.1
  have hdamaged : (damagedAudit.perform (damagedAudit.auditArtifact t ⟨"d.jar"⟩)).1
      = .error (.artifact (.unreadable ⟨"d.jar"⟩ .checksum)) := by
    refine (hfails _ (by simp)).mpr (.reading (e := "b/B.class") ⟨⟨?_, _, rfl⟩, ?_⟩ rfl)
    · exact damaged_holds_iff.mpr (by simp)
    · rintro e ⟨he, cause, hcause⟩
      rw [damaged_holds_iff] at he
      simp only [List.mem_cons, List.not_mem_nil, or_false] at he
      rcases he with rfl | rfl | rfl
      · decide
      · decide
      · cases hcause
  obtain ⟨hawaiting, haudit⟩ := awaiting_audit [] t
  rw [awaiting_gone] at haudit
  exact ⟨hl, hdamaged, hawaiting, haudit,
    (auditArtifact_exact t (awaitingAudit []) ⟨"a.jar"⟩ awaitingListing hawaiting).1 report haudit⟩

end Audit

end Linkage
