import Linkage.Proofs.Audit.Exactness
import Linkage.Proofs.ClassFile.Acceptance
import Linkage.Proofs.Resolution.Classification

/-!
# A missing class is missing for every kind of reference

A class file that mentions a member mentions its class too, so a class with a reference to a member
also has one to the class of the member, unless that is the class itself, an array or named like a
primitive type or `void`.  Both come to the same conclusion about whether the class is there.  A
report therefore calls the class of a member missing exactly if it lists the class as missing.

A class file can mention a class named `void`, which is no type of fields.  No reference is made to
it, so the report on a class that mentions a method of it calls a class missing that it does not
list.

* `owner_mem_of_decode`: what a class file mentions.
* `toClass_mem_references`: what is extracted from it.
* `auditArtifact_agrees`: what is reported.
* `void_unlisted`: a class that is called missing and not listed.
-/

namespace Linkage

/-! ## Class files mention the classes of members -/

namespace ClassFile

theorem Pool.owner_mem_of_memberAt {p : Pool} {classRefs : List ClassName}
    (hclasses : List.Forall₂ p.NameAt (p.slots.toList.filterMap Constant.classIndex?) classRefs)
    {indexes : UInt16 × UInt16} {m : MemberMention} (hm : p.MemberAt indexes m) :
    m.owner ∈ classRefs := by
  obtain ⟨⟨nameIndex, text, hslot, htext, howner⟩, -⟩ := hm
  have hindex : nameIndex ∈ p.slots.toList.filterMap Constant.classIndex? := by
    refine List.mem_filterMap.mpr ⟨.classInfo nameIndex, ?_, rfl⟩
    exact Array.mem_toList_iff.mpr (Array.mem_of_getElem? hslot)
  obtain ⟨name, hname, text', htext', rfl⟩ := exists_right_of_forall₂ hclasses hindex
  have hsame : text = text' := by
    have h := htext.symm.trans htext'
    simpa using h
  rwa [howner, hsame]

theorem owner_mem_of_decode {bytes : Bytes} {c : ClassView} (h : decode bytes = .ok c)
    {m : MemberMention} (hm : m ∈ c.methodRefs ∨ m ∈ c.fieldRefs) : m.owner ∈ c.classRefs := by
  obtain ⟨rest, h⟩ := decode_eq_ok_iff.mp h
  obtain ⟨l, -, hl⟩ := exists_layout_of_classFile h
  rcases hm with hm | hm
  · obtain ⟨indexes, -, hat⟩ := exists_left_of_forall₂ hl.methodRefs hm
    exact Pool.owner_mem_of_memberAt hl.classRefs hat
  · obtain ⟨indexes, -, hat⟩ := exists_left_of_forall₂ hl.fieldRefs hm
    exact Pool.owner_mem_of_memberAt hl.classRefs hat

end ClassFile

/-! ## References to members come with references to their classes -/

namespace ClassView

variable {c : ClassView} {refs : ReferenceSet}

theorem mem_classes_of_classRefs (hrefs : c.references = .ok refs) {name : ClassName}
    (hname : name ∈ c.classRefs) (htarget : c.isTarget name = true) :
    ⟨c.name, name⟩ ∈ refs.classes := by
  obtain ⟨types, -, hrefs⟩ := except_bind_eq_ok_iff.mp hrefs
  cases hrefs
  simp [ReferenceSet.ofLists, mem_ascending, hname, htarget]

theorem exists_mention_of_mem_ascending {ρ : Type} [BEq ρ] [LawfulBEq ρ] {le : ρ → ρ → Bool}
    {ms : List MemberMention} {f : MemberMention → ρ} {r : ρ}
    (h : r ∈ ascending le ((ms.filter fun m => !m.owner.isArray).map f)) :
    ∃ m ∈ ms, m.owner.isArray = false ∧ f m = r := by
  obtain ⟨m, hm, hr⟩ := List.mem_map.mp (mem_ascending.mp h)
  obtain ⟨hm, harray⟩ := List.mem_filter.mp hm
  exact ⟨m, hm, by simpa using harray, hr⟩

/-- A reference to a member comes from a mention of the member. -/
theorem exists_mention_of_mem (hrefs : c.references = .ok refs) {r : Reference} {q : Query}
    (hq : r.query? = some q) (hr : r ∈ refs.toList) :
    ∃ m, (m ∈ c.methodRefs ∨ m ∈ c.fieldRefs) ∧ m.owner.isArray = false
      ∧ r.source = c.name ∧ r.target = m.owner := by
  obtain ⟨types, -, hrefs⟩ := except_bind_eq_ok_iff.mp hrefs
  cases hrefs
  cases r with
  | toClass r => cases hq
  | toMethod r =>
    obtain ⟨m, hm, harray, rfl⟩ :=
      exists_mention_of_mem_ascending (ReferenceSet.toMethod_mem_toList.mp hr)
    exact ⟨m, .inl hm, harray, rfl, rfl⟩
  | toField r =>
    obtain ⟨m, hm, harray, rfl⟩ :=
      exists_mention_of_mem_ascending (ReferenceSet.toField_mem_toList.mp hr)
    exact ⟨m, .inr hm, harray, rfl, rfl⟩

/-- A class that mentions the classes of the members it mentions refers to the class of each member
it refers to. -/
theorem toClass_mem_references (hrefs : c.references = .ok refs)
    (howners : ∀ m, m ∈ c.methodRefs ∨ m ∈ c.fieldRefs → m.owner ∈ c.classRefs) {r : Reference}
    {q : Query} (hq : r.query? = some q) (hr : r ∈ refs.toList) (hother : r.target ≠ r.source)
    (hclass : r.target.isPrimitive = false) :
    .toClass ⟨r.source, r.target⟩ ∈ refs.toList := by
  obtain ⟨m, hm, harray, hsource, htarget⟩ := exists_mention_of_mem hrefs hq hr
  rw [hsource, htarget] at hother
  rw [htarget] at hclass
  rw [ReferenceSet.toClass_mem_toList, hsource, htarget]
  refine mem_classes_of_classRefs hrefs (howners m hm) ?_
  simp [isTarget, hother, hclass, harray]

end ClassView

/-! ## Both kinds of references tell whether a class is missing -/

namespace ClassIndex

variable {t : FileTree} {i : ClassIndex} {source target : ClassName} {q : Query}

/-- A target that is defined is never called missing, whatever its class is called. -/
theorem definedOutcome_ne_missing {location : Path} (hdefiner : i.definer? target = some location) :
    (i.definedOutcome location source target q).run (i.answer t)
      ≠ .ok (.broken .classNotFound) := by
  intro h
  obtain ⟨answer, hanswer, h⟩ := Inquiry.run_view_bind_eq_ok_iff.mp h
  cases answer with
  | none =>
    have hnone := definer?_eq_none_iff.mpr (answer_eq_none_iff.mp hanswer)
    rw [hdefiner] at hnone
    cases hnone
  | some c =>
    simp only at h
    split at h
    · cases h
    · obtain ⟨r, -, h⟩ := Inquiry.run_bind_eq_ok_iff.mp h
      cases r with
      | none => cases h
      | some f =>
        obtain ⟨b, -, h⟩ := Inquiry.run_bind_eq_ok_iff.mp h
        cases b <;> cases h

/-- A broken reference to a member calls its target missing exactly if the target is neither
defined nor assumed. -/
theorem memberOutcome_missing_iff {cause : Cause}
    (h : (i.memberOutcome source target q).run (i.answer t) = .ok (.broken cause)) :
    cause = .classNotFound ↔ i.contains target = false ∧ i.platform.assumes target = false := by
  unfold memberOutcome at h
  cases hdefiner : i.definer? target with
  | some location =>
    rw [hdefiner] at h
    refine iff_of_false ?_ fun hmissing => ?_
    · rintro rfl
      exact definedOutcome_ne_missing hdefiner h
    · rw [definer?_eq_none_iff.mpr hmissing.1] at hdefiner
      cases hdefiner
  | none =>
    rw [hdefiner] at h
    have hundefined := definer?_eq_none_iff.mp hdefiner
    rw [assumes_of_undefined hundefined] at h
    cases hassumed : i.platform.assumes target with
    | true =>
      rw [hassumed] at h
      cases h
    | false =>
      rw [hassumed] at h
      cases h
      simp [hundefined]

end ClassIndex

/-! ## Reports -/

namespace Audit

variable {t : FileTree} {i : ClassIndex} {l : Listing}

/-- An artifact of class files that refers to a member refers to its class. -/
theorem Makes.toClass (hread : i.dialect.read = ClassFile.decode) {r : Reference} {q : Query}
    (hq : r.query? = some q) (hr : Makes t i l r) (hother : r.target ≠ r.source)
    (hclass : r.target.isPrimitive = false) :
    Makes t i l (.toClass ⟨r.source, r.target⟩) := by
  obtain ⟨e, c, refs, hc, hrefs, hmem⟩ := hr
  obtain ⟨bytes, hbytes⟩ := Artifact.exists_read_of_view hc.2
  rw [hread] at hbytes
  have howners : ∀ m, m ∈ c.methodRefs ∨ m ∈ c.fieldRefs → m.owner ∈ c.classRefs :=
    fun _ hm => ClassFile.owner_mem_of_decode hbytes hm
  exact ⟨e, c, refs, hc, hrefs,
    ClassView.toClass_mem_references hrefs howners hq hmem hother hclass⟩

/-- A reference to another class calls its target missing exactly if the target is listed as
missing.  Targets that are named like a primitive type, or `void`, are left out: no class reference
leads to them. -/
def Agrees (report : ArtifactReport) (r : Reference) (cause : Cause) : Prop :=
  r.target ≠ r.source → r.target.isPrimitive = false →
    (cause.reason = .classNotFound ↔
      ∃ d ∈ report.classes, d.reference = ⟨r.source, r.target⟩)

theorem Reports.agrees (hread : i.dialect.read = ClassFile.decode) {report : ArtifactReport}
    (h : Reports t i l report) {r : Reference} {q : Query} (hq : r.query? = some q)
    {cause : Cause} (hr : Makes t i l r) (hcause : resolution t i r = .ok (.broken cause)) :
    Agrees report r cause := by
  intro hother hclass
  have hmakes := hr.toClass hread hq hother hclass
  rw [resolution_eq_run, ClassIndex.outcome_eq_memberOutcome hq] at hcause
  have hmissing : cause.reason = .classNotFound ↔
      i.contains r.target = false ∧ i.platform.assumes r.target = false := by
    rw [← ClassIndex.memberOutcome_missing_iff hcause]
    cases cause <;> simp [Cause.reason]
  rw [hmissing]
  constructor
  · intro hundefined
    have hlisted : (⟨⟨r.source, r.target⟩, .classNotFound⟩ : BrokenReference ClassReference)
        ∈ report.classes := by
      rw [h.classes.mem_iff, resolution_toClass, Except.ok.injEq,
        ClassIndex.classOutcome_eq_broken_iff]
      exact ⟨hmakes, rfl, hundefined⟩
    exact ⟨_, hlisted, rfl⟩
  · rintro ⟨d, hd, hreference⟩
    rw [h.classes.mem_iff, hreference, resolution_toClass, Except.ok.injEq,
      ClassIndex.classOutcome_eq_broken_iff] at hd
    exact hd.2.2

/-- In every report on class files, a broken reference to a member of another class calls that
class missing exactly if the class is listed as missing for the same source, unless the class is
named like a primitive type, or `void`. -/
theorem auditArtifact_agrees (t : FileTree) (a : Audit) (path : Path) (report : ArtifactReport)
    (hread : a.index.dialect.read = ClassFile.decode)
    (h : (a.perform (a.auditArtifact t path)).1 = .ok report) :
    (∀ b ∈ report.methods, Agrees report (.toMethod b.reference) b.cause)
      ∧ ∀ b ∈ report.fields, Agrees report (.toField b.reference) b.cause := by
  obtain ⟨l, -, hreports⟩ := reports_of_auditArtifact h
  constructor
  · intro b hb
    obtain ⟨hmakes, hcause⟩ := (hreports.methods.mem_iff b).mp hb
    exact hreports.agrees hread rfl hmakes hcause
  · intro b hb
    obtain ⟨hmakes, hcause⟩ := (hreports.fields.mem_iff b).mp hb
    exact hreports.agrees hread rfl hmakes hcause

/-! A class that mentions a method of a class that is not there, and a field that another class of
its archive lacks. -/

/-- The class file of the class. -/
def orphanBytes : Bytes :=
  [0xCA, 0xFE, 0xBA, 0xBE, 0, 0, 0, 52, 0, 15,
    1, 0, 3, 0x70, 0x2F, 0x53, 7, 0, 1,
    1, 0, 3, 0x70, 0x2F, 0x54, 7, 0, 3,
    1, 0, 6, 0x71, 0x2F, 0x47, 0x6F, 0x6E, 0x65, 7, 0, 5,
    1, 0, 1, 0x6D, 1, 0, 3, 0x28, 0x29, 0x56, 12, 0, 7, 0, 8, 10, 0, 6, 0, 9,
    1, 0, 1, 0x78, 1, 0, 1, 0x49, 12, 0, 11, 0, 12, 9, 0, 4, 0, 13,
    0, 0x21, 0, 2, 0, 0, 0, 0, 0, 0, 0, 0, 0, 0]

/-- The class file of the other class. -/
def plainBytes : Bytes :=
  [0xCA, 0xFE, 0xBA, 0xBE, 0, 0, 0, 52, 0, 3, 1, 0, 3, 0x70, 0x2F, 0x54, 7, 0, 1,
    0, 0x21, 0, 2, 0, 0, 0, 0, 0, 0, 0, 0, 0, 0]

/-- The class as read. -/
def orphanView : ClassView :=
  ⟨"p.S", none, [], ⟨0x21⟩, [], [], [], ["p.S", "p.T", "q.Gone"], [⟨"q.Gone", "m", "()V"⟩],
    [⟨"p.T", "x", "I"⟩]⟩

/-- The other class as read. -/
def plainView : ClassView :=
  ⟨"p.T", none, [], ⟨0x21⟩, [], [], [], ["p.T"], [], []⟩

/-- Their archive. -/
def orphanArchive : Artifact :=
  ⟨⟨"o.jar"⟩, some [⟨"p/S.class", orphanBytes, false⟩, ⟨"p/T.class", plainBytes, false⟩]⟩

/-- The archive as listed. -/
def orphanListing : Listing := ⟨orphanArchive, ["p/S.class", "p/T.class"]⟩

/-- An audit of the archive. -/
def orphanAudit : Audit where
  index :=
    { images := []
      artifacts := [orphanListing]
      places := ((∅ : Places).insert "p.S" ⟨orphanArchive, "p/S.class"⟩).insert "p.T"
        ⟨orphanArchive, "p/T.class"⟩
      platform := {}
      dialect := .standard
      limit := 1000 }
  settings := {}
  tally := .zero

theorem orphan_places (name : ClassName) :
    orphanAudit.index.places[name]? = if name = "p.T" then some ⟨orphanArchive, "p/T.class"⟩
      else if name = "p.S" then some ⟨orphanArchive, "p/S.class"⟩ else none := by
  simp only [orphanAudit, Std.HashMap.getElem?_insert, beq_iff_eq, eq_comm (b := name)]
  simp

theorem orphan_entries (t : FileTree) :
    orphanArchive.entries t .standard = .ok ["p/S.class", "p/T.class"] := by
  have hfilter : ["p/S.class", "p/T.class"].filter ClassFile.Dialect.standard.lists
      = ["p/S.class", "p/T.class"] := by decide
  show Except.ok ((["p/S.class", "p/T.class"].filter _).mergeSort textLe) = _
  rw [hfilter, List.mergeSort_of_pairwise (by decide)]

theorem orphan_viewsOf (t : FileTree) :
    orphanAudit.index.viewsOf t orphanListing = .ok [orphanView, plainView] := by
  show (orphanArchive.entries t .standard >>= _) = _
  rw [orphan_entries]
  rfl

/-- The references of its class. -/
def orphanRefs : ReferenceSet :=
  ⟨[⟨"p.S", "p.T"⟩, ⟨"p.S", "q.Gone"⟩], [⟨"p.S", "q.Gone", "m", "()V"⟩], [⟨"p.S", "p.T", "x"⟩]⟩

theorem orphan_allReferences : Linkage.allReferences [orphanView, plainView] = .ok orphanRefs := by
  have hlists : ReferenceSet.ofLists orphanRefs.classes orphanRefs.methods orphanRefs.fields
      = orphanRefs := ReferenceSet.Ascends.ofLists_eq ⟨by decide, by decide, by decide⟩
  have horphan : orphanView.references = .ok orphanRefs := congrArg Except.ok hlists
  have hempty : (⟨[], [], []⟩ : ReferenceSet).Ascends := ⟨.nil, .nil, .nil⟩
  have hplain : plainView.references = .ok ⟨[], [], []⟩ := congrArg Except.ok hempty.ofLists_eq
  have hsets : [orphanView, plainView].mapM ClassView.references
      = .ok [orphanRefs, ⟨[], [], []⟩] := by
    rw [List.mapM_cons, List.mapM_cons, horphan, hplain]
    rfl
  rw [Linkage.allReferences, hsets]
  exact congrArg Except.ok hlists

/-- The class of each name. -/
def orphanClass? (name : ClassName) : Option ClassView :=
  if name = "p.T" then some plainView else if name = "p.S" then some orphanView else none

theorem orphan_answer (t : FileTree) :
    orphanAudit.index.answer t = fun name => .ok (orphanClass? name) := by
  funext name
  apply ClassIndex.answer_of_view?_ok
  rw [ClassIndex.view?, orphan_places, orphanClass?]
  split_ifs <;> rfl

theorem orphan_size : orphanAudit.index.size = 2 := by
  simp [ClassIndex.size, orphanAudit, Std.HashMap.size_insert]

/-- The report on the archive. -/
def orphanReport : ArtifactReport where
  artifact := ⟨"o.jar"⟩
  classes := [⟨⟨"p.S", "q.Gone"⟩, .classNotFound⟩]
  methods := [⟨⟨"p.S", "q.Gone", "m", "()V"⟩, .classNotFound⟩]
  fields := [⟨⟨"p.S", "p.T", "x"⟩, .symbolNotFound ⟨"o.jar"⟩⟩]

theorem orphan_reported (t : FileTree) :
    reported t orphanAudit.index ⟨"o.jar"⟩ orphanRefs = .ok orphanReport := by
  have hdefiner : orphanAudit.index.definer? "p.T" = some ⟨"o.jar"⟩ := by
    simp [ClassIndex.definer?, orphan_places, orphanArchive]
  have hnone : orphanAudit.index.definer? "q.Gone" = none := by
    simp [ClassIndex.definer?, orphan_places]
  have hthere : resolution t orphanAudit.index (.toClass ⟨"p.S", "p.T"⟩) = .ok .resolved := by
    rw [resolution_toClass]
    simp [ClassIndex.classOutcome, ClassIndex.contains, orphanAudit]
  have hassumes : orphanAudit.index.assumes "q.Gone" = false := by
    rw [ClassIndex.assumes_of_undefined (ClassIndex.definer?_eq_none_iff.mp hnone)]
    rfl
  have hgone : resolution t orphanAudit.index (.toClass ⟨"p.S", "q.Gone"⟩)
      = .ok (.broken .classNotFound) := by
    rw [resolution_toClass, Except.ok.injEq, ClassIndex.classOutcome_eq_broken_iff]
    exact ⟨rfl, ClassIndex.definer?_eq_none_iff.mp hnone, rfl⟩
  have hmethod : resolution t orphanAudit.index (.toMethod ⟨"p.S", "q.Gone", "m", "()V"⟩)
      = .ok (.broken .classNotFound) := by
    rw [resolution_eq_run, ClassIndex.outcome, ClassIndex.memberOutcome, hnone, hassumes]
    rfl
  have hfield : resolution t orphanAudit.index (.toField ⟨"p.S", "p.T", "x"⟩)
      = .ok (.broken (.symbolNotFound ⟨"o.jar"⟩)) := by
    rw [resolution_eq_run, ClassIndex.outcome, ClassIndex.memberOutcome, hdefiner, orphan_answer]
    unfold ClassIndex.definedOutcome ClassIndex.mayUse
    rw [orphan_size]
    rfl
  simp only [reported, decided, orphanRefs, List.mapM_cons, List.mapM_nil, hthere, hgone, hmethod,
    hfield]
  rfl

theorem orphan_artifact? : orphanAudit.index.artifact? ⟨"o.jar"⟩ = some orphanListing := by
  simp [ClassIndex.artifact?, orphanAudit, orphanListing, orphanArchive, Path.sameAs]

theorem orphan_audit (t : FileTree) :
    (orphanAudit.perform (orphanAudit.auditArtifact t ⟨"o.jar"⟩)).1 = .ok orphanReport := by
  rw [auditArtifact_answer orphan_artifact?,
    inspected_of_reported (orphan_viewsOf t) orphan_allReferences (orphan_reported t)]
  rfl

/-- The class of the method is listed as missing, that of the field is not. -/
theorem auditArtifact_agrees_orphan :
    let t : FileTree := ⟨[], []⟩
    orphanAudit.index.dialect.read = ClassFile.decode
      ∧ (orphanAudit.perform (orphanAudit.auditArtifact t ⟨"o.jar"⟩)).1 = .ok orphanReport
      ∧ (Cause.classNotFound.reason = .classNotFound ↔
        ∃ d ∈ orphanReport.classes, d.reference = ⟨"p.S", "q.Gone"⟩)
      ∧ ((Cause.symbolNotFound ⟨"o.jar"⟩).reason = .classNotFound ↔
        ∃ d ∈ orphanReport.classes, d.reference = ⟨"p.S", "p.T"⟩) := by
  intro t
  obtain ⟨hmethods, hfields⟩ :=
    auditArtifact_agrees t orphanAudit ⟨"o.jar"⟩ orphanReport rfl (orphan_audit t)
  exact ⟨rfl, orphan_audit t, hmethods _ (.head _) (by decide) (by decide),
    hfields _ (.head _) (by decide) (by decide)⟩

/-! A class that mentions a method of a class named `void`. -/

/-- The class file. -/
def voidCallerBytes : Bytes :=
  [0xCA, 0xFE, 0xBA, 0xBE, 0, 0, 0, 52, 0, 9,
    1, 0, 3, 0x70, 0x2F, 0x53, 7, 0, 1, 1, 0, 4, 0x76, 0x6F, 0x69, 0x64, 7, 0, 3,
    1, 0, 1, 0x6D, 1, 0, 3, 0x28, 0x29, 0x56, 12, 0, 5, 0, 6, 10, 0, 4, 0, 7,
    0, 0x21, 0, 2, 0, 0, 0, 0, 0, 0, 0, 0, 0, 0]

/-- The class as read. -/
def voidCallerView : ClassView :=
  ⟨"p.S", none, [], ⟨0x21⟩, [], [], [], ["p.S", "void"], [⟨"void", "m", "()V"⟩], []⟩

/-- An audit of its archive. -/
def voidCallerAudit : Audit :=
  ofListings .standard [singleListing "v.jar" "p/S.class" voidCallerBytes]

/-- The report on the archive. -/
def voidCallerReport : ArtifactReport :=
  ⟨⟨"v.jar"⟩, [], [⟨⟨"p.S", "void", "m", "()V"⟩, .classNotFound⟩], []⟩

theorem voidCaller_audit (t : FileTree) :
    (voidCallerAudit.perform (voidCallerAudit.auditArtifact t ⟨"v.jar"⟩)).1
      = .ok voidCallerReport := by
  have hascends : (⟨[], [⟨"p.S", "void", "m", "()V"⟩], []⟩ : ReferenceSet).Ascends :=
    ⟨by decide, by decide, by decide⟩
  have hrefs : voidCallerView.references = .ok ⟨[], [⟨"p.S", "void", "m", "()V"⟩], []⟩ :=
    congrArg Except.ok hascends.ofLists_eq
  have hnone : voidCallerAudit.index.definer? "void" = none := by
    rw [voidCallerAudit, definer?_ofListings]
    decide
  have hassumes : voidCallerAudit.index.assumes "void" = false := by
    rw [ClassIndex.assumes_of_undefined (ClassIndex.definer?_eq_none_iff.mp hnone)]
    rfl
  have hmethod : resolution t voidCallerAudit.index (.toMethod ⟨"p.S", "void", "m", "()V"⟩)
      = .ok (.broken .classNotFound) := by
    rw [resolution_eq_run, ClassIndex.outcome, ClassIndex.memberOutcome, hnone, hassumes]
    rfl
  have hreported : reported t voidCallerAudit.index ⟨"v.jar"⟩
      ⟨[], [⟨"p.S", "void", "m", "()V"⟩], []⟩ = .ok voidCallerReport := by
    simp only [reported, decided, List.mapM_cons, List.mapM_nil, hmethod]
    rfl
  exact (auditArtifact_single t .standard "v.jar" "p/S.class" voidCallerBytes [] (by decide)
    (by decide) rfl hrefs).2 hreported

/-- A report on a class file calls the class of a method missing and does not list it, although it
is another class than the source and not named like a primitive type. -/
theorem void_unlisted :
    let t : FileTree := ⟨[], []⟩
    voidCallerAudit.index.dialect.read = ClassFile.decode
      ∧ (voidCallerAudit.perform (voidCallerAudit.auditArtifact t ⟨"v.jar"⟩)).1
        = .ok voidCallerReport
      ∧ ∃ b ∈ voidCallerReport.methods, b.reference.target ≠ b.reference.source
        ∧ (∀ p : Primitive, b.reference.target ≠ p.keyword)
        ∧ ¬ (b.cause.reason = .classNotFound ↔ ∃ d ∈ voidCallerReport.classes,
          d.reference = ⟨b.reference.source, b.reference.target⟩) := by
  intro t
  refine ⟨rfl, voidCaller_audit t, _, List.mem_singleton_self _, by decide, ?_, ?_⟩
  · intro p
    cases p <;> decide
  · intro h
    obtain ⟨d, hd, -⟩ := h.mp rfl
    exact List.not_mem_nil hd

end Audit

end Linkage
