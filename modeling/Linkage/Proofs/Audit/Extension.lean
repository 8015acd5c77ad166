import Linkage.Proofs.Audit.Exactness
import Linkage.Proofs.ClassPath.FirstMatch
import Linkage.Proofs.Resolution.Classification

/-!
# Artifacts added to a class path

A class path that is made longer at its end defines more names and changes none: what the first
artifacts define is searched before what the new ones do.  So no class that was there goes missing,
and the classes reported missing for an artifact are those that were, less the ones that the new
artifacts define.

* `Extended`: an index that has everything another has.
* `extended_of_build`: the index of a longer class path.
* `extension_conservative`: what keeps, and what is no longer missing.
-/

namespace Linkage

namespace ClassIndex

/-- The second index defines what the first defines in the same place, and lists the same artifacts
before any others. -/
structure Extended (i i' : ClassIndex) : Prop where
  /-- Definitions are kept. -/
  places : ∀ (name : ClassName) (place : ClassPlace),
    i.places[name]? = some place → i'.places[name]? = some place
  /-- Artifacts come after those there are. -/
  artifacts : i.artifacts <+: i'.artifacts
  /-- Classes are found and read alike. -/
  dialect : i'.dialect = i.dialect
  /-- The same class files are too large. -/
  limit : i'.limit = i.limit
  /-- The same platform is assumed. -/
  platform : i'.platform = i.platform

theorem extended_ofListings {platform : Platform} (dialect : ClassFile.Dialect) (limit : Nat)
    {listings : List Listing} (hlength : platform.images.length ≤ listings.length)
    (more : List Listing) :
    Extended (ofListings platform dialect limit listings)
      (ofListings platform dialect limit (listings ++ more)) where
  places name place hplace := by
    rw [ofListings_places] at hplace ⊢
    rw [List.findSome?_append, hplace]
    rfl
  artifacts := by
    show listings.drop _ <+: (listings ++ more).drop _
    rw [List.drop_append_of_le_length hlength]
    exact List.prefix_append _ _
  dialect := rfl
  limit := rfl
  platform := rfl

/-- The index of a longer class path has what the index of the shorter has. -/
theorem extended_of_build {t : FileTree} {paths more : List Path} {platform : Platform}
    {dialect : ClassFile.Dialect} {limit : Nat} {log log' : Array Event} {i i' : ClassIndex}
    (hi : ((build t paths platform dialect limit).run.run log).1 = .ok i)
    (hi' : ((build t (paths ++ more) platform dialect limit).run.run log').1 = .ok i') :
    Extended i i' := by
  obtain ⟨-, listings, hlistings, rfl⟩ := build_eq_ok_iff.mp hi
  obtain ⟨-, all, hall, rfl⟩ := build_eq_ok_iff.mp hi'
  rw [← List.append_assoc, List.mapM_append] at hall
  obtain ⟨first, hfirst, hrest⟩ := except_bind_eq_ok_iff.mp hall
  obtain ⟨added, -, hadded⟩ := except_bind_eq_ok_iff.mp hrest
  rw [hlistings] at hfirst
  cases hfirst
  cases hadded
  have hlength := (mapM_eq_ok_iff.mp hlistings).length_eq
  rw [List.length_append] at hlength
  exact extended_ofListings dialect limit (by omega) added

namespace Extended

variable {i i' : ClassIndex} {name : ClassName} (h : Extended i i')

include h

theorem exists_place (hname : i.contains name = true) :
    ∃ place, i.places[name]? = some place ∧ i'.places[name]? = some place := by
  rw [contains_eq_isSome_definer?, definer?, Option.isSome_map, Option.isSome_iff_exists] at hname
  obtain ⟨place, hplace⟩ := hname
  exact ⟨place, hplace, h.places name place hplace⟩

theorem definer? (hname : i.contains name = true) : i'.definer? name = i.definer? name := by
  obtain ⟨place, hplace, hplace'⟩ := h.exists_place hname
  rw [ClassIndex.definer?, ClassIndex.definer?, hplace, hplace']

theorem contains (hname : i.contains name = true) : i'.contains name = true := by
  rw [contains_eq_isSome_definer?] at hname ⊢
  rwa [h.definer? (contains_eq_isSome_definer?.trans hname)]

theorem load (t : FileTree) (hname : i.contains name = true) : i'.load t name = i.load t name := by
  obtain ⟨place, hplace, hplace'⟩ := h.exists_place hname
  rw [load_of_place hplace, load_of_place hplace', h.dialect, h.limit]

theorem artifact? {path : Path} {l : Listing} (hl : i.artifact? path = some l) :
    i'.artifact? path = some l := by
  obtain ⟨more, hmore⟩ := h.artifacts
  show i'.artifacts.find? _ = some l
  rw [← hmore, List.find?_append]
  have hfirst : i.artifacts.find? (fun l => l.artifact.path.sameAs path) = some l := hl
  rw [hfirst]
  rfl

/-- A class is missing after artifacts have been added exactly if it was before and none of them
defines it. -/
theorem classOutcome_eq_broken_iff {cause : Cause} : i'.classOutcome name = .broken cause ↔
    i.classOutcome name = .broken cause ∧ i'.contains name = false := by
  rw [ClassIndex.classOutcome_eq_broken_iff, ClassIndex.classOutcome_eq_broken_iff, h.platform]
  constructor
  · rintro ⟨hcause, hundefined, hassumed⟩
    refine ⟨⟨hcause, ?_, hassumed⟩, hundefined⟩
    by_contra hdefined
    rw [h.contains (Bool.not_eq_false _ ▸ hdefined)] at hundefined
    cases hundefined
  · rintro ⟨⟨hcause, -, hassumed⟩, hundefined⟩
    exact ⟨hcause, hundefined, hassumed⟩

end Extended

end ClassIndex

namespace Audit

open ClassIndex (Extended)

variable {t : FileTree} {i i' : ClassIndex} {l : Listing}

/-- What the classes of an artifact refer to does not depend on what else is there. -/
theorem makes_of_extended (h : Extended i i') (r : Reference) :
    Makes t i' l r ↔ Makes t i l r := by
  unfold Makes ClassAt
  rw [h.dialect, h.limit]

theorem mem_classes_of_extended (h : Extended i i') {report report' : ArtifactReport}
    (hreport : Reports t i l report) (hreport' : Reports t i' l report')
    (b : BrokenReference ClassReference) :
    b ∈ report'.classes ↔ b ∈ report.classes ∧ i'.contains b.reference.target = false := by
  rw [hreport.classes.mem_iff, hreport'.classes.mem_iff, makes_of_extended h, resolution_toClass,
    resolution_toClass, Except.ok.injEq, Except.ok.injEq, h.classOutcome_eq_broken_iff, and_assoc]

/-- Both lists are in one order, so the new one is the old one with references left out. -/
theorem classes_of_extended (h : Extended i i') {report report' : ArtifactReport}
    (hreport : Reports t i l report) (hreport' : Reports t i' l report') :
    report'.classes = report.classes.filter fun b => !i'.contains b.reference.target := by
  have hkept : StrictlyAscending ClassReference.le
      ((report.classes.filter fun b => !i'.contains b.reference.target).map
        BrokenReference.reference) :=
    hreport.classes.ascending.sublist (List.filter_sublist.map _)
  apply StrictlyAscending.eq_of_mem_iff_key ClassReference.totalOrder_le BrokenReference.reference
    hreport'.classes.ascending hkept
  intro b
  rw [mem_classes_of_extended h hreport hreport', List.mem_filter, Bool.not_eq_true']

/-- If a class path can be indexed with and without further artifacts at its end, every name defined
without them is defined with them, by the same artifact and with the same class.  An artifact of the
shorter class path that is reported on both times misses no class it did not miss before: the list
of missing classes is the old one, in the old order, without those the further artifacts define. -/
theorem extension_conservative (t : FileTree) (platform : Platform) (paths more : List Path)
    (dialect : ClassFile.Dialect) (limit : Nat) (log log' : Array Event) (i i' : ClassIndex)
    (hi : ((ClassIndex.build t paths platform dialect limit).run.run log).1 = .ok i)
    (hi' : ((ClassIndex.build t (paths ++ more) platform dialect limit).run.run log').1
      = .ok i') :
    (∀ name, i.contains name = true → i'.contains name = true ∧ i'.definer? name = i.definer? name
        ∧ ∀ t', i'.load t' name = i.load t' name)
      ∧ ∀ (t' : FileTree) (a a' : Audit), a.index = i → a'.index = i' →
        ∀ path report report', (a.perform (a.auditArtifact t' path)).1 = .ok report →
          (a'.perform (a'.auditArtifact t' path)).1 = .ok report' →
          report'.classes = (report.classes.filter fun b => !i'.contains b.reference.target)
            ∧ report'.classes.Sublist report.classes := by
  have hextended : Extended i i' := ClassIndex.extended_of_build hi hi'
  refine ⟨fun name hname => ?_, ?_⟩
  · exact ⟨hextended.contains hname, hextended.definer? hname, fun t' => hextended.load t' hname⟩
  · rintro t' a a' rfl rfl path report report' hreport hreport'
    obtain ⟨l, hl, hreports⟩ := reports_of_auditArtifact hreport
    obtain ⟨l', hl', hreports'⟩ := reports_of_auditArtifact hreport'
    obtain rfl : l = l' := Option.some.inj ((hextended.artifact? hl).symm.trans hl')
    have hclasses := classes_of_extended hextended hreports hreports'
    refine ⟨hclasses, ?_⟩
    rw [hclasses]
    exact List.filter_sublist

/-! The archive of `awaitingAudit`, until a second one supplies the superclass. -/

/-- The archive of the superclass. -/
def supplyListing : Listing := singleListing "b.jar" "q/Gone.class" [1]

/-- Both archives, as files. -/
def awaitingTree : FileTree :=
  ⟨[], [(["a.jar"], .archive [⟨"p/S.class", [0], false⟩]),
    (["b.jar"], .archive [⟨"q/Gone.class", [1], false⟩])]⟩

theorem awaiting_listed : ClassIndex.listed awaitingTree awaitingDialect ⟨"a.jar"⟩
    = .ok awaitingListing :=
  mapError_eq_ok_iff.mpr (ClassIndex.ofPath_eq_ok_iff.mpr ⟨rfl, entries_single (by decide)⟩)

theorem supply_listed : ClassIndex.listed awaitingTree awaitingDialect ⟨"b.jar"⟩
    = .ok supplyListing :=
  mapError_eq_ok_iff.mpr (ClassIndex.ofPath_eq_ok_iff.mpr ⟨rfl, entries_single (by decide)⟩)

/-- The superclass is reported missing on the first archive alone, and no longer with the second
behind it; the class is the same. -/
theorem extension_conservative_awaiting :
    let a := awaitingAudit []
    let a' := awaitingAudit [supplyListing]
    let missing : BrokenReference ClassReference := ⟨⟨"p.S", "q.Gone"⟩, .classNotFound⟩
    ((ClassIndex.build awaitingTree [⟨"a.jar"⟩] {} awaitingDialect 100).run.run #[]).1
        = .ok a.index
      ∧ ((ClassIndex.build awaitingTree ([⟨"a.jar"⟩] ++ [⟨"b.jar"⟩]) {} awaitingDialect
        100).run.run #[]).1 = .ok a'.index
      ∧ a.index.contains "p.S" = true ∧ a'.index.definer? "p.S" = some ⟨"a.jar"⟩
      ∧ ∃ report report', (a.perform (a.auditArtifact awaitingTree ⟨"a.jar"⟩)).1 = .ok report
        ∧ (a'.perform (a'.auditArtifact awaitingTree ⟨"a.jar"⟩)).1 = .ok report'
        ∧ report.classes = [missing] ∧ report'.classes = []
        ∧ report'.classes.Sublist report.classes := by
  intro a a' missing
  have hi : ((ClassIndex.build awaitingTree [⟨"a.jar"⟩] {} awaitingDialect 100).run.run #[]).1
      = .ok a.index :=
    ClassIndex.build_eq_ok_iff.mpr
      ⟨by simp, _, mapM_eq_ok_iff.mpr (.cons awaiting_listed .nil), rfl⟩
  have hi' : ((ClassIndex.build awaitingTree ([⟨"a.jar"⟩] ++ [⟨"b.jar"⟩]) {} awaitingDialect
      100).run.run #[]).1 = .ok a'.index :=
    ClassIndex.build_eq_ok_iff.mpr ⟨by simp, _,
      mapM_eq_ok_iff.mpr (.cons awaiting_listed (.cons supply_listed .nil)), rfl⟩
  obtain ⟨hnames, hreports⟩ := extension_conservative awaitingTree {} [⟨"a.jar"⟩] [⟨"b.jar"⟩]
    awaitingDialect 100 #[] #[] a.index a'.index hi hi'
  have hdefiner : a.index.definer? "p.S" = some ⟨"a.jar"⟩ := by
    rw [show a.index.definer? "p.S" = _ from definer?_ofListings ..]
    decide
  have hcontains : a.index.contains "p.S" = true := by
    rw [ClassIndex.contains_eq_isSome_definer?, hdefiner]
    rfl
  have hsupplied : a'.index.contains "q.Gone" = true := by
    rw [ClassIndex.contains_eq_isSome_definer?,
      show a'.index.definer? "q.Gone" = _ from definer?_ofListings ..]
    decide
  have hreport := (awaiting_audit [] awaitingTree).2
  have hreport' := (awaiting_audit [supplyListing] awaitingTree).2
  obtain ⟨hclasses, hsublist⟩ := hreports awaitingTree a a' rfl rfl _ _ _ hreport hreport'
  have hlist : (ArtifactReport.ofOutcomes ⟨"a.jar"⟩
      [(⟨"p.S", "q.Gone"⟩, a.index.classOutcome "q.Gone")] [] []).classes = [missing] := by
    rw [awaiting_gone]
    rfl
  refine ⟨hi, hi', hcontains, (hnames "p.S" hcontains).2.1.trans hdefiner, _, _, hreport, hreport',
    hlist, ?_, hsublist⟩
  rw [hclasses, hlist]
  simp [missing, hsupplied]

end Audit

end Linkage
