import Linkage.Proofs.Audit.Concurrency
import Linkage.Proofs.Audit.MissingClasses
import Linkage.Proofs.ClassPath.FirstMatch

/-!
# A larger size limit

The limit on the size of class files keeps classes from being read and does nothing else: a class
that is read under one limit is the same under any larger one.  So whatever an audit succeeds in it
also does under a larger limit, event by event.  An index notes the limit and reads no class.

* `view_of_limit_le`: one class.
* `resolve_extendedBy`, `inspect_extendedBy`: a reference, and an artifact.
* `start_withLimit`: indexing.
* `audit_of_limit_le`: audits under two limits.
-/

namespace Linkage

/-! ## Reading -/

namespace Artifact

variable {t : FileTree} {dialect : ClassFile.Dialect} {a : Artifact} {limit limit' : Nat}

theorem checkSize_of_limit_le (hle : limit ≤ limit') {e : String} {size : Nat}
    (h : a.checkSize e size limit = .ok ()) : a.checkSize e size limit' = .ok () := by
  unfold checkSize at h ⊢
  by_cases hlarge : limit < size
  · rw [if_pos hlarge] at h
    cases h
  · rw [if_neg (by omega)]

theorem readArchived_of_limit_le (hle : limit ≤ limit') {entries : List ArchiveEntry}
    {e : String} {bytes : Bytes} (h : a.readArchived entries e limit = .ok bytes) :
    a.readArchived entries e limit' = .ok bytes := by
  unfold readArchived at h ⊢
  cases hfound : entries.find? fun entry => entry.name == e with
  | none =>
    rw [hfound] at h
    cases h
  | some entry =>
    rw [hfound] at h
    obtain ⟨_, hsize, h⟩ := except_bind_eq_ok_iff.mp h
    exact except_bind_eq_ok_iff.mpr ⟨_, checkSize_of_limit_le hle hsize, h⟩

theorem readFile_of_limit_le (hle : limit ≤ limit') {e : String} {bytes : Bytes}
    (h : a.readFile t e limit = .ok bytes) : a.readFile t e limit' = .ok bytes := by
  unfold readFile at h ⊢
  dsimp only at h ⊢
  split at h
  · cases h
  all_goals
    obtain ⟨_, hsize, h⟩ := except_bind_eq_ok_iff.mp h
    exact except_bind_eq_ok_iff.mpr ⟨_, checkSize_of_limit_le hle hsize, h⟩

theorem view_of_limit_le (hle : limit ≤ limit') {e : String} {c : ClassView}
    (h : a.view t dialect limit e = .ok c) : a.view t dialect limit' e = .ok c := by
  unfold view at h ⊢
  cases harchive : a.archive with
  | some entries =>
    rw [harchive] at h
    obtain ⟨bytes, hbytes, h⟩ := except_bind_eq_ok_iff.mp h
    exact except_bind_eq_ok_iff.mpr ⟨bytes, readArchived_of_limit_le hle hbytes, h⟩
  | none =>
    rw [harchive] at h
    obtain ⟨bytes, hbytes, h⟩ := except_bind_eq_ok_iff.mp h
    exact except_bind_eq_ok_iff.mpr ⟨bytes, readFile_of_limit_le hle hbytes, h⟩

theorem views_of_limit_le (hle : limit ≤ limit') {classes : List ClassView}
    (h : a.views t dialect limit = .ok classes) : a.views t dialect limit' = .ok classes := by
  obtain ⟨es, hes, h⟩ := except_bind_eq_ok_iff.mp h
  refine except_bind_eq_ok_iff.mpr ⟨es, hes, ?_⟩
  rw [mapM_eq_ok_iff] at h ⊢
  exact h.imp fun _ _ => view_of_limit_le hle

end Artifact

/-! ## The same index under another limit -/

/-- The index, reading class files up to another size. -/
def ClassIndex.withLimit (limit : Nat) (i : ClassIndex) : ClassIndex :=
  { i with limit }

/-- The settings with another size limit. -/
def Settings.withLimit (limit : Nat) (s : Settings) : Settings :=
  { s with maxClassSize := limit }

/-- The audit, reading class files up to another size. -/
def Audit.withLimit (limit : Nat) (a : Audit) : Audit :=
  { a with index := a.index.withLimit limit, settings := a.settings.withLimit limit }

section

variable {t : FileTree} {i : ClassIndex} {limit : Nat}

theorem ClassIndex.view?_withLimit (hle : i.limit ≤ limit) {name : ClassName}
    {answer : Option ClassView} (h : i.view? t name = .ok answer) :
    (i.withLimit limit).view? t name = .ok answer := by
  unfold view? at h ⊢
  have hsame : (i.withLimit limit).places[name]? = i.places[name]? := rfl
  rw [hsame]
  cases hplace : i.places[name]? with
  | none => rwa [hplace] at h
  | some place =>
    rw [hplace] at h
    obtain ⟨c, hc, rfl⟩ := except_map_eq_ok_iff.mp h
    exact except_map_eq_ok_iff.mpr ⟨c, Artifact.view_of_limit_le hle hc, rfl⟩

/-- The limit has no part in what is asked about a reference. -/
theorem ClassIndex.outcome_withLimit (r : Reference) :
    (i.withLimit limit).outcome r = i.outcome r := by
  cases r <;> rfl

/-! ## Resolving -/

theorem view_extendedBy (hle : i.limit ≤ limit) (name : ClassName) :
    ExtendedBy (Linker.view t i name) (Linker.view t (i.withLimit limit) name) := by
  intro l answer h
  change ((Linker.view t i name).on l).1 = _ at h
  change (Linker.view t (i.withLimit limit) name).on l = (Linker.view t i name).on l
  rw [Linker.view_on] at h ⊢
  rw [Linker.view_on]
  cases hmemory : l.memory[name]? with
  | some answer => rfl
  | none =>
    cases hview : i.view? t name with
    | error cause =>
      rw [hmemory, hview] at h
      cases h
    | ok answer => rw [ClassIndex.view?_withLimit hle hview]

/-- A walk that is never refused a class goes the same way.  The induction is on the tree of
questions. -/
theorem run_extendedBy (hle : i.limit ≤ limit) {α : Type} (q : Inquiry α) :
    ExtendedBy (q.run (Linker.view t i)) (q.run (Linker.view t (i.withLimit limit))) := by
  induction q with
  | done a => exact extendedBy_refl _
  | ask name next ih => exact (view_extendedBy hle name).bind ih

theorem resolve_extendedBy (hle : i.limit ≤ limit) (r : Reference) :
    ExtendedBy (Linker.resolve t i r) (Linker.resolve t (i.withLimit limit) r) := by
  unfold Linker.resolve
  rw [ClassIndex.outcome_withLimit]
  refine (extendedBy_refl (Linker.noteAssumed i r)).bind fun _ => ?_
  exact (run_extendedBy hle _).bind fun o => extendedBy_refl _

end

/-! ## Auditing -/

namespace Audit

section

variable {t : FileTree} {i : ClassIndex} {limit : Nat}

theorem outcomes_extendedBy (hle : i.limit ≤ limit) {ρ : Type} (wrap : ρ → Reference)
    (refs : List ρ) :
    ExtendedBy (outcomes t i wrap refs) (outcomes t (i.withLimit limit) wrap refs) :=
  ExtendedBy.mapM (fun r => (resolve_extendedBy hle (wrap r)).bind fun _ => extendedBy_refl _) refs

theorem report_extendedBy (hle : i.limit ≤ limit) (artifact : Path) (refs : ReferenceSet) :
    ExtendedBy (report t i artifact refs) (report t (i.withLimit limit) artifact refs) :=
  (outcomes_extendedBy hle _ _).bind fun _ => (outcomes_extendedBy hle _ _).bind fun _ =>
    (outcomes_extendedBy hle _ _).bind fun _ => extendedBy_refl _

theorem withLinker_extendedBy {α : Type} {x y : Linking α} (h : ExtendedBy x y) :
    ExtendedBy (withLinker x) (withLinker y) := by
  intro log a ha
  have hsame := h { log := log } a ha
  show ((y.run.run { log := log }).1, (y.run.run { log := log }).2.log) = _
  rw [hsame]
  rfl

theorem withLog_extendedBy {α : Type} {x y : Logged α} (h : ExtendedBy x y) :
    ExtendedBy (withLog x) (withLog y) := by
  intro p a ha
  have hsame := h p.log a ha
  show ((y.run.run p.log).1, { p with log := (y.run.run p.log).2 }) = _
  rw [hsame]
  rfl

theorem inspect_extendedBy (hle : i.limit ≤ limit) (l : Listing) :
    ExtendedBy (inspect t i l) (inspect t (i.withLimit limit) l) := by
  unfold inspect
  cases hclasses : i.viewsOf t l with
  | error cause => exact extendedBy_throw _ _
  | ok classes =>
    have hclasses' : (i.withLimit limit).viewsOf t l = .ok classes :=
      Artifact.views_of_limit_le hle hclasses
    rw [hclasses']
    refine (extendedBy_refl (Logged.allReferences classes)).bind fun refs => ?_
    refine (withLinker_extendedBy (report_extendedBy hle _ refs)).bind fun _ => ?_
    exact extendedBy_refl _

end

variable {t : FileTree} {a : Audit} {limit : Nat}

theorem auditArtifact_extendedBy (hle : a.index.limit ≤ limit) (path : Path) :
    ExtendedBy (a.auditArtifact t path) ((a.withLimit limit).auditArtifact t path) := by
  have hlisting : (a.withLimit limit).index.artifact? path = a.index.artifact? path := rfl
  unfold auditArtifact
  rw [hlisting]
  cases a.index.artifact? path with
  | none => exact extendedBy_refl _
  | some l =>
    exact (withLog_extendedBy (inspect_extendedBy hle l)).bind fun _ => extendedBy_refl _

theorem auditClassPath_extendedBy (hle : a.index.limit ≤ limit) :
    ExtendedBy (a.auditClassPath t) ((a.withLimit limit).auditClassPath t) := by
  have htargets : (a.withLimit limit).targets = a.targets := rfl
  unfold auditClassPath
  rw [htargets]
  refine (extendedBy_refl _).bind fun targets => ?_
  exact (ExtendedBy.mapM (auditArtifact_extendedBy hle) targets).bind fun _ => extendedBy_refl _

theorem perform_withLimit {α : Type} {x y : Auditing α} (h : ExtendedBy x y) {r : α}
    (hr : (a.perform x).1 = .ok r) :
    (a.withLimit limit).perform y
      = (.ok r, (a.perform x).2.1.withLimit limit, (a.perform x).2.2) := by
  have hsame : y.run.run ⟨a.tally, #[]⟩ = x.run.run ⟨a.tally, #[]⟩ := h _ r hr
  show ((y.run.run ⟨a.tally, #[]⟩).1,
    { a.withLimit limit with tally := (y.run.run ⟨a.tally, #[]⟩).2.tally },
    (y.run.run ⟨a.tally, #[]⟩).2.log) = _
  rw [hsame, ← hr]
  exact rfl

/-! ## Indexing -/

/-- No class is read for an index, so none is refused. -/
theorem build_withLimit (t : FileTree) (paths : List Path) (platform : Platform)
    (dialect : ClassFile.Dialect) (limit limit' : Nat) :
    ClassIndex.build t paths platform dialect limit'
      = ClassIndex.withLimit limit' <$> ClassIndex.build t paths platform dialect limit := by
  unfold ClassIndex.build
  cases paths with
  | nil => rfl
  | cons first rest =>
    simp only [List.isEmpty_cons, Bool.false_eq_true, if_false, map_bind, map_pure]
    exact rfl

theorem start_withLimit (t : FileTree) (paths : List Path) (settings : Settings)
    (dialect : ClassFile.Dialect) (limit : Nat) :
    start t paths (settings.withLimit limit) dialect
      = withLimit limit <$> start t paths settings dialect := by
  have hbuild := build_withLimit t paths settings.platform dialect settings.maxClassSize limit
  show (ClassIndex.build t paths settings.platform dialect limit >>= _) = _
  rw [hbuild, bind_map_left, start, map_bind]
  exact rfl

section

variable {t : FileTree} {paths : List Path} {settings : Settings} {dialect : ClassFile.Dialect}
  {log : Array Event}

theorem start_eq_ok_iff : ((start t paths settings dialect).run.run log).1 = .ok a ↔
    ∃ i, ((ClassIndex.build t paths settings.platform dialect
      settings.maxClassSize).run.run log).1 = .ok i ∧ ⟨i, settings, .zero⟩ = a := by
  rw [start, run_bind]
  cases ((ClassIndex.build t paths settings.platform dialect
      settings.maxClassSize).run.run log).1 with
  | error failure =>
    refine ⟨fun h => ?_, ?_⟩
    · cases h
    · rintro ⟨i, hi, -⟩
      cases hi
  | ok i =>
    refine ⟨fun h => ?_, ?_⟩
    · cases h
      exact ⟨i, rfl, rfl⟩
    · rintro ⟨i', hi', rfl⟩
      cases hi'
      rfl

theorem limit_of_start (h : ((start t paths settings dialect).run.run log).1 = .ok a) :
    a.index.limit = settings.maxClassSize := by
  obtain ⟨i, hbuild, rfl⟩ := start_eq_ok_iff.mp h
  obtain ⟨-, listings, -, rfl⟩ := ClassIndex.build_eq_ok_iff.mp hbuild
  rfl

end

/-- Under a larger limit a class path is indexed alike, and every audit that gives a report gives
the same one: of an artifact, of the class path, and of the class path with its parts in any order.
The tally and the events are the same too. -/
theorem audit_of_limit_le (t₀ : FileTree) (paths : List Path) (settings : Settings)
    (dialect : ClassFile.Dialect) (limit : Nat) (hle : settings.maxClassSize ≤ limit) :
    start t₀ paths (settings.withLimit limit) dialect
        = withLimit limit <$> start t₀ paths settings dialect
      ∧ ∀ log started, ((start t₀ paths settings dialect).run.run log).1 = .ok started →
        ∀ (t : FileTree) (tally : Tally),
          let a : Audit := { started with tally }
          let a' := a.withLimit limit
          (∀ path report, (a.perform (a.auditArtifact t path)).1 = .ok report →
            a'.perform (a'.auditArtifact t path)
              = (.ok report, (a.perform (a.auditArtifact t path)).2.1.withLimit limit,
                (a.perform (a.auditArtifact t path)).2.2))
          ∧ (∀ report, (a.perform (a.auditClassPath t)).1 = .ok report →
            a'.perform (a'.auditClassPath t)
              = (.ok report, (a.perform (a.auditClassPath t)).2.1.withLimit limit,
                (a.perform (a.auditClassPath t)).2.2))
          ∧ ∀ report counted, ConcurrentRun t a (.ok report) counted →
            ∀ result counted', ConcurrentRun t a' result counted' →
              result = .ok report ∧ counted' = counted := by
  refine ⟨start_withLimit t₀ paths settings dialect limit, ?_⟩
  intro log started hstarted t tally a a'
  have hlimit : a.index.limit ≤ limit := (limit_of_start hstarted).trans_le hle
  have hclassPath : ∀ report, (a.perform (a.auditClassPath t)).1 = .ok report →
      a'.perform (a'.auditClassPath t)
        = (.ok report, (a.perform (a.auditClassPath t)).2.1.withLimit limit,
          (a.perform (a.auditClassPath t)).2.2) :=
    fun report => perform_withLimit (auditClassPath_extendedBy hlimit)
  refine ⟨fun path report => perform_withLimit (auditArtifact_extendedBy hlimit path), hclassPath,
    fun report counted hrun result counted' hrun' => ?_⟩
  -- One after the other is one of the orders, under either limit.
  obtain ⟨hreport, hcounted⟩ := hrun.eq_of_ok (concurrentRun_auditClassPath t a)
  have hreport' := hclassPath report hreport
  have hinOrder := concurrentRun_auditClassPath t a'
  rw [hreport'] at hinOrder
  obtain ⟨hresult, hcounted'⟩ := hinOrder.eq_of_ok hrun'
  exact ⟨hresult, hcounted'.trans hcounted⟩

/-- The archive of `orphanAudit`, as a file. -/
def orphanTree : FileTree :=
  ⟨[], [(["o.jar"],
    .archive [⟨"p/S.class", orphanBytes, false⟩, ⟨"p/T.class", plainBytes, false⟩])]⟩

/-- The audit of that archive as it starts. -/
def orphanStart : Audit := { orphanAudit with settings := { maxClassSize := 1000 } }

theorem orphan_start :
    ((start orphanTree [⟨"o.jar"⟩] { maxClassSize := 1000 } .standard).run.run #[]).1
      = .ok orphanStart := by
  have hlisting : ClassIndex.listed orphanTree .standard ⟨"o.jar"⟩ = .ok orphanListing :=
    mapError_eq_ok_iff.mpr (ClassIndex.ofPath_eq_ok_iff.mpr ⟨rfl, orphan_entries orphanTree⟩)
  have hindex : ClassIndex.ofListings {} .standard 1000 [orphanListing] = orphanAudit.index := by
    have hS : ClassName.ofEntry "p/S.class" = "p.S" := by decide
    have hT : ClassName.ofEntry "p/T.class" = "p.T" := by decide
    simp [ClassIndex.ofListings, ClassIndex.assemble, ClassIndex.enterAll, ClassIndex.enter,
      orphanListing, orphanAudit, hS, hT]
  have hbuild : ((ClassIndex.build orphanTree [⟨"o.jar"⟩] {} .standard 1000).run.run #[]).1
      = .ok orphanAudit.index :=
    ClassIndex.build_eq_ok_iff.mpr
      ⟨by simp, [orphanListing], mapM_eq_ok_iff.mpr (.cons hlisting .nil), hindex⟩
  exact start_eq_ok_iff.mpr ⟨_, hbuild, rfl⟩

/-- The archive can be audited under a limit of a thousand bytes, and so it can under two
thousand. -/
theorem audit_of_limit_le_orphan :
    (orphanStart.perform (orphanStart.auditArtifact orphanTree ⟨"o.jar"⟩)).1 = .ok orphanReport
      ∧ ((orphanStart.withLimit 2000).perform
          ((orphanStart.withLimit 2000).auditArtifact orphanTree ⟨"o.jar"⟩)).1
        = .ok orphanReport := by
  have haudit : (orphanStart.perform (orphanStart.auditArtifact orphanTree ⟨"o.jar"⟩)).1
      = .ok orphanReport := orphan_audit orphanTree
  have hall := (audit_of_limit_le orphanTree [⟨"o.jar"⟩] { maxClassSize := 1000 } .standard 2000
    (by decide)).2 #[] orphanStart orphan_start orphanTree .zero
  exact ⟨haudit, congrArg Prod.fst (hall.1 ⟨"o.jar"⟩ orphanReport haudit)⟩

end Audit

end Linkage
