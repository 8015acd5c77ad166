import Linkage.Proofs.Audit.Accounting
import Linkage.Proofs.Audit.SizeLimit
import Linkage.Proofs.Repetitions

/-!
# Which artifacts are audited

The entries of the settings are searched for on the class path, and the class path is then searched
for those that are entries.  Both searches compare paths by their components.  They agree: every
entry selects the artifacts at its path, wherever it stands in the list and however often, and
nothing but the class path is ever selected from.

* `Path.Among`, `selected`: what entries select, said without any search.
* `targets_eq_ok_iff`, `targets_of_unknown`: the two searches.
* `ConcurrentRun.alone_of_ok`, `perform_auditClassPath_of_alone`: the reports of what is selected.
* `targets_withEntries_of_known`, `targets_withEntries_of_repeated`: other lists of entries.
* `auditClassPath_selects`: audits of the class path.
-/

namespace Linkage

/-! ## Paths among others -/

namespace Path

/-- One of the paths is the same, component by component. -/
def Among (p : Path) (paths : List Path) : Prop :=
  ∃ q ∈ paths, q.components = p.components

instance (p : Path) (paths : List Path) : Decidable (p.Among paths) :=
  inferInstanceAs (Decidable (∃ q ∈ paths, q.components = p.components))

variable {p : Path} {ps qs : List Path}

theorem sameAs_iff {q : Path} : p.sameAs q = true ↔ p.components = q.components :=
  beq_iff_eq

theorem any_sameAs (p : Path) (ps : List Path) :
    (ps.any fun q => q.sameAs p) = decide (p.Among ps) := by
  rw [Bool.eq_iff_iff, List.any_eq_true, decide_eq_true_iff]
  simp only [sameAs_iff]
  exact Iff.rfl

theorem among_of_mem (h : p ∈ ps) : p.Among ps :=
  ⟨p, h, rfl⟩

theorem Among.trans (h : p.Among ps) (hall : ∀ q ∈ ps, q.Among qs) : p.Among qs := by
  obtain ⟨q, hq, hsame⟩ := h
  obtain ⟨r, hr, hsame'⟩ := hall q hq
  exact ⟨r, hr, hsame'.trans hsame⟩

end Path

theorem ClassIndex.artifact?_eq_none_iff {i : ClassIndex} {p : Path} :
    i.artifact? p = none ↔ ¬ p.Among i.paths := by
  simp only [artifact?, List.find?_eq_none, Path.sameAs_iff, Path.Among, paths, List.mem_map]
  simp

/-- The settings with other entries. -/
def Settings.withEntries (entries : List Path) (s : Settings) : Settings :=
  { s with entryArtifacts := some entries }

namespace Audit

/-- The audit with other entries. -/
def withEntries (entries : List Path) (a : Audit) : Audit :=
  { a with settings := a.settings.withEntries entries }

/-- The artifacts of a class path that are at the path of an entry, in order; all if there are no
settings on it. -/
def selected (paths : List Path) : Option (List Path) → List Path
  | none => paths
  | some entries => paths.filter fun p => p.Among entries

theorem mem_of_mem_selected {paths : List Path} {entries? : Option (List Path)} {p : Path}
    (h : p ∈ selected paths entries?) : p ∈ paths := by
  cases entries? with
  | none => exact h
  | some entries => exact List.mem_of_mem_filter h

variable {t : FileTree} {a : Audit} {entries : List Path}

/-! ## The two searches -/

/-- Every entry is on the class path. -/
def Known (a : Audit) : Prop :=
  ∀ entries, a.settings.entryArtifacts = some entries → ∀ e ∈ entries, e.Among a.index.paths

theorem known_iff (hentries : a.settings.entryArtifacts = some entries) :
    a.Known ↔ ∀ e ∈ entries, e.Among a.index.paths := by
  simp [Known, hentries]

theorem find?_unknown_eq_none_iff :
    entries.find? (fun e => (a.index.artifact? e).isNone) = none ↔
      ∀ e ∈ entries, e.Among a.index.paths := by
  simp [ClassIndex.artifact?_eq_none_iff]

theorem targets_of_find? (hentries : a.settings.entryArtifacts = some entries) {e : Path}
    (h : entries.find? (fun e => (a.index.artifact? e).isNone) = some e) :
    a.targets = .error (.notOnClassPath e) := by
  unfold targets
  rw [hentries]
  dsimp only
  rw [h]

theorem targets_of_unknown {before after : List Path} {e : Path}
    (hentries : a.settings.entryArtifacts = some (before ++ e :: after))
    (hbefore : ∀ e' ∈ before, e'.Among a.index.paths) (he : ¬ e.Among a.index.paths) :
    a.targets = .error (.notOnClassPath e) := by
  refine targets_of_find? hentries (List.find?_eq_some_iff_append.mpr ⟨?_, before, after, rfl, ?_⟩)
  · rw [Option.isNone_iff_eq_none, ClassIndex.artifact?_eq_none_iff]
    exact he
  · intro e' he'
    rw [Bool.not_eq_true', Bool.eq_false_iff, ne_eq, Option.isNone_iff_eq_none,
      ClassIndex.artifact?_eq_none_iff]
    exact not_not_intro (hbefore e' he')

theorem targets_of_known (h : a.Known) :
    a.targets = .ok (selected a.index.paths a.settings.entryArtifacts) := by
  unfold targets
  cases hentries : a.settings.entryArtifacts with
  | none => rfl
  | some entries =>
    have hfind := find?_unknown_eq_none_iff.mpr ((known_iff hentries).mp h)
    simp only [hfind, Path.any_sameAs]
    rfl

/-- There is something to audit exactly if all entries are known, and then it is what they
select. -/
theorem targets_eq_ok_iff {targets : List Path} : a.targets = .ok targets ↔
    a.Known ∧ selected a.index.paths a.settings.entryArtifacts = targets := by
  by_cases hknown : a.Known
  · rw [targets_of_known hknown, and_iff_right hknown, Except.ok.injEq]
  · have hunknown := hknown
    simp only [Known, not_forall] at hunknown
    obtain ⟨entries, hentries, e, he, hunknown⟩ := hunknown
    obtain ⟨missing, hmissing⟩ := exists_targets_eq_error hentries he
      (ClassIndex.artifact?_eq_none_iff.mpr hunknown)
    rw [hmissing]
    simp [hknown]

/-- Only artifacts of the class path are ever audited. -/
theorem mem_paths_of_targets {targets : List Path} (h : a.targets = .ok targets) {p : Path}
    (hp : p ∈ targets) : p ∈ a.index.paths := by
  obtain ⟨-, rfl⟩ := targets_eq_ok_iff.mp h
  exact mem_of_mem_selected hp

/-! ## The reports of what is selected -/

theorem ConcurrentRun.eq_of_refused {failure : Failure} (h : a.targets = .error failure)
    {result : Except Failure ClassPathReport} {counted : Tally}
    (hrun : ConcurrentRun t a result counted) : result = .error failure ∧ counted = a.tally := by
  obtain hrefused | ⟨htargets, -, -⟩ := hrun
  · rw [h] at hrefused
    cases hrefused
    exact ⟨rfl, rfl⟩
  · rw [h] at htargets
    cases htargets

/-- The reports of a run that ends well are those the artifacts have by themselves. -/
theorem ConcurrentRun.alone_of_ok {report : ClassPathReport} {counted : Tally}
    (hrun : ConcurrentRun t a (.ok report) counted) : ∃ targets, a.targets = .ok targets
      ∧ List.Forall₂ (fun p r => a.alone t p = .ok r) targets report.artifacts := by
  obtain _ | @⟨targets, s, _, htargets, hreaches, hyields⟩ := hrun
  obtain ⟨hreported⟩ := hyields
  have hs := (Pool.sound_start targets).reaches hreaches
  refine ⟨targets, htargets, ?_⟩
  rw [← hs.paths, List.forall₂_map_left_iff]
  refine ((List.forall₂_and_left _ _).mpr ⟨hs.tasks, hreported⟩).imp ?_
  rintro task r ⟨hsound, hstage⟩
  exact hsound.alone_of_ended hstage

theorem exists_examination_of_alone {p : Path} {r : ArtifactReport} (h : a.alone t p = .ok r) :
    ∃ f, examination t a p = .ok f ∧ f.report = r := by
  rw [alone_eq, inspection_eq_map] at h
  obtain ⟨⟨report, m⟩, hinspection, h⟩ := except_bind_eq_ok_iff.mp h
  obtain ⟨f, hf, hreport⟩ := except_map_eq_ok_iff.mp hinspection
  obtain ⟨_, -, h⟩ := except_bind_eq_ok_iff.mp h
  injection hreport with hreport _
  injection h with h
  exact ⟨f, hf, hreport.trans h⟩

/-- If every artifact that is selected can be audited by itself and the sums fit, then so can the
class path. -/
theorem perform_auditClassPath_of_alone {targets : List Path} (h : a.targets = .ok targets)
    (hfits : ∀ k, a.tally.amount k + amountIn (found t a targets) k < k.bound)
    {reports : List ArtifactReport}
    (halone : List.Forall₂ (fun p r => a.alone t p = .ok r) targets reports) :
    (a.perform (a.auditClassPath t)).1 = .ok ⟨reports⟩ := by
  obtain ⟨findings, hfindings, hreports⟩ : ∃ findings,
      targets.mapM (examination t a) = .ok findings ∧ findings.map Finding.report = reports := by
    simp only [mapM_eq_ok_iff]
    clear h hfits
    induction halone with
    | nil => exact ⟨[], .nil, rfl⟩
    | cons hfirst _ ih =>
      obtain ⟨f, hf, rfl⟩ := exists_examination_of_alone hfirst
      obtain ⟨findings, hfindings, rfl⟩ := ih
      exact ⟨f :: findings, .cons hf hfindings, rfl⟩
  have hfound : Call.found a (.classPath t) = found t a targets := by
    rw [Call.found, h]
    rfl
  rw [← hfound] at hfits
  rw [(perform_auditClassPath hfits).1, h, ← hreports]
  show (targets.mapM (examination t a)).map _ = _
  rw [hfindings]
  rfl

/-- A report is on an artifact of the class path at the path that was asked for. -/
theorem artifact_of_alone {p : Path} {r : ArtifactReport} (h : a.alone t p = .ok r) :
    r.artifact ∈ a.index.paths ∧ r.artifact.components = p.components := by
  obtain ⟨f, hf, rfl⟩ := exists_examination_of_alone h
  obtain ⟨l, hl, -, -, hreport⟩ := examination_eq_ok hf
  obtain ⟨classes, -, hreport⟩ := except_bind_eq_ok_iff.mp hreport
  obtain ⟨methods, -, hreport⟩ := except_bind_eq_ok_iff.mp hreport
  obtain ⟨fields, -, hreport⟩ := except_bind_eq_ok_iff.mp hreport
  have hartifact : f.report.artifact = l.artifact.path := by
    injection hreport with hreport
    rw [← hreport]
    rfl
  have hsame := List.find?_some hl
  rw [hartifact]
  exact ⟨List.mem_map_of_mem (List.mem_of_find?_eq_some hl), Path.sameAs_iff.mp hsame⟩

theorem alone_of_unknown {p : Path} (h : ¬ p.Among a.index.paths) :
    a.alone t p = .error (.notOnClassPath p) := by
  rw [alone_eq, inspection, ClassIndex.artifact?_eq_none_iff.mpr h]
  rfl

/-! ## Other lists of entries -/

section

variable {entries' : List Path}

/-- Entries that are on the class path select the same in any order and however often. -/
theorem targets_withEntries_of_known (hentries : a.settings.entryArtifacts = some entries)
    (hknown : ∀ e ∈ entries, e.Among a.index.paths) (h : ∀ e ∈ entries', e.Among entries)
    (h' : ∀ e ∈ entries, e.Among entries') : (a.withEntries entries').targets = a.targets := by
  have hafter : (a.withEntries entries').Known := by
    rintro _ ⟨⟩ e he
    exact (h e he).trans hknown
  have hsame : selected a.index.paths (some entries') = selected a.index.paths (some entries) := by
    refine List.filter_congr fun p _ => ?_
    rw [decide_eq_decide]
    exact ⟨fun hp => hp.trans h, fun hp => hp.trans h'⟩
  rw [targets_of_known ((known_iff hentries).mpr hknown), hentries, ← hsame]
  exact targets_of_known hafter

/-- Repeated entries change nothing at all. -/
theorem targets_withEntries_of_repeated (hentries : a.settings.entryArtifacts = some entries)
    (h : entries'.eraseDups = entries.eraseDups) :
    (a.withEntries entries').targets = a.targets := by
  cases hfind : entries.find? fun e => (a.index.artifact? e).isNone with
  | some e =>
    have hfind' : entries'.find? (fun e => (a.index.artifact? e).isNone) = some e := by
      rw [← find?_eraseDups, h, find?_eraseDups, hfind]
    rw [targets_of_find? hentries hfind]
    exact targets_of_find? (a := a.withEntries entries') rfl hfind'
  | none =>
    have hmem := mem_iff_of_eraseDups_eq h
    exact targets_withEntries_of_known hentries (find?_unknown_eq_none_iff.mp hfind)
      (fun e he => Path.among_of_mem ((hmem e).mp he))
      (fun e he => Path.among_of_mem ((hmem e).mpr he))

/-- Once the artifacts to audit are known, the entries have no part in an audit. -/
theorem auditClassPath_withEntries (h : (a.withEntries entries').targets = a.targets) :
    (a.withEntries entries').auditClassPath t = a.auditClassPath t := by
  unfold auditClassPath
  rw [h]
  rfl

theorem step_withEntries {s s' : Pool} : Step t (a.withEntries entries') s s' ↔ Step t a s s' := by
  have hnext : ∀ p (task : Task), task.next? t (a.withEntries entries') p = task.next? t a p := by
    rintro p ⟨path, _ | _ | _⟩ <;> rfl
  constructor
  · rintro ⟨h⟩
    rw [hnext] at h
    exact .task h
  · rintro ⟨h⟩
    rw [← hnext] at h
    exact .task h

theorem concurrentRun_withEntries (h : (a.withEntries entries').targets = a.targets)
    {result : Except Failure ClassPathReport} {counted : Tally} :
    ConcurrentRun t (a.withEntries entries') result counted ↔ ConcurrentRun t a result counted := by
  have hstep : Step t (a.withEntries entries') = Step t a := by
    funext s s'
    exact propext step_withEntries
  constructor
  · rintro (hrefused | ⟨htargets, hreaches, hyields⟩)
    · exact .refused (h ▸ hrefused)
    · rw [Reaches, hstep] at hreaches
      exact .taken (h ▸ htargets) hreaches hyields
  · rintro (hrefused | ⟨htargets, hreaches, hyields⟩)
    · exact .refused (a := a.withEntries entries') (h.trans hrefused)
    · rw [Reaches, ← hstep] at hreaches
      exact .taken (a := a.withEntries entries') (h.trans htargets) hreaches hyields

end

/-! ## Audits as they start -/

section

variable {t₀ : FileTree} {paths : List Path} {settings : Settings} {dialect : ClassFile.Dialect}
  {log : Array Event}

/-- Images and class path are kept apart. -/
theorem paths_of_start (h : ((start t₀ paths settings dialect).run.run log).1 = .ok a) :
    a.settings = settings ∧ a.index.paths = paths
      ∧ a.index.imagePaths = settings.platform.images := by
  obtain ⟨i, hbuild, rfl⟩ := start_eq_ok_iff.mp h
  obtain ⟨-, listings, hlistings, rfl⟩ := ClassIndex.build_eq_ok_iff.mp hbuild
  have hpaths := (ClassIndex.listed_of_mapM hlistings).paths_eq
  refine ⟨rfl, ?_, ?_⟩
  · show (listings.drop settings.platform.images.length).map _ = _
    rw [List.map_drop, hpaths, List.drop_left]
  · show (listings.take settings.platform.images.length).map _ = _
    rw [List.map_take, hpaths, List.take_left]

theorem start_withEntries (entries : List Path)
    (h : ((start t₀ paths settings dialect).run.run log).1 = .ok a) :
    ((start t₀ paths (settings.withEntries entries) dialect).run.run log).1
      = .ok (a.withEntries entries) := by
  obtain ⟨i, hbuild, rfl⟩ := start_eq_ok_iff.mp h
  exact start_eq_ok_iff.mpr ⟨i, hbuild, rfl⟩

end

/-- Whatever the entries of an audit, and whenever the class path is audited, one artifact after the
other or with their parts in any order:

* If an entry is not on the class path, the first such entry is named, and nothing is counted or
  reported.  This is all that the order of the entries decides.
* Otherwise the reports of a run that ends well are those which the artifacts of the class path that
  are at the path of an entry, or all if there are no entries, have by themselves, in the order of
  the class path.  A run does end well if they have such reports and the sums fit.
* Entries on the class path may be replaced by others at the same paths, in any order and however
  often.  Repetitions do not count even among entries that are not on it.
* An image of the platform that is not on the class path is refused by itself, has no part in a run
  at any moment, and no report is about it. -/
theorem auditClassPath_selects (t₀ : FileTree) (paths : List Path) (settings : Settings)
    (dialect : ClassFile.Dialect) (log : Array Event) (started : Audit)
    (hstarted : ((start t₀ paths settings dialect).run.run log).1 = .ok started)
    (t : FileTree) (tally : Tally) :
    let a : Audit := { started with tally }
    let chosen := selected paths settings.entryArtifacts
    (∀ before e after, settings.entryArtifacts = some (before ++ e :: after) →
        (∀ e' ∈ before, e'.Among paths) → ¬ e.Among paths →
          a.perform (a.auditClassPath t) = (.error (.notOnClassPath e), a, #[])
          ∧ ∀ result counted, ConcurrentRun t a result counted →
            result = .error (.notOnClassPath e) ∧ counted = tally)
      ∧ ((∀ entries, settings.entryArtifacts = some entries → ∀ e ∈ entries, e.Among paths) →
        (∀ report, ((a.perform (a.auditClassPath t)).1 = .ok report
            ∨ ∃ counted, ConcurrentRun t a (.ok report) counted) →
          List.Forall₂ (fun p r => a.alone t p = .ok r) chosen report.artifacts)
        ∧ ((∀ k, tally.amount k + amountIn (found t a chosen) k < k.bound) →
          ∀ reports, List.Forall₂ (fun p r => a.alone t p = .ok r) chosen reports →
            (a.perform (a.auditClassPath t)).1 = .ok ⟨reports⟩))
      ∧ (∀ entries entries', settings.entryArtifacts = some entries →
        ((∀ e ∈ entries, e.Among paths) ∧ (∀ e ∈ entries', e.Among entries)
            ∧ (∀ e ∈ entries, e.Among entries')
          ∨ entries'.eraseDups = entries.eraseDups) →
        ((start t₀ paths (settings.withEntries entries') dialect).run.run log).1
            = .ok (started.withEntries entries')
          ∧ (a.withEntries entries').auditClassPath t = a.auditClassPath t
          ∧ ∀ result counted, ConcurrentRun t (a.withEntries entries') result counted ↔
            ConcurrentRun t a result counted)
      ∧ a.index.paths = paths ∧ a.index.imagePaths = settings.platform.images
      ∧ ∀ image ∈ settings.platform.images, ¬ image.Among paths →
        a.alone t image = .error (.notOnClassPath image)
        ∧ (∀ targets s, a.targets = .ok targets → Reaches t a (.start a targets) s →
          ∀ task ∈ s.tasks, task.path.components ≠ image.components)
        ∧ ∀ report, ((a.perform (a.auditClassPath t)).1 = .ok report
            ∨ ∃ counted, ConcurrentRun t a (.ok report) counted) →
          ∀ r ∈ report.artifacts, r.artifact.components ≠ image.components := by
  intro a chosen
  obtain ⟨rfl, rfl, himages⟩ := paths_of_start hstarted
  -- One after the other is one of the orders.
  have hrun : ∀ report, ((a.perform (a.auditClassPath t)).1 = .ok report
      ∨ ∃ counted, ConcurrentRun t a (.ok report) counted) → ∃ targets, a.targets = .ok targets
        ∧ List.Forall₂ (fun p r => a.alone t p = .ok r) targets report.artifacts := by
    rintro report (hreport | ⟨counted, hcounted⟩)
    · have hinOrder := concurrentRun_auditClassPath t a
      rw [hreport] at hinOrder
      exact hinOrder.alone_of_ok
    · exact hcounted.alone_of_ok
  refine ⟨?_, ?_, ?_, rfl, himages, ?_⟩
  · intro before e after hentries hbefore he
    have htargets : a.targets = .error (.notOnClassPath e) :=
      targets_of_unknown hentries hbefore he
    exact ⟨perform_auditClassPath_eq_refused htargets,
      fun result counted hresult => hresult.eq_of_refused htargets⟩
  · intro hknown
    have htargets : a.targets = .ok chosen := targets_of_known hknown
    refine ⟨fun report hreport => ?_, fun hfits reports => ?_⟩
    · obtain ⟨targets, hall, halone⟩ := hrun report hreport
      rw [htargets] at hall
      cases hall
      exact halone
    · exact perform_auditClassPath_of_alone htargets hfits
  · intro entries entries' hentries hsame
    have htargets : (a.withEntries entries').targets = a.targets := by
      obtain ⟨hknown, h, h'⟩ | hrepeated := hsame
      · exact targets_withEntries_of_known hentries hknown h h'
      · exact targets_withEntries_of_repeated hentries hrepeated
    exact ⟨start_withEntries entries' hstarted, auditClassPath_withEntries htargets,
      fun result counted => concurrentRun_withEntries htargets⟩
  · intro image _ himage
    have hapart : ∀ p ∈ a.index.paths, p.components ≠ image.components :=
      fun p hp hsame => himage ⟨p, hp, hsame⟩
    refine ⟨alone_of_unknown himage, ?_, ?_⟩
    · intro targets s htargets hreaches task htask
      have hs := (Pool.sound_start targets).reaches hreaches
      have hpath : task.path ∈ targets := hs.paths ▸ List.mem_map_of_mem htask
      exact hapart _ (mem_paths_of_targets htargets hpath)
    · intro report hreport r hr
      obtain ⟨targets, -, halone⟩ := hrun report hreport
      obtain ⟨p, -, hp⟩ := exists_left_of_forall₂ halone hr
      exact hapart _ (artifact_of_alone hp).1

/-- Two spellings of its path select the archive once.  Of two entries that are not on the class
path, the first is named. -/
theorem auditClassPath_selects_orphan :
    let spellings : List Path := [⟨"o.jar/."⟩, ⟨"o.jar//"⟩, ⟨"o.jar/."⟩]
    let unknown : List Path := [⟨"o.jar"⟩, ⟨"n.jar"⟩, ⟨"m.jar"⟩]
    let twice := orphanStart.withEntries spellings
    let refused := orphanStart.withEntries unknown
    ((start orphanTree [⟨"o.jar"⟩] (Settings.withEntries spellings { maxClassSize := 1000 })
        .standard).run.run #[]).1 = .ok twice
      ∧ (twice.perform (twice.auditClassPath orphanTree)).1 = .ok ⟨[orphanReport]⟩
      ∧ ((start orphanTree [⟨"o.jar"⟩] (Settings.withEntries unknown { maxClassSize := 1000 })
        .standard).run.run #[]).1 = .ok refused
      ∧ refused.perform (refused.auditClassPath orphanTree)
        = (.error (.notOnClassPath ⟨"n.jar"⟩), refused, #[]) := by
  intro spellings unknown twice refused
  have htwice := start_withEntries spellings orphan_start
  have hrefused := start_withEntries unknown orphan_start
  have hknown : ∀ e ∈ spellings, e.Among [⟨"o.jar"⟩] := by decide
  have hselected : selected [⟨"o.jar"⟩] (some spellings) = [⟨"o.jar"⟩] := by decide
  have hfound : found orphanTree twice [⟨"o.jar"⟩] = [orphanFinding] :=
    found_cons_of_ok (orphan_examination orphanTree) []
  obtain ⟨-, hreports, -⟩ :=
    auditClassPath_selects _ _ _ _ _ twice htwice orphanTree .zero
  obtain ⟨hunknown, -⟩ :=
    auditClassPath_selects _ _ _ _ _ refused hrefused orphanTree .zero
  refine ⟨htwice, ?_, hrefused, ?_⟩
  · refine (hreports ?_).2 ?_ _ ?_
    · rintro _ ⟨⟩
      exact hknown
    · intro k
      change _ + amountIn (found orphanTree twice (selected _ (some spellings))) k < _
      rw [hselected, hfound]
      cases k <;> decide
    · change List.Forall₂ _ (selected _ (some spellings)) _
      rw [hselected]
      exact .cons (orphan_audit orphanTree) .nil
  · exact (hunknown [⟨"o.jar"⟩] ⟨"n.jar"⟩ [⟨"m.jar"⟩] rfl (by decide) (by decide)).1

end Audit

end Linkage
