import Linkage.Audit.Basic
import Linkage.Proofs.References
import Linkage.Proofs.Resolution.Walk

/-!
# What the audit of an artifact answers

The linker, the log and the tally of an audit set aside, what is left is reading, extracting,
resolving and reporting, each of which may fail.  The linker of an audit starts with no memory, so
every reference is resolved as by a linker of its own.

* `resolution`: what a fresh linker makes of a reference.
* `inspected`, `auditArtifact_answer`: the audit without its state.
* `auditArtifact_eq`: an audit reads and resolves first, and then counts.
* `alone`: what comes of an audit by itself.
-/

namespace Linkage

/-! ## Many references -/

theorem Transparent.mapM {α β : Type} {t : FileTree} {i : ClassIndex} {f : α → Linking β}
    {g : α → Except Failure β} (h : ∀ x, Transparent t i (f x) (g x)) (xs : List α) :
    Transparent t i (xs.mapM f) (xs.mapM g) := by
  induction xs with
  | nil => exact transparent_pure []
  | cons x xs ih =>
    rw [List.mapM_cons, List.mapM_cons]
    exact (h x).bind fun y => ih.bind fun ys => transparent_pure (y :: ys)

namespace Audit

variable {t : FileTree} {i : ClassIndex}

/-- What a linker that remembers nothing makes of a reference. -/
def resolution (t : FileTree) (i : ClassIndex) (r : Reference) : Except Failure Outcome :=
  ((Linker.resolve t i r).on {}).1

theorem resolution_eq_run (r : Reference) : resolution t i r = (i.outcome r).run (i.answer t) :=
  (transparent_resolve r {} (Linker.faithful_fresh t i)).1

/-- A reference with what becomes of it. -/
def decided {ρ : Type} (t : FileTree) (i : ClassIndex) (wrap : ρ → Reference) (r : ρ) :
    Except Failure (ρ × Outcome) := do
  return (r, ← resolution t i (wrap r))

theorem transparent_outcomes {ρ : Type} (wrap : ρ → Reference) (refs : List ρ) :
    Transparent t i (outcomes t i wrap refs) (refs.mapM (decided t i wrap)) := by
  refine Transparent.mapM (fun r => ?_) refs
  unfold decided
  rw [resolution_eq_run]
  exact (transparent_resolve _).bind fun o => transparent_pure (r, o)

/-- The report of an artifact with the given references, every one resolved by itself. -/
def reported (t : FileTree) (i : ClassIndex) (artifact : Path) (refs : ReferenceSet) :
    Except Failure ArtifactReport := do
  let classes ← refs.classes.mapM (decided t i .toClass)
  let methods ← refs.methods.mapM (decided t i .toMethod)
  let fields ← refs.fields.mapM (decided t i .toField)
  return .ofOutcomes artifact classes methods fields

theorem transparent_report (artifact : Path) (refs : ReferenceSet) :
    Transparent t i (report t i artifact refs) (reported t i artifact refs) :=
  (transparent_outcomes _ _).bind fun _ => (transparent_outcomes _ _).bind fun _ =>
    (transparent_outcomes _ _).bind fun _ => transparent_pure _

/-! ## State set aside -/

theorem answers_withLinker {α : Type} {x : Linking α} {a : Except Failure α}
    (h : Transparent t i x a) : Answers (withLinker x) a := by
  intro log
  have hfresh : Linker.Faithful t i { log := log } := Linker.faithful_fresh t i
  exact (h _ hfresh).1

theorem answers_note (e : Event) : Answers (Logged.note e) (.ok ()) :=
  fun _ => rfl

theorem answers_allReferences (classes : List ClassView) :
    Answers (Logged.allReferences classes)
      ((Linkage.allReferences classes).mapError .malformedDescriptor) := by
  unfold Logged.allReferences
  cases Linkage.allReferences classes with
  | error m => exact answers_throw _
  | ok refs => exact (answers_note _).bind fun _ => answers_pure refs

/-- The report of an artifact and what it adds to the tally, nothing remembered or logged. -/
def inspected (t : FileTree) (i : ClassIndex) (l : Listing) :
    Except Failure (ArtifactReport × Tally) := do
  let classes ← (i.viewsOf t l).mapError .artifact
  let refs ← (Linkage.allReferences classes).mapError .malformedDescriptor
  let report ← reported t i l.artifact.path refs
  return (report, contribution classes refs report)

theorem inspected_of_reported {l : Listing} {classes : List ClassView} {refs : ReferenceSet}
    {report : ArtifactReport} (hclasses : i.viewsOf t l = .ok classes)
    (hrefs : Linkage.allReferences classes = .ok refs)
    (hreport : reported t i l.artifact.path refs = .ok report) :
    inspected t i l = .ok (report, contribution classes refs report) :=
  except_bind_eq_ok_iff.mpr ⟨_, mapError_eq_ok_iff.mpr hclasses,
    except_bind_eq_ok_iff.mpr ⟨_, mapError_eq_ok_iff.mpr hrefs,
      except_bind_eq_ok_iff.mpr ⟨_, hreport, rfl⟩⟩⟩

theorem answers_inspect (l : Listing) : Answers (inspect t i l) (inspected t i l) := by
  unfold inspect inspected
  cases i.viewsOf t l with
  | error cause => exact answers_throw _
  | ok classes =>
    refine (answers_allReferences classes).bind fun refs => ?_
    refine (answers_withLinker (transparent_report _ refs)).bind fun report => ?_
    exact (answers_note _).bind fun _ => answers_pure (report, contribution classes refs report)

/-- Counting adds to the tally, or fails and leaves everything as it is. -/
theorem run_count (m : Tally) (p : Progress) :
    (count m).run.run p = match p.tally.add m with
      | .ok sum => (.ok (), { p with tally := sum })
      | .error o => (.error (.overflow o), p) := by
  have hget : (get : Auditing Progress).run.run p = (.ok p, p) := rfl
  rw [count, run_bind, hget]
  dsimp only
  cases p.tally.add m <;> rfl

theorem count_answer (m : Tally) (p : Progress) :
    ((count m).run.run p).1 = (do let _ ← (p.tally.add m).mapError .overflow; return ()) := by
  rw [run_count]
  cases p.tally.add m <;> rfl

/-- The audit of an artifact fails as its inspection does, or for a tally that does not fit. -/
theorem auditArtifact_answer {a : Audit} {path : Path} {l : Listing}
    (hl : a.index.artifact? path = some l) :
    (a.perform (a.auditArtifact t path)).1 = (do
      let (report, m) ← inspected t a.index l
      let _ ← (a.tally.add m).mapError .overflow
      return report) := by
  show ((a.auditArtifact t path).run.run ⟨a.tally, #[]⟩).1 = _
  unfold auditArtifact
  rw [hl]
  show ((withLog (inspect t a.index l) >>= fun (report, m) =>
    count m >>= fun _ => pure report).run.run ⟨a.tally, #[]⟩).1 = _
  have hlogged : ((withLog (inspect t a.index l)).run.run ⟨a.tally, #[]⟩).1
      = inspected t a.index l := answers_inspect l #[]
  have hkept : ((withLog (inspect t a.index l)).run.run ⟨a.tally, #[]⟩).2.tally = a.tally := rfl
  rw [run_bind, hlogged]
  cases inspected t a.index l with
  | error failure => rfl
  | ok made =>
    obtain ⟨report, m⟩ := made
    generalize ((withLog (inspect t a.index l)).run.run ⟨a.tally, #[]⟩).2 = p at hkept
    show ((count m >>= fun _ => pure report).run.run p).1
      = (a.tally.add m).mapError .overflow >>= fun _ => .ok report
    rw [run_bind, count_answer, hkept]
    cases a.tally.add m <;> rfl

/-! ## The two parts of an audit -/

variable {a : Audit}

/-- The first part of the audit of an artifact.  It counts nothing. -/
def inspectAt (t : FileTree) (a : Audit) (path : Path) : Auditing (ArtifactReport × Tally) :=
  match a.index.artifact? path with
  | none => throw (.notOnClassPath path)
  | some l => withLog (inspect t a.index l)

theorem auditArtifact_eq (path : Path) : a.auditArtifact t path = (do
    let (report, m) ← a.inspectAt t path
    count m
    return report) := by
  unfold auditArtifact inspectAt
  cases a.index.artifact? path with
  | none => rfl
  | some l => rfl

/-- What the first part answers, at any moment. -/
def inspection (t : FileTree) (a : Audit) (path : Path) : Except Failure (ArtifactReport × Tally) :=
  match a.index.artifact? path with
  | none => .error (.notOnClassPath path)
  | some l => inspected t a.index l

theorem answers_inspectAt (path : Path) :
    Answers (a.inspectAt t path) (inspection t a path) := by
  intro p
  unfold inspectAt inspection
  cases a.index.artifact? path with
  | none => rfl
  | some l => exact answers_inspect l p.log

theorem inspectAt_tally (path : Path) (p : Progress) :
    ((a.inspectAt t path).run.run p).2.tally = p.tally := by
  unfold inspectAt
  cases a.index.artifact? path with
  | none => rfl
  | some l => rfl

/-- What comes of the audit of an artifact if nothing else is audited. -/
def alone (t : FileTree) (a : Audit) (path : Path) : Except Failure ArtifactReport :=
  (a.perform (a.auditArtifact t path)).1

theorem alone_eq (path : Path) : a.alone t path = (do
    let (report, m) ← inspection t a path
    let _ ← (a.tally.add m).mapError .overflow
    return report) := by
  unfold alone inspection
  cases hl : a.index.artifact? path with
  | none =>
    show ((a.auditArtifact t path).run.run ⟨a.tally, #[]⟩).1 = _
    unfold auditArtifact
    rw [hl]
    rfl
  | some l => exact auditArtifact_answer hl

end Audit

end Linkage
