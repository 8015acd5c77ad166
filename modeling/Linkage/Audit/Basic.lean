import Linkage.Audit.Scan
import Linkage.Audit.Settings
import Linkage.Report.Basic
import Linkage.Resolution.Linker

/-!
# Audits

The linkage checker.  Auditing an artifact reads all its classes, extracts their references and
resolves each, with a linker of its own: first the classes, then the methods, then the fields.  The
audit of one artifact depends on no other, so any order gives the same reports; they are made one
after the other here, and reported in the order of the class path.  An audit that fails counts for
nothing.
-/

namespace Linkage

/-- A class path under audit: how it is done and what has been counted. -/
structure Audit where
  /-- The class path. -/
  index : ClassIndex
  /-- How it is audited. -/
  settings : Settings
  /-- What has been counted. -/
  tally : Tally

/-- What an audit changes. -/
structure Progress where
  /-- What has been counted. -/
  tally : Tally
  /-- What has been reported. -/
  log : Array Event

/-- A step of an audit.  What it counts and reports outlives a failure. -/
abbrev Auditing := ExceptT Failure (StateM Progress)

namespace Audit

/-- Indexes a class path for an audit. -/
def start (t : FileTree) (paths : List Path) (settings : Settings) (dialect : ClassFile.Dialect) :
    Logged Audit := do
  let index ← ClassIndex.build t paths settings.platform dialect settings.maxClassSize
  return ⟨index, settings, .zero⟩

/-! ## One artifact -/

/-- Resolves references one after the other. -/
def outcomes {ρ : Type} (t : FileTree) (i : ClassIndex) (wrap : ρ → Reference) (refs : List ρ) :
    Linking (List (ρ × Outcome)) :=
  refs.mapM fun r => do return (r, ← Linker.resolve t i (wrap r))

/-- The report of an artifact with the given references. -/
def report (t : FileTree) (i : ClassIndex) (artifact : Path) (refs : ReferenceSet) :
    Linking ArtifactReport := do
  let classes ← outcomes t i .toClass refs.classes
  let methods ← outcomes t i .toMethod refs.methods
  let fields ← outcomes t i .toField refs.fields
  return .ofOutcomes artifact classes methods fields

/-- Runs a linker that remembers nothing yet, and goes on with the log. -/
def withLinker {α : Type} (x : Linking α) : Logged α := fun log =>
  let (result, l) := x.run.run { log := log }
  (result, l.log)

/-- What a successful audit adds to the tally. -/
def contribution (classes : List ClassView) (refs : ReferenceSet) (report : ArtifactReport) :
    Tally :=
  ⟨1, UInt64.ofNat classes.length, UInt64.ofNat refs.size, UInt64.ofNat report.total, 0⟩

/-- The report of an artifact of the class path, and what it adds to the tally. -/
def inspect (t : FileTree) (i : ClassIndex) (l : Listing) : Logged (ArtifactReport × Tally) := do
  match i.viewsOf t l with
  | .error cause => throw (.artifact cause)
  | .ok classes =>
    let refs ← Logged.allReferences classes
    let report ← withLinker (report t i l.artifact.path refs)
    Logged.note (.checkedArtifact l.artifact.path classes.length refs.size report.total)
    return (report, contribution classes refs report)

/-- Reports what an operation reports. -/
def withLog {α : Type} (x : Logged α) : Auditing α := fun p =>
  let (result, log) := x.run.run p.log
  (result, { p with log })

/-- Adds to the tally. -/
def count (m : Tally) : Auditing Unit := do
  let p ← get
  match p.tally.add m with
  | .error cause => throw (.overflow cause)
  | .ok sum => set { p with tally := sum }

/-- Audits the first artifact of the class path at a path. -/
def auditArtifact (t : FileTree) (a : Audit) (artifact : Path) : Auditing ArtifactReport := do
  match a.index.artifact? artifact with
  | none => throw (.notOnClassPath artifact)
  | some l =>
    let (report, m) ← withLog (inspect t a.index l)
    count m
    return report

/-! ## The class path -/

/-- The artifacts to audit: those the settings name, or all. -/
def targets (a : Audit) : Except Failure (List Path) :=
  match a.settings.entryArtifacts with
  | none => .ok a.index.paths
  | some entries =>
    match entries.find? fun e => (a.index.artifact? e).isNone with
    | some missing => .error (.notOnClassPath missing)
    | none => .ok (a.index.paths.filter fun p => entries.any fun e => e.sameAs p)

/-- Audits the artifacts the settings name, or all. -/
def auditClassPath (t : FileTree) (a : Audit) : Auditing ClassPathReport := do
  let targets ← a.targets
  let reports ← targets.mapM (a.auditArtifact t)
  let report : ClassPathReport := ⟨reports⟩
  withLog (Logged.note (.checkedClassPath report.artifacts.length report.total))
  return report

/-- Takes a step: its result, the audit after it and what was reported. -/
def perform {α : Type} (a : Audit) (x : Auditing α) : Except Failure α × Audit × Array Event :=
  let (result, p) := x.run.run ⟨a.tally, #[]⟩
  (result, { a with tally := p.tally }, p.log)

/-- The audit with nothing counted. -/
def clearTally (a : Audit) : Audit :=
  { a with tally := .zero }

end Audit

end Linkage
