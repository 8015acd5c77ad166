import Mathlib.Data.Finset.Card
import Mathlib.Data.List.DropRight
import Mathlib.Data.List.Flatten
import Linkage.Proofs.Audit.Concurrency
import Linkage.Proofs.Audit.MissingClasses

/-!
# What the tally holds

Artifacts and class paths are audited, and the tally is cleared, in any order and as often as one
likes.  The tally holds what the audits of artifacts found that have ended well since it was last
cleared, and nothing of those that failed.

* `Finding`, `examination`: what an audit of an artifact finds, and what there is to count.
* `Call`, `after`: what is done with an audit, and the audit after it.
* `run_auditArtifact_of_error`, `run_auditArtifact_of_fits`: one artifact.
* `run_mapM_auditArtifact`: one artifact after the other.
* `amount_apply`, `amount_after`: the tally after one call and after any.
-/

namespace Linkage.Audit

variable {t : FileTree} {a : Audit} {path : Path}

/-! ## Findings -/

/-- What the audit of an artifact finds. -/
structure Finding where
  /-- The classes read. -/
  classes : List ClassView
  /-- The references they make. -/
  references : ReferenceSet
  /-- The report. -/
  report : ArtifactReport

/-- How much of everything there is in a finding.  Time is not measured. -/
def Finding.amount (f : Finding) : Tally.Counter → Nat
  | .artifacts => 1
  | .classes => f.classes.length
  | .references => f.references.toList.toFinset.card
  | .errors => f.report.total
  | .time => 0

/-- What there is to find in an artifact that has been listed. -/
def examined (t : FileTree) (i : ClassIndex) (l : Listing) : Except Failure Finding := do
  let classes ← (i.viewsOf t l).mapError .artifact
  let references ← (Linkage.allReferences classes).mapError .malformedDescriptor
  let report ← reported t i l.artifact.path references
  return ⟨classes, references, report⟩

/-- What there is to find in an artifact of the class path. -/
def examination (t : FileTree) (a : Audit) (path : Path) : Except Failure Finding :=
  match a.index.artifact? path with
  | none => .error (.notOnClassPath path)
  | some l => examined t a.index l

theorem inspection_eq_map (t : FileTree) (a : Audit) (path : Path) :
    inspection t a path = (examination t a path).map fun f =>
      (f.report, contribution f.classes f.references f.report) := by
  unfold inspection examination
  cases a.index.artifact? path with
  | none => rfl
  | some l =>
    dsimp only
    unfold inspected examined
    cases (a.index.viewsOf t l).mapError Failure.artifact with
    | error failure => rfl
    | ok classes =>
      dsimp only [bind, Except.bind]
      cases (Linkage.allReferences classes).mapError Failure.malformedDescriptor with
      | error failure => rfl
      | ok refs =>
        dsimp only
        cases reported t a.index l.artifact.path refs with
        | error failure => rfl
        | ok report => rfl

theorem examination_eq_ok {f : Finding} (h : examination t a path = .ok f) :
    ∃ l, a.index.artifact? path = some l ∧ a.index.viewsOf t l = .ok f.classes
      ∧ Linkage.allReferences f.classes = .ok f.references
      ∧ reported t a.index l.artifact.path f.references = .ok f.report := by
  unfold examination at h
  cases hl : a.index.artifact? path with
  | none =>
    rw [hl] at h
    cases h
  | some l =>
    rw [hl] at h
    obtain ⟨classes, hclasses, h⟩ := except_bind_eq_ok_iff.mp h
    obtain ⟨refs, hrefs, h⟩ := except_bind_eq_ok_iff.mp h
    obtain ⟨report, hreport, h⟩ := except_bind_eq_ok_iff.mp h
    cases h
    exact ⟨l, rfl, mapError_eq_ok_iff.mp hclasses, mapError_eq_ok_iff.mp hrefs, hreport⟩

theorem amount_references {f : Finding} (h : examination t a path = .ok f) :
    f.amount .references = f.references.size := by
  obtain ⟨l, -, -, hrefs, -⟩ := examination_eq_ok h
  have hnodup := (ascends_allReferences hrefs).nodup_toList
  rw [Finding.amount, List.toFinset_card_of_nodup hnodup, ReferenceSet.length_toList]

theorem length_ofOutcomes_le {ρ : Type} {i : ClassIndex} {wrap : ρ → Reference} {refs : List ρ}
    {decisions : List (ρ × Outcome)} (h : refs.mapM (decided t i wrap) = .ok decisions) :
    (BrokenReference.ofOutcomes decisions).length ≤ refs.length := by
  have hle := (map_reference_ofOutcomes_sublist h).length_le
  rwa [List.length_map] at hle

/-- Every broken reference is one of the references. -/
theorem amount_errors_le {f : Finding} (h : examination t a path = .ok f) :
    f.amount .errors ≤ f.amount .references := by
  rw [amount_references h]
  obtain ⟨l, -, -, -, hreport⟩ := examination_eq_ok h
  obtain ⟨classes, hclasses, hreport⟩ := except_bind_eq_ok_iff.mp hreport
  obtain ⟨methods, hmethods, hreport⟩ := except_bind_eq_ok_iff.mp hreport
  obtain ⟨fields, hfields, hreport⟩ := except_bind_eq_ok_iff.mp hreport
  have hreport : .ofOutcomes l.artifact.path classes methods fields = f.report := by
    injection hreport
  have hclasses := length_ofOutcomes_le hclasses
  have hmethods := length_ofOutcomes_le hmethods
  have hfields := length_ofOutcomes_le hfields
  show f.report.total ≤ _
  rw [← hreport]
  exact Nat.add_le_add (Nat.add_le_add hclasses hmethods) hfields

/-- What fits the words of a tally goes into them as it is. -/
theorem amount_contribution {f : Finding} (h : examination t a path = .ok f)
    (hfits : ∀ k, f.amount k < k.bound) (k : Tally.Counter) :
    (contribution f.classes f.references f.report).amount k = f.amount k := by
  have hword : ∀ n : Nat, n < Tally.counterBound → (UInt64.ofNat n).toNat = n :=
    fun n hn => UInt64.toNat_ofNat_of_lt hn
  cases k with
  | artifacts => rfl
  | classes => exact hword _ (hfits .classes)
  | references =>
    have hsize := hfits .references
    rw [amount_references h] at hsize ⊢
    exact hword _ hsize
  | errors => exact hword _ (hfits .errors)
  | time => rfl

/-! ## One artifact -/

theorem run_auditArtifact_of_error {failure : Failure} (h : examination t a path = .error failure)
    (p : Progress) : ((a.auditArtifact t path).run.run p).1 = .error failure
      ∧ ((a.auditArtifact t path).run.run p).2.tally = p.tally := by
  have hinspection : inspection t a path = .error failure := by
    rw [inspection_eq_map, h]
    rfl
  rw [auditArtifact_eq, run_bind, answers_inspectAt path p, hinspection]
  exact ⟨rfl, inspectAt_tally path p⟩

/-- An artifact that can be audited is counted, if the sums fit. -/
theorem run_auditArtifact_of_ok {f : Finding} (h : examination t a path = .ok f) (p : Progress) :
    let m := contribution f.classes f.references f.report
    (∀ sum, p.tally.add m = .ok sum → ((a.auditArtifact t path).run.run p).1 = .ok f.report
      ∧ ((a.auditArtifact t path).run.run p).2.tally = sum)
    ∧ ∀ o, p.tally.add m = .error o → ((a.auditArtifact t path).run.run p).1 = .error (.overflow o)
      ∧ ((a.auditArtifact t path).run.run p).2.tally = p.tally := by
  intro m
  have hinspection : inspection t a path = .ok (f.report, m) := by
    rw [inspection_eq_map, h]
    rfl
  have htally := inspectAt_tally (t := t) (a := a) path p
  rw [auditArtifact_eq, run_bind, answers_inspectAt path p, hinspection]
  dsimp only
  rw [run_bind, run_count, htally]
  constructor
  · intro sum hsum
    rw [hsum]
    exact ⟨rfl, rfl⟩
  · intro o ho
    rw [ho]
    exact ⟨rfl, htally⟩

/-- An artifact that can be audited adds what was found in it. -/
theorem run_auditArtifact_of_fits {f : Finding} (h : examination t a path = .ok f) {p : Progress}
    (hfits : ∀ k, p.tally.amount k + f.amount k < k.bound) :
    ((a.auditArtifact t path).run.run p).1 = .ok f.report
      ∧ ∀ k, ((a.auditArtifact t path).run.run p).2.tally.amount k
        = p.tally.amount k + f.amount k := by
  have hamount := amount_contribution h fun k => (Nat.le_add_left _ _).trans_lt (hfits k)
  obtain ⟨sum, hsum⟩ :
      ∃ sum, p.tally.add (contribution f.classes f.references f.report) = .ok sum := by
    rw [Tally.exists_add_eq_ok_iff]
    intro k
    rw [hamount]
    exact hfits k
  obtain ⟨hreport, htally⟩ := (run_auditArtifact_of_ok h p).1 sum hsum
  refine ⟨hreport, fun k => ?_⟩
  rw [htally, (Tally.add_eq_ok_iff.mp hsum k).2, hamount]

/-- The audit of an artifact that fails, for whatever cause, leaves the audit as it was. -/
theorem perform_auditArtifact_of_error {failure : Failure}
    (h : (a.perform (a.auditArtifact t path)).1 = .error failure) :
    (a.perform (a.auditArtifact t path)).2.1 = a := by
  change ((a.auditArtifact t path).run.run ⟨a.tally, #[]⟩).1 = _ at h
  have htally : ((a.auditArtifact t path).run.run ⟨a.tally, #[]⟩).2.tally = a.tally := by
    cases hexam : examination t a path with
    | error cause => exact (run_auditArtifact_of_error hexam _).2
    | ok f =>
      obtain ⟨hcounted, hover⟩ := run_auditArtifact_of_ok hexam ⟨a.tally, #[]⟩
      cases hadd : a.tally.add (contribution f.classes f.references f.report) with
      | error o => exact (hover o hadd).2
      | ok sum =>
        rw [(hcounted sum hadd).1] at h
        cases h
  show { a with tally := ((a.auditArtifact t path).run.run ⟨a.tally, #[]⟩).2.tally } = a
  rw [htally]

/-! ## One after the other -/

/-- What was found up to the first failure. -/
def succeeded : List (Except Failure Finding) → List Finding
  | [] => []
  | .error _ :: _ => []
  | .ok f :: rest => f :: succeeded rest

/-- What is found in artifacts that are taken in order. -/
def found (t : FileTree) (a : Audit) (targets : List Path) : List Finding :=
  succeeded (targets.map (examination t a))

theorem found_cons_of_error {failure : Failure} (h : examination t a path = .error failure)
    (rest : List Path) : found t a (path :: rest) = [] := by
  rw [found, List.map_cons, h, succeeded]

theorem found_cons_of_ok {f : Finding} (h : examination t a path = .ok f) (rest : List Path) :
    found t a (path :: rest) = f :: found t a rest := by
  rw [found, List.map_cons, h, succeeded, found]

/-- How much of something there is in findings. -/
def amountIn (findings : List Finding) (k : Tally.Counter) : Nat :=
  (findings.map (·.amount k)).sum

theorem amountIn_cons (f : Finding) (findings : List Finding) (k : Tally.Counter) :
    amountIn (f :: findings) k = f.amount k + amountIn findings k := by
  simp [amountIn]

theorem amountIn_append (xs ys : List Finding) (k : Tally.Counter) :
    amountIn (xs ++ ys) k = amountIn xs k + amountIn ys k := by
  simp [amountIn]

/-- Artifacts that are audited in order are counted up to the first that fails.  The induction is
on the artifacts, the tally before them being any. -/
theorem run_mapM_auditArtifact {targets : List Path} {p : Progress}
    (hfits : ∀ k, p.tally.amount k + amountIn (found t a targets) k < k.bound) :
    let done := (targets.mapM (a.auditArtifact t)).run.run p
    done.1 = (targets.mapM (examination t a)).map (List.map Finding.report)
      ∧ ∀ k, done.2.tally.amount k = p.tally.amount k + amountIn (found t a targets) k := by
  induction targets generalizing p with
  | nil => exact ⟨rfl, fun _ => rfl⟩
  | cons path targets ih =>
    dsimp only
    rw [List.mapM_cons, List.mapM_cons, run_bind]
    cases hexam : examination t a path with
    | error failure =>
      obtain ⟨hresult, htally⟩ := run_auditArtifact_of_error hexam p
      rw [hresult]
      refine ⟨rfl, fun k => ?_⟩
      show ((a.auditArtifact t path).run.run p).2.tally.amount k = _
      rw [htally, found_cons_of_error hexam]
      rfl
    | ok f =>
      simp only [found_cons_of_ok hexam, amountIn_cons] at hfits ⊢
      have hfirst : ∀ k, p.tally.amount k + f.amount k < k.bound := by
        intro k
        have hall := hfits k
        omega
      obtain ⟨hresult, htally⟩ := run_auditArtifact_of_fits hexam hfirst
      rw [hresult]
      dsimp only
      generalize ((a.auditArtifact t path).run.run p).2 = p' at htally
      have hroom : ∀ k, p'.tally.amount k + amountIn (found t a targets) k < k.bound := by
        intro k
        rw [htally, Nat.add_assoc]
        exact hfits k
      obtain ⟨hrest, htallyRest⟩ := ih hroom
      rw [run_bind, hrest]
      cases targets.mapM (examination t a) with
      | error failure =>
        refine ⟨rfl, fun k => ?_⟩
        show ((targets.mapM (a.auditArtifact t)).run.run p').2.tally.amount k = _
        rw [htallyRest, htally, Nat.add_assoc]
      | ok findings =>
        refine ⟨rfl, fun k => ?_⟩
        show ((targets.mapM (a.auditArtifact t)).run.run p').2.tally.amount k = _
        rw [htallyRest, htally, Nat.add_assoc]

/-- Nothing after the first failure is found. -/
theorem found_of_firstFailure {before rest : List Path} {findings : List Finding}
    {failure : Failure} (hbefore : before.mapM (examination t a) = .ok findings)
    (hfailed : examination t a path = .error failure) :
    found t a (before ++ path :: rest) = findings := by
  rw [mapM_eq_ok_iff] at hbefore
  induction hbefore with
  | nil => exact found_cons_of_error hfailed rest
  | cons hfirst _ ih => rw [List.cons_append, found_cons_of_ok hfirst, ih]

/-! ## Calls -/

/-- Something that is done with an audit, with the files as they are then. -/
inductive Call where
  /-- An artifact is audited. -/
  | artifact (t : FileTree) (path : Path)
  /-- The class path is audited. -/
  | classPath (t : FileTree)
  /-- The tally is cleared. -/
  | reset

namespace Call

/-- The audit after a call. -/
def apply (a : Audit) : Call → Audit
  | .artifact t path => (a.perform (a.auditArtifact t path)).2.1
  | .classPath t => (a.perform (a.auditClassPath t)).2.1
  | .reset => a.clearTally

/-- What the audits of artifacts find that a call makes and that end well. -/
def found (a : Audit) : Call → List Finding
  | .artifact t path => Audit.found t a [path]
  | .classPath t => (a.targets.map (Audit.found t a)).toOption.getD []
  | .reset => []

/-- Is the tally cleared? -/
def isReset : Call → Bool
  | .reset => true
  | _ => false

/-- A call changes nothing but the tally. -/
theorem apply_eq (a : Audit) (call : Call) :
    call.apply a = { a with tally := (call.apply a).tally } := by
  cases call <;> rfl

/-- What a call finds does not depend on the tally. -/
theorem found_withTally (tally : Tally) (call : Call) :
    call.found { a with tally } = call.found a := by
  cases call <;> rfl

end Call

theorem perform_auditArtifact
    (hfits : ∀ k, a.tally.amount k + amountIn (Call.found a (.artifact t path)) k < k.bound) :
    (a.perform (a.auditArtifact t path)).1 = (examination t a path).map Finding.report
      ∧ ∀ k, (a.perform (a.auditArtifact t path)).2.1.tally.amount k
        = a.tally.amount k + amountIn (Call.found a (.artifact t path)) k := by
  change ∀ k, _ + amountIn (found t a [path]) k < _ at hfits
  show ((a.auditArtifact t path).run.run ⟨a.tally, #[]⟩).1 = _
    ∧ ∀ k, ((a.auditArtifact t path).run.run ⟨a.tally, #[]⟩).2.tally.amount k
      = _ + amountIn (found t a [path]) k
  cases hexam : examination t a path with
  | error failure =>
    obtain ⟨hresult, htally⟩ := run_auditArtifact_of_error hexam ⟨a.tally, #[]⟩
    rw [hresult, htally, found_cons_of_error hexam]
    exact ⟨rfl, fun _ => rfl⟩
  | ok f =>
    have hamount : ∀ k, amountIn (found t a [path]) k = f.amount k := by
      intro k
      rw [found_cons_of_ok hexam]
      exact Nat.add_zero _
    simp only [hamount] at hfits ⊢
    exact run_auditArtifact_of_fits hexam hfits

theorem perform_auditClassPath
    (hfits : ∀ k, a.tally.amount k + amountIn (Call.found a (.classPath t)) k < k.bound) :
    (a.perform (a.auditClassPath t)).1
        = (a.targets >>= List.mapM (examination t a)).map (⟨List.map Finding.report ·⟩)
      ∧ ∀ k, (a.perform (a.auditClassPath t)).2.1.tally.amount k
        = a.tally.amount k + amountIn (Call.found a (.classPath t)) k := by
  unfold Call.found at *
  cases htargets : a.targets with
  | error failure =>
    rw [perform_auditClassPath_eq_refused htargets]
    exact ⟨rfl, fun _ => rfl⟩
  | ok targets =>
    rw [htargets] at hfits
    obtain ⟨hresult, htally⟩ := perform_auditClassPath_of_ok (t := t) htargets
    obtain ⟨hreports, hamount⟩ := run_mapM_auditArtifact (p := ⟨a.tally, #[]⟩) hfits
    rw [hresult, htally, hreports]
    refine ⟨?_, hamount⟩
    show _ = (targets.mapM (examination t a)).map _
    cases targets.mapM (examination t a) with
    | error failure => rfl
    | ok findings => rfl

theorem exists_targets_eq_error {entries : List Path} {e : Path}
    (hentries : a.settings.entryArtifacts = some entries) (he : e ∈ entries)
    (hunknown : a.index.artifact? e = none) :
    ∃ missing, a.targets = .error (.notOnClassPath missing) := by
  unfold targets
  rw [hentries]
  dsimp only
  cases hfind : entries.find? fun e => (a.index.artifact? e).isNone with
  | some missing => exact ⟨missing, rfl⟩
  | none =>
    have hknown := List.find?_eq_none.mp hfind e he
    simp [hunknown] at hknown

/-- One call adds what it finds. -/
theorem amount_apply {call : Call} (hcall : call.isReset = false)
    (hfits : ∀ k, a.tally.amount k + amountIn (call.found a) k < k.bound) (k : Tally.Counter) :
    (call.apply a).tally.amount k = a.tally.amount k + amountIn (call.found a) k := by
  cases call with
  | artifact t path => exact (perform_auditArtifact hfits).2 k
  | classPath t => exact (perform_auditClassPath hfits).2 k
  | reset => cases hcall

/-- What an audit of the class path that fails has counted: nothing if it does not know an
artifact it is to audit, and otherwise what was found before the first artifact that failed. -/
theorem perform_auditClassPath_of_failed
    (hfits : ∀ k, a.tally.amount k + amountIn (Call.found a (.classPath t)) k < k.bound)
    {failure : Failure} (h : (a.perform (a.auditClassPath t)).1 = .error failure) :
    (a.targets = .error failure ∧ (a.perform (a.auditClassPath t)).2.1 = a)
      ∨ ∃ before path rest findings, a.targets = .ok (before ++ path :: rest)
        ∧ before.mapM (examination t a) = .ok findings ∧ examination t a path = .error failure
        ∧ ∀ k, (a.perform (a.auditClassPath t)).2.1.tally.amount k
          = a.tally.amount k + amountIn findings k := by
  obtain ⟨hresult, hamount⟩ := perform_auditClassPath hfits
  rw [hresult] at h
  cases htargets : a.targets with
  | error cause =>
    rw [htargets] at h
    cases h
    rw [perform_auditClassPath_eq_refused htargets]
    exact .inl ⟨rfl, rfl⟩
  | ok targets =>
    rw [htargets] at h
    have hfailed : targets.mapM (examination t a) = .error failure := by
      change (targets.mapM (examination t a)).map _ = _ at h
      cases hall : targets.mapM (examination t a) with
      | error cause =>
        rw [hall] at h
        cases h
        rfl
      | ok findings =>
        rw [hall] at h
        cases h
    obtain ⟨before, path, rest, rfl, hbefore, hpath⟩ := mapM_eq_error_iff.mp hfailed
    obtain ⟨findings, hfindings⟩ := exists_mapM_eq_ok_iff.mpr hbefore
    have hfound : Call.found a (.classPath t) = findings := by
      rw [Call.found, htargets]
      exact found_of_firstFailure hfindings hpath
    refine .inr ⟨before, path, rest, findings, rfl, hfindings, hpath, fun k => ?_⟩
    rw [hamount, hfound]

/-! ## Any calls -/

/-- The audit after some calls. -/
def after (a : Audit) (calls : List Call) : Audit :=
  calls.foldl Call.apply a

/-- What was found since the tally was last cleared. -/
def sinceReset (a : Audit) (calls : List Call) : List Finding :=
  (calls.rtakeWhile fun call => !call.isReset).flatMap (Call.found a)

theorem after_concat (calls : List Call) (call : Call) :
    after a (calls ++ [call]) = call.apply (after a calls) := by
  simp [after]

theorem after_eq (a : Audit) (calls : List Call) :
    after a calls = { a with tally := (after a calls).tally } := by
  induction calls using List.reverseRecOn with
  | nil => rfl
  | append_singleton calls call ih =>
    rw [after_concat, Call.apply_eq]
    rw [ih]

theorem found_after (a : Audit) (calls : List Call) (call : Call) :
    call.found (after a calls) = call.found a := by
  rw [after_eq, Call.found_withTally]

theorem sinceReset_concat_of_reset (calls : List Call) {call : Call} (h : call.isReset = true) :
    sinceReset a (calls ++ [call]) = [] := by
  simp [sinceReset, h]

theorem sinceReset_concat (calls : List Call) {call : Call} (h : call.isReset = false) :
    sinceReset a (calls ++ [call]) = sinceReset a calls ++ call.found a := by
  simp [sinceReset, h]

/-- No sum ever reaches the bound of its counter. -/
def Fits (a : Audit) (calls : List Call) : Prop :=
  ∀ earlier, earlier <+: calls → ∀ k, amountIn (sinceReset a earlier) k < k.bound

theorem Fits.of_prefix {calls earlier : List Call} (h : Fits a calls)
    (hearlier : earlier <+: calls) : Fits a earlier :=
  fun first hfirst => h first (hfirst.trans hearlier)

/-- It is enough that everything ever found fits, cleared or not. -/
theorem fits_of_total {calls : List Call}
    (h : ∀ k, amountIn (calls.flatMap (Call.found a)) k < k.bound) : Fits a calls := by
  intro earlier hearlier k
  have hsublist : (earlier.rtakeWhile fun call => !call.isReset).Sublist calls :=
    (List.rtakeWhile_suffix _ _).sublist.trans hearlier.sublist
  have hle : amountIn (sinceReset a earlier) k ≤ amountIn (calls.flatMap (Call.found a)) k :=
    ((hsublist.flatMap _).map _).sum_le_sum fun _ _ => Nat.zero_le _
  exact hle.trans_lt (h k)

/-- There is room for what a call finds. -/
theorem Fits.room {calls : List Call} {call : Call} (h : Fits a (calls ++ [call]))
    (hcall : call.isReset = false)
    (hbefore : ∀ k, (after a calls).tally.amount k = amountIn (sinceReset a calls) k)
    (k : Tally.Counter) :
    (after a calls).tally.amount k + amountIn (call.found (after a calls)) k < k.bound := by
  rw [hbefore, found_after, ← amountIn_append, ← sinceReset_concat calls hcall]
  exact h _ List.prefix_rfl k

/-- The tally after any calls.  The induction is on the calls, the last one taken off. -/
theorem amount_after {calls : List Call} (hzero : a.tally = .zero) (hfits : Fits a calls)
    (k : Tally.Counter) : (after a calls).tally.amount k = amountIn (sinceReset a calls) k := by
  induction calls using List.reverseRecOn generalizing k with
  | nil =>
    show a.tally.amount k = 0
    rw [hzero]
    cases k <;> rfl
  | append_singleton calls call ih =>
    have hbefore := ih (hfits.of_prefix (List.prefix_append _ _))
    rw [after_concat]
    cases hcall : call.isReset with
    | true =>
      rw [sinceReset_concat_of_reset calls hcall]
      cases call with
      | reset => cases k <;> rfl
      | _ => cases hcall
    | false =>
      rw [amount_apply hcall (hfits.room hcall hbefore), hbefore, found_after,
        sinceReset_concat calls hcall, amountIn_append]

theorem mem_succeeded {f : Finding} {results : List (Except Failure Finding)}
    (h : f ∈ succeeded results) : .ok f ∈ results := by
  fun_induction succeeded results with
  | case1 => cases h
  | case2 => cases h
  | case3 g rest ih =>
    rcases List.mem_cons.mp h with rfl | h
    · exact List.mem_cons_self
    · exact List.mem_cons_of_mem _ (ih h)

theorem exists_examination_of_mem_found {f : Finding} {targets : List Path}
    (h : f ∈ found t a targets) : ∃ path, examination t a path = .ok f := by
  obtain ⟨path, -, hpath⟩ := List.mem_map.mp (mem_succeeded h)
  exact ⟨path, hpath⟩

theorem exists_examination_of_mem {f : Finding} {calls : List Call} (h : f ∈ sinceReset a calls) :
    ∃ t path, examination t a path = .ok f := by
  obtain ⟨call, -, h⟩ := List.mem_flatMap.mp h
  cases call with
  | artifact t path => exact ⟨t, exists_examination_of_mem_found h⟩
  | classPath t =>
    unfold Call.found at h
    cases htargets : a.targets with
    | error failure =>
      rw [htargets] at h
      cases h
    | ok targets =>
      rw [htargets] at h
      exact ⟨t, exists_examination_of_mem_found h⟩
  | reset => cases h

theorem amountIn_errors_le (calls : List Call) :
    amountIn (sinceReset a calls) .errors ≤ amountIn (sinceReset a calls) .references := by
  refine List.sum_le_sum fun f hf => ?_
  obtain ⟨t, path, h⟩ := exists_examination_of_mem hf
  exact amount_errors_le h

/-- Whatever is called, if no sum reaches its bound: the tally holds the sums over the audits of
artifacts that have ended well since it was last cleared, made one by one or for the class path, and
never more broken references than references.  An audit of an artifact that fails leaves everything
as it was.  One of the class path leaves what was found before the first artifact that failed, and
everything as it was if an artifact it is to audit is unknown. -/
theorem tally_after_calls (i : ClassIndex) (settings : Settings) (calls : List Call)
    (hfits : Fits ⟨i, settings, .zero⟩ calls) :
    let a : Audit := ⟨i, settings, .zero⟩
    (∀ k, (after a calls).tally.amount k = amountIn (sinceReset a calls) k)
      ∧ (after a calls).tally.errors ≤ (after a calls).tally.references
      ∧ (∀ earlier t path, earlier ++ [.artifact t path] <+: calls →
        let b := after a earlier
        let done := b.perform (b.auditArtifact t path)
        done.1 = (examination t a path).map Finding.report
          ∧ ∀ failure, done.1 = .error failure → done.2.1 = b)
      ∧ ∀ earlier t, earlier ++ [.classPath t] <+: calls →
        let b := after a earlier
        let done := b.perform (b.auditClassPath t)
        done.1 = (a.targets >>= List.mapM (examination t a)).map (⟨List.map Finding.report ·⟩)
          ∧ (∀ entries e, settings.entryArtifacts = some entries → e ∈ entries →
            i.artifact? e = none →
              (∃ missing, done.1 = .error (.notOnClassPath missing)) ∧ done.2.1 = b)
          ∧ ∀ failure, done.1 = .error failure →
            (a.targets = .error failure ∧ done.2.1 = b)
              ∨ ∃ before path rest findings, a.targets = .ok (before ++ path :: rest)
                ∧ before.mapM (examination t a) = .ok findings
                ∧ examination t a path = .error failure
                ∧ ∀ k, done.2.1.tally.amount k = b.tally.amount k + amountIn findings k := by
  intro a
  have hamount := amount_after rfl hfits
  have hroom : ∀ earlier call, call.isReset = false → earlier ++ [call] <+: calls → ∀ k,
      (after a earlier).tally.amount k + amountIn (call.found (after a earlier)) k < k.bound := by
    intro earlier call hcall hprefix
    have hearlier := hfits.of_prefix ((List.prefix_append _ _).trans hprefix)
    exact (hfits.of_prefix hprefix).room hcall (amount_after rfl hearlier)
  refine ⟨hamount, ?_, ?_, ?_⟩
  · rw [UInt64.le_iff_toNat_le]
    show (after a calls).tally.amount .errors ≤ (after a calls).tally.amount .references
    rw [hamount, hamount]
    exact amountIn_errors_le calls
  · intro earlier t path hprefix b done
    have hresult := (perform_auditArtifact (hroom earlier (.artifact t path) rfl hprefix)).1
    have hexam : examination t b path = examination t a path := by
      show examination t (after a earlier) path = _
      rw [after_eq]
      rfl
    rw [hexam] at hresult
    exact ⟨hresult, fun failure => perform_auditArtifact_of_error⟩
  · intro earlier t hprefix b done
    have hexam : examination t b = examination t a := by
      show examination t (after a earlier) = _
      rw [after_eq]
      rfl
    have htargets : b.targets = a.targets := by
      show (after a earlier).targets = _
      rw [after_eq]
      rfl
    have hclassPath := hroom earlier (.classPath t) rfl hprefix
    rw [← hexam, ← htargets]
    refine ⟨(perform_auditClassPath hclassPath).1, ?_,
      fun failure => perform_auditClassPath_of_failed hclassPath⟩
    intro entries e hentries he hunknown
    obtain ⟨missing, hmissing⟩ := exists_targets_eq_error (a := a) hentries he hunknown
    have hrefused : done = _ := perform_auditClassPath_eq_refused (htargets.trans hmissing)
    rw [hrefused]
    exact ⟨⟨missing, rfl⟩, rfl⟩

/-- What there is to find in the archive of `orphanAudit`. -/
def orphanFinding : Finding :=
  ⟨[orphanView, plainView], orphanRefs, orphanReport⟩

theorem orphan_examination (t : FileTree) :
    examination t orphanAudit ⟨"o.jar"⟩ = .ok orphanFinding := by
  rw [examination, orphan_artifact?]
  refine except_bind_eq_ok_iff.mpr ⟨_, mapError_eq_ok_iff.mpr (orphan_viewsOf t), ?_⟩
  refine except_bind_eq_ok_iff.mpr ⟨_, mapError_eq_ok_iff.mpr orphan_allReferences, ?_⟩
  exact except_bind_eq_ok_iff.mpr ⟨_, orphan_reported t, rfl⟩

/-- The archive is audited, an artifact is not found, the tally is cleared, and the class path is
audited: this counts one artifact, two classes and four references, three of them broken. -/
theorem tally_after_calls_orphan :
    let t : FileTree := ⟨[], []⟩
    let calls : List Call := [.artifact t ⟨"o.jar"⟩, .artifact t ⟨"n.jar"⟩, .reset, .classPath t]
    Fits orphanAudit calls ∧ (after orphanAudit calls).tally = ⟨1, 2, 4, 3, 0⟩ := by
  intro t calls
  have hunknown : orphanAudit.index.artifact? ⟨"n.jar"⟩ = none := by decide
  have hfailed : examination t orphanAudit ⟨"n.jar"⟩ = .error (.notOnClassPath ⟨"n.jar"⟩) := by
    rw [examination, hunknown]
  have hfirst : Call.found orphanAudit (.artifact t ⟨"o.jar"⟩) = [orphanFinding] :=
    found_cons_of_ok (orphan_examination t) []
  have hsecond : Call.found orphanAudit (.artifact t ⟨"n.jar"⟩) = [] :=
    found_cons_of_error hfailed []
  have hlast : Call.found orphanAudit (.classPath t) = [orphanFinding] := hfirst
  have hfits : Fits orphanAudit calls := by
    refine fits_of_total fun k => ?_
    have hall : calls.flatMap (Call.found orphanAudit) = [orphanFinding, orphanFinding] := by
      simp only [calls, List.flatMap_cons, List.flatMap_nil, hfirst, hsecond, hlast]
      rfl
    rw [hall]
    cases k <;> decide
  refine ⟨hfits, Tally.ext_amount fun k => ?_⟩
  have hsince : sinceReset orphanAudit calls = [orphanFinding] := by
    show Call.found orphanAudit (.classPath t) ++ [] = _
    rw [hlast]
    rfl
  refine ((tally_after_calls orphanAudit.index orphanAudit.settings calls hfits).1 k).trans ?_
  show amountIn (sinceReset orphanAudit calls) k = _
  rw [hsince]
  cases k <;> decide

end Linkage.Audit
