import Linkage.Proofs.Audit.Inspection
import Linkage.Proofs.Tallies
import Mathlib.Algebra.GroupWithZero.Nat
import Mathlib.Algebra.Order.BigOperators.Group.List
import Mathlib.Logic.Relation

/-!
# Audits in any order

The audit of an artifact has two parts.  The first reads and resolves, and looks at nothing another
audit changes; the second adds to the tally, in one step.  Audits of several artifacts may take
these parts in any order, each after its own first, and may be cut short as soon as one has failed.

* `Step`, `ConcurrentRun`: audits that take turns, and what comes of them.
* `Pool.Sound`: what holds at any moment of such a run.
* `reaches_mapM_auditArtifact`: auditing one artifact after the other is one of these runs.
* `auditClassPath_anyOrder`: all of them end, and agree with it.
-/

namespace Linkage.Audit

variable {t : FileTree} {a : Audit}

/-! ## Audits that take turns -/

/-- How far the audit of an artifact has come. -/
inductive Stage where
  /-- It has not begun. -/
  | waiting
  /-- It has not counted yet. -/
  | inspected (report : ArtifactReport) (m : Tally)
  /-- It has ended. -/
  | ended (result : Except Failure ArtifactReport)

/-- The audit of an artifact under way. -/
structure Task where
  /-- Where the artifact is. -/
  path : Path
  /-- How far it has come. -/
  stage : Stage

/-- How far an audit has come after its first part. -/
def Stage.ofInspection : Except Failure (ArtifactReport × Tally) → Stage
  | .ok (report, m) => .inspected report m
  | .error failure => .ended (.error failure)

/-- The next part of an audit, if there is one. -/
def Task.next? (t : FileTree) (a : Audit) (p : Progress) : Task → Option (Progress × Task)
  | ⟨path, .waiting⟩ =>
    let done := (a.inspectAt t path).run.run p
    some (done.2, ⟨path, .ofInspection done.1⟩)
  | ⟨path, .inspected report m⟩ =>
    let done := (count m).run.run p
    some (done.2, ⟨path, .ended (done.1.map fun _ => report)⟩)
  | ⟨_, .ended _⟩ => none

/-- Audits that count together. -/
structure Pool where
  /-- What they have counted and reported. -/
  progress : Progress
  /-- The audits, in the order of the class path. -/
  tasks : List Task

/-- One of the audits goes on. -/
inductive Step (t : FileTree) (a : Audit) : Pool → Pool → Prop where
  | task {before after : List Task} {p p' : Progress} {task task' : Task}
    (h : task.next? t a p = some (p', task')) :
    Step t a ⟨p, before ++ task :: after⟩ ⟨p', before ++ task' :: after⟩

/-- Audits go on, in any order. -/
abbrev Reaches (t : FileTree) (a : Audit) : Pool → Pool → Prop :=
  Relation.ReflTransGen (Step t a)

/-- No audit has begun. -/
def Pool.start (a : Audit) (targets : List Path) : Pool :=
  ⟨⟨a.tally, #[]⟩, targets.map (⟨·, .waiting⟩)⟩

/-- All audits have ended well, with these reports. -/
abbrev Reported : List Task → List ArtifactReport → Prop :=
  List.Forall₂ fun task report => task.stage = .ended (.ok report)

/-- What audits come to: their reports in order, or the failure of any that failed. -/
inductive Yields (tasks : List Task) : Except Failure ClassPathReport → Prop where
  | reports {reports : List ArtifactReport} (h : Reported tasks reports) :
    Yields tasks (.ok ⟨reports⟩)
  | failure {task : Task} {failure : Failure} (hmem : task ∈ tasks)
    (hstage : task.stage = .ended (.error failure)) : Yields tasks (.error failure)

/-- An audit of the class path whose parts take turns in some order: what it answers, and what has
been counted by then. -/
inductive ConcurrentRun (t : FileTree) (a : Audit) :
    Except Failure ClassPathReport → Tally → Prop where
  | refused {failure : Failure} (h : a.targets = .error failure) :
    ConcurrentRun t a (.error failure) a.tally
  | taken {targets : List Path} {s : Pool} {result : Except Failure ClassPathReport}
    (h : a.targets = .ok targets) (hreaches : Reaches t a (.start a targets) s)
    (hyields : Yields s.tasks result) : ConcurrentRun t a result s.progress.tally

/-! ## One part -/

/-- What the next part of an audit does to it and to the tally. -/
inductive Task.Move (t : FileTree) (a : Audit) : Tally → Task → Tally → Task → Prop where
  | failed {s : Tally} {path : Path} {failure : Failure}
    (h : inspection t a path = .error failure) :
    Move t a s ⟨path, .waiting⟩ s ⟨path, .ended (.error failure)⟩
  | inspected {s : Tally} {path : Path} {report : ArtifactReport} {m : Tally}
    (h : inspection t a path = .ok (report, m)) :
    Move t a s ⟨path, .waiting⟩ s ⟨path, .inspected report m⟩
  | counted {s : Tally} {path : Path} {report : ArtifactReport} {m sum : Tally}
    (h : s.add m = .ok sum) :
    Move t a s ⟨path, .inspected report m⟩ sum ⟨path, .ended (.ok report)⟩
  | overflowed {s : Tally} {path : Path} {report : ArtifactReport} {m : Tally} {o : Tally.Overflow}
    (h : s.add m = .error o) :
    Move t a s ⟨path, .inspected report m⟩ s ⟨path, .ended (.error (.overflow o))⟩

theorem Task.move_of_next? {p p' : Progress} {task task' : Task}
    (h : task.next? t a p = some (p', task')) : Task.Move t a p.tally task p'.tally task' := by
  obtain ⟨path, _ | ⟨report, m⟩ | result⟩ := task
  · simp only [next?, Option.some.injEq, Prod.mk.injEq] at h
    obtain ⟨rfl, rfl⟩ := h
    rw [inspectAt_tally, answers_inspectAt path p]
    cases hinspection : inspection t a path with
    | error failure => exact .failed hinspection
    | ok made => exact .inspected hinspection
  · simp only [next?, Option.some.injEq, Prod.mk.injEq] at h
    obtain ⟨rfl, rfl⟩ := h
    rw [run_count]
    cases hadd : p.tally.add m with
    | error o => exact .overflowed hadd
    | ok sum => exact .counted hadd
  · cases h

/-! ## What holds at any moment -/

/-- What an artifact adds to a counter if it can be audited. -/
def gain (t : FileTree) (a : Audit) (c : Tally.Counter) (path : Path) : Nat :=
  match inspection t a path with
  | .ok (_, m) => m.amount c
  | .error _ => 0

theorem gain_of_ok {path : Path} {report : ArtifactReport} {m : Tally}
    (h : inspection t a path = .ok (report, m)) (c : Tally.Counter) :
    gain t a c path = m.amount c := by
  rw [gain, h]

/-- What has been counted once every artifact has been that can be. -/
def total (t : FileTree) (a : Audit) (targets : List Path) (c : Tally.Counter) : Nat :=
  a.tally.amount c + (targets.map (gain t a c)).sum

/-- What an audit has added to a counter so far. -/
def Task.counted (t : FileTree) (a : Audit) (c : Tally.Counter) (task : Task) : Nat :=
  match task.stage with
  | .ended (.ok _) => gain t a c task.path
  | _ => 0

theorem Task.counted_le (c : Tally.Counter) (task : Task) :
    task.counted t a c ≤ gain t a c task.path := by
  unfold counted
  split
  · exact le_rfl
  · exact Nat.zero_le _

theorem sum_counted_le (c : Tally.Counter) (tasks : List Task) :
    (tasks.map (Task.counted t a c)).sum ≤ ((tasks.map (·.path)).map (gain t a c)).sum := by
  rw [List.map_map]
  exact List.sum_le_sum fun task _ => task.counted_le c

/-- How far an audit has come agrees with what its artifact has to say. -/
inductive Task.Sound (t : FileTree) (a : Audit) (targets : List Path) : Task → Prop where
  | waiting {path : Path} : Sound t a targets ⟨path, .waiting⟩
  | inspected {path : Path} {report : ArtifactReport} {m : Tally}
    (h : inspection t a path = .ok (report, m)) : Sound t a targets ⟨path, .inspected report m⟩
  | counted {path : Path} {report : ArtifactReport} {m sum : Tally}
    (h : inspection t a path = .ok (report, m)) (hadd : a.tally.add m = .ok sum) :
    Sound t a targets ⟨path, .ended (.ok report)⟩
  | failed {path : Path} {failure : Failure} (h : inspection t a path = .error failure) :
    Sound t a targets ⟨path, .ended (.error failure)⟩
  | overflowed {path : Path} {o : Tally.Overflow} (c : Tally.Counter)
    (h : c.bound ≤ total t a targets c) : Sound t a targets ⟨path, .ended (.error (.overflow o))⟩

/-- What holds at any moment while audits take turns. -/
structure Pool.Sound (t : FileTree) (a : Audit) (targets : List Path) (s : Pool) : Prop where
  /-- There is one audit for each artifact. -/
  paths : s.tasks.map (·.path) = targets
  /-- Each has come as far as it says. -/
  tasks : ∀ task ∈ s.tasks, task.Sound t a targets
  /-- The tally holds what those added that have ended well. -/
  tally : ∀ c, s.progress.tally.amount c
    = a.tally.amount c + (s.tasks.map (Task.counted t a c)).sum
  /-- And it fits, once something has been added. -/
  fits : (∃ task ∈ s.tasks, ∃ report, task.stage = .ended (.ok report)) →
    ∀ c, s.progress.tally.amount c < c.bound

theorem Pool.sound_start (targets : List Path) : (Pool.start a targets).Sound t a targets where
  paths := by simp [start, Function.comp_def]
  tasks := by
    intro task htask
    obtain ⟨path, -, rfl⟩ := List.mem_map.mp htask
    exact .waiting
  tally c := by simp [start, Function.comp_def, Task.counted]
  fits := by
    rintro ⟨task, htask, report, hstage⟩
    obtain ⟨path, -, rfl⟩ := List.mem_map.mp htask
    cases hstage

section

variable {targets : List Path} {p p' : Progress} {before after : List Task} {task task' : Task}

/-- When one audit goes on, nothing changes for the others. -/
theorem Pool.Sound.replace (h : Pool.Sound t a targets ⟨p, before ++ task :: after⟩)
    (hpath : task'.path = task.path) (hsound : task'.Sound t a targets)
    (htally : ∀ c, p'.tally.amount c + task.counted t a c
      = p.tally.amount c + task'.counted t a c)
    (hfits : (∀ c, p'.tally.amount c < c.bound)
      ∨ p'.tally = p.tally ∧ ∀ report, task'.stage ≠ .ended (.ok report)) :
    Pool.Sound t a targets ⟨p', before ++ task' :: after⟩ where
  paths := by
    have hpaths := h.paths
    simp only [List.map_append, List.map_cons] at hpaths ⊢
    rw [hpath]
    exact hpaths
  tasks := by
    have htasks := h.tasks
    simp only [List.forall_mem_append, List.forall_mem_cons] at htasks ⊢
    exact ⟨htasks.1, hsound, htasks.2.2⟩
  tally c := by
    have hsum := h.tally c
    have hchange := htally c
    simp only [List.map_append, List.map_cons, List.sum_append, List.sum_cons] at hsum ⊢
    omega
  fits := by
    rintro ⟨other, hmem, report, hstage⟩
    rcases hfits with hfits | ⟨hsame, hnot⟩
    · exact hfits
    · have hne : other ≠ task' := fun heq => hnot report (heq ▸ hstage)
      have hother : other ∈ before ++ task :: after := by
        simp only [List.mem_append, List.mem_cons, hne, false_or] at hmem ⊢
        tauto
      show ∀ c, p'.tally.amount c < _
      rw [hsame]
      exact h.fits ⟨other, hother, report, hstage⟩

/-- What is counted next is part of the total. -/
theorem Pool.Sound.amount_add_gain_le (h : Pool.Sound t a targets ⟨p, before ++ task :: after⟩)
    {c : Tally.Counter} (hzero : task.counted t a c = 0) :
    p.tally.amount c + gain t a c task.path ≤ total t a targets c := by
  have hsum := h.tally c
  have hbefore := sum_counted_le (t := t) (a := a) c before
  have hafter := sum_counted_le (t := t) (a := a) c after
  rw [total, ← h.paths]
  simp only [List.map_append, List.map_cons, List.sum_append, List.sum_cons] at hsum ⊢
  omega

theorem Pool.Sound.step {s s' : Pool} (hs : s.Sound t a targets) (h : Step t a s s') :
    s'.Sound t a targets := by
  obtain @⟨before, after, p, p', task, task', hnext⟩ := h
  have hmove := Task.move_of_next? hnext
  have htask : task.Sound t a targets := hs.tasks task (by simp)
  generalize hbefore : p.tally = tally at hmove
  generalize hafter : p'.tally = tally' at hmove
  cases hmove with
  | failed hinspection =>
    have hsame : p'.tally = p.tally := hafter.trans hbefore.symm
    exact hs.replace rfl (.failed hinspection) (fun c => by rw [hsame]; rfl)
      (.inr ⟨hsame, by simp⟩)
  | inspected hinspection =>
    have hsame : p'.tally = p.tally := hafter.trans hbefore.symm
    exact hs.replace rfl (.inspected hinspection) (fun c => by rw [hsame]; rfl)
      (.inr ⟨hsame, by simp⟩)
  | @counted path report m _ hadd =>
    have hinspection : inspection t a path = .ok (report, m) := by
      cases htask with
      | inspected h => exact h
    rw [← hbefore, ← hafter, Tally.add_eq_ok_iff] at hadd
    -- The tally has only grown since the start, so what fits now fitted then.
    obtain ⟨sum, hsum⟩ : ∃ sum, a.tally.add m = .ok sum := by
      rw [Tally.exists_add_eq_ok_iff]
      intro c
      have hgrown := hs.tally c
      have hfits := (hadd c).1
      dsimp only at hgrown
      omega
    refine hs.replace rfl (.counted hinspection hsum) (fun c => ?_) (.inl fun c => ?_)
    · show _ + 0 = _ + gain t a c path
      rw [gain_of_ok hinspection, (hadd c).2]
      rfl
    · rw [(hadd c).2]
      exact (hadd c).1
  | @overflowed path report m o hadd =>
    have hinspection : inspection t a path = .ok (report, m) := by
      cases htask with
      | inspected h => exact h
    have hsame : p'.tally = p.tally := hafter.trans hbefore.symm
    rw [← hbefore] at hadd
    obtain ⟨c, hover⟩ := Tally.exists_bound_le_of_add hadd
    have htotal := hs.amount_add_gain_le (c := c) rfl
    rw [gain_of_ok hinspection] at htotal
    exact hs.replace rfl (.overflowed c (hover.trans htotal)) (fun c => by rw [hsame]; rfl)
      (.inr ⟨hsame, by simp⟩)

theorem Pool.Sound.reaches {s s' : Pool} (hs : s.Sound t a targets) (h : Reaches t a s s') :
    s'.Sound t a targets := by
  induction h with
  | refl => exact hs
  | tail _ hstep ih => exact ih.step hstep

end

/-! ## Every run ends -/

/-- How many parts of an audit are left. -/
def Task.remaining (task : Task) : Nat :=
  match task.stage with
  | .waiting => 2
  | .inspected _ _ => 1
  | .ended _ => 0

theorem Task.Move.remaining_lt {m m' : Tally} {task task' : Task}
    (h : Task.Move t a m task m' task') : task'.remaining < task.remaining := by
  cases h <;> simp [remaining]

theorem Step.remaining_lt {s s' : Pool} (h : Step t a s s') :
    (s'.tasks.map Task.remaining).sum < (s.tasks.map Task.remaining).sum := by
  obtain ⟨hnext⟩ := h
  have hless := (Task.move_of_next? hnext).remaining_lt
  simp only [List.map_append, List.map_cons, List.sum_append, List.sum_cons]
  omega

theorem wellFounded_step (t : FileTree) (a : Audit) : WellFounded (flip (Step t a)) :=
  Subrelation.wf Step.remaining_lt
    (InvImage.wf (fun s : Pool => (s.tasks.map Task.remaining).sum) Nat.lt_wfRel.wf)

theorem Task.exists_ended_of_next? {p : Progress} {task : Task} (h : task.next? t a p = none) :
    ∃ result, task.stage = .ended result := by
  obtain ⟨path, _ | _ | result⟩ := task
  · cases h
  · cases h
  · exact ⟨result, rfl⟩

theorem exists_yields_of_ended {tasks : List Task}
    (h : ∀ task ∈ tasks, ∃ result, task.stage = .ended result) : ∃ result, Yields tasks result := by
  induction tasks with
  | nil => exact ⟨_, .reports .nil⟩
  | cons task tasks ih =>
    rw [List.forall_mem_cons] at h
    obtain ⟨failure | report, hstage⟩ := h.1
    · exact ⟨_, .failure List.mem_cons_self hstage⟩
    · obtain ⟨_, hall | ⟨hmem, hfailed⟩⟩ := ih h.2
      · exact ⟨_, .reports (.cons hstage hall)⟩
      · exact ⟨_, .failure (List.mem_cons_of_mem _ hmem) hfailed⟩

/-- Audits that cannot go on have come to something. -/
theorem exists_yields_of_stuck {s : Pool} (h : ∀ s', ¬ Step t a s s') :
    ∃ result, Yields s.tasks result := by
  refine exists_yields_of_ended fun task hmem => ?_
  obtain ⟨before, after, hsplit⟩ := List.append_of_mem hmem
  cases hnext : task.next? t a s.progress with
  | none => exact Task.exists_ended_of_next? hnext
  | some next =>
    have hs : s = ⟨s.progress, before ++ task :: after⟩ := by rw [← hsplit]
    exact absurd (hs ▸ Step.task hnext) (h ⟨next.1, before ++ next.2 :: after⟩)

/-! ## Any two runs agree -/

section

variable {targets : List Path} {s s' : Pool}

theorem Task.Sound.inspection_of_ended {task : Task} (h : task.Sound t a targets)
    {report : ArtifactReport} (hstage : task.stage = .ended (.ok report)) :
    ∃ m, inspection t a task.path = .ok (report, m) ∧ ∃ sum, a.tally.add m = .ok sum := by
  cases h with
  | counted hinspection hadd =>
    cases hstage
    exact ⟨_, hinspection, _, hadd⟩
  | _ => cases hstage

/-- The reports are those of the artifacts, in order. -/
theorem Pool.Sound.inspections (hs : s.Sound t a targets) {reports : List ArtifactReport}
    (h : Reported s.tasks reports) : List.Forall₂
      (fun path report => ∃ m, inspection t a path = .ok (report, m)) targets reports := by
  rw [← hs.paths, List.forall₂_map_left_iff]
  refine ((List.forall₂_and_left _ _).mpr ⟨hs.tasks, h⟩).imp ?_
  rintro task report ⟨hsound, hstage⟩
  obtain ⟨m, hinspection, -⟩ := hsound.inspection_of_ended hstage
  exact ⟨m, hinspection⟩

/-- Once all audits have ended well, the tally is the total. -/
theorem Pool.Sound.amount_of_reported (hs : s.Sound t a targets) {reports : List ArtifactReport}
    (h : Reported s.tasks reports) (c : Tally.Counter) :
    s.progress.tally.amount c = total t a targets c := by
  rw [hs.tally c, total, ← hs.paths, List.map_map]
  congr 2
  refine List.map_congr_left fun task hmem => ?_
  obtain ⟨report, -, hstage⟩ := exists_right_of_forall₂ h hmem
  show Task.counted t a c task = gain t a c task.path
  rw [Task.counted, hstage]

/-- If all audits of one run end well, none of another fails. -/
theorem Pool.Sound.not_failed_of_reported (hs : s.Sound t a targets)
    (hs' : s'.Sound t a targets) {reports : List ArtifactReport} (h : Reported s.tasks reports)
    {task : Task} (hmem : task ∈ s'.tasks) {failure : Failure} :
    task.stage ≠ .ended (.error failure) := by
  intro hstage
  have hpath : task.path ∈ targets := hs'.paths ▸ List.mem_map_of_mem hmem
  have hsound := hs'.tasks task hmem
  cases hsound with
  | failed hinspection =>
    -- The first run got past the inspection that failed here.
    obtain ⟨report, -, m, hok⟩ := exists_right_of_forall₂ (hs.inspections h) hpath
    rw [hinspection] at hok
    cases hok
  | overflowed c hover =>
    -- The first run counted everything, so everything fits.
    rw [← hs.paths] at hpath
    obtain ⟨other, hother, -⟩ := List.mem_map.mp hpath
    obtain ⟨report, -, hended⟩ := exists_right_of_forall₂ h hother
    have hfits := hs.fits ⟨other, hother, report, hended⟩ c
    rw [hs.amount_of_reported h c] at hfits
    omega
  | _ => cases hstage

theorem Yields.eq_of_ok (hs : s.Sound t a targets) (hs' : s'.Sound t a targets)
    {result : Except Failure ClassPathReport} {report : ClassPathReport}
    (h : Yields s.tasks (.ok report)) (h' : Yields s'.tasks result) :
    result = .ok report ∧ s'.progress.tally = s.progress.tally := by
  obtain ⟨hall⟩ := h
  cases h' with
  | failure hmem hstage => exact absurd hstage (hs.not_failed_of_reported hs' hall hmem)
  | reports hall' =>
    constructor
    · have hunique : Relator.RightUnique
          (fun path report => ∃ m, inspection t a path = .ok (report, m)) := by
        rintro path report report' ⟨m, hm⟩ ⟨m', hm'⟩
        rw [hm] at hm'
        cases hm'
        rfl
      rw [List.right_unique_forall₂' hunique (hs'.inspections hall') (hs.inspections hall)]
    · refine Tally.ext_amount fun c => ?_
      rw [hs'.amount_of_reported hall' c, hs.amount_of_reported hall c]

end

/-! ## One after the other -/

/-- Audits that were taken in order come to this: all have ended well, or all before the first that
failed. -/
inductive InOrder : List Task → Except Failure (List ArtifactReport) → Prop where
  | nil : InOrder [] (.ok [])
  | failed {path : Path} {failure : Failure} {tasks : List Task} :
    InOrder (⟨path, .ended (.error failure)⟩ :: tasks) (.error failure)
  | ended {path : Path} {report : ArtifactReport} {tasks : List Task}
    {result : Except Failure (List ArtifactReport)} (h : InOrder tasks result) :
    InOrder (⟨path, .ended (.ok report)⟩ :: tasks) (result.map (report :: ·))

/-- The audit of an artifact, taken at once. -/
theorem reaches_auditArtifact (before after : List Task) (path : Path) (p : Progress) :
    let done := (a.auditArtifact t path).run.run p
    Reaches t a ⟨p, before ++ ⟨path, .waiting⟩ :: after⟩
      ⟨done.2, before ++ ⟨path, .ended done.1⟩ :: after⟩ := by
  have hfirst : Step t a ⟨p, before ++ ⟨path, .waiting⟩ :: after⟩ _ := .task rfl
  refine .head hfirst ?_
  rw [auditArtifact_eq, run_bind]
  generalize (a.inspectAt t path).run.run p = first
  obtain ⟨failure | ⟨report, m⟩, p⟩ := first
  · exact .refl
  · have hsecond : Step t a ⟨p, before ++ ⟨path, .inspected report m⟩ :: after⟩ _ := .task rfl
    refine .head hsecond ?_
    dsimp only
    rw [run_bind]
    generalize (count m).run.run p = second
    obtain ⟨failure | _, p⟩ := second
    · exact .refl
    · exact .refl

/-- Auditing one artifact after the other is one way of taking turns. -/
theorem reaches_mapM_auditArtifact (targets : List Path) (before : List Task) (p : Progress) :
    let done := (targets.mapM (a.auditArtifact t)).run.run p
    ∃ tasks, Reaches t a ⟨p, before ++ targets.map (⟨·, .waiting⟩)⟩ ⟨done.2, before ++ tasks⟩
      ∧ InOrder tasks done.1 := by
  induction targets generalizing before p with
  | nil => exact ⟨[], .refl, .nil⟩
  | cons path targets ih =>
    dsimp only
    have hfirst := reaches_auditArtifact (t := t) (a := a) before (targets.map (⟨·, .waiting⟩))
      path p
    rw [List.mapM_cons, run_bind]
    generalize (a.auditArtifact t path).run.run p = first at hfirst
    obtain ⟨failure | report, p'⟩ := first
    · exact ⟨_, hfirst, .failed⟩
    · obtain ⟨tasks, hrest, horder⟩ := ih (before ++ [⟨path, .ended (.ok report)⟩]) p'
      dsimp only at hfirst hrest ⊢
      rw [run_bind]
      generalize (targets.mapM (a.auditArtifact t)).run.run p' = rest at hrest horder
      rw [List.append_assoc, List.append_assoc] at hrest
      refine ⟨⟨path, .ended (.ok report)⟩ :: tasks, hfirst.trans ?_, ?_⟩
      · obtain ⟨failure | reports, p''⟩ := rest
        · exact hrest
        · exact hrest
      · have hended := @InOrder.ended path report _ _ horder
        obtain ⟨failure | reports, p''⟩ := rest
        · exact hended
        · exact hended

theorem InOrder.yields {tasks : List Task} {result : Except Failure (List ArtifactReport)}
    (h : InOrder tasks result) : Yields tasks (result.map ClassPathReport.mk) := by
  induction h with
  | nil => exact .reports .nil
  | failed => exact .failure List.mem_cons_self rfl
  | @ended path report tasks result _ ih =>
    cases result with
    | error failure =>
      obtain ⟨⟩ | ⟨hmem, hstage⟩ := ih
      exact .failure (List.mem_cons_of_mem _ hmem) hstage
    | ok reports =>
      obtain ⟨hall⟩ | _ := ih
      exact .reports (.cons rfl hall)

theorem Task.Sound.alone_of_failed {targets : List Path} {task : Task} {failure : Failure}
    (h : task.Sound t a targets) (hstage : task.stage = .ended (.error failure))
    (hfits : ∀ o, failure ≠ .overflow o) : a.alone t task.path = .error failure := by
  cases h with
  | failed hinspection =>
    cases hstage
    rw [alone_eq, hinspection]
    rfl
  | overflowed c hover =>
    cases hstage
    exact absurd rfl (hfits _)
  | _ => cases hstage

theorem Task.Sound.alone_of_ended {targets : List Path} {task : Task} {report : ArtifactReport}
    (h : task.Sound t a targets) (hstage : task.stage = .ended (.ok report)) :
    a.alone t task.path = .ok report := by
  obtain ⟨m, hinspection, sum, hadd⟩ := h.inspection_of_ended hstage
  rw [alone_eq, hinspection]
  show ((a.tally.add m).mapError Failure.overflow >>= fun _ => .ok report) = _
  rw [hadd]
  rfl

/-- The audit that fails when they are taken in order is the first that fails by itself. -/
theorem InOrder.firstFailure {targets : List Path} {tasks : List Task} {failure : Failure}
    (h : InOrder tasks (.error failure)) (hsound : ∀ task ∈ tasks, task.Sound t a targets)
    (hfits : ∀ o, failure ≠ .overflow o) :
    FirstFailure (a.alone t) (tasks.map (·.path)) failure := by
  generalize hresult : Except.error failure = result at h
  induction h with
  | nil => cases hresult
  | failed =>
    cases hresult
    rw [List.forall_mem_cons] at hsound
    exact firstFailure_cons_iff.mpr (.inl (hsound.1.alone_of_failed rfl hfits))
  | @ended path report tasks result _ ih =>
    rw [List.forall_mem_cons] at hsound
    cases result with
    | ok reports => cases hresult
    | error =>
      exact firstFailure_cons_iff.mpr
        (.inr ⟨⟨report, hsound.1.alone_of_ended rfl⟩, ih hsound.2 hresult⟩)

/-! ## The class path -/

/-- An audit of the class path that does not know what to audit does nothing. -/
theorem perform_auditClassPath_eq_refused {failure : Failure} (h : a.targets = .error failure) :
    a.perform (a.auditClassPath t) = (.error failure, a, #[]) := by
  have hrun : (a.auditClassPath t).run.run ⟨a.tally, #[]⟩
      = (.error failure, ⟨a.tally, #[]⟩) := by
    unfold auditClassPath
    rw [h]
    rfl
  unfold perform
  rw [hrun]

theorem perform_auditClassPath_of_ok {targets : List Path} (h : a.targets = .ok targets) :
    let done := (targets.mapM (a.auditArtifact t)).run.run ⟨a.tally, #[]⟩
    (a.perform (a.auditClassPath t)).1 = done.1.map ClassPathReport.mk
      ∧ (a.perform (a.auditClassPath t)).2.1.tally = done.2.tally := by
  show ((a.auditClassPath t).run.run ⟨a.tally, #[]⟩).1 = _
    ∧ ((a.auditClassPath t).run.run ⟨a.tally, #[]⟩).2.tally = _
  unfold auditClassPath
  rw [h]
  show ((targets.mapM (a.auditArtifact t) >>= _).run.run ⟨a.tally, #[]⟩).1 = _
    ∧ ((targets.mapM (a.auditArtifact t) >>= _).run.run ⟨a.tally, #[]⟩).2.tally = _
  rw [run_bind]
  generalize (targets.mapM (a.auditArtifact t)).run.run ⟨a.tally, #[]⟩ = done
  obtain ⟨failure | reports, p⟩ := done
  · exact ⟨rfl, rfl⟩
  · exact ⟨rfl, rfl⟩

/-- Auditing a class path takes its artifacts in order. -/
theorem exists_inOrder {targets : List Path} (h : a.targets = .ok targets) :
    ∃ s result, Reaches t a (.start a targets) s ∧ InOrder s.tasks result
      ∧ (a.perform (a.auditClassPath t)).1 = result.map ClassPathReport.mk
      ∧ (a.perform (a.auditClassPath t)).2.1.tally = s.progress.tally := by
  obtain ⟨tasks, hreaches, horder⟩ := reaches_mapM_auditArtifact (t := t) (a := a) targets []
    ⟨a.tally, #[]⟩
  obtain ⟨hresult, htally⟩ := perform_auditClassPath_of_ok (t := t) h
  exact ⟨_, _, hreaches, horder, hresult, htally⟩

theorem concurrentRun_auditClassPath (t : FileTree) (a : Audit) :
    ConcurrentRun t a (a.perform (a.auditClassPath t)).1
      (a.perform (a.auditClassPath t)).2.1.tally := by
  cases htargets : a.targets with
  | error failure =>
    rw [perform_auditClassPath_eq_refused htargets]
    exact .refused htargets
  | ok targets =>
    obtain ⟨s, result, hreaches, horder, hresult, htally⟩ := exists_inOrder (t := t) htargets
    rw [hresult, htally]
    exact .taken htargets hreaches horder.yields

/-- If a run ends well, every other one does, with the same reports and the same tally. -/
theorem ConcurrentRun.eq_of_ok {report : ClassPathReport} {tally tally' : Tally}
    {result : Except Failure ClassPathReport} (h : ConcurrentRun t a (.ok report) tally)
    (h' : ConcurrentRun t a result tally') : result = .ok report ∧ tally' = tally := by
  obtain _ | @⟨targets, s, _, htargets, hreaches, hyields⟩ := h
  obtain hrefused | @⟨targets', s', _, htargets', hreaches', hyields'⟩ := h'
  · rw [htargets] at hrefused
    cases hrefused
  · rw [htargets] at htargets'
    cases htargets'
    exact hyields.eq_of_ok ((Pool.sound_start targets).reaches hreaches)
      ((Pool.sound_start targets).reaches hreaches') hyields'

/-- Auditing the artifacts of a class path one after the other is one order in which the audits can
take their parts, and all orders end, with a result once they cannot go on.  In any order there are
reports exactly if there are one after the other, and then the same ones and the same tally.  A run
that fails, if not because a sum does not fit, fails as one of the artifacts does by itself; one
after the other, it is the first of them. -/
theorem auditClassPath_anyOrder (t : FileTree) (a : Audit) :
    ConcurrentRun t a (a.perform (a.auditClassPath t)).1 (a.perform (a.auditClassPath t)).2.1.tally
      ∧ WellFounded (flip (Step t a))
      ∧ (∀ s, (∀ s', ¬ Step t a s s') → ∃ result, Yields s.tasks result)
      ∧ ∀ result tally, ConcurrentRun t a result tally →
        (∀ report, result = .ok report ↔ (a.perform (a.auditClassPath t)).1 = .ok report)
        ∧ (∀ report, result = .ok report → tally = (a.perform (a.auditClassPath t)).2.1.tally)
        ∧ ∀ failure, result = .error failure →
          ∃ first, (a.perform (a.auditClassPath t)).1 = .error first
            ∧ (a.targets = .error failure ∧ first = failure
              ∨ ∃ targets, a.targets = .ok targets
                ∧ ((∀ o, failure ≠ .overflow o) → ∃ path ∈ targets, a.alone t path = .error failure)
                ∧ ((∀ o, first ≠ .overflow o) → FirstFailure (a.alone t) targets first)) := by
  refine ⟨concurrentRun_auditClassPath t a, wellFounded_step t a, fun s => exists_yields_of_stuck,
    ?_⟩
  rintro result tally (hrefused | @⟨targets, s, _, htargets, hreaches, hyields⟩)
  · rw [perform_auditClassPath_eq_refused hrefused]
    refine ⟨fun report => Iff.rfl, ?_, ?_⟩
    · rintro report ⟨⟩
    · rintro failure ⟨⟩
      exact ⟨_, rfl, .inl ⟨hrefused, rfl⟩⟩
  · obtain ⟨s', result', hreaches', horder, hresult, htally⟩ := exists_inOrder (t := t) htargets
    have hs := (Pool.sound_start targets).reaches hreaches
    have hs' := (Pool.sound_start targets).reaches hreaches'
    rw [hresult, htally]
    refine ⟨fun report => ⟨?_, ?_⟩, ?_, ?_⟩
    · rintro rfl
      exact (hyields.eq_of_ok hs hs' horder.yields).1
    · intro hok
      have hyields' := horder.yields
      rw [hok] at hyields'
      exact (hyields'.eq_of_ok hs' hs hyields).1
    · rintro report rfl
      exact (hyields.eq_of_ok hs hs' horder.yields).2.symm
    · rintro failure rfl
      cases result' with
      | ok reports =>
        obtain ⟨hok, -⟩ := Yields.eq_of_ok hs' hs horder.yields hyields
        cases hok
      | error first =>
        refine ⟨first, rfl, .inr ⟨targets, htargets, fun hfits => ?_, fun hfits => ?_⟩⟩
        · obtain _ | ⟨hmem, hstage⟩ := hyields
          exact ⟨_, hs.paths ▸ List.mem_map_of_mem hmem,
            (hs.tasks _ hmem).alone_of_failed hstage hfits⟩
        · have hfirst := horder.firstFailure hs'.tasks hfits
          rwa [hs'.paths] at hfirst

end Linkage.Audit
