import Linkage.Proofs.Resolution.Ancestry

/-!
# What becomes of a reference to a member

The rules a reference to a method or field is judged by, in the order in which they apply: is the
target defined, may the source see it, does the lookup find the member, may the source use it.
`Verdict` has one case for each way to end.  A broken reference is placed at the artifact of its
target, also when the member was found in a class of another artifact.

* `memberOutcome_verdict`: every outcome is one the rules give.
* `Verdict.unique`: they give no other.
-/

namespace Linkage

/-- What a reference looks for in its target, if it is one to a member. -/
def Reference.query? : Reference → Option Query
  | .toClass _ => none
  | .toMethod r => some (.method r.method r.descriptor)
  | .toField r => some (.field r.field)

namespace ClassIndex

/-- The four rules of access: a member is open to everyone, or to its package and to the classes
that descend from its own, or to its package, or to the classes of its outermost class. -/
def CanUse (t : FileTree) (i : ClassIndex) (source : ClassName) (f : Found) : Prop :=
  f.member.access.visibility = .everyone
    ∨ (f.member.access.visibility = .subclasses
      ∧ (source.samePackage f.declaring = true
        ∨ Relation.TransGen (i.Extends t) source f.declaring))
    ∨ (f.member.access.visibility = .package ∧ source.samePackage f.declaring = true)
    ∨ (f.member.access.visibility = .nest ∧ source.topLevel = f.declaring.topLevel)

/-- The lookup in a class gives this result, and it is the one that a lookup has to give. -/
structure Finds (t : FileTree) (i : ClassIndex) (q : Query) (c : ClassView) (r : Option Found) :
    Prop where
  /-- The walk ends with it. -/
  given : (memberOf q i.assumes i.size c).run (i.answer t) = .ok r
  /-- It is what the hierarchy holds. -/
  due : LookedUp t i q c r

/-- The target is defined at `location` by the class `c`. -/
structure DefinedBy (t : FileTree) (i : ClassIndex) (target : ClassName) (location : Path)
    (c : ClassView) : Prop where
  /-- The artifact that defines it. -/
  definer : i.definer? target = some location
  /-- Its class. -/
  loads : i.Loads t target c

/-- A class that is not public is closed to other packages. -/
def ClosedTo (source target : ClassName) (c : ClassView) : Prop :=
  c.isPublic = false ∧ source.samePackage target = false

/-- What becomes of a reference from `source` to a member of `target`. -/
inductive Verdict (t : FileTree) (i : ClassIndex) (source target : ClassName) (q : Query) :
    Outcome → Prop where
  /-- The target is not defined and taken to be supplied. -/
  | assumed (hundefined : i.contains target = false)
      (hassumed : i.platform.assumes target = true) : Verdict t i source target q .resolved
  /-- The target is not defined and not taken to be supplied. -/
  | missing (hundefined : i.contains target = false)
      (hassumed : i.platform.assumes target = false) :
    Verdict t i source target q (.broken .classNotFound)
  /-- The source may not see the target. -/
  | closed {location : Path} {c : ClassView} (hdefined : DefinedBy t i target location c)
      (hclosed : ClosedTo source target c) :
    Verdict t i source target q (.broken (.inaccessible location))
  /-- It may, but there is no such member. -/
  | absent {location : Path} {c : ClassView} (hdefined : DefinedBy t i target location c)
      (hopen : ¬ ClosedTo source target c) (hfinds : Finds t i q c none) :
    Verdict t i source target q (.broken (.symbolNotFound location))
  /-- There is, and the source may use it. -/
  | usable {location : Path} {c : ClassView} {f : Found}
      (hdefined : DefinedBy t i target location c) (hopen : ¬ ClosedTo source target c)
      (hfinds : Finds t i q c (some f)) (huse : CanUse t i source f) :
    Verdict t i source target q .resolved
  /-- There is, and the source may not use it. -/
  | forbidden {location : Path} {c : ClassView} {f : Found}
      (hdefined : DefinedBy t i target location c) (hopen : ¬ ClosedTo source target c)
      (hfinds : Finds t i q c (some f)) (huse : ¬ CanUse t i source f) :
    Verdict t i source target q (.broken (.inaccessible location))

variable {t : FileTree} {i : ClassIndex} {source target : ClassName} {q : Query}

/-! ## Names and places -/

theorem definer?_eq_none_iff {name : ClassName} :
    i.definer? name = none ↔ i.contains name = false := by
  simp [definer?, contains]

theorem DefinedBy.contains {location : Path} {c : ClassView}
    (h : DefinedBy t i target location c) : i.contains target = true :=
  h.loads.contains

theorem assumes_of_undefined {name : ClassName} (h : i.contains name = false) :
    i.assumes name = i.platform.assumes name := by
  simp [assumes, h]

/-- A reference to a class is broken exactly if the class is neither defined nor assumed. -/
theorem classOutcome_eq_broken_iff {name : ClassName} {cause : Cause} :
    i.classOutcome name = .broken cause ↔
      cause = .classNotFound ∧ i.contains name = false ∧ i.platform.assumes name = false := by
  unfold classOutcome assumes
  cases i.contains name <;> cases i.platform.assumes name <;> simp [eq_comm]

/-! ## The rules give one outcome -/

theorem Finds.unique {c : ClassView} {r r' : Option Found} (h : Finds t i q c r)
    (h' : Finds t i q c r') : r = r' := by
  have hsame := h.given.symm.trans h'.given
  injection hsame

theorem DefinedBy.unique {l l' : Path} {c c' : ClassView} (h : DefinedBy t i target l c)
    (h' : DefinedBy t i target l' c') : l = l' ∧ c = c' :=
  ⟨Option.some.inj (h.definer.symm.trans h'.definer), h.loads.unique h'.loads⟩

theorem Verdict.eq_classNotFound_iff {o : Outcome} (h : Verdict t i source target q o) :
    o = .broken .classNotFound ↔
      i.contains target = false ∧ i.platform.assumes target = false := by
  cases h with
  | assumed hundefined hassumed => simp [hassumed]
  | missing hundefined hassumed => simp [hundefined, hassumed]
  | closed hdefined => simp [hdefined.contains]
  | absent hdefined => simp [hdefined.contains]
  | usable hdefined => simp [hdefined.contains]
  | forbidden hdefined => simp [hdefined.contains]

theorem Verdict.location {cause : Cause} {l : Path}
    (h : Verdict t i source target q (.broken cause)) (hl : cause.location? = some l) :
    i.definer? target = some l := by
  cases h with
  | missing => simp [Cause.location?] at hl
  | closed hdefined => exact Option.some.inj hl ▸ hdefined.definer
  | absent hdefined => exact Option.some.inj hl ▸ hdefined.definer
  | forbidden hdefined => exact Option.some.inj hl ▸ hdefined.definer

theorem Verdict.of_undefined {o : Outcome} (h : Verdict t i source target q o)
    (hundefined : i.contains target = false) :
    o = if i.platform.assumes target then .resolved else .broken .classNotFound := by
  cases h with
  | assumed _ hassumed => rw [if_pos hassumed]
  | missing _ hassumed => simp [hassumed]
  | closed hdefined | absent hdefined | usable hdefined | forbidden hdefined =>
    rw [hdefined.contains] at hundefined
    cases hundefined

theorem Verdict.exists_definedBy {o : Outcome} (h : Verdict t i source target q o)
    (hcontains : i.contains target = true) : ∃ location c, DefinedBy t i target location c := by
  cases h with
  | assumed hundefined | missing hundefined =>
    rw [hcontains] at hundefined
    cases hundefined
  | closed hdefined | absent hdefined | usable hdefined | forbidden hdefined =>
    exact ⟨_, _, hdefined⟩

/-- What the rules say of a target that is defined, from the first question on. -/
theorem Verdict.of_defined {o : Outcome} {location : Path} {c : ClassView}
    (h : Verdict t i source target q o) (hdefined : DefinedBy t i target location c) :
    (ClosedTo source target c ∧ o = .broken (.inaccessible location))
      ∨ (¬ ClosedTo source target c ∧ Finds t i q c none
        ∧ o = .broken (.symbolNotFound location))
      ∨ (¬ ClosedTo source target c ∧ ∃ f, Finds t i q c (some f)
        ∧ (CanUse t i source f ∧ o = .resolved
          ∨ ¬ CanUse t i source f ∧ o = .broken (.inaccessible location))) := by
  cases h with
  | assumed hundefined | missing hundefined =>
    rw [hdefined.contains] at hundefined
    cases hundefined
  | closed hdefined' hclosed =>
    obtain ⟨rfl, rfl⟩ := hdefined.unique hdefined'
    exact .inl ⟨hclosed, rfl⟩
  | absent hdefined' hopen hfinds =>
    obtain ⟨rfl, rfl⟩ := hdefined.unique hdefined'
    exact .inr (.inl ⟨hopen, hfinds, rfl⟩)
  | usable hdefined' hopen hfinds huse =>
    obtain ⟨rfl, rfl⟩ := hdefined.unique hdefined'
    exact .inr (.inr ⟨hopen, _, hfinds, .inl ⟨huse, rfl⟩⟩)
  | forbidden hdefined' hopen hfinds huse =>
    obtain ⟨rfl, rfl⟩ := hdefined.unique hdefined'
    exact .inr (.inr ⟨hopen, _, hfinds, .inr ⟨huse, rfl⟩⟩)

theorem Verdict.unique {o o' : Outcome} (h : Verdict t i source target q o)
    (h' : Verdict t i source target q o') : o = o' := by
  cases hcontains : i.contains target with
  | false => rw [h.of_undefined hcontains, h'.of_undefined hcontains]
  | true =>
    obtain ⟨location, c, hdefined⟩ := h.exists_definedBy hcontains
    have hcases := h.of_defined hdefined
    have hcases' := h'.of_defined hdefined
    by_cases hclosed : ClosedTo source target c
    · simp only [hclosed, true_and, not_true_eq_false, false_and, or_false] at hcases hcases'
      rw [hcases, hcases']
    · simp only [hclosed, false_and, not_false_eq_true, true_and, false_or] at hcases hcases'
      rcases hcases with ⟨hfinds, rfl⟩ | ⟨f, hfinds, ho⟩ <;>
        rcases hcases' with ⟨hfinds', rfl⟩ | ⟨f', hfinds', ho'⟩
      · rfl
      · cases hfinds.unique hfinds'
      · cases hfinds.unique hfinds'
      · cases hfinds.unique hfinds'
        by_cases huse : CanUse t i source f
        · simp only [huse, true_and, not_true_eq_false, false_and, or_false] at ho ho'
          rw [ho, ho']
        · simp only [huse, false_and, not_false_eq_true, true_and, false_or] at ho ho'
          rw [ho, ho']

/-! ## The outcome is the one the rules give -/

/-- An answer tells whether a class may use a member. -/
theorem mayUse_decides (hnamed : i.CarriesNames t) {f : Found} {b : Bool}
    (h : (i.mayUse source f).run (i.answer t) = .ok b) : b = true ↔ CanUse t i source f := by
  unfold mayUse at h
  unfold CanUse
  cases hvisibility : f.member.access.visibility with
  | everyone =>
    rw [hvisibility] at h
    injection h with h
    simp [← h]
  | package =>
    rw [hvisibility] at h
    injection h with h
    simp [← h]
  | nest =>
    rw [hvisibility] at h
    injection h with h
    simp [← h]
  | subclasses =>
    simp only [hvisibility] at h
    by_cases hpackage : source.samePackage f.declaring = true
    · rw [if_pos hpackage] at h
      injection h with h
      simp [← h, hpackage]
    · rw [if_neg hpackage] at h
      simp [descendsFrom_decides hnamed h, hpackage]

/-- The outcome for a target that is defined. -/
theorem definedOutcome_verdict (hnamed : i.CarriesNames t) {location : Path} {o : Outcome}
    (hdefiner : i.definer? target = some location)
    (h : (i.definedOutcome location source target q).run (i.answer t) = .ok o) :
    Verdict t i source target q o := by
  obtain ⟨answer, hanswer, h⟩ := Inquiry.run_view_bind_eq_ok_iff.mp h
  cases answer with
  | none =>
    -- a name with an artifact is defined
    have hnone := definer?_eq_none_iff.mpr (answer_eq_none_iff.mp hanswer)
    rw [hdefiner] at hnone
    cases hnone
  | some c =>
    have hload := answer_eq_some_iff.mp hanswer
    have hdefined : DefinedBy t i target location c := ⟨hdefiner, hload⟩
    simp only at h
    by_cases hclosed : ClosedTo source target c
    · rw [if_pos (by simp [hclosed.1, hclosed.2])] at h
      injection h with h
      exact h ▸ .closed hdefined hclosed
    rw [if_neg (by simpa [ClosedTo] using hclosed)] at h
    obtain ⟨r, hr, h⟩ := Inquiry.run_bind_eq_ok_iff.mp h
    have hself : i.Loads t c.name c := by rwa [hnamed target c hload]
    have hfinds : Finds t i q c r := ⟨hr, memberOf_lookedUp hnamed hself hr⟩
    cases r with
    | none =>
      injection h with h
      exact h ▸ .absent hdefined hclosed hfinds
    | some f =>
      obtain ⟨b, hb, h⟩ := Inquiry.run_bind_eq_ok_iff.mp h
      have huse := mayUse_decides hnamed hb
      cases b with
      | true =>
        injection h with h
        exact h ▸ .usable hdefined hclosed hfinds (huse.mp rfl)
      | false =>
        injection h with h
        exact h ▸ .forbidden hdefined hclosed hfinds fun hcan => by simpa using huse.mpr hcan

theorem memberOutcome_verdict (hnamed : i.CarriesNames t) {o : Outcome}
    (h : (i.memberOutcome source target q).run (i.answer t) = .ok o) :
    Verdict t i source target q o := by
  unfold memberOutcome at h
  cases hdefiner : i.definer? target with
  | some location =>
    rw [hdefiner] at h
    exact definedOutcome_verdict hnamed hdefiner h
  | none =>
    rw [hdefiner] at h
    injection h with h
    have hundefined := definer?_eq_none_iff.mp hdefiner
    rw [assumes_of_undefined hundefined] at h
    cases hassumed : i.platform.assumes target with
    | true =>
      rw [hassumed] at h
      exact h ▸ .assumed hundefined hassumed
    | false =>
      rw [hassumed] at h
      exact h ▸ .missing hundefined hassumed

theorem outcome_eq_memberOutcome {r : Reference} (hq : r.query? = some q) :
    i.outcome r = i.memberOutcome r.source r.target q := by
  cases r with
  | toClass r => cases hq
  | toMethod r => cases hq; rfl
  | toField r => cases hq; rfl

/-- Whatever a linker has served before, the outcome of a reference to a member that does not fail
is the only one the rules give.  In particular its target is missing exactly if a reference to the
target as a class is broken, and it is placed at the artifact of its target. -/
theorem resolve_verdict (t : FileTree) (i : ClassIndex) (hnamed : i.CarriesNames t)
    (rs : List Request) (r : Reference) (q : Query) (hq : r.query? = some q) (o : Outcome)
    (h : ((Linker.resolve t i r).on (Linker.serve t i rs {}).2).1 = .ok o) :
    (∀ o', Verdict t i r.source r.target q o' ↔ o' = o)
      ∧ (o = .broken .classNotFound ↔
        i.contains r.target = false ∧ i.platform.assumes r.target = false)
      ∧ (o = .broken .classNotFound ↔ ∀ source,
        ((Linker.resolve t i (.toClass ⟨source, r.target⟩)).on (Linker.serve t i rs {}).2).1
          = .ok (.broken .classNotFound))
      ∧ ∀ cause l, o = .broken cause → cause.location? = some l →
        i.definer? r.target = some l := by
  have hfaithful := ((Linker.faithful_fresh t i).serve rs).2
  rw [(transparent_resolve r _ hfaithful).1, outcome_eq_memberOutcome hq] at h
  have hverdict := memberOutcome_verdict hnamed h
  refine ⟨fun o' => ⟨fun h' => h'.unique hverdict, fun h' => h' ▸ hverdict⟩,
    hverdict.eq_classNotFound_iff, ?_, ?_⟩
  · rw [hverdict.eq_classNotFound_iff]
    have hclass : ∀ source, ((Linker.resolve t i (.toClass ⟨source, r.target⟩)).on
        (Linker.serve t i rs {}).2).1 = .ok (i.classOutcome r.target) :=
      fun source => (transparent_resolve _ _ hfaithful).1
    simp [hclass, classOutcome_eq_broken_iff]
  · rintro cause l rfl hl
    exact hverdict.location hl

/-! A member inherited across artifacts: a public class of one archive extends a class of another,
which declares a protected field; a class of a third package that descends from neither mentions
the field. -/

/-- The classes of both archives. -/
def inheritedRows : List Row :=
  [⟨⟨"a.jar"⟩, tangledView "p.T" (some "q.B") [] []⟩,
    ⟨⟨"a.jar"⟩, tangledView "r.S" (some "q.Gone") [] []⟩,
    ⟨⟨"b.jar"⟩, tangledView "q.B" none [] [⟨"x", "I", ⟨4⟩⟩]⟩]

/-- The index of both. -/
def inherited : ClassIndex := ofRows inheritedRows

theorem inherited_run (t : FileTree) :
    (inherited.memberOutcome "r.S" "p.T" (.field "x")).run (inherited.answer t)
      = .ok (.broken (.inaccessible ⟨"a.jar"⟩)) := by
  rw [memberOutcome, inherited, definer?_ofRows, answer_ofRows]
  show (definedOutcome _ _ _ _ _).run _ = _
  unfold definedOutcome mayUse
  rw [size_ofRows inheritedRows (by decide)]
  rfl

/-- The field is protected, so the reference is broken; it is placed at the archive of the target,
not at that of the class that declares the field. -/
theorem resolve_verdict_inherited :
    let t : FileTree := ⟨[], []⟩
    let r : Reference := .toField ⟨"r.S", "p.T", "x"⟩
    let o : Outcome := .broken (.inaccessible ⟨"a.jar"⟩)
    inherited.CarriesNames t ∧ r.query? = some (.field "x")
      ∧ ((Linker.resolve t inherited r).on (Linker.serve t inherited [.resolve r] {}).2).1 = .ok o
      ∧ inherited.definer? "q.B" = some ⟨"b.jar"⟩
      ∧ Verdict t inherited "r.S" "p.T" (.field "x") o
      ∧ inherited.definer? "p.T" = some ⟨"a.jar"⟩ := by
  intro t r o
  have hrun : ((Linker.resolve t inherited r).on
      (Linker.serve t inherited [.resolve r] {}).2).1 = .ok o := by
    have hfaithful := ((Linker.faithful_fresh t inherited).serve [.resolve r]).2
    rw [(transparent_resolve _ _ hfaithful).1]
    exact inherited_run t
  have hnamed : inherited.CarriesNames t := carriesNames_ofRows t inheritedRows
  obtain ⟨hverdict, -, -, hlocation⟩ := resolve_verdict t inherited hnamed
    [.resolve r] r (.field "x") rfl o hrun
  exact ⟨hnamed, rfl, hrun, definer?_ofRows inheritedRows "q.B", (hverdict o).mpr rfl,
    hlocation _ _ rfl rfl⟩

end ClassIndex

end Linkage
