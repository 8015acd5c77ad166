import Mathlib.Logic.Relation
import Linkage.Proofs.Resolution.Lookup

/-!
# Ancestors

A class extends the one it names as its superclass.  Whether one class descends from another by
one or more such steps is found out by a walk that keeps the names it has visited; on an index
whose classes are called what they are defined as, an answer of the walk is the truth, whatever
cycles or gaps the hierarchy has.

The ancestor is told by its name, before it is loaded, so it need not be defined.  Up to there the
chain of superclasses is followed by `ClimbsPast`, and `StopsWith` says what can stop it and what
the answer is then.  Superclasses are unique, so no two of these answers are due at once.

* `AncestorStep`: one step of the walk.
* `searchAncestor_ne_exhausted`: its budget is never used up.
* `descendsFrom_eq_iff`: the answer, or the failure, is the one that is due.
* `descendsFrom_exact`: the three answers a linker can give, each said by the chain.
-/

namespace Linkage

/-! ## One step -/

section

variable {ε : Type} {lookUp : ClassName → Except ε (Option ClassView)} {ancestor : ClassName}
  {budget : Nat}

/-- What looking into one class on the way to an ancestor can lead to. -/
inductive AncestorStep (lookUp : ClassName → Except ε (Option ClassView)) (ancestor : ClassName)
    (budget : Nat) (c : ClassView) (visited : List ClassName) : Descent → Prop where
  /-- A class of this name has been visited. -/
  | repeated (hname : c.name ∈ visited) : AncestorStep lookUp ancestor budget c visited .no
  /-- There is no superclass. -/
  | topmost (hname : c.name ∉ visited) (hsuper : c.superclass = none) :
    AncestorStep lookUp ancestor budget c visited .no
  /-- The superclass is the ancestor, which need not be defined. -/
  | reached (hname : c.name ∉ visited) (hsuper : c.superclass = some ancestor) :
    AncestorStep lookUp ancestor budget c visited .yes
  /-- The superclass is not defined. -/
  | missing (hname : c.name ∉ visited) {s : ClassName} (hsuper : c.superclass = some s)
      (hother : s ≠ ancestor) (habove : lookUp s = .ok none) :
    AncestorStep lookUp ancestor budget c visited .no
  /-- The walk goes on with the superclass. -/
  | climbs (hname : c.name ∉ visited) {s : ClassName} {above : ClassView} {result : Descent}
      (hsuper : c.superclass = some s) (hother : s ≠ ancestor)
      (habove : lookUp s = .ok (some above))
      (hrest : (searchAncestor ancestor budget above (c.name :: visited)).run lookUp
        = .ok result) : AncestorStep lookUp ancestor budget c visited result

theorem ancestorStep_of_run {c : ClassView} {visited : List ClassName} {result : Descent}
    (h : (searchAncestor ancestor (budget + 1) c visited).run lookUp = .ok result) :
    AncestorStep lookUp ancestor budget c visited result := by
  rw [searchAncestor] at h
  by_cases hname : c.name ∈ visited
  · rw [if_pos (by simpa using hname)] at h
    injection h with h
    exact h ▸ .repeated hname
  rw [if_neg (by simpa using hname)] at h
  cases hsuper : c.superclass with
  | none =>
    simp only [hsuper] at h
    injection h with h
    exact h ▸ .topmost hname hsuper
  | some s =>
    simp only [hsuper] at h
    by_cases hs : s = ancestor
    · rw [if_pos hs] at h
      injection h with h
      exact h ▸ .reached hname (hs ▸ hsuper)
    rw [if_neg hs, Inquiry.run_ask_eq_ok_iff] at h
    obtain ⟨answer, habove, h⟩ := h
    cases answer with
    | some above => exact .climbs hname hsuper hs habove h
    | none =>
      injection h with h
      exact h ▸ .missing hname hsuper hs habove

/-- A walk fails where a superclass fails to load. -/
theorem searchAncestor_eq_error {c : ClassView} {visited : List ClassName} {failure : ε}
    (h : (searchAncestor ancestor (budget + 1) c visited).run lookUp = .error failure) :
    ∃ s, c.superclass = some s ∧ s ≠ ancestor ∧ (lookUp s = .error failure
      ∨ ∃ above, lookUp s = .ok (some above)
        ∧ (searchAncestor ancestor budget above (c.name :: visited)).run lookUp
          = .error failure) := by
  rw [searchAncestor] at h
  by_cases hname : c.name ∈ visited
  · rw [if_pos (by simpa using hname)] at h
    cases h
  rw [if_neg (by simpa using hname)] at h
  cases hsuper : c.superclass with
  | none =>
    simp only [hsuper] at h
    cases h
  | some s =>
    simp only [hsuper] at h
    by_cases hs : s = ancestor
    · rw [if_pos hs] at h
      cases h
    rw [if_neg hs] at h
    refine ⟨s, rfl, hs, ?_⟩
    rcases except_bind_eq_error_iff.mp h with h | ⟨answer, habove, h⟩
    · exact .inl h
    cases answer with
    | none => cases h
    | some above => exact .inr ⟨above, habove, h⟩

end

variable {t : FileTree} {i : ClassIndex} {ancestor : ClassName}

theorem searchAncestor_ne_exhausted {budget : Nat} {c : ClassView} {visited : List ClassName}
    {result : Descent} (hc : ∃ n, i.Loads t n c)
    (hbudget : i.unseen (i.ownName t) visited < budget)
    (h : (searchAncestor ancestor budget c visited).run (i.answer t) = .ok result) :
    result ≠ .exhausted := by
  induction budget generalizing c visited with
  | zero => exact absurd hbudget (Nat.not_lt_zero _)
  | succ budget ih =>
    cases ancestorStep_of_run h with
    | repeated => simp
    | topmost => simp
    | reached => simp
    | missing => simp
    | climbs hname hsuper hother habove hrest =>
      obtain ⟨_, hload⟩ := hc
      have hfewer := hload.unseen_lt hname
      exact ih ⟨_, ClassIndex.answer_eq_some_iff.mp habove⟩ (by omega) hrest

namespace ClassIndex

open Relation (ReflTransGen TransGen)

/-! ## The relation -/

/-- A class that loads names another as its superclass. -/
def Extends (t : FileTree) (i : ClassIndex) (name above : ClassName) : Prop :=
  ∃ c, i.Loads t name c ∧ c.superclass = some above

/-- One step up that does not lead to the ancestor. -/
def ClimbsPast (t : FileTree) (i : ClassIndex) (ancestor name above : ClassName) : Prop :=
  i.Extends t name above ∧ above ≠ ancestor

variable {name above last last' : ClassName} {c : ClassView}

theorem Loads.extends_iff (h : i.Loads t name c) :
    i.Extends t name above ↔ c.superclass = some above := by
  constructor
  · rintro ⟨d, hd, hsuper⟩
    rwa [h.unique hd]
  · intro hsuper
    exact ⟨c, h, hsuper⟩

theorem rightUnique_extends : Relator.RightUnique (i.Extends t) := by
  rintro name above above' ⟨c, hload, hsuper⟩ h
  rw [hload.extends_iff, hsuper] at h
  exact Option.some.inj h

theorem rightUnique_climbsPast : Relator.RightUnique (i.ClimbsPast t ancestor) :=
  fun _ _ _ h h' => rightUnique_extends h.1 h'.1

/-- Whoever descends from the ancestor meets it for a first time. -/
theorem transGen_extends_iff : TransGen (i.Extends t) name ancestor ↔
    ∃ last, ReflTransGen (i.ClimbsPast t ancestor) name last ∧ i.Extends t last ancestor := by
  constructor
  · intro h
    induction h using TransGen.head_induction_on with
    | single h => exact ⟨_, .refl, h⟩
    | @head name above hstep _ ih =>
      by_cases hmet : above = ancestor
      · exact ⟨name, .refl, hmet ▸ hstep⟩
      · obtain ⟨last, hlast, h⟩ := ih
        exact ⟨last, .head ⟨hstep, hmet⟩ hlast, h⟩
  · rintro ⟨last, hlast, h⟩
    exact .tail' (hlast.lift id fun _ _ hstep => hstep.1) h

/-- What lies on a chain that starts on a cycle lies on a cycle. -/
theorem transGen_of_cycle (hcycle : TransGen (i.ClimbsPast t ancestor) name name)
    (h : ReflTransGen (i.ClimbsPast t ancestor) name last) :
    TransGen (i.ClimbsPast t ancestor) last last := by
  induction h with
  | refl => exact hcycle
  | tail _ hstep ih =>
    obtain ⟨next, hnext, hback⟩ := TransGen.head'_iff.mp ih
    obtain rfl := rightUnique_climbsPast hstep hnext
    exact .tail' hback hstep

/-! ## What stops a chain -/

/-- What stops a chain at a class before the ancestor has been met, and the answer that is due
then. -/
inductive StopsWith (t : FileTree) (i : ClassIndex) (ancestor last : ClassName) :
    Except Failure Bool → Prop where
  /-- The next step leads to the ancestor, which need not be defined. -/
  | reached (h : i.Extends t last ancestor) : StopsWith t i ancestor last (.ok true)
  /-- There is no such class. -/
  | undefined (h : i.contains last = false) : StopsWith t i ancestor last (.ok false)
  /-- The class has no superclass. -/
  | topmost {c : ClassView} (hload : i.Loads t last c) (hsuper : c.superclass = none) :
    StopsWith t i ancestor last (.ok false)
  /-- The chain comes back to it. -/
  | cyclic (h : TransGen (i.ClimbsPast t ancestor) last last) :
    StopsWith t i ancestor last (.ok false)
  /-- The class is defined and fails to load. -/
  | broken {failure : Failure} (hdefined : i.contains last = true)
      (hload : i.load t last = .error failure) : StopsWith t i ancestor last (.error failure)

/-- The answer that is due where the chain of a class stops. -/
def Due (t : FileTree) (i : ClassIndex) (ancestor name : ClassName)
    (answer : Except Failure Bool) : Prop :=
  ∃ last, ReflTransGen (i.ClimbsPast t ancestor) name last ∧ StopsWith t i ancestor last answer

/-- Does the class of a name, as it is loaded, extend the ancestor directly? -/
def extendsDirectly (t : FileTree) (i : ClassIndex) (ancestor name : ClassName) :
    Except Failure Bool :=
  (i.answer t name).map fun c? => decide (c?.bind ClassView.superclass = some ancestor)

theorem Loads.extendsDirectly (h : i.Loads t name c) :
    i.extendsDirectly t ancestor name = .ok (decide (c.superclass = some ancestor)) := by
  rw [ClassIndex.extendsDirectly, answer_eq_some_iff.mpr h]
  rfl

theorem ClimbsPast.extendsDirectly (h : i.ClimbsPast t ancestor name above) :
    i.extendsDirectly t ancestor name = .ok false := by
  obtain ⟨⟨c, hload, hsuper⟩, hpast⟩ := h
  rw [hload.extendsDirectly, hsuper]
  simp [hpast]

/-- The answer can be read off the class where the chain stops. -/
theorem StopsWith.eq_extendsDirectly {answer : Except Failure Bool}
    (h : StopsWith t i ancestor last answer) : answer = i.extendsDirectly t ancestor last := by
  cases h with
  | reached h =>
    obtain ⟨c, hload, hsuper⟩ := h
    simp [hload.extendsDirectly, hsuper]
  | undefined h =>
    rw [extendsDirectly, answer_eq_none_iff.mpr h]
    rfl
  | topmost hload hsuper => simp [hload.extendsDirectly, hsuper]
  | cyclic h =>
    obtain ⟨above, hstep, -⟩ := TransGen.head'_iff.mp h
    exact hstep.extendsDirectly.symm
  | broken hdefined hload =>
    rw [extendsDirectly, answer_eq_error_iff.mpr ⟨hdefined, hload⟩]
    rfl

/-- Only on a cycle can a chain that has stopped be followed further. -/
theorem StopsWith.cycle_of_climbsPast {answer : Except Failure Bool}
    (h : StopsWith t i ancestor last answer) (hstep : i.ClimbsPast t ancestor last above) :
    TransGen (i.ClimbsPast t ancestor) last last := by
  obtain ⟨⟨d, hd, hsuper⟩, hpast⟩ := hstep
  cases h with
  | reached h =>
    rw [hd.extends_iff, hsuper] at h
    exact absurd (Option.some.inj h) hpast
  | undefined h => exact absurd hd (not_loads_of_undefined h d)
  | topmost hload htop =>
    rw [← hload.unique hd, htop] at hsuper
    cases hsuper
  | cyclic h => exact h
  | broken hdefined hload =>
    have hanswer := answer_eq_error_iff.mpr ⟨hdefined, hload⟩
    rw [answer_eq_some_iff.mpr hd] at hanswer
    cases hanswer

theorem StopsWith.eq_of_climb {answer answer' : Except Failure Bool}
    (h : StopsWith t i ancestor last answer) (h' : StopsWith t i ancestor last' answer')
    (hclimb : ReflTransGen (i.ClimbsPast t ancestor) last last') : answer = answer' := by
  rw [h.eq_extendsDirectly, h'.eq_extendsDirectly]
  rcases ReflTransGen.cases_head hclimb with rfl | ⟨above, hstep, -⟩
  · rfl
  · -- the chain goes on, so both places are on one cycle
    have hcycle := transGen_of_cycle (h.cycle_of_climbsPast hstep) hclimb
    obtain ⟨above', hstep', -⟩ := TransGen.head'_iff.mp hcycle
    rw [hstep.extendsDirectly, hstep'.extendsDirectly]

/-- No two answers are due. -/
theorem Due.unique {answer answer' : Except Failure Bool} (h : Due t i ancestor name answer)
    (h' : Due t i ancestor name answer') : answer = answer' := by
  obtain ⟨last, hlast, hend⟩ := h
  obtain ⟨last', hlast', hend'⟩ := h'
  rcases ReflTransGen.total_of_right_unique rightUnique_climbsPast hlast hlast' with hclimb | hclimb
  · exact hend.eq_of_climb hend' hclimb
  · exact (hend'.eq_of_climb hend hclimb).symm

theorem Due.climb {answer : Except Failure Bool} (hstep : i.ClimbsPast t ancestor name above)
    (h : Due t i ancestor above answer) : Due t i ancestor name answer := by
  obtain ⟨last, hlast, hend⟩ := h
  exact ⟨last, .head hstep hlast, hend⟩

/-! ## The walk -/

/-- The names a walk has visited lead to the class it is at. -/
def LeadTo (t : FileTree) (i : ClassIndex) (ancestor : ClassName) (visited : List ClassName)
    (name : ClassName) : Prop :=
  ∀ v ∈ visited, TransGen (i.ClimbsPast t ancestor) v name

theorem LeadTo.climb {visited : List ClassName} (h : LeadTo t i ancestor visited name)
    (hstep : i.ClimbsPast t ancestor name above) :
    LeadTo t i ancestor (name :: visited) above := by
  intro v hv
  rcases List.mem_cons.mp hv with rfl | hv
  · exact .single hstep
  · exact (h v hv).tail hstep

theorem due_of_searchAncestor (hnamed : i.CarriesNames t) {budget : Nat}
    {visited : List ClassName} {descent : Descent} (hload : i.Loads t name c)
    (hvisited : LeadTo t i ancestor visited name) (hlasts : descent ≠ .exhausted)
    (h : (searchAncestor ancestor budget c visited).run (i.answer t) = .ok descent) :
    Due t i ancestor name (.ok (descent = .yes)) := by
  induction budget generalizing name c visited with
  | zero =>
    injection h with h
    exact absurd h.symm hlasts
  | succ budget ih =>
    have hname : c.name = name := hnamed name c hload
    cases ancestorStep_of_run h with
    | repeated hmem => exact ⟨name, .refl, .cyclic (hvisited name (hname ▸ hmem))⟩
    | topmost _ hsuper => exact ⟨name, .refl, .topmost hload hsuper⟩
    | reached _ hsuper => exact ⟨name, .refl, .reached ⟨c, hload, hsuper⟩⟩
    | missing _ hsuper hother habove =>
      exact .climb ⟨⟨c, hload, hsuper⟩, hother⟩
        ⟨_, .refl, .undefined (answer_eq_none_iff.mp habove)⟩
    | climbs _ hsuper hother habove hrest =>
      have hstep : i.ClimbsPast t ancestor name _ := ⟨⟨c, hload, hsuper⟩, hother⟩
      rw [hname] at hrest
      exact .climb hstep (ih (answer_eq_some_iff.mp habove) (hvisited.climb hstep) hrest)

theorem due_of_searchAncestor_error {budget : Nat} {visited : List ClassName} {failure : Failure}
    (hload : i.Loads t name c)
    (h : (searchAncestor ancestor budget c visited).run (i.answer t) = .error failure) :
    Due t i ancestor name (.error failure) := by
  induction budget generalizing name c visited with
  | zero => cases h
  | succ budget ih =>
    obtain ⟨s, hsuper, hother, h⟩ := searchAncestor_eq_error h
    refine .climb ⟨⟨c, hload, hsuper⟩, hother⟩ ?_
    rcases h with h | ⟨above, habove, h⟩
    · obtain ⟨hdefined, hfails⟩ := answer_eq_error_iff.mp h
      exact ⟨s, .refl, .broken hdefined hfails⟩
    · exact ih (answer_eq_some_iff.mp habove) h

/-- What the walk ends with is due. -/
theorem due_descendsFrom (hnamed : i.CarriesNames t) (name ancestor : ClassName) :
    Due t i ancestor name ((descendsFrom i.size name ancestor).run (i.answer t)) := by
  rw [descendsFrom, Inquiry.run_bind, Inquiry.run_view]
  cases hanswer : i.answer t name with
  | error failure =>
    obtain ⟨hdefined, hfails⟩ := answer_eq_error_iff.mp hanswer
    exact ⟨name, .refl, .broken hdefined hfails⟩
  | ok answer =>
    cases answer with
    | none => exact ⟨name, .refl, .undefined (answer_eq_none_iff.mp hanswer)⟩
    | some c =>
      have hload := answer_eq_some_iff.mp hanswer
      show Due t i ancestor name (Inquiry.run (i.answer t) (_ >>= _))
      rw [Inquiry.run_bind]
      cases hdescent : (searchAncestor ancestor (i.size + 1) c []).run (i.answer t) with
      | error failure => exact due_of_searchAncestor_error hload hdescent
      | ok descent =>
        have hlasts :=
          searchAncestor_ne_exhausted ⟨_, hload⟩ (Nat.lt_succ_of_le unseen_le_size) hdescent
        exact due_of_searchAncestor hnamed hload (by simp [LeadTo]) hlasts hdescent

theorem descendsFrom_eq_iff (hnamed : i.CarriesNames t) {answer : Except Failure Bool} :
    (descendsFrom i.size name ancestor).run (i.answer t) = answer
      ↔ Due t i ancestor name answer := by
  have hdue := due_descendsFrom hnamed name ancestor
  constructor
  · rintro rfl
    exact hdue
  · exact hdue.unique

/-! ## Answers -/

theorem due_true_iff : Due t i ancestor name (.ok true) ↔ TransGen (i.Extends t) name ancestor := by
  rw [transGen_extends_iff]
  refine exists_congr fun last => and_congr_right fun _ => ⟨?_, .reached⟩
  rintro ⟨h⟩
  exact h

theorem due_false_iff : Due t i ancestor name (.ok false) ↔
    ∃ last, ReflTransGen (i.ClimbsPast t ancestor) name last
      ∧ (i.contains last = false ∨ (∃ c, i.Loads t last c ∧ c.superclass = none)
        ∨ TransGen (i.ClimbsPast t ancestor) last last) := by
  refine exists_congr fun last => and_congr_right fun _ => ⟨?_, ?_⟩
  · intro h
    cases h with
    | undefined h => exact .inl h
    | topmost hload hsuper => exact .inr (.inl ⟨_, hload, hsuper⟩)
    | cyclic h => exact .inr (.inr h)
  · rintro (h | ⟨c, hload, hsuper⟩ | h)
    · exact .undefined h
    · exact .topmost hload hsuper
    · exact .cyclic h

theorem due_error_iff {failure : Failure} : Due t i ancestor name (.error failure) ↔
    ∃ last, ReflTransGen (i.ClimbsPast t ancestor) name last
      ∧ i.contains last = true ∧ i.load t last = .error failure := by
  refine exists_congr fun last => and_congr_right fun _ => ⟨?_, ?_⟩
  · intro h
    cases h with
    | broken hdefined hload => exact ⟨hdefined, hload⟩
  · rintro ⟨hdefined, hload⟩
    exact .broken hdefined hload

/-- An answer tells whether one class descends from another. -/
theorem descendsFrom_decides (hnamed : i.CarriesNames t) {b : Bool}
    (h : (descendsFrom i.size name ancestor).run (i.answer t) = .ok b) :
    b = true ↔ Relation.TransGen (i.Extends t) name ancestor := by
  rw [← due_true_iff, ← descendsFrom_eq_iff hnamed, h, Except.ok.injEq]

/-- Whatever a linker has served before, it answers that one class descends from another exactly
if one or more steps through classes that load lead from the one to the name of the other; that it
does not, exactly if the chain ends or comes back to itself before; and it fails exactly if the
chain comes before to a class that fails to load, with the failure of that class.  A class on a
cycle descends from itself. -/
theorem descendsFrom_exact (t : FileTree) (i : ClassIndex) (hnamed : i.CarriesNames t)
    (rs : List Request) (name ancestor : ClassName) :
    let answer := fun ancestor =>
      ((Linker.descendsFrom t i name ancestor).on (Linker.serve t i rs {}).2).1
    (answer ancestor = .ok true ↔ TransGen (i.Extends t) name ancestor)
      ∧ (answer ancestor = .ok false ↔
        ∃ last, ReflTransGen (i.ClimbsPast t ancestor) name last
          ∧ (i.contains last = false ∨ (∃ c, i.Loads t last c ∧ c.superclass = none)
            ∨ TransGen (i.ClimbsPast t ancestor) last last))
      ∧ (∀ failure, answer ancestor = .error failure ↔
        ∃ last, ReflTransGen (i.ClimbsPast t ancestor) name last
          ∧ i.contains last = true ∧ i.load t last = .error failure)
      ∧ (TransGen (i.Extends t) name name → answer name = .ok true) := by
  intro answer
  have hanswer : ∀ ancestor result, answer ancestor = result ↔ Due t i ancestor name result := by
    intro ancestor result
    have hfaithful := ((Linker.faithful_fresh t i).serve rs).2
    show ((Linker.descendsFrom t i name ancestor).on _).1 = result ↔ _
    rw [(transparent_descendsFrom name ancestor _ hfaithful).1]
    exact descendsFrom_eq_iff hnamed
  refine ⟨?_, ?_, fun failure => ?_, fun hcycle => ?_⟩
  · rw [hanswer, due_true_iff]
  · rw [hanswer, due_false_iff]
  · rw [hanswer, due_error_iff]
  · rw [hanswer, due_true_iff]
    exact hcycle

/-- Two classes that extend each other descend from themselves, and from no class that is not on
their cycle. -/
theorem descendsFrom_exact_tangled :
    let t : FileTree := ⟨[], []⟩
    let answer := fun ancestor =>
      ((Linker.descendsFrom t tangled "A" ancestor).on
        (Linker.serve t tangled [.descendsFrom "B" "I"] {}).2).1
    tangled.CarriesNames t
      ∧ TransGen (tangled.Extends t) "A" "A" ∧ answer "A" = .ok true
      ∧ TransGen (tangled.ClimbsPast t "I") "A" "A" ∧ answer "I" = .ok false := by
  intro t answer
  have hnamed : tangled.CarriesNames t := carriesNames_ofRows t tangledRows
  have hup : tangled.Extends t "A" "B" := ⟨_, loads_ofRows t rfl, rfl⟩
  have hdown : tangled.Extends t "B" "A" := ⟨_, loads_ofRows t rfl, rfl⟩
  have hself : TransGen (tangled.Extends t) "A" "A" := .tail (.single hup) hdown
  have hcycle : TransGen (tangled.ClimbsPast t "I") "A" "A" :=
    .tail (.single ⟨hup, by decide⟩) ⟨hdown, by decide⟩
  have hexact := descendsFrom_exact t tangled hnamed [.descendsFrom "B" "I"] "A"
  exact ⟨hnamed, hself, (hexact "A").1.mpr hself, hcycle,
    (hexact "I").2.1.mpr ⟨"A", .refl, .inr (.inr hcycle)⟩⟩

end ClassIndex

end Linkage
