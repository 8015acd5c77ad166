import Mathlib.Data.Set.Card
import Linkage.Proofs.References

/-!
# The references of several classes as a union

The references of several classes are gathered at once and sorted once.  Merging the references of
one class after another into a growing set comes to the same, and stops at the same class if one
declares a malformed descriptor.  A set is determined by its members, so neither the order of the
classes nor their repetition shows in the result: this is why reports do not depend on the order of
the entries of an artifact.

* `ReferenceSet.foldl_merge`: merging one by one against gathering at once.
* `ReferenceSet.UnionOf`: what the references of some classes have to be, kind by kind.
* `allReferences_union`: they are that, for every order and repetition of the classes.
-/

namespace Linkage

namespace ReferenceSet

variable {s s' acc : ReferenceSet} {r : Reference}

/-! ## Merging one by one -/

/-- The set without references. -/
def empty : ReferenceSet := ⟨[], [], []⟩

/-- The members of either set. -/
def merge (s s' : ReferenceSet) : ReferenceSet :=
  unions [s, s']

theorem ascends_empty : empty.Ascends :=
  ⟨.nil, .nil, .nil⟩

theorem ascends_unions (sets : List ReferenceSet) : (unions sets).Ascends :=
  ascends_ofLists _ _ _

theorem mem_merge : r ∈ (s.merge s').toList ↔ r ∈ s.toList ∨ r ∈ s'.toList := by
  rw [merge, mem_unions]
  simp

/-- A set that has been merged into ascends as before. -/
theorem ascends_foldl_merge (h : acc.Ascends) (sets : List ReferenceSet) :
    (sets.foldl merge acc).Ascends := by
  induction sets generalizing acc with
  | nil => exact h
  | cons s sets ih => exact ih (ascends_unions [acc, s])

/-- Its members are those it had and those of the sets merged into it. -/
theorem mem_foldl_merge (sets : List ReferenceSet) :
    r ∈ (sets.foldl merge acc).toList ↔ r ∈ acc.toList ∨ ∃ s ∈ sets, r ∈ s.toList := by
  induction sets generalizing acc with
  | nil => simp
  | cons s sets ih =>
    rw [List.foldl_cons, ih, mem_merge, or_assoc, List.exists_mem_cons_iff]

/-- Merging sets one after another gives the union of all. -/
theorem foldl_merge (sets : List ReferenceSet) : sets.foldl merge empty = unions sets := by
  refine (ascends_foldl_merge ascends_empty sets).ext (ascends_unions sets) fun r => ?_
  rw [mem_foldl_merge, mem_unions]
  simp [empty, toList]

theorem Ascends.size_eq_ncard (h : s.Ascends) : s.size = {r | r ∈ s.toList}.ncard := by
  rw [← length_toList, ← List.toFinset_card_of_nodup h.nodup_toList, ← Set.ncard_coe_finset,
    List.coe_toFinset]

/-! ## What the union has to be -/

/-- The references are those any of the classes makes, each once and in order. -/
structure UnionOf (sources : List ClassView) (refs : ReferenceSet) : Prop where
  /-- References to classes. -/
  classes : ∀ r, r ∈ refs.classes ↔ ∃ c ∈ sources, ∃ own, c.references = .ok own ∧ r ∈ own.classes
  /-- References to methods. -/
  methods : ∀ r, r ∈ refs.methods ↔ ∃ c ∈ sources, ∃ own, c.references = .ok own ∧ r ∈ own.methods
  /-- References to fields. -/
  fields : ∀ r, r ∈ refs.fields ↔ ∃ c ∈ sources, ∃ own, c.references = .ok own ∧ r ∈ own.fields
  /-- Each kind is strictly ascending. -/
  ascends : refs.Ascends

variable {classes others : List ClassView} {refs refs' : ReferenceSet}

theorem UnionOf.mem_toList (h : refs.UnionOf classes) :
    r ∈ refs.toList ↔ ∃ c ∈ classes, ∃ own, c.references = .ok own ∧ r ∈ own.toList := by
  cases r with
  | toClass r => simp only [toClass_mem_toList, h.classes]
  | toMethod r => simp only [toMethod_mem_toList, h.methods]
  | toField r => simp only [toField_mem_toList, h.fields]

theorem UnionOf.unique (h : refs.UnionOf classes) (h' : refs'.UnionOf classes) : refs = refs' :=
  h.ascends.ext h'.ascends fun r => by rw [h.mem_toList, h'.mem_toList]

theorem UnionOf.of_same (hsame : ∀ c, c ∈ others ↔ c ∈ classes) (h : refs.UnionOf classes) :
    refs.UnionOf others where
  classes r := by simp only [h.classes, hsame]
  methods r := by simp only [h.methods, hsame]
  fields r := by simp only [h.fields, hsame]
  ascends := h.ascends

end ReferenceSet

open ReferenceSet (merge empty)

variable {classes others : List ClassView} {refs : ReferenceSet}

/-! ## Classes one after another -/

theorem allReferences_eq_foldlM (classes : List ClassView) :
    allReferences classes
      = classes.foldlM (fun refs c => do return merge refs (← c.references)) empty := by
  rw [foldlM_eq_mapM_foldl]
  simp only [ReferenceSet.foldl_merge]
  rfl

theorem unionOf_of_allReferences (h : allReferences classes = .ok refs) :
    refs.UnionOf classes where
  classes r := by
    rw [← ReferenceSet.toClass_mem_toList, mem_allReferences h]
    simp only [ReferenceSet.toClass_mem_toList]
  methods r := by
    rw [← ReferenceSet.toMethod_mem_toList, mem_allReferences h]
    simp only [ReferenceSet.toMethod_mem_toList]
  fields r := by
    rw [← ReferenceSet.toField_mem_toList, mem_allReferences h]
    simp only [ReferenceSet.toField_mem_toList]
  ascends := ascends_allReferences h

theorem allReferences_eq_ok_iff : allReferences classes = .ok refs ↔
    (∀ c ∈ classes, ∃ own, c.references = .ok own) ∧ refs.UnionOf classes := by
  simp only [ClassView.exists_references_iff, ← exists_allReferences_iff]
  constructor
  · intro h
    exact ⟨⟨refs, h⟩, unionOf_of_allReferences h⟩
  · rintro ⟨⟨refs', h⟩, hrefs⟩
    rw [h, hrefs.unique (unionOf_of_allReferences h)]

theorem allReferences_of_same (hsame : ∀ c, c ∈ others ↔ c ∈ classes)
    (h : allReferences classes = .ok refs) : allReferences others = .ok refs := by
  obtain ⟨hall, hunion⟩ := allReferences_eq_ok_iff.mp h
  exact allReferences_eq_ok_iff.mpr ⟨fun c hc => hall c ((hsame c).mp hc), hunion.of_same hsame⟩

/-- The references of some classes are merged one class after another.  This fails exactly if it
fails for a class, with the failure of the first such class.  Otherwise each kind is the union of
what the classes make of it, in strictly ascending order, there are as many references as there are
distinct ones, and every list with the same classes, in whatever order and however often, gives the
same. -/
theorem allReferences_union (classes : List ClassView) :
    allReferences classes
        = classes.foldlM (fun refs c => do return merge refs (← c.references)) empty
      ∧ (∀ m, allReferences classes = .error m ↔ FirstFailure ClassView.references classes m)
      ∧ ((∃ m, allReferences classes = .error m) ↔ ∃ c ∈ classes, ∃ m, c.references = .error m)
      ∧ (∀ refs, allReferences classes = .ok refs ↔
        (∀ c ∈ classes, ∃ own, c.references = .ok own) ∧ refs.UnionOf classes)
      ∧ (∀ refs, allReferences classes = .ok refs → refs.toList.Nodup ∧ refs.size
        = {r | ∃ c ∈ classes, ∃ own, c.references = .ok own ∧ r ∈ own.toList}.ncard)
      ∧ ∀ others, (∀ c, c ∈ others ↔ c ∈ classes) →
        ∀ refs, allReferences others = .ok refs ↔ allReferences classes = .ok refs := by
  refine ⟨allReferences_eq_foldlM classes, fun m => allReferences_eq_error_iff, ?_,
    fun refs => allReferences_eq_ok_iff, fun refs h => ?_, fun others hsame refs => ⟨?_, ?_⟩⟩
  · simp only [allReferences_eq_error_iff]
    exact exists_firstFailure_iff
  · have hunion := unionOf_of_allReferences h
    refine ⟨hunion.ascends.nodup_toList, ?_⟩
    rw [hunion.ascends.size_eq_ncard]
    simp only [hunion.mem_toList]
  · exact allReferences_of_same fun c => (hsame c).symm
  · exact allReferences_of_same hsame

/-- A class called `p.S` that refers to some classes and, by their names, to methods. -/
def namesake (classRefs : List ClassName) (methodRefs : List MemberMention) : ClassView :=
  ⟨"p.S", none, [], ⟨1⟩, [], [], [], classRefs, methodRefs, []⟩

/-- Two classes of one name share a reference, which counts once in whatever order they come. -/
theorem allReferences_union_namesakes :
    let first := namesake ["q.A", "q.B"] []
    let second := namesake ["q.A"] [⟨"q.A", "m", "()V"⟩]
    let refs : ReferenceSet :=
      ⟨[⟨"p.S", "q.A"⟩, ⟨"p.S", "q.B"⟩], [⟨"p.S", "q.A", "m", "()V"⟩], []⟩
    allReferences [first, second] = .ok refs ∧ refs.size = 3
      ∧ (∀ c, c ∈ [second, first, second] ↔ c ∈ [first, second])
      ∧ allReferences [second, first, second] = .ok refs := by
  intro first second refs
  have hone : ReferenceSet.Ascends ⟨[⟨"p.S", "q.A"⟩, ⟨"p.S", "q.B"⟩], [], []⟩ :=
    ⟨by decide, by decide, by decide⟩
  have htwo : ReferenceSet.Ascends ⟨[⟨"p.S", "q.A"⟩], [⟨"p.S", "q.A", "m", "()V"⟩], []⟩ :=
    ⟨by decide, by decide, by decide⟩
  have hascends : refs.Ascends := ⟨by decide, by decide, by decide⟩
  have hfirst : first.references = .ok _ := congrArg Except.ok hone.ofLists_eq
  have hsecond : second.references = .ok _ := congrArg Except.ok htwo.ofLists_eq
  have hrefs : allReferences [first, second] = .ok refs := by
    rw [allReferences_eq_ok_iff]
    refine ⟨by simp [hfirst, hsecond], ?_, ?_, ?_, hascends⟩
    · intro r
      simp +contextual [hfirst, hsecond, refs]
    · intro r
      simp [hfirst, hsecond, refs]
    · intro r
      simp [hfirst, hsecond, refs]
  have hsame : ∀ c, c ∈ [second, first, second] ↔ c ∈ [first, second] := by
    intro c
    simp only [List.mem_cons, List.not_mem_nil, or_false]
    tauto
  obtain ⟨-, -, -, -, -, hany⟩ := allReferences_union [first, second]
  exact ⟨hrefs, rfl, hsame, (hany _ hsame refs).mpr hrefs⟩

end Linkage
