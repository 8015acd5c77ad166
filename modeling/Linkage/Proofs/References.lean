import Linkage.Proofs.Ascending
import Linkage.Proofs.Operations
import Linkage.Reference.OfClass

/-!
# Sets of references and where they come from

The three kinds of references are totally ordered by their parts, so a set of references is
determined by its members and its lists are strictly ascending.  The references of several classes
are those any of them makes, and cannot be told exactly if a class declares a member whose
descriptor cannot be read.
-/

namespace Linkage

/-! ## Order -/

theorem ClassReference.totalOrder_le : TotalOrder ClassReference.le := by
  refine .of_key (fun r => toLex (r.source, r.target)) ?_ ?_
  · rintro ⟨s, t⟩ ⟨s', t'⟩ h
    simpa using h
  · intro a b
    simp [ClassReference.le, Prod.Lex.toLex_le_toLex]

theorem MethodReference.totalOrder_le : TotalOrder MethodReference.le := by
  refine .of_key (fun r => toLex (r.source, toLex (r.target, toLex (r.method, r.descriptor))))
    ?_ ?_
  · rintro ⟨s, t, m, d⟩ ⟨s', t', m', d'⟩ h
    simpa using h
  · intro a b
    simp [MethodReference.le, Prod.Lex.toLex_le_toLex]

theorem FieldReference.totalOrder_le : TotalOrder FieldReference.le := by
  refine .of_key (fun r => toLex (r.source, toLex (r.target, r.field))) ?_ ?_
  · rintro ⟨s, t, f⟩ ⟨s', t', f'⟩ h
    simpa using h
  · intro a b
    simp [FieldReference.le, Prod.Lex.toLex_le_toLex]

/-! ## Members -/

namespace ReferenceSet

@[simp]
theorem toClass_mem_toList {s : ReferenceSet} {r : ClassReference} :
    .toClass r ∈ s.toList ↔ r ∈ s.classes := by
  simp [toList]

@[simp]
theorem toMethod_mem_toList {s : ReferenceSet} {r : MethodReference} :
    .toMethod r ∈ s.toList ↔ r ∈ s.methods := by
  simp [toList]

@[simp]
theorem toField_mem_toList {s : ReferenceSet} {r : FieldReference} :
    .toField r ∈ s.toList ↔ r ∈ s.fields := by
  simp [toList]

/-- A union has the members of its parts. -/
theorem mem_unions {sets : List ReferenceSet} {r : Reference} :
    r ∈ (unions sets).toList ↔ ∃ s ∈ sets, r ∈ s.toList := by
  cases r <;> simp [unions, ofLists, mem_ascending]

/-- Each list of the set is strictly ascending. -/
structure Ascends (s : ReferenceSet) : Prop where
  /-- References to classes are. -/
  classes : StrictlyAscending ClassReference.le s.classes
  /-- References to methods are. -/
  methods : StrictlyAscending MethodReference.le s.methods
  /-- References to fields are. -/
  fields : StrictlyAscending FieldReference.le s.fields

theorem ascends_ofLists (classes : List ClassReference) (methods : List MethodReference)
    (fields : List FieldReference) : (ofLists classes methods fields).Ascends where
  classes := strictlyAscending_ascending ClassReference.totalOrder_le classes
  methods := strictlyAscending_ascending MethodReference.totalOrder_le methods
  fields := strictlyAscending_ascending FieldReference.totalOrder_le fields

theorem Ascends.ofLists_eq {s : ReferenceSet} (h : s.Ascends) :
    ofLists s.classes s.methods s.fields = s := by
  rw [ofLists, ascending_of_strictlyAscending h.classes, ascending_of_strictlyAscending h.methods,
    ascending_of_strictlyAscending h.fields]

/-- A set is determined by its members. -/
theorem Ascends.ext {s s' : ReferenceSet} (h : s.Ascends) (h' : s'.Ascends)
    (hmem : ∀ r, r ∈ s.toList ↔ r ∈ s'.toList) : s = s' := by
  have hclasses : s.classes = s'.classes :=
    h.classes.eq_of_mem_iff ClassReference.totalOrder_le h'.classes fun r => by
      simpa using hmem (.toClass r)
  have hmethods : s.methods = s'.methods :=
    h.methods.eq_of_mem_iff MethodReference.totalOrder_le h'.methods fun r => by
      simpa using hmem (.toMethod r)
  have hfields : s.fields = s'.fields :=
    h.fields.eq_of_mem_iff FieldReference.totalOrder_le h'.fields fun r => by
      simpa using hmem (.toField r)
  obtain ⟨_, _, _⟩ := s
  obtain ⟨_, _, _⟩ := s'
  rw [ReferenceSet.mk.injEq]
  exact ⟨hclasses, hmethods, hfields⟩

@[simp]
theorem length_toList (s : ReferenceSet) : s.toList.length = s.size := by
  simp [toList, size, Nat.add_assoc]

/-- A set holds no reference twice. -/
theorem Ascends.nodup_toList {s : ReferenceSet} (h : s.Ascends) : s.toList.Nodup := by
  have hclasses : (s.classes.map Reference.toClass).Nodup :=
    (h.classes.imp And.right).map _ fun _ _ hne heq => hne (Reference.toClass.inj heq)
  have hmethods : (s.methods.map Reference.toMethod).Nodup :=
    (h.methods.imp And.right).map _ fun _ _ hne heq => hne (Reference.toMethod.inj heq)
  have hfields : (s.fields.map Reference.toField).Nodup :=
    (h.fields.imp And.right).map _ fun _ _ hne heq => hne (Reference.toField.inj heq)
  rw [toList, List.nodup_append, List.nodup_append]
  refine ⟨⟨hclasses, hmethods, by simp⟩, hfields, ?_⟩
  intro r hr r' hr'
  obtain ⟨f, -, rfl⟩ := List.mem_map.mp hr'
  rintro rfl
  simp at hr

end ReferenceSet

/-! ## Descriptors that cannot be read -/

namespace ClassView

/-- A declared descriptor cannot be read. -/
def Malformed (c : ClassView) : Prop :=
  (∃ f ∈ c.fields, ∃ fault, Descriptor.readField f.descriptor = .error fault)
    ∨ ∃ m ∈ c.methods, ∃ fault, Descriptor.readMethod m.descriptor = .error fault

/-- The first declared descriptor that cannot be read, fields before methods. -/
def FirstMalformed (c : ClassView) (m : MalformedDescriptor) : Prop :=
  FirstFailure fieldTypes c.fields m
    ∨ (∀ f ∈ c.fields, ∃ types, fieldTypes f = .ok types) ∧ FirstFailure methodTypes c.methods m

variable {c : ClassView} {m : MalformedDescriptor}

theorem exists_fieldTypes_eq_error_iff {f : Member} :
    (∃ m, fieldTypes f = .error m) ↔ ∃ fault, Descriptor.readField f.descriptor = .error fault := by
  unfold fieldTypes
  cases Descriptor.readField f.descriptor <;> simp

theorem exists_methodTypes_eq_error_iff {f : Member} :
    (∃ m, methodTypes f = .error m) ↔
      ∃ fault, Descriptor.readMethod f.descriptor = .error fault := by
  unfold methodTypes
  cases Descriptor.readMethod f.descriptor <;> simp

theorem exists_firstMalformed_iff : (∃ m, c.FirstMalformed m) ↔ c.Malformed := by
  have hfields : (∃ m, FirstFailure fieldTypes c.fields m) ↔
      ∃ f ∈ c.fields, ∃ fault, Descriptor.readField f.descriptor = .error fault := by
    simp only [exists_firstFailure_iff, exists_fieldTypes_eq_error_iff]
  have hmethods : (∃ m, FirstFailure methodTypes c.methods m) ↔
      ∃ f ∈ c.methods, ∃ fault, Descriptor.readMethod f.descriptor = .error fault := by
    simp only [exists_firstFailure_iff, exists_methodTypes_eq_error_iff]
  rw [Malformed, ← hfields, ← hmethods]
  constructor
  · rintro ⟨m, h | ⟨-, h⟩⟩
    · exact .inl ⟨m, h⟩
    · exact .inr ⟨m, h⟩
  · intro h
    cases hall : c.fields.mapM fieldTypes with
    | error m => exact ⟨m, .inl (mapM_eq_error_iff.mp hall)⟩
    | ok types =>
      rcases h with ⟨m, h⟩ | ⟨m, h⟩
      · exact ⟨m, .inl h⟩
      · exact ⟨m, .inr ⟨exists_mapM_eq_ok_iff.mp ⟨types, hall⟩, h⟩⟩

theorem references_eq_error_iff : c.references = .error m ↔ c.FirstMalformed m := by
  have htypes : c.references = .error m ↔ c.declaredTypes = .error m := by
    unfold references
    rw [except_bind_eq_error_iff]
    refine or_iff_left ?_
    rintro ⟨types, -, h⟩
    cases h
  rw [htypes, declaredTypes, FirstMalformed, except_bind_eq_error_iff, mapM_eq_error_iff,
    ← exists_mapM_eq_ok_iff]
  refine or_congr Iff.rfl ?_
  constructor
  · rintro ⟨fields, hfields, h⟩
    rcases except_bind_eq_error_iff.mp h with h | ⟨methods, -, h⟩
    · exact ⟨⟨fields, hfields⟩, mapM_eq_error_iff.mp h⟩
    · cases h
  · rintro ⟨⟨fields, hfields⟩, h⟩
    exact ⟨fields, hfields, except_bind_eq_error_iff.mpr (.inl (mapM_eq_error_iff.mpr h))⟩

theorem exists_references_iff : (∃ refs, c.references = .ok refs) ↔ ¬ c.Malformed := by
  rw [← exists_firstMalformed_iff]
  simp only [← references_eq_error_iff]
  cases c.references <;> simp

theorem ascends_references {refs : ReferenceSet} (h : c.references = .ok refs) : refs.Ascends := by
  obtain ⟨types, -, h⟩ := except_bind_eq_ok_iff.mp h
  cases h
  exact ReferenceSet.ascends_ofLists _ _ _

end ClassView

/-! ## The references of several classes -/

variable {classes : List ClassView}

theorem allReferences_eq_error_iff {m : MalformedDescriptor} :
    allReferences classes = .error m ↔ FirstFailure ClassView.references classes m := by
  unfold allReferences
  rw [except_bind_eq_error_iff, mapM_eq_error_iff]
  refine or_iff_left ?_
  rintro ⟨sets, -, h⟩
  cases h

theorem exists_allReferences_iff :
    (∃ refs, allReferences classes = .ok refs) ↔ ∀ c ∈ classes, ¬ c.Malformed := by
  simp only [← ClassView.exists_references_iff, ← exists_mapM_eq_ok_iff]
  constructor
  · rintro ⟨refs, h⟩
    obtain ⟨sets, hsets, -⟩ := except_bind_eq_ok_iff.mp h
    exact ⟨sets, hsets⟩
  · rintro ⟨sets, hsets⟩
    exact ⟨.unions sets, except_bind_eq_ok_iff.mpr ⟨sets, hsets, rfl⟩⟩

theorem ascends_allReferences {refs : ReferenceSet} (h : allReferences classes = .ok refs) :
    refs.Ascends := by
  obtain ⟨sets, -, h⟩ := except_bind_eq_ok_iff.mp h
  cases h
  exact ReferenceSet.ascends_ofLists _ _ _

theorem allReferences_singleton {c : ClassView} {refs : ReferenceSet}
    (h : c.references = .ok refs) : allReferences [c] = .ok refs := by
  have hunion : ReferenceSet.unions [refs] = refs := by
    simpa [ReferenceSet.unions] using (ClassView.ascends_references h).ofLists_eq
  rw [allReferences, List.mapM_cons, h]
  exact congrArg Except.ok hunion

/-- The references of several classes are those any of them makes. -/
theorem mem_allReferences {refs : ReferenceSet} (h : allReferences classes = .ok refs)
    {r : Reference} :
    r ∈ refs.toList ↔ ∃ c ∈ classes, ∃ own, c.references = .ok own ∧ r ∈ own.toList := by
  obtain ⟨sets, hsets, h⟩ := except_bind_eq_ok_iff.mp h
  cases h
  rw [ReferenceSet.mem_unions]
  simp only [mem_of_mapM_eq_ok hsets]
  constructor
  · rintro ⟨own, ⟨c, hc, hown⟩, hr⟩
    exact ⟨c, hc, own, hown, hr⟩
  · rintro ⟨c, hc, own, hown, hr⟩
    exact ⟨own, ⟨c, hc, hown⟩, hr⟩

end Linkage
