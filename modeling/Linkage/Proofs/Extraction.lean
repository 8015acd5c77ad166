import Linkage.Proofs.Descriptors
import Linkage.Proofs.References

/-!
# What is extracted from a class

A class names others as its superclass, as its interfaces, in its constant pool and in the types of
the fields and methods it declares.  What is extracted from it is said here without the order in
which these are gone through: a reference to every class it is the source for, and to every member
its pool mentions, and nothing else.  Nothing is extracted if a declared descriptor cannot be read;
then the first such descriptor is to blame, those of fields before those of methods.

Which descriptors can be read and which classes they name is said by reading them, and once more by
the grammar: those that are spelled by it, and those whose names stand in the spelling.

* `ClassView.Names`: where a class is named.
* `ClassView.malformed_iff`, `ClassView.names_iff`: both by the grammar.
* `ClassView.Extracted`: what the references of a class have to be.
* `ClassView.references_exact`: they are that, and there are none exactly if a descriptor is
  malformed.
-/

namespace Linkage

/-! ## Classes named by types -/

/-- The type is the class, or an array of it with any number of dimensions. -/
def FieldType.Names (t : FieldType) (name : ClassName) : Prop :=
  ∃ dimensions, t = (FieldType.reference name).arrays dimensions

theorem FieldType.className?_eq_some_iff {t : FieldType} {name : ClassName} :
    t.className? = some name ↔ t.Names name := by
  induction t with
  | primitive p =>
    refine iff_of_false (by simp [className?]) ?_
    rintro ⟨_ | n, h⟩ <;> cases h
  | reference other =>
    constructor
    · intro h
      cases h
      exact ⟨0, rfl⟩
    · rintro ⟨_ | n, h⟩ <;> cases h
      rfl
  | array element ih =>
    rw [className?, ih]
    constructor
    · rintro ⟨n, rfl⟩
      exact ⟨n + 1, rfl⟩
    · rintro ⟨_ | n, h⟩ <;> cases h
      exact ⟨n, rfl⟩

theorem FieldType.className?_arrays (t : FieldType) (n : Nat) :
    (t.arrays n).className? = t.className? := by
  induction n with
  | zero => rfl
  | succ n ih => exact ih

/-- The class stands in the spelling, behind any number of brackets. -/
def Descriptor.FieldSpelling.Spells (w : FieldSpelling) (name : ClassName) : Prop :=
  ∃ letters nonempty plain, w.element = .named letters nonempty plain
    ∧ ClassName.ofInternal (String.ofList letters) = name

theorem Descriptor.FieldSpelling.names_type_iff {w : FieldSpelling} {name : ClassName} :
    w.type.Names name ↔ w.Spells name := by
  rw [← FieldType.className?_eq_some_iff, type, FieldType.className?_arrays, Spells]
  cases w.element with
  | letter p => simp [ElementSpelling.type, FieldType.className?]
  | named letters nonempty plain =>
    simp [ElementSpelling.type, FieldType.className?, nonempty, plain]

namespace ClassView

open Descriptor (readField readMethod readField_eq_ok_iff readMethod_eq_ok_iff FieldSpelling
  MethodSpelling)

/-! ## What has to be extracted -/

/-- The class names another. -/
inductive Names (c : ClassView) (name : ClassName) : Prop where
  /-- As its superclass. -/
  | superclass (h : c.superclass = some name)
  /-- As one of its interfaces. -/
  | interface (h : name ∈ c.interfaces)
  /-- In its constant pool. -/
  | pooled (h : name ∈ c.classRefs)
  /-- In the type of a field it declares. -/
  | field {f : Member} {t : FieldType} (hf : f ∈ c.fields) (ht : readField f.descriptor = .ok t)
    (hname : t.Names name)
  /-- In the type of a parameter of a method it declares. -/
  | parameter {m : Member} {s : Signature} {t : FieldType} (hm : m ∈ c.methods)
    (hs : readMethod m.descriptor = .ok s) (ht : t ∈ s.parameters) (hname : t.Names name)
  /-- In the result of a method it declares. -/
  | result {m : Member} {s : Signature} {t : FieldType} (hm : m ∈ c.methods)
    (hs : readMethod m.descriptor = .ok s) (ht : s.result = some t) (hname : t.Names name)

/-- The class names another, with the types of its members as they are spelled. -/
inductive Spells (c : ClassView) (name : ClassName) : Prop where
  /-- As its superclass. -/
  | superclass (h : c.superclass = some name)
  /-- As one of its interfaces. -/
  | interface (h : name ∈ c.interfaces)
  /-- In its constant pool. -/
  | pooled (h : name ∈ c.classRefs)
  /-- In the descriptor of a field it declares. -/
  | field {f : Member} {w : FieldSpelling} (hf : f ∈ c.fields) (hw : f.descriptor.toList = w.chars)
    (hname : w.Spells name)
  /-- In the descriptor of a method it declares. -/
  | method {m : Member} {w : MethodSpelling} {v : FieldSpelling} (hm : m ∈ c.methods)
    (hw : m.descriptor.toList = w.chars) (hv : v ∈ w.parameters ∨ w.result = some v)
    (hname : v.Spells name)

/-- The references are those the class makes, each once and in order. -/
structure Extracted (c : ClassView) (refs : ReferenceSet) : Prop where
  /-- To every other class it names, primitive types, `void` and array types left out. -/
  classes : ∀ r, r ∈ refs.classes ↔ r.source = c.name ∧ c.Names r.target ∧ r.target ≠ c.name
    ∧ r.target ∉ ClassName.primitives ∧ r.target.toList.head? ≠ some '['
  /-- To every method its pool mentions, those of array types left out. -/
  methods : ∀ r, r ∈ refs.methods ↔ ∃ m ∈ c.methodRefs, m.owner.toList.head? ≠ some '['
    ∧ r = ⟨c.name, m.owner, m.name, m.descriptor⟩
  /-- To every field its pool mentions, those of array types left out. -/
  fields : ∀ r, r ∈ refs.fields ↔ ∃ m ∈ c.fieldRefs, m.owner.toList.head? ≠ some '['
    ∧ r = ⟨c.name, m.owner, m.name⟩
  /-- Each kind is strictly ascending. -/
  ascends : refs.Ascends

/-- The descriptor of a member is the first among those of its table that cannot be read. -/
def FirstUnreadable {α : Type} (read : String → Except Descriptor.Fault α) (table : List Member)
    (m : MalformedDescriptor) : Prop :=
  ∃ before f after, table = before ++ f :: after
    ∧ (∀ g ∈ before, ∃ a, read g.descriptor = .ok a)
    ∧ f.descriptor = m.descriptor ∧ read f.descriptor = .error m.fault

theorem Extracted.head_target_ne {c : ClassView} {refs : ReferenceSet} (h : c.Extracted refs)
    {r : Reference} (hr : r ∈ refs.toList) : r.target.toList.head? ≠ some '[' := by
  cases r with
  | toClass r => exact ((h.classes r).mp (ReferenceSet.toClass_mem_toList.mp hr)).2.2.2.2
  | toMethod r =>
    obtain ⟨m, -, harray, rfl⟩ := (h.methods r).mp (ReferenceSet.toMethod_mem_toList.mp hr)
    exact harray
  | toField r =>
    obtain ⟨m, -, harray, rfl⟩ := (h.fields r).mp (ReferenceSet.toField_mem_toList.mp hr)
    exact harray

/-- No other references fit. -/
theorem Extracted.unique {c : ClassView} {refs refs' : ReferenceSet} (h : c.Extracted refs)
    (h' : c.Extracted refs') : refs = refs' := by
  refine h.ascends.ext h'.ascends fun r => ?_
  cases r with
  | toClass r => simp only [ReferenceSet.toClass_mem_toList, h.classes, h'.classes]
  | toMethod r => simp only [ReferenceSet.toMethod_mem_toList, h.methods, h'.methods]
  | toField r => simp only [ReferenceSet.toField_mem_toList, h.fields, h'.fields]

/-! ## Declared types -/

variable {c : ClassView} {f : Member} {types : List FieldType} {m : MalformedDescriptor}

theorem fieldTypes_eq_ok_iff :
    fieldTypes f = .ok types ↔ ∃ t, readField f.descriptor = .ok t ∧ types = [t] := by
  unfold fieldTypes
  cases readField f.descriptor <;> simp [eq_comm]

theorem fieldTypes_eq_error_iff :
    fieldTypes f = .error m ↔
      f.descriptor = m.descriptor ∧ readField f.descriptor = .error m.fault := by
  obtain ⟨descriptor, fault⟩ := m
  unfold fieldTypes
  cases readField f.descriptor <;> simp

theorem methodTypes_eq_ok_iff :
    methodTypes f = .ok types ↔
      ∃ s, readMethod f.descriptor = .ok s ∧ types = s.parameters ++ s.result.toList := by
  unfold methodTypes
  cases readMethod f.descriptor <;> simp [eq_comm]

theorem methodTypes_eq_error_iff :
    methodTypes f = .error m ↔
      f.descriptor = m.descriptor ∧ readMethod f.descriptor = .error m.fault := by
  obtain ⟨descriptor, fault⟩ := m
  unfold methodTypes
  cases readMethod f.descriptor <;> simp

theorem firstFailure_fieldTypes_iff :
    FirstFailure fieldTypes c.fields m ↔ FirstUnreadable readField c.fields m := by
  simp only [FirstFailure, FirstUnreadable, fieldTypes_eq_ok_iff, fieldTypes_eq_error_iff]
  simp

theorem firstFailure_methodTypes_iff :
    FirstFailure methodTypes c.methods m ↔ FirstUnreadable readMethod c.methods m := by
  simp only [FirstFailure, FirstUnreadable, methodTypes_eq_ok_iff, methodTypes_eq_error_iff]
  simp

theorem mem_declaredTypes_iff (h : c.declaredTypes = .ok types) {t : FieldType} :
    t ∈ types ↔ (∃ f ∈ c.fields, readField f.descriptor = .ok t)
      ∨ ∃ m ∈ c.methods, ∃ s, readMethod m.descriptor = .ok s
        ∧ (t ∈ s.parameters ∨ s.result = some t) := by
  obtain ⟨fields, hfields, h⟩ := except_bind_eq_ok_iff.mp h
  obtain ⟨methods, hmethods, h⟩ := except_bind_eq_ok_iff.mp h
  cases h
  rw [List.mem_append, List.mem_flatten, List.mem_flatten]
  simp only [mem_of_mapM_eq_ok hfields, mem_of_mapM_eq_ok hmethods, fieldTypes_eq_ok_iff,
    methodTypes_eq_ok_iff]
  refine or_congr ⟨?_, ?_⟩ ⟨?_, ?_⟩
  · rintro ⟨_, ⟨f, hf, t', ht', rfl⟩, ht⟩
    cases List.mem_singleton.mp ht
    exact ⟨f, hf, ht'⟩
  · rintro ⟨f, hf, ht⟩
    exact ⟨[t], ⟨f, hf, t, ht, rfl⟩, List.mem_singleton_self t⟩
  · rintro ⟨_, ⟨m, hm, s, hs, rfl⟩, ht⟩
    exact ⟨m, hm, s, hs, by simpa using ht⟩
  · rintro ⟨m, hm, s, hs, ht⟩
    exact ⟨_, ⟨m, hm, s, hs, rfl⟩, by simpa using ht⟩

/-! ## Declared types by the grammar -/

/-- What is read by its spelling cannot be read if it has none. -/
theorem exists_error_iff_unspelled {α ω : Type} {read : String → Except Descriptor.Fault α}
    {chars : ω → List Char} {value : ω → α}
    (hread : ∀ s a, read s = .ok a ↔ ∃ w, s.toList = chars w ∧ value w = a) (s : String) :
    (∃ fault, read s = .error fault) ↔ ∀ w, s.toList ≠ chars w := by
  cases hs : read s with
  | error fault =>
    refine iff_of_true ⟨fault, rfl⟩ fun w hw => ?_
    rw [(hread s _).mpr ⟨w, hw, rfl⟩] at hs
    cases hs
  | ok a =>
    obtain ⟨w, hw, -⟩ := (hread s a).mp hs
    exact iff_of_false (fun ⟨_, h⟩ => by cases h) fun hnone => hnone w hw

theorem malformed_iff : c.Malformed ↔
    (∃ f ∈ c.fields, ∀ w : FieldSpelling, f.descriptor.toList ≠ w.chars)
      ∨ ∃ m ∈ c.methods, ∀ w : MethodSpelling, m.descriptor.toList ≠ w.chars := by
  have hfield := exists_error_iff_unspelled fun _ _ => readField_eq_ok_iff
  have hmethod := exists_error_iff_unspelled fun _ _ => readMethod_eq_ok_iff
  simp only [Malformed, hfield, hmethod]

/-- The classes that are named are those that stand in the spellings. -/
theorem names_iff {name : ClassName} : c.Names name ↔ c.Spells name := by
  constructor
  · intro h
    cases h with
    | superclass h => exact .superclass h
    | interface h => exact .interface h
    | pooled h => exact .pooled h
    | field hf ht hname =>
      obtain ⟨w, hw, rfl⟩ := readField_eq_ok_iff.mp ht
      exact .field hf hw (FieldSpelling.names_type_iff.mp hname)
    | parameter hm hs ht hname =>
      obtain ⟨w, hw, rfl⟩ := readMethod_eq_ok_iff.mp hs
      obtain ⟨v, hv, rfl⟩ := List.mem_map.mp ht
      exact .method hm hw (.inl hv) (FieldSpelling.names_type_iff.mp hname)
    | result hm hs ht hname =>
      obtain ⟨w, hw, rfl⟩ := readMethod_eq_ok_iff.mp hs
      obtain ⟨v, hv, rfl⟩ := Option.map_eq_some_iff.mp ht
      exact .method hm hw (.inr hv) (FieldSpelling.names_type_iff.mp hname)
  · intro h
    cases h with
    | superclass h => exact .superclass h
    | interface h => exact .interface h
    | pooled h => exact .pooled h
    | field hf hw hname =>
      exact .field hf (readField_eq_ok_iff.mpr ⟨_, hw, rfl⟩)
        (FieldSpelling.names_type_iff.mpr hname)
    | method hm hw hv hname =>
      have hs := readMethod_eq_ok_iff.mpr ⟨_, hw, rfl⟩
      have hnames := FieldSpelling.names_type_iff.mpr hname
      rcases hv with hv | hv
      · exact .parameter hm hs (List.mem_map_of_mem hv) hnames
      · exact .result hm hs (Option.map_eq_some_iff.mpr ⟨_, hv, rfl⟩) hnames

/-! ## What is extracted -/

/-- The names that are gone through are those the class names. -/
theorem mem_named_iff (h : c.declaredTypes = .ok types) {name : ClassName} :
    name ∈ c.superclass.toList ++ c.interfaces ++ c.classRefs
        ++ types.filterMap FieldType.className? ↔ c.Names name := by
  simp only [List.mem_append, Option.mem_toList, List.mem_filterMap,
    FieldType.className?_eq_some_iff, mem_declaredTypes_iff h]
  constructor
  · rintro (((h | h) | h) | ⟨t, ⟨f, hf, ht⟩ | ⟨m, hm, s, hs, ht | ht⟩, hname⟩)
    · exact .superclass h
    · exact .interface h
    · exact .pooled h
    · exact .field hf ht hname
    · exact .parameter hm hs ht hname
    · exact .result hm hs ht hname
  · intro h
    cases h with
    | superclass h => exact .inl (.inl (.inl h))
    | interface h => exact .inl (.inl (.inr h))
    | pooled h => exact .inl (.inr h)
    | field hf ht hname => exact .inr ⟨_, .inl ⟨_, hf, ht⟩, hname⟩
    | parameter hm hs ht hname => exact .inr ⟨_, .inr ⟨_, hm, _, hs, .inl ht⟩, hname⟩
    | result hm hs ht hname => exact .inr ⟨_, .inr ⟨_, hm, _, hs, .inr ht⟩, hname⟩

theorem isArray_eq_false_iff {name : ClassName} :
    name.isArray = false ↔ name.toList.head? ≠ some '[' := by
  unfold ClassName.isArray Text.startsWith
  cases name.toList with
  | nil => simp
  | cons d ds =>
    by_cases hd : d = '['
    · simp [hd]
    · simp [List.isPrefixOf, hd, Ne.symm hd]

theorem isTarget_iff {name : ClassName} : c.isTarget name = true ↔
    name ≠ c.name ∧ name ∉ ClassName.primitives ∧ name.toList.head? ≠ some '[' := by
  rw [← isArray_eq_false_iff]
  simp [isTarget, ClassName.isPrimitive, and_assoc]

theorem extracted_of_references {refs : ReferenceSet} (h : c.references = .ok refs) :
    c.Extracted refs := by
  have hascends := ascends_references h
  obtain ⟨types, htypes, h⟩ := except_bind_eq_ok_iff.mp h
  cases h
  refine ⟨?_, ?_, ?_, hascends⟩
  · rintro ⟨source, target⟩
    rw [ReferenceSet.ofLists, mem_ascending, List.mem_map]
    simp only [List.mem_filter, mem_named_iff htypes, isTarget_iff, ClassReference.mk.injEq]
    constructor
    · rintro ⟨_, ⟨hnames, htarget⟩, rfl, rfl⟩
      exact ⟨rfl, hnames, htarget⟩
    · rintro ⟨rfl, hnames, htarget⟩
      exact ⟨target, ⟨hnames, htarget⟩, rfl, rfl⟩
  · intro r
    simp only [ReferenceSet.ofLists, mem_ascending, List.mem_map, List.mem_filter,
      Bool.not_eq_true', isArray_eq_false_iff, and_assoc, eq_comm (a := r)]
  · intro r
    simp only [ReferenceSet.ofLists, mem_ascending, List.mem_map, List.mem_filter,
      Bool.not_eq_true', isArray_eq_false_iff, and_assoc, eq_comm (a := r)]

/-- Extracting fails exactly if a declared descriptor is malformed, with the first of the fields, or
the first of the methods if all fields can be read.  Otherwise it gives the references the class
makes and no others, and none of them leads to an array type.  Which descriptors are malformed and
which classes are named is decided by the grammar of descriptors. -/
theorem references_exact (c : ClassView) :
    (∀ m, c.references = .error m ↔ FirstUnreadable readField c.fields m
        ∨ (∀ f ∈ c.fields, ∃ t, readField f.descriptor = .ok t)
          ∧ FirstUnreadable readMethod c.methods m)
      ∧ ((∃ m, c.references = .error m) ↔ c.Malformed)
      ∧ (∀ refs, c.references = .ok refs ↔ ¬ c.Malformed ∧ c.Extracted refs)
      ∧ (∀ refs, c.Extracted refs → ∀ r ∈ refs.toList, r.target.toList.head? ≠ some '[')
      ∧ (c.Malformed ↔ (∃ f ∈ c.fields, ∀ w : FieldSpelling, f.descriptor.toList ≠ w.chars)
        ∨ ∃ m ∈ c.methods, ∀ w : MethodSpelling, m.descriptor.toList ≠ w.chars)
      ∧ ∀ name, c.Names name ↔ c.Spells name := by
  refine ⟨fun m => ?_, ?_, fun refs => ⟨fun h => ?_, ?_⟩, fun refs h r hr => h.head_target_ne hr,
    malformed_iff, fun _ => names_iff⟩
  · rw [references_eq_error_iff, FirstMalformed, firstFailure_fieldTypes_iff,
      firstFailure_methodTypes_iff]
    simp [fieldTypes_eq_ok_iff]
  · simp only [references_eq_error_iff]
    exact exists_firstMalformed_iff
  · exact ⟨exists_references_iff.mp ⟨refs, h⟩, extracted_of_references h⟩
  · rintro ⟨hwell, hrefs⟩
    obtain ⟨refs', h⟩ := exists_references_iff.mpr hwell
    rw [h, hrefs.unique (extracted_of_references h)]

end ClassView

end Linkage
