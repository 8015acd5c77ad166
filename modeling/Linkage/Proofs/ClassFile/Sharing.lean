import Mathlib.Data.Finset.Sum
import Linkage.Proofs.ClassFile.RoundTrip

/-!
# Constants are shared

A pool holds each constant once, so what is written depends on the keys a blueprint asks for only
up to later repetitions: not on mentions that are repeated, and whether the pool has room for all
constants can be told by counting the distinct ones.

* `encode_congr`: the same distinct keys and the same tables are written alike.
* `encode_of_repeated`: repeated mentions change nothing.
* `constantCount`, `length_keys`: the distinct constants, counted without any pool.
* `encode_exact`: when writing fails, and the count that is written.
-/

namespace Linkage.ClassFile

/-! ## The same distinct keys -/

namespace Key

/-- The keys of a class by its internal name. -/
def ofInternal (name : String) : List Key :=
  [.utf8 name, .classInfo name]

variable {asked asked' : List Key}

theorem index_congr (h : asked'.eraseDups = asked.eraseDups) : index asked' = index asked := by
  funext k
  rw [index, index, h]

theorem constant_congr (h : asked'.eraseDups = asked.eraseDups) :
    constant asked' = constant asked := by
  funext k
  cases k <;> simp only [constant, index_congr h]

end Key

/-- Pools that hold the same keys up to later repetitions have the same constants. -/
theorem PoolDraft.Holds.congr {d d' : PoolDraft} {asked asked' : List Key} (h : d.Holds asked)
    (h' : d'.Holds asked') (hkeys : asked'.eraseDups = asked.eraseDups) :
    d'.next = d.next ∧ d'.constants = d.constants := by
  constructor
  · rw [h'.next_eq, h.next_eq, hkeys]
  · rw [h'.constants_eq, h.constants_eq, hkeys, Key.constant_congr hkeys]

theorem optionalIndex_congr {asked asked' : List Key} (h : asked'.eraseDups = asked.eraseDups) :
    optionalIndex asked' = optionalIndex asked := by
  funext name
  cases name with
  | none => rfl
  | some name => simp only [optionalIndex, Key.index_congr h]

theorem Blueprint.skeletonIn_congr (b : Blueprint) {asked asked' : List Key}
    (h : asked'.eraseDups = asked.eraseDups) : b.skeletonIn asked' = b.skeletonIn asked := by
  have hindex := Key.index_congr h
  have hoptional := optionalIndex_congr h
  have hrow : MemberPlan.row asked' = MemberPlan.row asked := by
    funext m
    simp only [MemberPlan.row, hindex]
  have hnested : nestedRowIn asked' = nestedRowIn asked := by
    funext row
    simp only [nestedRowIn, hindex, hoptional]
  simp only [skeletonIn, nestedTableIn, hindex, hoptional, hrow, hnested]

namespace Blueprint

/-- Blueprints with the same tables and the same distinct keys are written alike. -/
theorem encode_congr {b b' : Blueprint} (haccess : b'.access = b.access)
    (hskeleton : b'.skeletonIn = b.skeletonIn) (hkeys : b'.keys.eraseDups = b.keys.eraseDups) :
    b'.encode = b.encode := by
  have hcases := b.encode_cases
  have hcases' := b'.encode_cases
  rw [hkeys, hskeleton, haccess, b.skeletonIn_congr hkeys] at hcases'
  by_cases hfits : b.keys.eraseDups.length ≤ PoolDraft.capacity
  · rw [if_pos hfits] at hcases hcases'
    obtain ⟨d, hd, hencode⟩ := hcases
    obtain ⟨d', hd', hencode'⟩ := hcases'
    obtain ⟨hnext, hconstants⟩ := hd.congr hd' hkeys
    rw [hencode, hencode', Skeleton.bytes, Skeleton.bytes, hnext, hconstants]
  · rw [if_neg hfits] at hcases hcases'
    rw [hcases, hcases']

/-! ## Repeated mentions -/

theorem ofOptionalClass_eq (name : Option ClassName) :
    Key.ofOptionalClass name = name.toList.flatMap Key.ofClass := by
  cases name with
  | none => rfl
  | some name => exact (List.flatMap_singleton Key.ofClass name).symm

theorem ofNestedRow_eq (row : ClassName × Option ClassName) :
    Key.ofNestedRow row
      = (row.1 :: row.2.toList).flatMap Key.ofClass ++ [.utf8 row.1.simple] := by
  rw [Key.ofNestedRow, ofOptionalClass_eq, List.flatMap_cons, List.append_assoc]

/-- The keys of the parts of a blueprint other than its mentions. -/
def partKeys (b : Blueprint) : List Key :=
  Key.ofClass b.name ++ (Key.ofOptionalClass b.superclass
    ++ (b.interfaces.flatMap Key.ofClass ++ (b.fields.flatMap Key.ofMember
    ++ (b.methods.flatMap Key.ofMember ++ Key.ofNestedTable b.nested))))

/-- The classes these parts name. -/
def partClasses (b : Blueprint) : List ClassName :=
  [b.name] ++ (b.superclass.toList ++ (b.interfaces
    ++ b.nested.flatMap (fun row => row.1 :: row.2.toList)))

theorem keys_eq (b : Blueprint) :
    b.keys = b.partKeys ++ b.classRefs.flatMap Key.ofClass
      ++ b.methodRefs.flatMap Key.ofMethod ++ b.fieldRefs.flatMap Key.ofField := by
  simp only [keys, partKeys, List.append_assoc]

theorem namedClasses_eq (b : Blueprint) : b.namedClasses = b.partClasses ++ b.classRefs := by
  simp only [namedClasses, partClasses, List.append_assoc]

theorem ofNestedRow_subset {row : ClassName × Option ClassName}
    {rows : List (ClassName × Option ClassName)} (h : row ∈ rows) :
    Key.ofNestedRow row ⊆ Key.ofNestedTable rows := by
  intro k hk
  rw [Key.ofNestedTable, if_neg (by simp [List.ne_nil_of_mem h])]
  exact List.mem_cons_of_mem _ (List.mem_flatMap.mpr ⟨row, h, hk⟩)

theorem flatMap_partClasses_subset (b : Blueprint) :
    b.partClasses.flatMap Key.ofClass ⊆ b.partKeys := by
  intro k hk
  simp only [partClasses, List.flatMap_append, List.flatMap_singleton, ← ofOptionalClass_eq,
    List.mem_append] at hk
  simp only [partKeys, List.mem_append]
  rcases hk with hk | hk | hk | hk
  · exact .inl hk
  · exact .inr (.inl hk)
  · exact .inr (.inr (.inl hk))
  · obtain ⟨n, hn, hk⟩ := List.mem_flatMap.mp hk
    obtain ⟨row, hrow, hn⟩ := List.mem_flatMap.mp hn
    have hkrow : k ∈ Key.ofNestedRow row := by
      rw [ofNestedRow_eq]
      exact List.mem_append_left _ (List.mem_flatMap.mpr ⟨n, hn, hk⟩)
    exact .inr (.inr (.inr (.inr (.inr (ofNestedRow_subset hrow hkrow)))))

theorem flatMap_ofClass (names : List ClassName) :
    names.flatMap Key.ofClass = (names.map ClassName.internal).flatMap Key.ofInternal := by
  rw [List.flatMap_map]
  rfl

/-- Mentions that are repeated, a class perhaps in the other spelling, add no keys. -/
theorem keys_congr (b : Blueprint) {classRefs : List ClassName} {methodRefs : List MethodMention}
    {fieldRefs : List MemberMention}
    (hclasses : ((b.partClasses ++ classRefs).map ClassName.internal).eraseDups
      = (b.namedClasses.map ClassName.internal).eraseDups)
    (hmethods : methodRefs.eraseDups = b.methodRefs.eraseDups)
    (hfields : fieldRefs.eraseDups = b.fieldRefs.eraseDups) :
    ({ b with classRefs, methodRefs, fieldRefs } : Blueprint).keys.eraseDups
      = b.keys.eraseDups := by
  -- The parts have asked for the keys of their classes, so these can be asked for once more.
  have hparts : ∀ names : List ClassName,
      (b.partKeys ++ names.flatMap Key.ofClass).eraseDups
        = (b.partKeys ++ (b.partClasses ++ names).flatMap Key.ofClass).eraseDups := by
    intro names
    rw [List.flatMap_append, ← List.append_assoc]
    exact eraseDups_append_congr (eraseDups_append_of_subset b.flatMap_partClasses_subset).symm rfl
  rw [keys_eq, keys_eq]
  refine eraseDups_append_congr (eraseDups_append_congr ?_ ?_) ?_
  · show (b.partKeys ++ classRefs.flatMap Key.ofClass).eraseDups = _
    rw [hparts, hparts b.classRefs, ← namedClasses_eq, flatMap_ofClass, flatMap_ofClass]
    exact eraseDups_append_congr rfl (eraseDups_flatMap_congr hclasses _)
  · exact eraseDups_flatMap_congr hmethods _
  · exact eraseDups_flatMap_congr hfields _

/-- Blueprints that differ in repeated mentions only are written alike. -/
theorem encode_of_sameMentions (b : Blueprint) {classRefs : List ClassName}
    {methodRefs : List MethodMention} {fieldRefs : List MemberMention}
    (hclasses : ((b.partClasses ++ classRefs).map ClassName.internal).eraseDups
      = (b.namedClasses.map ClassName.internal).eraseDups)
    (hmethods : methodRefs.eraseDups = b.methodRefs.eraseDups)
    (hfields : fieldRefs.eraseDups = b.fieldRefs.eraseDups) :
    ({ b with classRefs, methodRefs, fieldRefs } : Blueprint).encode = b.encode :=
  encode_congr rfl rfl (b.keys_congr hclasses hmethods hfields)

/-- Mentioning again a class that the blueprint names, in either spelling, or a method or field that
it mentions already, changes no byte; and so what is written depends on the mentions only up to
later repetitions. -/
theorem encode_of_repeated (b : Blueprint) :
    (∀ n : ClassName, n.internal ∈ b.namedClasses.map ClassName.internal →
        ({ b with classRefs := b.classRefs ++ [n] } : Blueprint).encode = b.encode)
      ∧ (∀ m ∈ b.methodRefs,
        ({ b with methodRefs := b.methodRefs ++ [m] } : Blueprint).encode = b.encode)
      ∧ (∀ f ∈ b.fieldRefs,
        ({ b with fieldRefs := b.fieldRefs ++ [f] } : Blueprint).encode = b.encode)
      ∧ ∀ classRefs methodRefs fieldRefs,
        let b' : Blueprint := { b with classRefs, methodRefs, fieldRefs }
        (b'.namedClasses.map ClassName.internal).eraseDups
            = (b.namedClasses.map ClassName.internal).eraseDups →
          methodRefs.eraseDups = b.methodRefs.eraseDups →
          fieldRefs.eraseDups = b.fieldRefs.eraseDups → b'.encode = b.encode := by
  have hsame : ((b.partClasses ++ b.classRefs).map ClassName.internal).eraseDups
      = (b.namedClasses.map ClassName.internal).eraseDups := by rw [namedClasses_eq]
  refine ⟨fun n hn => ?_, fun m hm => ?_, fun f hf => ?_, ?_⟩
  · refine b.encode_of_sameMentions ?_ rfl rfl
    rw [← List.append_assoc, ← namedClasses_eq, List.map_append]
    exact eraseDups_append_of_mem hn
  · exact b.encode_of_sameMentions hsame (eraseDups_append_of_mem hm) rfl
  · exact b.encode_of_sameMentions hsame rfl (eraseDups_append_of_mem hf)
  · intro classRefs methodRefs fieldRefs b' hclasses hmethods hfields
    rw [namedClasses_eq] at hclasses
    exact b.encode_of_sameMentions hclasses hmethods hfields

/-- An interface, the class that declares a nested one, a method and a field are mentioned again. -/
theorem encode_of_repeated_twoSpellings :
    ({ twoSpellings with classRefs := ["a/B", "a/I"] } : Blueprint).encode = twoSpellings.encode
      ∧ ({ twoSpellings with
            classRefs := ["a.B", "a/B$C", "a/B"]
            methodRefs := [⟨"a.I", "m", "()V", true⟩, ⟨"a/I", "m", "()V", true⟩]
            fieldRefs := [⟨"a.B", "x", "I"⟩] } : Blueprint).encode = twoSpellings.encode := by
  obtain ⟨hclass, -, -, hall⟩ := encode_of_repeated twoSpellings
  exact ⟨hclass "a/I" (by decide), hall _ _ _ (by decide) (by decide) (by decide)⟩

end Blueprint

/-! ## Counting constants -/

/-- A mentioned member: the tag of its constant, its class as given, its name and descriptor. -/
abbrev TaggedMember := UInt8 × ClassName × String × String

/-- What a key stands for: a text, the internal name of a class, a name with a descriptor, or a
mentioned member. -/
def Key.denoted : Key → String ⊕ String ⊕ (String × String) ⊕ TaggedMember
  | .utf8 text => .inl text
  | .classInfo name => .inr (.inl name)
  | .nameAndType name descriptor => .inr (.inr (.inl (name, descriptor)))
  | .fieldRef owner name descriptor => .inr (.inr (.inr (9, owner, name, descriptor)))
  | .methodRef ofInterface owner name descriptor =>
    .inr (.inr (.inr (if ofInterface then 11 else 10, owner, name, descriptor)))

theorem Key.denoted_injective : Function.Injective Key.denoted := by
  intro k k' h
  cases k <;> cases k' <;> simp_all [denoted]
  -- What is left are mentioned members, which the tag tells apart.
  · grind
  · grind
  · grind

namespace Blueprint

/-- The texts that are written: internal class names, names and descriptors of members, and for the
nested class table its name and the names in the source. -/
def writtenTexts (b : Blueprint) : List String :=
  b.classes.map ClassName.internal
    ++ ((b.fields ++ b.methods).flatMap (fun m => [m.name, m.descriptor])
    ++ (b.methodRefs.flatMap (fun m => [m.name, m.descriptor])
    ++ (b.fieldRefs.flatMap (fun f => [f.name, f.descriptor])
    ++ (b.nested.map (fun row => row.1.simple)
    ++ if b.nested = [] then [] else ["InnerClasses"]))))

/-- The names and descriptors of mentioned members. -/
def pairs (b : Blueprint) : List (String × String) :=
  b.methodRefs.map (fun m => (m.name, m.descriptor))
    ++ b.fieldRefs.map (fun f => (f.name, f.descriptor))

/-- The mentioned members. -/
def taggedMembers (b : Blueprint) : List TaggedMember :=
  b.methodRefs.map (fun m => (if m.ofInterface then 11 else 10, m.owner, m.name, m.descriptor))
    ++ b.fieldRefs.map (fun f => (9, f.owner, f.name, f.descriptor))

/-- The number of distinct constants a blueprint needs. -/
def constantCount (b : Blueprint) : Nat :=
  b.writtenTexts.toFinset.card + (b.classes.map ClassName.internal).toFinset.card
    + b.pairs.toFinset.card + b.taggedMembers.toFinset.card

section

variable {text : String}

theorem utf8_mem_classes {names : List ClassName} :
    .utf8 text ∈ names.flatMap Key.ofClass ↔ text ∈ names.map ClassName.internal := by
  simp [Key.ofClass, eq_comm]

theorem utf8_mem_members {ms : List MemberPlan} :
    .utf8 text ∈ ms.flatMap Key.ofMember ↔ text ∈ ms.flatMap (fun m => [m.name, m.descriptor]) := by
  simp [Key.ofMember]

theorem utf8_mem_methods {ms : List MethodMention} :
    .utf8 text ∈ ms.flatMap Key.ofMethod
      ↔ text ∈ (ms.map MethodMention.owner).map ClassName.internal
        ∨ text ∈ ms.flatMap (fun m => [m.name, m.descriptor]) := by
  simp [Key.ofMethod, Key.ofClass, Key.ofPair, and_or_left, exists_or, eq_comm]

theorem utf8_mem_fields {fs : List MemberMention} :
    .utf8 text ∈ fs.flatMap Key.ofField
      ↔ text ∈ (fs.map MemberMention.owner).map ClassName.internal
        ∨ text ∈ fs.flatMap (fun f => [f.name, f.descriptor]) := by
  simp [Key.ofField, Key.ofClass, Key.ofPair, and_or_left, exists_or, eq_comm]

theorem utf8_mem_nestedRows {rows : List (ClassName × Option ClassName)} :
    .utf8 text ∈ rows.flatMap Key.ofNestedRow
      ↔ text ∈ (rows.flatMap fun row => row.1 :: row.2.toList).map ClassName.internal
        ∨ text ∈ rows.map (fun row => row.1.simple) := by
  induction rows with
  | nil => simp
  | cons row rows ih =>
    rw [List.flatMap_cons, List.mem_append, ofNestedRow_eq, List.mem_append, utf8_mem_classes, ih]
    simp only [List.flatMap_cons, List.map_append, List.map_cons, List.mem_append, List.mem_cons,
      List.not_mem_nil, or_false, Key.utf8.injEq]
    grind only

theorem utf8_mem_nestedTable {rows : List (ClassName × Option ClassName)} :
    .utf8 text ∈ Key.ofNestedTable rows
      ↔ text ∈ (rows.flatMap fun row => row.1 :: row.2.toList).map ClassName.internal
        ∨ text ∈ rows.map (fun row => row.1.simple)
        ∨ text ∈ if rows = [] then [] else ["InnerClasses"] := by
  cases rows with
  | nil => simp [Key.ofNestedTable]
  | cons row rows =>
    rw [Key.ofNestedTable, if_neg (by simp), if_neg (by simp), List.mem_cons, utf8_mem_nestedRows,
      List.mem_singleton, Key.utf8.injEq, nestedTableName]
    grind only

theorem utf8_mem_keys {b : Blueprint} : .utf8 text ∈ b.keys ↔ text ∈ b.writtenTexts := by
  rw [keys, ofOptionalClass_eq, ← List.flatMap_singleton Key.ofClass b.name]
  simp only [writtenTexts, classes, namedClasses, List.map_append, List.flatMap_append,
    List.mem_append, utf8_mem_classes, utf8_mem_members, utf8_mem_methods, utf8_mem_fields,
    utf8_mem_nestedTable]
  grind only

end

theorem classInfo_mem_keys {b : Blueprint} {name : String} :
    .classInfo name ∈ b.keys ↔ name ∈ b.classes.map ClassName.internal := by
  rw [← class_keys, List.mem_filterMap]
  simp only [Key.class?_eq_some_iff, exists_eq_right]

theorem nameAndType_mem_keys {b : Blueprint} {name descriptor : String} :
    .nameAndType name descriptor ∈ b.keys ↔ (name, descriptor) ∈ b.pairs := by
  have htable : .nameAndType name descriptor ∉ Key.ofNestedTable b.nested := by
    rw [Key.ofNestedTable]
    split
    · simp
    · simp [ofNestedRow_eq, Key.ofClass]
  simp [keys, pairs, ofOptionalClass_eq, Key.ofClass, Key.ofMember, Key.ofMethod, Key.ofField,
    Key.ofPair, htable, eq_comm]

theorem fieldRef_mem_keys {b : Blueprint} {owner : ClassName} {name descriptor : String} :
    .fieldRef owner name descriptor ∈ b.keys ↔ ⟨owner, name, descriptor⟩ ∈ b.fieldRefs := by
  rw [← field_keys, List.mem_filterMap]
  simp only [Key.field?_eq_some_iff, exists_eq_right]

theorem methodRef_mem_keys {b : Blueprint} {ofInterface : Bool} {owner : ClassName}
    {name descriptor : String} :
    .methodRef ofInterface owner name descriptor ∈ b.keys
      ↔ ⟨owner, name, descriptor, ofInterface⟩ ∈ b.methodRefs := by
  rw [← method_keys, List.mem_filterMap]
  simp only [Key.method?_eq_some_iff, exists_eq_right]

/-- The keys of a blueprint stand for its texts, classes, pairs and members. -/
theorem exists_key_iff {b : Blueprint} {x : String ⊕ String ⊕ (String × String) ⊕ TaggedMember} :
    (∃ k ∈ b.keys, k.denoted = x) ↔ x ∈ b.writtenTexts.toFinset.disjSum
      ((b.classes.map ClassName.internal).toFinset.disjSum
        (b.pairs.toFinset.disjSum b.taggedMembers.toFinset)) := by
  constructor
  · rintro ⟨k, hk, rfl⟩
    cases k with
    | utf8 text =>
      rw [Key.denoted, Finset.inl_mem_disjSum, List.mem_toFinset]
      exact utf8_mem_keys.mp hk
    | classInfo name =>
      rw [Key.denoted, Finset.inr_mem_disjSum, Finset.inl_mem_disjSum, List.mem_toFinset]
      exact classInfo_mem_keys.mp hk
    | nameAndType name descriptor =>
      rw [Key.denoted, Finset.inr_mem_disjSum, Finset.inr_mem_disjSum, Finset.inl_mem_disjSum,
        List.mem_toFinset]
      exact nameAndType_mem_keys.mp hk
    | fieldRef owner name descriptor =>
      rw [Key.denoted, Finset.inr_mem_disjSum, Finset.inr_mem_disjSum, Finset.inr_mem_disjSum,
        List.mem_toFinset]
      exact List.mem_append_right _ (List.mem_map.mpr ⟨_, fieldRef_mem_keys.mp hk, rfl⟩)
    | methodRef ofInterface owner name descriptor =>
      rw [Key.denoted, Finset.inr_mem_disjSum, Finset.inr_mem_disjSum, Finset.inr_mem_disjSum,
        List.mem_toFinset]
      exact List.mem_append_left _ (List.mem_map.mpr ⟨_, methodRef_mem_keys.mp hk, rfl⟩)
  · intro hx
    rcases x with text | name | pair | member
    · rw [Finset.inl_mem_disjSum, List.mem_toFinset] at hx
      exact ⟨.utf8 text, utf8_mem_keys.mpr hx, rfl⟩
    · rw [Finset.inr_mem_disjSum, Finset.inl_mem_disjSum, List.mem_toFinset] at hx
      exact ⟨.classInfo name, classInfo_mem_keys.mpr hx, rfl⟩
    · rw [Finset.inr_mem_disjSum, Finset.inr_mem_disjSum, Finset.inl_mem_disjSum,
        List.mem_toFinset] at hx
      exact ⟨.nameAndType pair.1 pair.2, nameAndType_mem_keys.mpr hx, rfl⟩
    · rw [Finset.inr_mem_disjSum, Finset.inr_mem_disjSum, Finset.inr_mem_disjSum,
        List.mem_toFinset, taggedMembers, List.mem_append, List.mem_map, List.mem_map] at hx
      rcases hx with ⟨m, hm, rfl⟩ | ⟨f, hf, rfl⟩
      · exact ⟨.methodRef m.ofInterface m.owner m.name m.descriptor, methodRef_mem_keys.mpr hm, rfl⟩
      · exact ⟨.fieldRef f.owner f.name f.descriptor, fieldRef_mem_keys.mpr hf, rfl⟩

theorem length_keys (b : Blueprint) : b.keys.eraseDups.length = b.constantCount := by
  have hmap : b.keys.toFinset.map ⟨Key.denoted, Key.denoted_injective⟩
      = b.writtenTexts.toFinset.disjSum ((b.classes.map ClassName.internal).toFinset.disjSum
        (b.pairs.toFinset.disjSum b.taggedMembers.toFinset)) := by
    ext x
    rw [← exists_key_iff, Finset.mem_map]
    simp only [List.mem_toFinset, Function.Embedding.coeFn_mk]
  rw [length_eraseDups, ← Finset.card_map ⟨Key.denoted, Key.denoted_injective⟩, hmap,
    Finset.card_disjSum, Finset.card_disjSum, Finset.card_disjSum, constantCount]
  omega

end Blueprint

/-- The number of constants is written after the magic number and the version. -/
theorem Skeleton.bytes_count (s : Skeleton) (access : UInt16) (d : PoolDraft) :
    ∃ high low, (s.bytes access d)[8]? = some high ∧ (s.bytes access d)[9]? = some low
      ∧ Bytes.toWord high low = UInt16.ofNat d.next :=
  ⟨_, _, rfl, rfl, Bytes.toWord_ofWord _⟩

namespace Blueprint

/-- With at most 65535 rows of nested classes, writing fails exactly if the distinct constants are
more than 65534, for want of an index; otherwise the count that is written is one more than their
number. -/
theorem encode_exact (b : Blueprint) (h : b.nested.length ≤ 65535) :
    (∀ fault, b.encode = .error fault ↔ fault = .poolFull ∧ 65534 < b.constantCount)
      ∧ (b.constantCount ≤ 65534 → ∃ bytes high low, b.encode = .ok bytes
        ∧ bytes[8]? = some high ∧ bytes[9]? = some low
        ∧ (Bytes.toWord high low).toNat = b.constantCount + 1) := by
  by_cases hfits : b.constantCount ≤ 65534
  · have hkeys : b.keys.eraseDups.length ≤ PoolDraft.capacity := by
      rw [length_keys]
      exact hfits
    obtain ⟨d, hd, hencode⟩ := b.encode_of_keys hkeys h
    obtain ⟨high, low, hhigh, hlow, hword⟩ := (b.skeletonIn b.keys).bytes_count b.access d
    have hnext : d.next = b.constantCount + 1 := by rw [hd.next_eq, length_keys]
    refine ⟨fun fault => ?_, fun _ => ⟨_, high, low, hencode, hhigh, hlow, ?_⟩⟩
    · rw [hencode]
      refine iff_of_false (fun hfault => by cases hfault) fun hfault => ?_
      omega
    · rw [hword, hnext, UInt16.toNat_ofNat_of_lt']
      show _ < 65536
      omega
  · have hcases := b.encode_cases
    rw [length_keys, if_neg (show ¬ _ ≤ PoolDraft.capacity from hfits)] at hcases
    refine ⟨fun fault => ?_, fun hle => absurd hle hfits⟩
    rw [hcases, Except.error.injEq, eq_comm]
    exact ⟨fun hfault => ⟨hfault, by omega⟩, fun hfault => hfault.1⟩

/-- Five classes make ten constants, and a method mentioned with both spellings of its interface
makes two. -/
theorem encode_exact_twoSpellings :
    twoSpellings.nested.length ≤ 65535 ∧ twoSpellings.constantCount = 22
      ∧ ∃ bytes high low, twoSpellings.encode = .ok bytes ∧ bytes[8]? = some high
        ∧ bytes[9]? = some low ∧ (Bytes.toWord high low).toNat = 23 := by
  have hrows : twoSpellings.nested.length ≤ 65535 := by decide
  have hcount : twoSpellings.constantCount = 22 := by decide
  have hwritten := (encode_exact twoSpellings hrows).2
  rw [hcount] at hwritten
  exact ⟨hrows, hcount, hwritten (by decide)⟩

end Blueprint

end Linkage.ClassFile
