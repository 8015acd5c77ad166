import Linkage.Proofs.ClassFile.Acceptance
import Linkage.Proofs.ClassFile.Interning
import Linkage.Proofs.ClassNames

/-!
# What is written is read back

The view of a blueprint is said without any pool: `Blueprint.view` has the parts of the blueprint
in order, with binary names, and its mentions are those of the blueprint without repetitions.
Writing a blueprint within the limits of the format (`Blueprint.Fits`) succeeds, and reading the
bytes gives this view.

The proof goes through the layout.  A pool under construction that holds the keys of the blueprint
resolves every index to what the key stands for, so the layout that is written denotes the view.
-/

namespace Linkage.ClassFile

/-! ## The view of a blueprint -/

/-- The member a plan describes. -/
def MemberPlan.member (m : MemberPlan) : Member :=
  ⟨m.name, m.descriptor, ⟨m.access⟩⟩

/-- The row of the nested class table a pair describes. -/
def nestedClass (row : ClassName × Option ClassName) : NestedClass :=
  ⟨.ofInternal row.1, row.2.map .ofInternal⟩

namespace Blueprint

/-- The classes a blueprint mentions for themselves, in order, with repetitions. -/
def namedClasses (b : Blueprint) : List ClassName :=
  [b.name] ++ (b.superclass.toList ++ (b.interfaces
    ++ (b.nested.flatMap (fun row => row.1 :: row.2.toList) ++ b.classRefs)))

/-- All classes a blueprint mentions, in order, with repetitions: after those it mentions for
themselves the classes of the members it mentions. -/
def classes (b : Blueprint) : List ClassName :=
  b.namedClasses ++ (b.methodRefs.map MethodMention.owner ++ b.fieldRefs.map MemberMention.owner)

/-- The view a blueprint describes. -/
def view (b : Blueprint) : ClassView where
  name := .ofInternal b.name
  superclass := b.superclass.map .ofInternal
  interfaces := b.interfaces.map .ofInternal
  access := ⟨b.access⟩
  fields := b.fields.map MemberPlan.member
  methods := b.methods.map MemberPlan.member
  nested := b.nested.map nestedClass
  classRefs := (b.classes.map .ofInternal).eraseDups
  methodRefs := b.methodRefs.eraseDups.map fun m => ⟨.ofInternal m.owner, m.name, m.descriptor⟩
  fieldRefs := b.fieldRefs.eraseDups.map fun f => ⟨.ofInternal f.owner, f.name, f.descriptor⟩

/-- Every text of a blueprint, as given. -/
def texts (b : Blueprint) : List String :=
  b.classes ++ ((b.fields ++ b.methods).flatMap (fun m => [m.name, m.descriptor])
    ++ (b.methodRefs.flatMap (fun m => [m.name, m.descriptor])
    ++ b.fieldRefs.flatMap (fun f => [f.name, f.descriptor])))

/-- Every number of the blueprint fits its word. -/
structure Countable (b : Blueprint) : Prop where
  /-- The length of every text does. -/
  texts : ∀ text ∈ b.texts, text.utf8ByteSize ≤ 65535
  /-- The number of interfaces does. -/
  interfaces : b.interfaces.length ≤ 65535
  /-- The number of fields does. -/
  fields : b.fields.length ≤ 65535
  /-- The number of methods does. -/
  methods : b.methods.length ≤ 65535
  /-- The number of nested classes does. -/
  nested : b.nested.length ≤ 65535

/-- The blueprint is within the limits of the format. -/
structure Fits (b : Blueprint) : Prop extends Countable b where
  /-- The distinct constants have indexes. -/
  constants : b.keys.eraseDups.length ≤ 65534

end Blueprint

/-! ## Indexes point to what they stand for -/

namespace PoolDraft

/-- The pool that is written. -/
def pool (d : PoolDraft) : Pool :=
  ⟨(.unusable :: d.constants).toArray⟩

variable {d : PoolDraft} {asked : List Key}

theorem Holds.toNat_index (h : d.Holds asked) {k : Key} (hk : k ∈ asked) :
    (k.index asked).toNat = asked.eraseDups.idxOf k + 1 := by
  have hlt : asked.eraseDups.idxOf k < asked.eraseDups.length :=
    List.idxOf_lt_length_of_mem (List.mem_eraseDups.mpr hk)
  have hfits : asked.eraseDups.length ≤ 65534 := h.fits
  have hsmall : asked.eraseDups.idxOf k + 1 < UInt16.size := by
    show _ < 65536
    omega
  rw [Key.index, UInt16.toNat_ofNat_of_lt' hsmall]

theorem Holds.index_ne_zero (h : d.Holds asked) {k : Key} (hk : k ∈ asked) :
    k.index asked ≠ 0 := by
  intro hzero
  have htoNat := h.toNat_index hk
  rw [hzero] at htoNat
  exact absurd htoNat (by simp)

/-- The slot of a key holds its constant. -/
theorem Holds.slot_index (h : d.Holds asked) {k : Key} (hk : k ∈ asked) :
    d.pool.slots[(k.index asked).toNat]? = some (k.constant asked) := by
  have hfound : asked.eraseDups[asked.eraseDups.idxOf k]? = some k :=
    List.getElem?_idxOf (List.mem_eraseDups.mpr hk)
  rw [h.toNat_index hk, pool, h.constants_eq, List.getElem?_toArray, List.getElem?_cons_succ,
    List.getElem?_map, hfound]
  rfl

theorem Holds.textAt (h : d.Holds asked) {text : String} (hk : .utf8 text ∈ asked) :
    d.pool.TextAt ((Key.utf8 text).index asked) text :=
  h.slot_index hk

theorem Holds.classAt (h : d.Holds asked) {name : String} (hk : .classInfo name ∈ asked) :
    d.pool.ClassAt ((Key.classInfo name).index asked) (.ofInternal name) :=
  ⟨_, name, h.slot_index hk, h.textAt (h.closed hk (by simp [Key.parts])), rfl⟩

theorem Holds.pairAt (h : d.Holds asked) {name descriptor : String}
    (hk : .nameAndType name descriptor ∈ asked) :
    d.pool.PairAt ((Key.nameAndType name descriptor).index asked) name descriptor :=
  ⟨_, _, h.slot_index hk, h.textAt (h.closed hk (by simp [Key.parts])),
    h.textAt (h.closed hk (by simp [Key.parts]))⟩

/-- The class of a name that is written in internal form. -/
theorem Holds.classAt_internal (h : d.Holds asked) {name : ClassName}
    (hk : .classInfo name.internal ∈ asked) :
    d.pool.ClassAt ((Key.classInfo name.internal).index asked) (.ofInternal name) := by
  rw [← ClassName.ofInternal_internal]
  exact h.classAt hk

theorem Holds.optionalClassAt (h : d.Holds asked) {name : Option ClassName}
    (hk : ∀ k ∈ Key.ofOptionalClass name, k ∈ asked) :
    d.pool.OptionalClassAt (optionalIndex asked name) (name.map .ofInternal) := by
  cases name with
  | none => simp [Pool.OptionalClassAt, optionalIndex]
  | some name =>
    have hmem : .classInfo name.internal ∈ asked :=
      hk _ (by simp [Key.ofOptionalClass, Key.ofClass])
    rw [Pool.OptionalClassAt, optionalIndex, if_neg (h.index_ne_zero hmem)]
    exact ⟨_, h.classAt_internal hmem, rfl⟩

end PoolDraft

/-! ## Mentions -/

namespace Key

/-- The class a key is of, by its internal name. -/
def class? : Key → Option String
  | .classInfo name => some name
  | _ => none

/-- The method a key is of. -/
def method? : Key → Option MethodMention
  | .methodRef ofInterface owner name descriptor => some ⟨owner, name, descriptor, ofInterface⟩
  | _ => none

/-- The field a key is of. -/
def field? : Key → Option MemberMention
  | .fieldRef owner name descriptor => some ⟨owner, name, descriptor⟩
  | _ => none

theorem class?_eq_some_iff {k : Key} {name : String} :
    k.class? = some name ↔ k = .classInfo name := by
  cases k <;> simp [class?]

theorem method?_eq_some_iff {k : Key} {m : MethodMention} :
    k.method? = some m ↔ k = .methodRef m.ofInterface m.owner m.name m.descriptor := by
  cases m
  cases k <;> simp [method?]
  grind

theorem field?_eq_some_iff {k : Key} {f : MemberMention} :
    k.field? = some f ↔ k = .fieldRef f.owner f.name f.descriptor := by
  cases f
  cases k <;> simp [field?]

end Key

/-! What is picked from keys by a function that leaves out texts, names and descriptors. -/

section

variable {β : Type} {f : Key → Option β} (htext : ∀ text, f (.utf8 text) = none)

include htext

theorem filterMap_ofClass (n : ClassName) :
    (Key.ofClass n).filterMap f = [n].filterMap (fun n => f (.classInfo n.internal)) := by
  rw [Key.ofClass, List.filterMap_cons_none (htext _)]
  simp only [List.filterMap_cons, List.filterMap_nil]

theorem filterMap_flatMap_ofClass (ns : List ClassName) :
    (ns.flatMap Key.ofClass).filterMap f = ns.filterMap (fun n => f (.classInfo n.internal)) := by
  induction ns with
  | nil => rfl
  | cons n ns ih =>
    rw [List.flatMap_cons, List.filterMap_append, ih, filterMap_ofClass htext,
      ← List.filterMap_append, List.singleton_append]

theorem filterMap_ofOptionalClass (n : Option ClassName) :
    (Key.ofOptionalClass n).filterMap f
      = n.toList.filterMap (fun n => f (.classInfo n.internal)) := by
  cases n with
  | none => rfl
  | some n => exact filterMap_ofClass htext n

theorem filterMap_flatMap_ofMember (ms : List MemberPlan) :
    (ms.flatMap Key.ofMember).filterMap f = [] := by
  rw [List.filterMap_flatMap]
  refine List.flatMap_eq_nil_iff.mpr fun m _ => ?_
  simp [Key.ofMember, htext]

theorem filterMap_ofNestedRow (row : ClassName × Option ClassName) :
    (Key.ofNestedRow row).filterMap f
      = (row.1 :: row.2.toList).filterMap (fun n => f (.classInfo n.internal)) := by
  rw [Key.ofNestedRow, List.filterMap_append, List.filterMap_append, filterMap_ofClass htext,
    filterMap_ofOptionalClass htext, List.filterMap_cons_none (htext _), List.filterMap_nil,
    List.append_nil, ← List.filterMap_append, List.singleton_append]

theorem filterMap_ofNestedTable (rows : List (ClassName × Option ClassName)) :
    (Key.ofNestedTable rows).filterMap f
      = (rows.flatMap fun row => row.1 :: row.2.toList).filterMap
        (fun n => f (.classInfo n.internal)) := by
  cases rows with
  | nil => rfl
  | cons row rows =>
    rw [Key.ofNestedTable, if_neg (by simp), List.filterMap_cons_none (htext _),
      List.filterMap_flatMap, List.filterMap_flatMap]
    simp only [filterMap_ofNestedRow htext]

theorem filterMap_keys (hpair : ∀ name descriptor, f (.nameAndType name descriptor) = none)
    (b : Blueprint) :
    b.keys.filterMap f = b.namedClasses.filterMap (fun n => f (.classInfo n.internal))
      ++ (b.methodRefs.flatMap (fun m => [.classInfo m.owner.internal,
          .methodRef m.ofInterface m.owner m.name m.descriptor].filterMap f)
      ++ b.fieldRefs.flatMap (fun m => [.classInfo m.owner.internal,
          .fieldRef m.owner m.name m.descriptor].filterMap f)) := by
  have hmember : ∀ (n : ClassName) (name descriptor : String) (k : Key),
      (Key.ofClass n ++ Key.ofPair name descriptor ++ [k]).filterMap f
        = [.classInfo n.internal, k].filterMap f := by
    intro n name descriptor k
    simp [Key.ofClass, Key.ofPair, htext, hpair, List.filterMap_cons]
  have hmethods : (b.methodRefs.flatMap Key.ofMethod).filterMap f
      = b.methodRefs.flatMap (fun m => [.classInfo m.owner.internal,
          .methodRef m.ofInterface m.owner m.name m.descriptor].filterMap f) := by
    simp only [List.filterMap_flatMap, Key.ofMethod, hmember]
  have hfields : (b.fieldRefs.flatMap Key.ofField).filterMap f
      = b.fieldRefs.flatMap (fun m => [.classInfo m.owner.internal,
          .fieldRef m.owner m.name m.descriptor].filterMap f) := by
    simp only [List.filterMap_flatMap, Key.ofField, hmember]
  rw [Blueprint.keys, Blueprint.namedClasses]
  simp only [List.filterMap_append, filterMap_ofClass htext, filterMap_ofOptionalClass htext,
    filterMap_flatMap_ofClass htext, filterMap_flatMap_ofMember htext,
    filterMap_ofNestedTable htext, hmethods, hfields, List.append_assoc, List.nil_append]

end

namespace Blueprint

theorem class_keys (b : Blueprint) :
    b.keys.filterMap Key.class? = b.classes.map ClassName.internal := by
  have hnamed : b.namedClasses.filterMap (fun n => Key.class? (.classInfo n.internal))
      = b.namedClasses.map ClassName.internal :=
    congrFun List.filterMap_eq_map _
  have hmethods : b.methodRefs.flatMap (fun m => [Key.classInfo m.owner.internal,
      .methodRef m.ofInterface m.owner m.name m.descriptor].filterMap Key.class?)
      = (b.methodRefs.map MethodMention.owner).map ClassName.internal := by
    rw [List.map_map, List.map_eq_flatMap]
    rfl
  have hfields : b.fieldRefs.flatMap (fun m => [Key.classInfo m.owner.internal,
      .fieldRef m.owner m.name m.descriptor].filterMap Key.class?)
      = (b.fieldRefs.map MemberMention.owner).map ClassName.internal := by
    rw [List.map_map, List.map_eq_flatMap]
    rfl
  rw [filterMap_keys (f := Key.class?) (fun _ => rfl) (fun _ _ => rfl), hnamed, hmethods, hfields,
    classes, List.map_append, List.map_append]

theorem method_keys (b : Blueprint) : b.keys.filterMap Key.method? = b.methodRefs := by
  have hnamed : b.namedClasses.filterMap (fun n => Key.method? (.classInfo n.internal)) = [] :=
    List.filterMap_eq_nil_iff.mpr fun _ _ => rfl
  have hmethods : b.methodRefs.flatMap (fun m => [Key.classInfo m.owner.internal,
      .methodRef m.ofInterface m.owner m.name m.descriptor].filterMap Key.method?)
      = b.methodRefs := List.flatMap_singleton' _
  have hfields : b.fieldRefs.flatMap (fun m => [Key.classInfo m.owner.internal,
      .fieldRef m.owner m.name m.descriptor].filterMap Key.method?) = [] :=
    List.flatMap_eq_nil_iff.mpr fun _ _ => rfl
  rw [filterMap_keys (f := Key.method?) (fun _ => rfl) (fun _ _ => rfl), hnamed, hmethods, hfields,
    List.nil_append, List.append_nil]

theorem field_keys (b : Blueprint) : b.keys.filterMap Key.field? = b.fieldRefs := by
  have hnamed : b.namedClasses.filterMap (fun n => Key.field? (.classInfo n.internal)) = [] :=
    List.filterMap_eq_nil_iff.mpr fun _ _ => rfl
  have hmethods : b.methodRefs.flatMap (fun m => [Key.classInfo m.owner.internal,
      .methodRef m.ofInterface m.owner m.name m.descriptor].filterMap Key.field?) = [] :=
    List.flatMap_eq_nil_iff.mpr fun _ _ => rfl
  have hfields : b.fieldRefs.flatMap (fun m => [Key.classInfo m.owner.internal,
      .fieldRef m.owner m.name m.descriptor].filterMap Key.field?)
      = b.fieldRefs := List.flatMap_singleton' _
  rw [filterMap_keys (f := Key.field?) (fun _ => rfl) (fun _ _ => rfl), hnamed, hmethods, hfields,
    List.nil_append, List.nil_append]

end Blueprint

namespace PoolDraft

variable {d : PoolDraft} {asked : List Key}

/-- The mentions of one kind.  `pick` finds the keys of this kind and `indexes?` their constants;
`holds` is what the constants hold and `means` what is mentioned. -/
theorem Holds.mentions (h : d.Holds asked) {α β γ : Type} [BEq α] [LawfulBEq α]
    {indexes? : Constant → Option β} {means : α → γ} {R : β → γ → Prop} (pick : Key → Option α)
    (holds : α → β) (hunusable : indexes? .unusable = none)
    (hindexes : ∀ k, indexes? (k.constant asked) = (pick k).map holds)
    (hinj : ∀ k k' a, pick k = some a → pick k' = some a → k = k')
    (hmeans : ∀ k ∈ asked, ∀ a, pick k = some a → R (holds a) (means a)) :
    List.Forall₂ R (d.pool.slots.toList.filterMap indexes?)
      ((asked.filterMap pick).eraseDups.map means) := by
  have hslots : d.pool.slots.toList.filterMap indexes?
      = (asked.filterMap pick).eraseDups.map holds := by
    show (Constant.unusable :: d.constants).filterMap indexes? = _
    rw [List.filterMap_cons_none hunusable, h.constants_eq, List.filterMap_map,
      ← filterMap_eraseDups fun k _ k' _ => hinj k k', List.map_filterMap]
    exact List.filterMap_congr fun k _ => hindexes k
  rw [hslots, List.forall₂_map_left_iff, List.forall₂_map_right_iff, List.forall₂_same]
  intro a ha
  obtain ⟨k, hk, hpick⟩ := List.mem_filterMap.mp (List.mem_eraseDups.mp ha)
  exact hmeans k hk a hpick

theorem Holds.classMentions (h : d.Holds asked) :
    List.Forall₂ d.pool.NameAt (d.pool.slots.toList.filterMap Constant.classIndex?)
      ((asked.filterMap Key.class?).eraseDups.map .ofInternal) := by
  refine h.mentions Key.class? (fun n => (Key.utf8 n).index asked) rfl ?_ ?_ ?_
  · intro k
    cases k <;> rfl
  · intro k k' n hk hk'
    rw [Key.class?_eq_some_iff.mp hk, Key.class?_eq_some_iff.mp hk']
  · intro k hk n hpick
    rw [Key.class?_eq_some_iff.mp hpick] at hk
    exact ⟨n, h.textAt (h.closed hk (by simp [Key.parts])), rfl⟩

theorem Holds.methodMentions (h : d.Holds asked) :
    List.Forall₂ d.pool.MemberAt (d.pool.slots.toList.filterMap Constant.methodIndexes?)
      ((asked.filterMap Key.method?).eraseDups.map
        fun m => ⟨.ofInternal m.owner, m.name, m.descriptor⟩) := by
  refine h.mentions Key.method? (fun m =>
    ((Key.classInfo m.owner.internal).index asked,
      (Key.nameAndType m.name m.descriptor).index asked)) rfl ?_ ?_ ?_
  · intro k
    cases k <;> rfl
  · intro k k' m hk hk'
    rw [Key.method?_eq_some_iff.mp hk, Key.method?_eq_some_iff.mp hk']
  · intro k hk m hpick
    rw [Key.method?_eq_some_iff.mp hpick] at hk
    exact ⟨h.classAt_internal (h.closed hk (by simp [Key.parts])),
      h.pairAt (h.closed hk (by simp [Key.parts]))⟩

theorem Holds.fieldMentions (h : d.Holds asked) :
    List.Forall₂ d.pool.MemberAt (d.pool.slots.toList.filterMap Constant.fieldIndexes?)
      ((asked.filterMap Key.field?).eraseDups.map
        fun f => ⟨.ofInternal f.owner, f.name, f.descriptor⟩) := by
  refine h.mentions Key.field? (fun f =>
    ((Key.classInfo f.owner.internal).index asked,
      (Key.nameAndType f.name f.descriptor).index asked)) rfl ?_ ?_ ?_
  · intro k
    cases k <;> rfl
  · intro k k' f hk hk'
    rw [Key.field?_eq_some_iff.mp hk, Key.field?_eq_some_iff.mp hk']
  · intro k hk f hpick
    rw [Key.field?_eq_some_iff.mp hpick] at hk
    exact ⟨h.classAt_internal (h.closed hk (by simp [Key.parts])),
      h.pairAt (h.closed hk (by simp [Key.parts]))⟩

end PoolDraft

/-- Internal names without repetitions, read as binary names, are the binary names without
repetitions. -/
theorem map_ofInternal_eraseDups (ns : List ClassName) :
    (ns.map ClassName.internal).eraseDups.map .ofInternal
      = (ns.map ClassName.ofInternal).eraseDups := by
  have hinj : ∀ a ∈ ns.map ClassName.internal, ∀ a' ∈ ns.map ClassName.internal, ∀ b,
      (some ∘ ClassName.ofInternal) a = some b → (some ∘ ClassName.ofInternal) a' = some b →
        a = a' := by
    intro a ha a' ha' b hab hab'
    obtain ⟨m, -, rfl⟩ := List.mem_map.mp ha
    obtain ⟨n, -, rfl⟩ := List.mem_map.mp ha'
    have heq : ClassName.ofInternal m.internal = ClassName.ofInternal n.internal :=
      Option.some.inj (hab.trans hab'.symm)
    rw [ClassName.ofInternal_internal, ClassName.ofInternal_internal] at heq
    exact (ClassName.ofInternal_inj_iff m n).mp heq
  have hpick := filterMap_eraseDups hinj
  have hboth : (ns.map ClassName.internal).map ClassName.ofInternal
      = ns.map ClassName.ofInternal := by
    rw [List.map_map]
    exact List.map_congr_left fun n _ => ClassName.ofInternal_internal n
  rwa [List.filterMap_eq_map, hboth] at hpick

/-! ## The layout that is written -/

/-- A constant of a key can be written if its text can. -/
theorem exists_layout_of_key (asked : List Key) {k : Key}
    (htext : ∀ text, k = .utf8 text → text.utf8ByteSize ≤ 65535) :
    ∃ e : ConstantLayout, e.bytes = (k.constant asked).bytes ∧ e.slots = [k.constant asked] := by
  cases k with
  | utf8 text =>
    have hfits : (Text.encode text).length < 65536 := by
      have hle := htext text rfl
      rw [Text.length_encode]
      omega
    refine ⟨.text (Text.encode text) hfits, rfl, ?_⟩
    rw [ConstantLayout.slots, Text.decodeLossy_encode]
    rfl
  | classInfo name => exact ⟨.classInfo _, rfl, rfl⟩
  | nameAndType name descriptor => exact ⟨.nameAndType _ _, rfl, rfl⟩
  | fieldRef owner name descriptor => exact ⟨.fieldRef _ _, rfl, rfl⟩
  | methodRef ofInterface owner name descriptor =>
    cases ofInterface with
    | false => exact ⟨.methodRef false _ _, rfl, rfl⟩
    | true => exact ⟨.methodRef true _ _, rfl, rfl⟩

theorem exists_layouts_of_keys (asked ks : List Key)
    (htexts : ∀ text, .utf8 text ∈ ks → text.utf8ByteSize ≤ 65535) :
    ∃ es : List ConstantLayout,
      es.flatMap ConstantLayout.bytes = (ks.map (Key.constant asked)).flatMap Constant.bytes
        ∧ es.flatMap ConstantLayout.slots = ks.map (Key.constant asked) := by
  induction ks with
  | nil => exact ⟨[], rfl, rfl⟩
  | cons k ks ih =>
    obtain ⟨e, hbytes, hslots⟩ := exists_layout_of_key asked (k := k)
      fun text hk => htexts text (by simp [hk])
    obtain ⟨es, hbytes', hslots'⟩ := ih fun text hk => htexts text (List.mem_cons_of_mem _ hk)
    refine ⟨e :: es, ?_, ?_⟩
    · rw [List.flatMap_cons, List.map_cons, List.flatMap_cons, hbytes, hbytes']
    · rw [List.flatMap_cons, List.map_cons, hslots, hslots', List.singleton_append]

/-- The pool under construction is written as a pool that resolves the same indexes. -/
theorem PoolDraft.Holds.exists_poolLayout {d : PoolDraft} {asked : List Key} (h : d.Holds asked)
    (htexts : ∀ text, .utf8 text ∈ asked → text.utf8ByteSize ≤ 65535) :
    ∃ l : PoolLayout, l.bytes = wordOf d.next ++ d.constants.flatMap Constant.bytes
      ∧ l.pool = d.pool := by
  obtain ⟨es, hbytes, hslots⟩ := exists_layouts_of_keys asked asked.eraseDups
    fun text hk => htexts text (List.mem_eraseDups.mp hk)
  rw [← h.constants_eq] at hbytes hslots
  have hnext := h.next_eq
  have hlength : d.constants.length = asked.eraseDups.length := by
    rw [h.constants_eq, List.length_map]
  have hcount : (UInt16.ofNat d.next).toNat = d.next := by
    have hfits : asked.eraseDups.length ≤ 65534 := h.fits
    refine UInt16.toNat_ofNat_of_lt' ?_
    show _ < 65536
    omega
  refine ⟨⟨UInt16.ofNat d.next, es, ?_⟩, ?_, ?_⟩
  · rw [hslots, hcount]
    omega
  · rw [PoolLayout.bytes, hbytes, wordOf]
  · rw [PoolLayout.pool, hslots, pool]

/-- A member is written without attributes. -/
def MemberRow.layout (m : MemberRow) : MemberLayout :=
  ⟨m.access, m.name, m.descriptor, ⟨[], by decide⟩⟩

/-- Every nested class is written as public. -/
def NestedRow.layout (r : NestedRow) : NestedLayout :=
  ⟨r.inner, r.outer, r.simple, AccessFlags.publicBit⟩

theorem countedBytes_map {α β : Type} {f : β → Bytes} {g : α → Bytes} (layout : α → β)
    (h : ∀ a, f (layout a) = g a) (xs : List α) :
    countedBytes f (xs.map layout) = countedBytes g xs := by
  rw [countedBytes, countedBytes, List.length_map, List.flatMap_map]
  simp only [h]

theorem MemberRow.bytes_layout (m : MemberRow) : m.layout.bytes = m.bytes := by
  simp [MemberLayout.bytes, layout, MemberRow.bytes, countedBytes]

theorem NestedRow.bytes_layout (r : NestedRow) : r.layout.bytes = r.bytes := rfl

theorem length_countedBytes_nested (rows : List NestedRow) :
    (countedBytes NestedRow.bytes rows).length = 2 + 8 * rows.length := by
  have hrow : ∀ r : NestedRow, r.bytes.length = 8 := fun _ => rfl
  have hword : (wordOf rows.length).length = 2 := rfl
  rw [countedBytes, List.length_append, hword, List.length_flatMap]
  simp only [hrow, List.map_const', List.sum_replicate_nat]
  omega

namespace PoolDraft

variable {d : PoolDraft} {asked : List Key}

theorem Holds.members (h : d.Holds asked) {ms : List MemberPlan}
    (hkeys : ∀ k ∈ ms.flatMap Key.ofMember, k ∈ asked) :
    List.Forall₂ (MemberLayout.Denotes d.pool)
      ((ms.map (MemberPlan.row asked)).map MemberRow.layout) (ms.map MemberPlan.member) := by
  rw [List.forall₂_map_left_iff, List.forall₂_map_left_iff, List.forall₂_map_right_iff,
    List.forall₂_same]
  intro m hm
  have hmem : ∀ k ∈ Key.ofMember m, k ∈ asked := fun k hk =>
    hkeys k (List.mem_flatMap.mpr ⟨m, hm, hk⟩)
  exact ⟨h.textAt (hmem _ (by simp [Key.ofMember])), h.textAt (hmem _ (by simp [Key.ofMember])),
    rfl⟩

theorem Holds.interfaces (h : d.Holds asked) {ns : List ClassName}
    (hkeys : ∀ k ∈ ns.flatMap Key.ofClass, k ∈ asked) :
    List.Forall₂ d.pool.ClassAt (ns.map fun n => (Key.classInfo n.internal).index asked)
      (ns.map .ofInternal) := by
  rw [List.forall₂_map_left_iff, List.forall₂_map_right_iff, List.forall₂_same]
  intro n hn
  exact h.classAt_internal (hkeys _ (List.mem_flatMap.mpr ⟨n, hn, by simp [Key.ofClass]⟩))

theorem Holds.nestedRows (h : d.Holds asked) {rows : List (ClassName × Option ClassName)}
    (hkeys : ∀ k ∈ rows.flatMap Key.ofNestedRow, k ∈ asked) :
    List.Forall₂ (NestedLayout.Denotes d.pool)
      ((rows.map (nestedRowIn asked)).map NestedRow.layout) (rows.map nestedClass) := by
  rw [List.forall₂_map_left_iff, List.forall₂_map_left_iff, List.forall₂_map_right_iff,
    List.forall₂_same]
  intro row hr
  have hmem : ∀ k ∈ Key.ofNestedRow row, k ∈ asked := fun k hk =>
    hkeys k (List.mem_flatMap.mpr ⟨row, hr, hk⟩)
  refine ⟨h.classAt_internal (hmem _ ?_), h.optionalClassAt fun k hk => hmem k ?_⟩
  · simp [Key.ofNestedRow, Key.ofClass]
  · simp [Key.ofNestedRow, hk]

/-- The attributes that are written hold the nested class table, if it has rows. -/
theorem Holds.exists_attributes (h : d.Holds asked) {rows : List (ClassName × Option ClassName)}
    (hcount : rows.length ≤ 65535) (hkeys : ∀ k ∈ Key.ofNestedTable rows, k ∈ asked) :
    ∃ t : Table AttributeLayout,
      countedBytes AttributeLayout.bytes t.rows = attributesBytes (nestedTableIn asked rows)
        ∧ ∃ tables, List.Forall₂ (AttributeLayout.Denotes d.pool) t.rows tables
          ∧ rows.map nestedClass = tables.reduceOption.getLast?.getD [] := by
  by_cases hnone : rows.isEmpty
  · obtain rfl := List.isEmpty_iff.mp hnone
    exact ⟨⟨[], by simp⟩, rfl, [], .nil, rfl⟩
  rw [Key.ofNestedTable, if_neg hnone] at hkeys
  rw [nestedTableIn, if_neg hnone]
  have hname : .utf8 nestedTableName ∈ asked := hkeys _ List.mem_cons_self
  have hrows := h.nestedRows fun k hk => hkeys k (List.mem_cons_of_mem _ hk)
  have hbody : countedBytes NestedLayout.bytes
      ((rows.map (nestedRowIn asked)).map NestedRow.layout)
        = countedBytes NestedRow.bytes (rows.map (nestedRowIn asked)) :=
    countedBytes_map _ NestedRow.bytes_layout _
  have hlength := length_countedBytes_nested (rows.map (nestedRowIn asked))
  rw [List.length_map] at hlength
  refine ⟨⟨[⟨(Key.utf8 nestedTableName).index asked,
    countedBytes NestedRow.bytes (rows.map (nestedRowIn asked)), ?_⟩], by simp⟩, ?_,
    [some (rows.map nestedClass)], .cons ?_ .nil, rfl⟩
  · rw [hlength]
    omega
  · simp [countedBytes, AttributeLayout.bytes, attributesBytes, ← hlength]
  · refine ⟨nestedTableName, h.textAt hname, ?_⟩
    rw [if_pos (show nestedTableName = "InnerClasses" from rfl)]
    refine ⟨_, ⟨⟨(rows.map (nestedRowIn asked)).map NestedRow.layout, ?_⟩, [], ?_, hrows⟩, rfl⟩
    · rw [List.length_map, List.length_map]
      omega
    · rw [hbody, List.append_nil]

end PoolDraft

/-! Every text that becomes a constant can be written. -/

namespace Blueprint

theorem mem_classes_of_nested {b : Blueprint} {row : ClassName × Option ClassName}
    (hr : row ∈ b.nested) {n : ClassName} (hn : n ∈ row.1 :: row.2.toList) : n ∈ b.classes := by
  have hnested : n ∈ b.nested.flatMap fun row => row.1 :: row.2.toList :=
    List.mem_flatMap.mpr ⟨row, hr, hn⟩
  simp only [classes, namedClasses, List.mem_append]
  exact .inl (.inr (.inr (.inr (.inl hnested))))

namespace Fits

variable {b : Blueprint} {text : String}

theorem class_le (h : b.Fits) {n : ClassName} (hn : n ∈ b.classes)
    (hk : .utf8 text ∈ Key.ofClass n) : text.utf8ByteSize ≤ 65535 := by
  obtain rfl : text = n.internal := by simpa [Key.ofClass] using hk
  rw [ClassName.utf8ByteSize_internal]
  exact h.texts n (List.mem_append_left _ hn)

theorem optionalClass_le (h : b.Fits) {o : Option ClassName} (ho : ∀ n ∈ o, n ∈ b.classes)
    (hk : .utf8 text ∈ Key.ofOptionalClass o) : text.utf8ByteSize ≤ 65535 := by
  cases o with
  | none => simp [Key.ofOptionalClass] at hk
  | some n => exact h.class_le (ho n rfl) hk

theorem pair_le (h : b.Fits) {name descriptor : String} (hname : name ∈ b.texts)
    (hdescriptor : descriptor ∈ b.texts) (hk : .utf8 text ∈ Key.ofPair name descriptor) :
    text.utf8ByteSize ≤ 65535 := by
  obtain rfl | rfl : text = name ∨ text = descriptor := by simpa [Key.ofPair] using hk
  · exact h.texts _ hname
  · exact h.texts _ hdescriptor

theorem member_le (h : b.Fits) {m : MemberPlan} (hm : m ∈ b.fields ++ b.methods)
    (hk : .utf8 text ∈ Key.ofMember m) : text.utf8ByteSize ≤ 65535 := by
  have htexts : ∀ t ∈ [m.name, m.descriptor], t ∈ b.texts := fun t ht =>
    List.mem_append_right _ (List.mem_append_left _ (List.mem_flatMap.mpr ⟨m, hm, ht⟩))
  exact h.pair_le (htexts m.name (by simp)) (htexts m.descriptor (by simp))
    (by simpa [Key.ofMember, Key.ofPair] using hk)

/-- The keys of a mentioned member: its class, its name and descriptor, and its own key. -/
theorem mention_le (h : b.Fits) {owner : ClassName} {name descriptor : String} {k : Key}
    (howner : owner ∈ b.classes) (htexts : ∀ t ∈ [name, descriptor], t ∈ b.texts)
    (hown : k ≠ .utf8 text)
    (hk : .utf8 text ∈ Key.ofClass owner ++ Key.ofPair name descriptor ++ [k]) :
    text.utf8ByteSize ≤ 65535 := by
  simp only [List.mem_append, List.mem_singleton] at hk
  rcases hk with (hk | hk) | hk
  · exact h.class_le howner hk
  · exact h.pair_le (htexts name (by simp)) (htexts descriptor (by simp)) hk
  · exact absurd hk.symm hown

theorem nestedTable_le (h : b.Fits) (hk : .utf8 text ∈ Key.ofNestedTable b.nested) :
    text.utf8ByteSize ≤ 65535 := by
  rw [Key.ofNestedTable] at hk
  split at hk
  · simp at hk
  · rcases List.mem_cons.mp hk with hk | hk
    · obtain rfl : text = nestedTableName := by simpa using hk
      decide
    · obtain ⟨row, hr, hk⟩ := List.mem_flatMap.mp hk
      simp only [Key.ofNestedRow, List.mem_append] at hk
      rcases hk with hk | hk | hk
      · exact h.class_le (mem_classes_of_nested hr (by simp)) hk
      · exact h.optionalClass_le (fun n hn => mem_classes_of_nested hr (by simp_all)) hk
      · -- the name in the source is the end of the class name
        obtain rfl : text = row.1.simple := by simpa using hk
        have hle := ClassName.utf8ByteSize_simple_le row.1
        have hname := h.texts row.1
          (List.mem_append_left _ (mem_classes_of_nested hr List.mem_cons_self))
        omega

theorem utf8ByteSize_le (h : b.Fits) (hk : .utf8 text ∈ b.keys) : text.utf8ByteSize ≤ 65535 := by
  simp only [keys, List.mem_append, List.mem_flatMap] at hk
  rcases hk with hk | hk | ⟨n, hn, hk⟩ | ⟨m, hm, hk⟩ | ⟨m, hm, hk⟩ | hk | ⟨n, hn, hk⟩ |
    ⟨m, hm, hk⟩ | ⟨f, hf, hk⟩
  · exact h.class_le (by simp [classes, namedClasses]) hk
  · exact h.optionalClass_le (fun n hn => by simp_all [classes, namedClasses]) hk
  · exact h.class_le (by simp [classes, namedClasses, hn]) hk
  · exact h.member_le (List.mem_append_left _ hm) hk
  · exact h.member_le (List.mem_append_right _ hm) hk
  · exact h.nestedTable_le hk
  · exact h.class_le (by simp [classes, namedClasses, hn]) hk
  · have howner : m.owner ∈ b.classes := List.mem_append_right _
      (List.mem_append_left _ (List.mem_map_of_mem hm))
    refine h.mention_le howner (fun t ht => ?_) (by simp) hk
    exact List.mem_append_right _ (List.mem_append_right _
      (List.mem_append_left _ (List.mem_flatMap.mpr ⟨m, hm, ht⟩)))
  · have howner : f.owner ∈ b.classes := List.mem_append_right _
      (List.mem_append_right _ (List.mem_map_of_mem hf))
    refine h.mention_le howner (fun t ht => ?_) (by simp) hk
    exact List.mem_append_right _ (List.mem_append_right _
      (List.mem_append_right _ (List.mem_flatMap.mpr ⟨f, hf, ht⟩)))

end Fits

/-! ## The round trip -/

theorem tableFits_nestedTableIn (asked : List Key) {rows : List (ClassName × Option ClassName)}
    (h : rows.length ≤ 65535) : tableFits (nestedTableIn asked rows) = true := by
  by_cases hnone : rows.isEmpty
  · rw [nestedTableIn, if_pos hnone]
    rfl
  · have hword : (UInt32.ofNat rows.length).toNat = rows.length :=
      UInt32.toNat_ofNat_of_lt' (show _ < 4294967296 by omega)
    rw [nestedTableIn, if_neg hnone, tableFits, List.length_map, hword, decide_eq_true_iff]
    show _ < 4294967296
    omega

/-- Writing succeeds when the distinct constants have indexes and the rows of the nested class table
can be counted, and then the pool holds the keys of the blueprint. -/
theorem encode_of_keys (b : Blueprint) (h : b.keys.eraseDups.length ≤ PoolDraft.capacity)
    (hrows : b.nested.length ≤ 65535) :
    ∃ d : PoolDraft, d.Holds b.keys
      ∧ b.encode = .ok ((b.skeletonIn b.keys).bytes b.access d) := by
  have hcases := b.encode_cases
  rw [if_pos h] at hcases
  obtain ⟨d, hd, hencode⟩ := hcases
  have htable : tableFits (b.skeletonIn b.keys).nested = true := tableFits_nestedTableIn _ hrows
  rw [if_pos htable] at hencode
  exact ⟨d, hd, hencode⟩

/-- The bytes that are written are those of a layout that denotes the view. -/
theorem Fits.exists_layout {b : Blueprint} (h : b.Fits) {d : PoolDraft} (hd : d.Holds b.keys) :
    ∃ l : ClassLayout, l.bytes = (b.skeletonIn b.keys).bytes b.access d ∧ l.Denotes b.view := by
  obtain ⟨pool, hpoolBytes, hpool⟩ := hd.exists_poolLayout fun text => h.utf8ByteSize_le
  have htable : ∀ k ∈ Key.ofNestedTable b.nested, k ∈ b.keys := fun k hk => by simp [keys, hk]
  obtain ⟨attributes, hattributes, hnested⟩ := hd.exists_attributes h.nested htable
  have hinterfaces := h.interfaces
  have hfields := h.fields
  have hmethods := h.methods
  refine ⟨{ minor := 0, major := 52, pool, access := b.access,
            this := (b.skeletonIn b.keys).this, super := (b.skeletonIn b.keys).super,
            interfaces := ⟨(b.skeletonIn b.keys).interfaces, ?_⟩,
            fields := ⟨(b.skeletonIn b.keys).fields.map MemberRow.layout, ?_⟩,
            methods := ⟨(b.skeletonIn b.keys).methods.map MemberRow.layout, ?_⟩,
            attributes }, ?_, ?_⟩
  · rw [skeletonIn, List.length_map]
    omega
  · rw [skeletonIn, List.length_map, List.length_map]
    omega
  · rw [skeletonIn, List.length_map, List.length_map]
    omega
  · rw [ClassLayout.bytes, Skeleton.bytes, hpoolBytes, hattributes,
      countedBytes_map _ MemberRow.bytes_layout, countedBytes_map _ MemberRow.bytes_layout,
      ofDoubleWord_magic, ← List.append_assoc]
    rfl
  · exact {
      name := by
        rw [hpool]
        exact hd.classAt_internal (by simp [keys, Key.ofClass])
      superclass := by
        rw [hpool]
        exact hd.optionalClassAt fun k hk => by simp [keys, hk]
      access := rfl
      interfaces := by
        rw [hpool]
        exact hd.interfaces fun k hk => by simp only [keys, List.mem_append, hk, true_or, or_true]
      fields := by
        rw [hpool]
        exact hd.members fun k hk => by simp only [keys, List.mem_append, hk, true_or, or_true]
      methods := by
        rw [hpool]
        exact hd.members fun k hk => by simp only [keys, List.mem_append, hk, true_or, or_true]
      nested := by
        rw [hpool]
        exact hnested
      classRefs := by
        have hmentions := hd.classMentions
        rw [class_keys, map_ofInternal_eraseDups] at hmentions
        rw [hpool]
        exact hmentions
      methodRefs := by
        have hmentions := hd.methodMentions
        rw [method_keys] at hmentions
        rw [hpool]
        exact hmentions
      fieldRefs := by
        have hmentions := hd.fieldMentions
        rw [field_keys] at hmentions
        rw [hpool]
        exact hmentions }

/-- Writing a blueprint within the limits of the format and reading the bytes gives the view the
blueprint describes, under the name its entry stands for. -/
theorem decode_encode (b : Blueprint) (h : b.Fits) :
    (∃ bytes, b.encode = .ok bytes ∧ decode bytes = .ok b.view)
      ∧ b.view.name = .ofEntry b.entry := by
  obtain ⟨d, hd, hencode⟩ := b.encode_of_keys h.constants h.nested
  obtain ⟨l, hbytes, hdenotes⟩ := h.exists_layout hd
  refine ⟨⟨_, hencode, ?_⟩, ?_⟩
  · rw [← hbytes]
    exact decode_eq_ok_iff.mpr ⟨[], hdenotes.classFile_bytes⟩
  · rw [entry, ClassName.ofEntry_entry]
    rfl

/-- A nested class that spells the classes it mentions in two ways. -/
def twoSpellings : Blueprint where
  name := "a.B$C"
  interfaces := ["a.I", "a/I"]
  fields := [⟨"x", "I", 2⟩]
  methods := [⟨"m", "()V", 9⟩]
  nested := [("a.B$C", some "a/B"), ("a.B$1", none)]
  classRefs := ["a/B"]
  methodRefs := [⟨"a.I", "m", "()V", true⟩, ⟨"a/I", "m", "()V", true⟩, ⟨"a.I", "m", "()V", true⟩]
  fieldRefs := [⟨"a.B", "x", "I"⟩, ⟨"a.B", "x", "I"⟩]

theorem fits_twoSpellings : twoSpellings.Fits where
  texts := by decide
  interfaces := by decide
  fields := by decide
  methods := by decide
  nested := by decide
  constants := by decide

/-- One class is mentioned for both spellings, but a method for each of them. -/
theorem decode_encode_twoSpellings :
    twoSpellings.Fits
      ∧ twoSpellings.view.classRefs = ["a.B$C", "java.lang.Object", "a.I", "a.B", "a.B$1"]
      ∧ twoSpellings.view.methodRefs = [⟨"a.I", "m", "()V"⟩, ⟨"a.I", "m", "()V"⟩]
      ∧ (∃ bytes, twoSpellings.encode = .ok bytes ∧ decode bytes = .ok twoSpellings.view)
      ∧ twoSpellings.view.name = .ofEntry twoSpellings.entry :=
  ⟨fits_twoSpellings, by decide, by decide, decode_encode twoSpellings fits_twoSpellings⟩

end Blueprint

end Linkage.ClassFile
