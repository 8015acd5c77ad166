import Linkage.ClassFile.Encode
import Linkage.Proofs.Repetitions

/-!
# What a pool under construction holds

Every operation on a pool under construction asks for keys, one after another, and a key that has
been asked for before is not added again.  So after any operations the pool is a function of the
keys asked for: its constants are those of the distinct keys in the order they were first asked
for, and an index is a position in this order.

* `Key.constant`, `Key.index`: the constant of a key and its index, given all keys asked for.
* `PoolDraft.Holds`: a pool under construction holds exactly the keys asked for.
* `Asks`: an operation asks for certain keys and returns certain indexes; it fails only when the
  distinct keys do not fit.  `Asks.bind` and `Asks.mapM` put operations together.
-/

namespace Linkage.ClassFile

/-! ## Keys and their constants -/

namespace Key

/-- The index of a key when the keys `asked` have been asked for in this order. -/
def index (asked : List Key) (k : Key) : UInt16 :=
  UInt16.ofNat (asked.eraseDups.idxOf k + 1)

/-- The keys of the constants a constant refers to. -/
def parts : Key → List Key
  | .utf8 _ => []
  | .classInfo name => [.utf8 name]
  | .nameAndType name descriptor => [.utf8 name, .utf8 descriptor]
  | .fieldRef owner name descriptor => [.classInfo owner.internal, .nameAndType name descriptor]
  | .methodRef _ owner name descriptor => [.classInfo owner.internal, .nameAndType name descriptor]

/-- The constant of a key when the keys `asked` have been asked for in this order. -/
def constant (asked : List Key) : Key → Constant
  | .utf8 text => .utf8 text
  | .classInfo name => .classInfo (index asked (.utf8 name))
  | .nameAndType name descriptor =>
    .nameAndType (index asked (.utf8 name)) (index asked (.utf8 descriptor))
  | .fieldRef owner name descriptor =>
    .fieldRef (index asked (.classInfo owner.internal)) (index asked (.nameAndType name descriptor))
  | .methodRef ofInterface owner name descriptor =>
    .methodRef ofInterface (index asked (.classInfo owner.internal))
      (index asked (.nameAndType name descriptor))

theorem index_append {asked : List Key} {k : Key} (h : k ∈ asked) (more : List Key) :
    index (asked ++ more) k = index asked k := by
  rw [index, index, idxOf_eraseDups_append h]

/-- A constant stays what it is when more keys are asked for. -/
theorem constant_append {asked : List Key} {k : Key} (h : ∀ part ∈ k.parts, part ∈ asked)
    (more : List Key) : constant (asked ++ more) k = constant asked k := by
  cases k with
  | utf8 text => rfl
  | classInfo name =>
    simp only [parts, List.mem_singleton, forall_eq] at h
    simp only [constant, index_append h]
  | nameAndType name descriptor =>
    simp only [parts, List.mem_cons, List.not_mem_nil, or_false, forall_eq_or_imp, forall_eq] at h
    simp only [constant, index_append h.1, index_append h.2]
  | fieldRef owner name descriptor =>
    simp only [parts, List.mem_cons, List.not_mem_nil, or_false, forall_eq_or_imp, forall_eq] at h
    simp only [constant, index_append h.1, index_append h.2]
  | methodRef ofInterface owner name descriptor =>
    simp only [parts, List.mem_cons, List.not_mem_nil, or_false, forall_eq_or_imp, forall_eq] at h
    simp only [constant, index_append h.1, index_append h.2]

end Key

/-! ## Pools under construction -/

namespace PoolDraft

/-- The pool holds the keys `asked`, each once, in the order they were first asked for.  Whatever a
constant refers to comes before it. -/
structure Holds (d : PoolDraft) (asked : List Key) : Prop where
  /-- The distinct keys fit. -/
  fits : asked.eraseDups.length ≤ capacity
  /-- The next index is one more than their number. -/
  next_eq : d.next = asked.eraseDups.length + 1
  /-- The index of a key is its position. -/
  indexes_eq : ∀ k, d.indexes[k]? =
    if k ∈ asked then some (asked.eraseDups.idxOf k + 1) else none
  /-- The constants are those of the keys. -/
  constants_eq : d.constants = asked.eraseDups.map (Key.constant asked)
  /-- What a constant refers to has a smaller index. -/
  ordered : ∀ k ∈ asked, ∀ part ∈ k.parts,
    asked.eraseDups.idxOf part < asked.eraseDups.idxOf k

variable {d : PoolDraft} {asked : List Key}

theorem holds_empty : Holds {} [] where
  fits := Nat.zero_le _
  next_eq := rfl
  indexes_eq := by simp
  constants_eq := rfl
  ordered := by simp

/-- Whatever a constant of the pool refers to is in the pool. -/
theorem Holds.closed (h : d.Holds asked) {k part : Key} (hk : k ∈ asked) (hpart : part ∈ k.parts) :
    part ∈ asked := by
  have hlt : asked.eraseDups.idxOf k < asked.eraseDups.length :=
    List.idxOf_lt_length_of_mem (List.mem_eraseDups.mpr hk)
  have hpos := h.ordered k hk part hpart
  exact List.mem_eraseDups.mp (List.idxOf_lt_length_iff.mp (by omega))

/-- The constants of the pool stay when more keys are asked for. -/
theorem Holds.map_constant_append (h : d.Holds asked) (more : List Key) :
    asked.eraseDups.map (Key.constant (asked ++ more))
      = asked.eraseDups.map (Key.constant asked) := by
  refine List.map_congr_left fun x hx => ?_
  exact Key.constant_append (fun part => h.closed (List.mem_eraseDups.mp hx)) more

/-- Asking for a key that is there changes nothing. -/
theorem Holds.again (h : d.Holds asked) {k : Key} (hk : k ∈ asked) : d.Holds (asked ++ [k]) := by
  have hkeys := eraseDups_append_of_mem hk
  have hmem : ∀ x, x ∈ asked ++ [k] ↔ x ∈ asked := by
    intro x
    rw [List.mem_append, List.mem_singleton]
    exact ⟨fun hx => hx.elim id (fun hx => hx ▸ hk), .inl⟩
  constructor
  · rw [hkeys]
    exact h.fits
  · rw [hkeys]
    exact h.next_eq
  · intro x
    rw [hkeys, h.indexes_eq]
    simp only [hmem]
  · rw [hkeys, h.map_constant_append]
    exact h.constants_eq
  · intro x hx
    rw [hkeys]
    exact h.ordered x ((hmem x).mp hx)

/-- A new key goes last, if there is room and what its constant refers to is there. -/
theorem Holds.insert (h : d.Holds asked) {k : Key} (hk : k ∉ asked)
    (hparts : ∀ part ∈ k.parts, part ∈ asked) (hroom : d.next ≤ capacity) :
    Holds ⟨k.constant asked :: d.newestFirst, d.next + 1, d.indexes.insert k d.next⟩
      (asked ++ [k]) := by
  have hkeys := eraseDups_append_of_notMem hk
  have hlast := idxOf_eraseDups_append_self hk
  have hnext := h.next_eq
  constructor
  · rw [hkeys, List.length_append, List.length_singleton]
    omega
  · rw [hkeys, List.length_append, List.length_singleton]
    show d.next + 1 = _
    omega
  · intro x
    show (d.indexes.insert k d.next)[x]? = _
    rw [Std.HashMap.getElem?_insert]
    by_cases hx : x = k
    · subst hx
      simp [hlast, hnext]
    · have hne : (k == x) = false := by simpa using fun hkx => hx hkx.symm
      rw [hne, if_neg (by simp), h.indexes_eq]
      by_cases hmem : x ∈ asked
      · simp [hmem, idxOf_eraseDups_append hmem]
      · simp [hmem, hx]
  · show (k.constant asked :: d.newestFirst).reverse = _
    rw [List.reverse_cons, ← constants, h.constants_eq, hkeys, List.map_append,
      h.map_constant_append, List.map_singleton,
      Key.constant_append hparts]
  · intro x hx part hpart
    rcases List.mem_append.mp hx with hx | hx
    · rw [idxOf_eraseDups_append hx, idxOf_eraseDups_append (h.closed hx hpart)]
      exact h.ordered x hx part hpart
    · obtain rfl := List.mem_singleton.mp hx
      rw [hlast, idxOf_eraseDups_append (hparts part hpart)]
      exact List.idxOf_lt_length_of_mem (List.mem_eraseDups.mpr (hparts part hpart))

/-- Asking for a key fails only when the distinct keys do not fit any more. -/
theorem intern_of_holds (h : d.Holds asked) {k : Key} (hparts : ∀ part ∈ k.parts, part ∈ asked) :
    if (asked ++ [k]).eraseDups.length ≤ capacity then
      ∃ d', intern k (k.constant asked) d = .ok (k.index (asked ++ [k]), d')
        ∧ d'.Holds (asked ++ [k])
    else intern k (k.constant asked) d = .error .poolFull := by
  have hindex := h.indexes_eq k
  by_cases hk : k ∈ asked
  · rw [if_pos hk] at hindex
    rw [eraseDups_append_of_mem hk, if_pos h.fits, Key.index_append hk]
    refine ⟨d, ?_, h.again hk⟩
    rw [intern, hindex]
    rfl
  · rw [if_neg hk] at hindex
    have hnext := h.next_eq
    rw [eraseDups_append_of_notMem hk, List.length_append, List.length_singleton]
    split
    · next hroom =>
      refine ⟨_, ?_, h.insert hk hparts (by omega)⟩
      rw [intern, hindex]
      simp only
      rw [if_neg (by omega), Key.index, idxOf_eraseDups_append_self hk, hnext]
    · next hfull =>
      rw [intern, hindex]
      simp only
      rw [if_pos (by omega)]

end PoolDraft

/-! ## Operations -/

open PoolDraft

/-- From the pool `d`, which holds the keys `asked`, the operation asks for the keys `ks` in this
order and returns `value`, a function of all keys that are ever asked for.  It fails only when the
distinct keys do not fit. -/
def AsksAt {α : Type} (d : PoolDraft) (asked : List Key) (x : Build α) (ks : List Key)
    (value : List Key → α) : Prop :=
  if (asked ++ ks).eraseDups.length ≤ capacity then
    ∃ a d', x d = .ok (a, d') ∧ Holds d' (asked ++ ks) ∧ ∀ more, value (asked ++ ks ++ more) = a
  else x d = .error .poolFull

/-- The operation asks for the keys `ks` whatever the pool holds. -/
def Asks {α : Type} (x : Build α) (ks : List Key) (value : List Key → α) : Prop :=
  ∀ d asked, Holds d asked → AsksAt d asked x ks value

variable {α β : Type}

theorem asks_pure (a : α) : Asks (pure a) [] (fun _ => a) := by
  intro d asked h
  rw [AsksAt, List.append_nil, if_pos h.fits]
  exact ⟨a, d, rfl, h, fun _ => rfl⟩

/-- Two operations in a row, where the second may rely on what the first has asked for. -/
theorem Asks.bindAt {x : Build α} {f : α → Build β} {ks ks' : List Key} {value : List Key → α}
    {value' : List Key → β} (hx : Asks x ks value)
    (hf : ∀ d asked a, Holds d (asked ++ ks) → (∀ more, value (asked ++ ks ++ more) = a) →
      AsksAt d (asked ++ ks) (f a) ks' value') :
    Asks (x >>= f) (ks ++ ks') value' := by
  intro d asked h
  have hstep := hx d asked h
  have hle := length_eraseDups_le_append (asked ++ ks) ks'
  rw [AsksAt] at hstep
  rw [AsksAt, ← List.append_assoc]
  by_cases hfirst : (asked ++ ks).eraseDups.length ≤ capacity
  · rw [if_pos hfirst] at hstep
    obtain ⟨a, d', hrun, hd', hvalue⟩ := hstep
    have hbind : (x >>= f) d = f a d' := by
      show x d >>= _ = _
      rw [hrun]
      rfl
    rw [hbind]
    exact hf d' asked a hd' hvalue
  · rw [if_neg hfirst] at hstep
    rw [if_neg (by omega)]
    show x d >>= _ = _
    rw [hstep]
    rfl

theorem Asks.bind {x : Build α} {f : α → Build β} {ks ks' : List Key} {value : List Key → α}
    {value' : α → List Key → β} (hx : Asks x ks value) (hf : ∀ a, Asks (f a) ks' (value' a)) :
    Asks (x >>= f) (ks ++ ks') (fun asked => value' (value asked) asked) := by
  refine hx.bindAt fun d asked a hd hvalue => ?_
  have hrest := hf a d (asked ++ ks) hd
  rw [AsksAt] at hrest ⊢
  split
  · next hfits =>
    rw [if_pos hfits] at hrest
    obtain ⟨b, d', hrun, hd', hvalue'⟩ := hrest
    refine ⟨b, d', hrun, hd', fun more => ?_⟩
    have hfixed := hvalue (ks' ++ more)
    rw [← List.append_assoc] at hfixed
    show value' (value _) _ = b
    rw [hfixed, hvalue']
  · next hfull => rwa [if_neg hfull] at hrest

theorem Asks.map {x : Build α} {ks : List Key} {value : List Key → α} (hx : Asks x ks value)
    (g : α → β) : Asks (g <$> x) ks (fun asked => g (value asked)) := by
  have h := hx.bind (fun a => asks_pure (g a))
  rw [List.append_nil] at h
  rwa [map_eq_pure_bind]

/-- Asking for what a constant refers to and then for the constant. -/
theorem Asks.thenIntern {x : Build α} {ks : List Key} {value : List Key → α}
    (hx : Asks x ks value) (k : Key) (make : α → Constant) (hparts : ∀ part ∈ k.parts, part ∈ ks)
    (hmake : ∀ asked, make (value asked) = k.constant asked) :
    Asks (x >>= fun a => intern k (make a)) (ks ++ [k]) k.index := by
  refine hx.bindAt fun d asked a hd hvalue => ?_
  have hconstant : make a = k.constant (asked ++ ks) := by
    have hfixed := hvalue []
    rw [List.append_nil] at hfixed
    rw [← hfixed, hmake]
  have hrest := intern_of_holds hd (k := k)
    (fun part hpart => List.mem_append_right _ (hparts part hpart))
  rw [AsksAt, hconstant]
  split
  · next hfits =>
    rw [if_pos hfits] at hrest
    obtain ⟨d', hrun, hd'⟩ := hrest
    exact ⟨_, d', hrun, hd', fun more => Key.index_append (by simp) more⟩
  · next hfull => rwa [if_neg hfull] at hrest

theorem Asks.mapM {f : α → Build β} {keys : α → List Key} {value : α → List Key → β}
    (hf : ∀ a, Asks (f a) (keys a) (value a)) (xs : List α) :
    Asks (xs.mapM f) (xs.flatMap keys) (fun asked => xs.map fun a => value a asked) := by
  induction xs with
  | nil => exact asks_pure []
  | cons x xs ih =>
    rw [List.mapM_cons, List.flatMap_cons]
    exact (hf x).bind fun b => ih.map (b :: ·)

theorem Asks.forM {f : α → Build β} {keys : α → List Key} {value : α → List Key → β}
    (hf : ∀ a, Asks (f a) (keys a) (value a)) (xs : List α) :
    Asks (xs.forM fun a => discard (f a)) (xs.flatMap keys) (fun _ => PUnit.unit) := by
  induction xs with
  | nil => exact asks_pure PUnit.unit
  | cons x xs ih =>
    rw [List.flatMap_cons]
    exact ((hf x).map fun _ => PUnit.unit).bind fun _ => ih

theorem asks_utf8 (text : String) : Asks (utf8 text) [.utf8 text] (Key.utf8 text).index :=
  (asks_pure ()).thenIntern (.utf8 text) (fun _ => .utf8 text) (by simp [Key.parts]) (fun _ => rfl)

/-! ## The keys of a blueprint -/

namespace Key

/-- The keys of a class. -/
def ofClass (name : ClassName) : List Key :=
  [.utf8 name.internal, .classInfo name.internal]

/-- The keys of a class, if there is one. -/
def ofOptionalClass : Option ClassName → List Key
  | none => []
  | some name => ofClass name

/-- The keys of a name and a descriptor. -/
def ofPair (name descriptor : String) : List Key :=
  [.utf8 name, .utf8 descriptor, .nameAndType name descriptor]

/-- The keys of a mentioned field. -/
def ofField (f : MemberMention) : List Key :=
  ofClass f.owner ++ ofPair f.name f.descriptor ++ [.fieldRef f.owner f.name f.descriptor]

/-- The keys of a mentioned method. -/
def ofMethod (m : MethodMention) : List Key :=
  ofClass m.owner ++ ofPair m.name m.descriptor
    ++ [.methodRef m.ofInterface m.owner m.name m.descriptor]

/-- The keys of a declared member. -/
def ofMember (m : MemberPlan) : List Key :=
  [.utf8 m.name, .utf8 m.descriptor]

/-- The keys of a row of the nested class table. -/
def ofNestedRow (row : ClassName × Option ClassName) : List Key :=
  ofClass row.1 ++ (ofOptionalClass row.2 ++ [.utf8 row.1.simple])

/-- The keys of the nested class table. -/
def ofNestedTable (rows : List (ClassName × Option ClassName)) : List Key :=
  if rows.isEmpty then [] else .utf8 nestedTableName :: rows.flatMap ofNestedRow

end Key

namespace Blueprint

/-- The keys of a blueprint in the order its parts ask for them, with repetitions. -/
def keys (b : Blueprint) : List Key :=
  Key.ofClass b.name ++ (Key.ofOptionalClass b.superclass
    ++ (b.interfaces.flatMap Key.ofClass ++ (b.fields.flatMap Key.ofMember
    ++ (b.methods.flatMap Key.ofMember ++ (Key.ofNestedTable b.nested
    ++ (b.classRefs.flatMap Key.ofClass ++ (b.methodRefs.flatMap Key.ofMethod
    ++ b.fieldRefs.flatMap Key.ofField)))))))

end Blueprint

/-- The index of a class, or zero, given all keys. -/
def optionalIndex (asked : List Key) : Option ClassName → UInt16
  | none => 0
  | some name => (Key.classInfo name.internal).index asked

/-- The indexes of a declared member, given all keys. -/
def MemberPlan.row (asked : List Key) (m : MemberPlan) : MemberRow :=
  ⟨m.access, (Key.utf8 m.name).index asked, (Key.utf8 m.descriptor).index asked⟩

/-- The indexes of a row of the nested class table, given all keys. -/
def nestedRowIn (asked : List Key) (row : ClassName × Option ClassName) : NestedRow :=
  ⟨(Key.classInfo row.1.internal).index asked, optionalIndex asked row.2,
    (Key.utf8 row.1.simple).index asked⟩

/-- The indexes of the nested class table, given all keys. -/
def nestedTableIn (asked : List Key) (rows : List (ClassName × Option ClassName)) :
    Option (UInt16 × List NestedRow) :=
  if rows.isEmpty then none
  else some ((Key.utf8 nestedTableName).index asked, rows.map (nestedRowIn asked))

/-- The tables of a blueprint by indexes, given all keys. -/
def Blueprint.skeletonIn (b : Blueprint) (asked : List Key) : Skeleton where
  this := (Key.classInfo b.name.internal).index asked
  super := optionalIndex asked b.superclass
  interfaces := b.interfaces.map fun name => (Key.classInfo name.internal).index asked
  fields := b.fields.map (MemberPlan.row asked)
  methods := b.methods.map (MemberPlan.row asked)
  nested := nestedTableIn asked b.nested

theorem asks_classInfo (name : ClassName) :
    Asks (classInfo name) (Key.ofClass name) (Key.classInfo name.internal).index :=
  (asks_utf8 name.internal).thenIntern (.classInfo name.internal) .classInfo
    (by simp [Key.parts]) (fun _ => rfl)

theorem asks_optionalClassInfo (name : Option ClassName) :
    Asks (optionalClassInfo name) (Key.ofOptionalClass name) (optionalIndex · name) := by
  cases name with
  | none => exact asks_pure 0
  | some name => exact asks_classInfo name

/-- Two indexes asked for in a row. -/
theorem Asks.pair {x y : Build UInt16} {ks ks' : List Key} {value value' : List Key → UInt16}
    (hx : Asks x ks value) (hy : Asks y ks' value') :
    Asks (do let a ← x; let b ← y; return (a, b)) (ks ++ ks')
      (fun asked => (value asked, value' asked)) := by
  have h := hx.bind fun a => hy.map (Prod.mk a)
  simpa only [map_eq_pure_bind] using h

theorem asks_nameAndType (name descriptor : String) :
    Asks (nameAndType name descriptor) (Key.ofPair name descriptor)
      (Key.nameAndType name descriptor).index := by
  have h := ((asks_utf8 name).pair (asks_utf8 descriptor)).thenIntern
    (.nameAndType name descriptor) (fun p => .nameAndType p.1 p.2) (by simp [Key.parts])
    (fun _ => rfl)
  simp only [bind_assoc, pure_bind] at h
  exact h

theorem asks_fieldRef (f : MemberMention) :
    Asks (fieldRef f.owner f.name f.descriptor) (Key.ofField f)
      (Key.fieldRef f.owner f.name f.descriptor).index := by
  have h := ((asks_classInfo f.owner).pair (asks_nameAndType f.name f.descriptor)).thenIntern
    (.fieldRef f.owner f.name f.descriptor) (fun p => .fieldRef p.1 p.2)
    (by simp [Key.parts, Key.ofClass, Key.ofPair]) (fun _ => rfl)
  simp only [bind_assoc, pure_bind] at h
  exact h

theorem asks_methodRef (m : MethodMention) :
    Asks (methodRef m.ofInterface m.owner m.name m.descriptor) (Key.ofMethod m)
      (Key.methodRef m.ofInterface m.owner m.name m.descriptor).index := by
  have h := ((asks_classInfo m.owner).pair (asks_nameAndType m.name m.descriptor)).thenIntern
    (.methodRef m.ofInterface m.owner m.name m.descriptor)
    (fun p => .methodRef m.ofInterface p.1 p.2)
    (by simp [Key.parts, Key.ofClass, Key.ofPair]) (fun _ => rfl)
  simp only [bind_assoc, pure_bind] at h
  exact h

theorem asks_memberRow (m : MemberPlan) :
    Asks (memberRow m) (Key.ofMember m) (MemberPlan.row · m) := by
  have h := ((asks_utf8 m.name).pair (asks_utf8 m.descriptor)).map
    fun p => MemberRow.mk m.access p.1 p.2
  simp only [map_eq_pure_bind, bind_assoc, pure_bind] at h
  exact h

theorem asks_nestedRowOf (row : ClassName × Option ClassName) :
    Asks (nestedRowOf row) (Key.ofNestedRow row) (nestedRowIn · row) := by
  have h := (asks_classInfo row.1).bind fun inner =>
    ((asks_optionalClassInfo row.2).pair (asks_utf8 row.1.simple)).map
      fun p => NestedRow.mk inner p.1 p.2
  simp only [map_eq_pure_bind, bind_assoc, pure_bind] at h
  exact h

theorem asks_nestedTable (rows : List (ClassName × Option ClassName)) :
    Asks (nestedTable rows) (Key.ofNestedTable rows) (nestedTableIn · rows) := by
  cases rows with
  | nil => exact asks_pure none
  | cons row rows =>
    have h := (asks_utf8 nestedTableName).bind fun name =>
      (Asks.mapM asks_nestedRowOf (row :: rows)).map fun rows => some (name, rows)
    simp only [map_eq_pure_bind] at h
    exact h

/-- Giving every constant its index asks for exactly the keys of the blueprint. -/
theorem asks_skeleton (b : Blueprint) : Asks (skeleton b) b.keys b.skeletonIn := by
  have h := (asks_classInfo b.name).bind fun this =>
    (asks_optionalClassInfo b.superclass).bind fun super =>
    (Asks.mapM asks_classInfo b.interfaces).bind fun interfaces =>
    (Asks.mapM asks_memberRow b.fields).bind fun fields =>
    (Asks.mapM asks_memberRow b.methods).bind fun methods =>
    (asks_nestedTable b.nested).bind fun nested =>
    (Asks.forM asks_classInfo b.classRefs).bind fun _ =>
    (Asks.forM asks_methodRef b.methodRefs).bind fun _ =>
    (Asks.forM asks_fieldRef b.fieldRefs).map fun _ =>
      Skeleton.mk this super interfaces fields methods nested
  simp only [map_eq_pure_bind] at h
  exact h

/-- Writing fails if the distinct keys of the blueprint do not fit.  Otherwise the pool holds them,
and only the length of the nested class table can be too long. -/
theorem Blueprint.encode_cases (b : Blueprint) :
    if b.keys.eraseDups.length ≤ capacity then
      ∃ d : PoolDraft, d.Holds b.keys ∧ b.encode =
        if tableFits (b.skeletonIn b.keys).nested then
          .ok ((b.skeletonIn b.keys).bytes b.access d)
        else .error .tableTooLong
    else b.encode = .error .poolFull := by
  have hrun := asks_skeleton b {} [] holds_empty
  rw [AsksAt, List.nil_append] at hrun
  split
  · next hfits =>
    rw [if_pos hfits] at hrun
    obtain ⟨s, d, hskeleton, hd, hvalue⟩ := hrun
    have hs := hvalue []
    rw [List.append_nil] at hs
    refine ⟨d, hd, ?_⟩
    rw [encode, StateT.run, hskeleton, hs]
    rfl
  · next hfull =>
    rw [if_neg hfull] at hrun
    rw [encode, StateT.run, hrun]
    rfl

end Linkage.ClassFile
