import Linkage.Proofs.ClassFile.RoundTrip

/-!
# Pools after any requests

A pool under construction is asked for texts, classes, pairs of name and descriptor, and members,
in any order and any number of times.  However it is asked, it keeps its parts together: the
indexes it has recorded are the numbers from one up to the next index, one for each key, and the
bytes of its constants are read as a pool where every recorded index points to what its key stands
for.  What has been returned once stays true.

* `Pool.Stands`: an index of a pool points to what a key stands for.
* `PoolDraft.Consistent`: the recorded indexes, the next index and the bytes agree.
* `PoolDraft.Extends`: nothing that was recorded has changed.
* `requests_consistent`: all this after any requests, and when they fail.
-/

namespace Linkage.ClassFile

/-! ## Requests -/

/-- Something a pool under construction is asked for. -/
inductive Request where
  /-- A text. -/
  | utf8 (text : String)
  /-- A class. -/
  | classInfo (name : ClassName)
  /-- A name and a descriptor. -/
  | nameAndType (name descriptor : String)
  /-- A field. -/
  | field (f : MemberMention)
  /-- A method of a class or an interface. -/
  | method (m : MethodMention)
  deriving DecidableEq

namespace Request

/-- Asks for it. -/
def ask : Request → Build UInt16
  | .utf8 text => PoolDraft.utf8 text
  | .classInfo name => PoolDraft.classInfo name
  | .nameAndType name descriptor => PoolDraft.nameAndType name descriptor
  | .field f => PoolDraft.fieldRef f.owner f.name f.descriptor
  | .method m => PoolDraft.methodRef m.ofInterface m.owner m.name m.descriptor

/-- Asks for one after another, beginning with an empty pool. -/
def askAll (rs : List Request) : Except Unwritable (List UInt16 × PoolDraft) :=
  (rs.mapM ask).run {}

/-- The texts it is made with. -/
def texts : Request → List String
  | .utf8 text => [text]
  | .classInfo name => [name]
  | .nameAndType name descriptor => [name, descriptor]
  | .field f => [f.owner, f.name, f.descriptor]
  | .method m => [m.owner, m.name, m.descriptor]

/-- The key of what is asked for. -/
def key : Request → Key
  | .utf8 text => .utf8 text
  | .classInfo name => .classInfo name.internal
  | .nameAndType name descriptor => .nameAndType name descriptor
  | .field f => .fieldRef f.owner f.name f.descriptor
  | .method m => .methodRef m.ofInterface m.owner m.name m.descriptor

/-- The keys of what is asked for and of all it refers to. -/
def keys : Request → List Key
  | .utf8 text => [.utf8 text]
  | .classInfo name => Key.ofClass name
  | .nameAndType name descriptor => Key.ofPair name descriptor
  | .field f => Key.ofField f
  | .method m => Key.ofMethod m

theorem key_mem_keys (r : Request) : r.key ∈ r.keys := by
  cases r <;> simp [key, keys, Key.ofClass, Key.ofPair, Key.ofField, Key.ofMethod]

theorem asks (r : Request) : Asks r.ask r.keys r.key.index := by
  cases r with
  | utf8 text => exact asks_utf8 text
  | classInfo name => exact asks_classInfo name
  | nameAndType name descriptor => exact asks_nameAndType name descriptor
  | field f => exact asks_fieldRef f
  | method m => exact asks_methodRef m

/-- No text among the keys is longer than those the request is made with. -/
theorem utf8ByteSize_le_of_key {r : Request} {text : String} {bound : Nat}
    (h : .utf8 text ∈ r.keys) (hr : ∀ given ∈ r.texts, given.utf8ByteSize ≤ bound) :
    text.utf8ByteSize ≤ bound := by
  -- a class name is written in a form of the same length
  have hclass : ∀ name : ClassName, name ∈ r.texts → name.internal.utf8ByteSize ≤ bound := by
    intro name hname
    rw [ClassName.utf8ByteSize_internal]
    exact hr name hname
  cases r with
  | utf8 given =>
    obtain rfl : text = given := by simpa [keys] using h
    exact hr text (by simp [texts])
  | classInfo name =>
    obtain rfl : text = name.internal := by simpa [keys, Key.ofClass] using h
    exact hclass name (by simp [texts])
  | nameAndType name descriptor =>
    obtain rfl | rfl : text = name ∨ text = descriptor := by simpa [keys, Key.ofPair] using h
    · exact hr text (by simp [texts])
    · exact hr text (by simp [texts])
  | field f =>
    obtain rfl | rfl | rfl : text = f.owner.internal ∨ text = f.name ∨ text = f.descriptor := by
      simpa [keys, Key.ofField, Key.ofClass, Key.ofPair] using h
    · exact hclass f.owner (by simp [texts])
    · exact hr f.name (by simp [texts])
    · exact hr f.descriptor (by simp [texts])
  | method m =>
    obtain rfl | rfl | rfl : text = m.owner.internal ∨ text = m.name ∨ text = m.descriptor := by
      simpa [keys, Key.ofMethod, Key.ofClass, Key.ofPair] using h
    · exact hclass m.owner (by simp [texts])
    · exact hr m.name (by simp [texts])
    · exact hr m.descriptor (by simp [texts])

end Request

/-! ## What a consistent pool is -/

/-- The index points to what the key stands for: a constant of its kind that holds indexes of what
it refers to, all of them smaller. -/
inductive Pool.Stands (p : Pool) : Key → Nat → Prop where
  /-- A text. -/
  | utf8 {text : String} {index : Nat} : p.slots[index]? = some (.utf8 text) →
    Stands p (.utf8 text) index
  /-- A class and its internal name. -/
  | classInfo {name : String} {index : Nat} {n : UInt16} :
    p.slots[index]? = some (.classInfo n) → n.toNat < index → Stands p (.utf8 name) n.toNat →
    Stands p (.classInfo name) index
  /-- A name and a descriptor. -/
  | nameAndType {name descriptor : String} {index : Nat} {n d : UInt16} :
    p.slots[index]? = some (.nameAndType n d) → n.toNat < index → d.toNat < index →
    Stands p (.utf8 name) n.toNat → Stands p (.utf8 descriptor) d.toNat →
    Stands p (.nameAndType name descriptor) index
  /-- A field, its class in internal form. -/
  | fieldRef {owner : ClassName} {name descriptor : String} {index : Nat} {o pair : UInt16} :
    p.slots[index]? = some (.fieldRef o pair) → o.toNat < index → pair.toNat < index →
    Stands p (.classInfo owner.internal) o.toNat →
    Stands p (.nameAndType name descriptor) pair.toNat →
    Stands p (.fieldRef owner name descriptor) index
  /-- A method, its class in internal form. -/
  | methodRef {ofInterface : Bool} {owner : ClassName} {name descriptor : String} {index : Nat}
    {o pair : UInt16} :
    p.slots[index]? = some (.methodRef ofInterface o pair) → o.toNat < index →
    pair.toNat < index → Stands p (.classInfo owner.internal) o.toNat →
    Stands p (.nameAndType name descriptor) pair.toNat →
    Stands p (.methodRef ofInterface owner name descriptor) index

namespace PoolDraft

/-- The pool as it is written: its count and its constants. -/
def bytes (d : PoolDraft) : Bytes :=
  wordOf d.next ++ d.constants.flatMap Constant.bytes

/-- After the keys `asked` have been asked for, the parts of the pool agree. -/
structure Consistent (d : PoolDraft) (asked : List Key) : Prop where
  /-- The next index is one more than the number of distinct keys. -/
  next_eq : d.next = asked.toFinset.card + 1
  /-- An index is recorded for every key that was asked for, and for no other. -/
  recorded : ∀ k : Key, (∃ index, d.indexes[k]? = some index) ↔ k ∈ asked
  /-- The indexes recorded are those from one up to the next index. -/
  indexes : ∀ index, (∃ k : Key, d.indexes[k]? = some index) ↔ 1 ≤ index ∧ index < d.next
  /-- No two keys share an index. -/
  distinct : ∀ (k k' : Key) (index : Nat), d.indexes[k]? = some index →
    d.indexes[k']? = some index → k = k'
  /-- The bytes are read as a pool with as many slots, and every index recorded points to what its
  key stands for. -/
  read : ∃ p : Pool, (∀ rest, ClassFile.pool (d.bytes ++ rest) = .ok (p, rest))
    ∧ p.slots.size = d.next ∧ p.slots[0]? = some .unusable
    ∧ ∀ (k : Key) (index : Nat), d.indexes[k]? = some index → p.Stands k index

/-- The pool has all the indexes and constants of an earlier one. -/
structure Extends (d earlier : PoolDraft) : Prop where
  /-- No index has changed. -/
  indexes : ∀ (k : Key) (index : Nat), earlier.indexes[k]? = some index →
    d.indexes[k]? = some index
  /-- No constant has changed. -/
  constants : earlier.constants <+: d.constants

variable {d d' : PoolDraft} {asked : List Key}

/-! ## What is held is consistent -/

namespace Holds

theorem indexes_eq_some_iff (h : d.Holds asked) {k : Key} {index : Nat} :
    d.indexes[k]? = some index ↔ k ∈ asked ∧ index = asked.eraseDups.idxOf k + 1 := by
  rw [h.indexes_eq]
  by_cases hk : k ∈ asked
  · simp [hk, eq_comm]
  · simp [hk]

theorem next_eq_card (h : d.Holds asked) : d.next = asked.toFinset.card + 1 := by
  rw [h.next_eq, length_eraseDups]

theorem exists_index_iff (h : d.Holds asked) (index : Nat) :
    (∃ k : Key, d.indexes[k]? = some index) ↔ 1 ≤ index ∧ index < d.next := by
  simp only [h.indexes_eq_some_iff, h.next_eq]
  constructor
  · rintro ⟨k, hk, rfl⟩
    have hlt := List.idxOf_lt_length_of_mem (List.mem_eraseDups.mpr hk)
    omega
  · rintro ⟨hone, hnext⟩
    -- the key at this position among the distinct ones
    have hlt : index - 1 < asked.eraseDups.length := by omega
    refine ⟨asked.eraseDups[index - 1], List.mem_eraseDups.mp (List.getElem_mem hlt), ?_⟩
    rw [(nodup_eraseDups asked).idxOf_getElem _ hlt]
    omega

theorem eq_of_index (h : d.Holds asked) {k k' : Key} {index : Nat}
    (hk : d.indexes[k]? = some index) (hk' : d.indexes[k']? = some index) : k = k' := by
  obtain ⟨hmem, hindex⟩ := h.indexes_eq_some_iff.mp hk
  obtain ⟨-, hindex'⟩ := h.indexes_eq_some_iff.mp hk'
  exact (List.idxOf_inj (List.mem_eraseDups.mpr hmem)).mp (by omega)

/-- The constant of a key is at its position. -/
theorem slot_eq (h : d.Holds asked) {k : Key} (hk : k ∈ asked) :
    d.pool.slots[asked.eraseDups.idxOf k + 1]? = some (k.constant asked) := by
  rw [← h.toNat_index hk]
  exact h.slot_index hk

/-- What a constant refers to has a smaller index. -/
theorem toNat_index_lt (h : d.Holds asked) {k part : Key} (hk : k ∈ asked)
    (hpart : part ∈ k.parts) : (part.index asked).toNat < asked.eraseDups.idxOf k + 1 := by
  rw [h.toNat_index (h.closed hk hpart)]
  exact Nat.succ_lt_succ (h.ordered k hk part hpart)

theorem stands_utf8 (h : d.Holds asked) {text : String} (hk : .utf8 text ∈ asked) :
    d.pool.Stands (.utf8 text) ((Key.utf8 text).index asked).toNat :=
  .utf8 (h.slot_index hk)

theorem stands_classInfo (h : d.Holds asked) {name : String} (hk : .classInfo name ∈ asked) :
    d.pool.Stands (.classInfo name) ((Key.classInfo name).index asked).toNat := by
  have hname : .utf8 name ∈ (Key.classInfo name).parts := by simp [Key.parts]
  rw [h.toNat_index hk]
  exact .classInfo (h.slot_eq hk) (h.toNat_index_lt hk hname) (h.stands_utf8 (h.closed hk hname))

theorem stands_nameAndType (h : d.Holds asked) {name descriptor : String}
    (hk : .nameAndType name descriptor ∈ asked) :
    d.pool.Stands (.nameAndType name descriptor)
      ((Key.nameAndType name descriptor).index asked).toNat := by
  have hname : .utf8 name ∈ (Key.nameAndType name descriptor).parts := by simp [Key.parts]
  have hdescriptor : .utf8 descriptor ∈ (Key.nameAndType name descriptor).parts := by
    simp [Key.parts]
  rw [h.toNat_index hk]
  exact .nameAndType (h.slot_eq hk) (h.toNat_index_lt hk hname) (h.toNat_index_lt hk hdescriptor)
    (h.stands_utf8 (h.closed hk hname)) (h.stands_utf8 (h.closed hk hdescriptor))

/-- The class of a member, and its name and descriptor, stand at smaller indexes. -/
theorem stands_ofMember (h : d.Holds asked) {k : Key} {owner name descriptor : String}
    (hk : k ∈ asked) (hparts : k.parts = [.classInfo owner, .nameAndType name descriptor]) :
    (((Key.classInfo owner).index asked).toNat < asked.eraseDups.idxOf k + 1
        ∧ d.pool.Stands (.classInfo owner) ((Key.classInfo owner).index asked).toNat)
      ∧ ((Key.nameAndType name descriptor).index asked).toNat < asked.eraseDups.idxOf k + 1
        ∧ d.pool.Stands (.nameAndType name descriptor)
          ((Key.nameAndType name descriptor).index asked).toNat := by
  have howner : .classInfo owner ∈ k.parts := by simp [hparts]
  have hpair : .nameAndType name descriptor ∈ k.parts := by simp [hparts]
  exact ⟨⟨h.toNat_index_lt hk howner, h.stands_classInfo (h.closed hk howner)⟩,
    h.toNat_index_lt hk hpair, h.stands_nameAndType (h.closed hk hpair)⟩

/-- Every key that was asked for stands at its position.  The cases are in the order in which keys
refer to one another: texts, then classes and pairs, then members. -/
theorem stands (h : d.Holds asked) {k : Key} (hk : k ∈ asked) :
    d.pool.Stands k (asked.eraseDups.idxOf k + 1) := by
  cases k with
  | utf8 text => exact .utf8 (h.slot_eq hk)
  | classInfo name => exact h.toNat_index hk ▸ h.stands_classInfo hk
  | nameAndType name descriptor => exact h.toNat_index hk ▸ h.stands_nameAndType hk
  | fieldRef owner name descriptor =>
    obtain ⟨⟨ho, howner⟩, hp, hpair⟩ := h.stands_ofMember hk rfl
    exact .fieldRef (h.slot_eq hk) ho hp howner hpair
  | methodRef ofInterface owner name descriptor =>
    obtain ⟨⟨ho, howner⟩, hp, hpair⟩ := h.stands_ofMember hk rfl
    exact .methodRef (h.slot_eq hk) ho hp howner hpair

theorem size_slots (h : d.Holds asked) : d.pool.slots.size = d.next := by
  have hlength : d.constants.length = asked.eraseDups.length := by
    rw [h.constants_eq, List.length_map]
  rw [PoolDraft.pool, List.size_toArray, List.length_cons, hlength, h.next_eq]

/-- The bytes are read as the pool, whatever follows them. -/
theorem read_bytes (h : d.Holds asked)
    (htexts : ∀ text, .utf8 text ∈ asked → text.utf8ByteSize ≤ 65535) (rest : Bytes) :
    ClassFile.pool (d.bytes ++ rest) = .ok (d.pool, rest) := by
  obtain ⟨l, hbytes, hpool⟩ := h.exists_poolLayout htexts
  exact (pool_reads _ _ _).mpr ⟨l, by rw [hbytes]; rfl, hpool.symm⟩

theorem consistent (h : d.Holds asked)
    (htexts : ∀ text, .utf8 text ∈ asked → text.utf8ByteSize ≤ 65535) : d.Consistent asked where
  next_eq := h.next_eq_card
  recorded k := by simp [h.indexes_eq_some_iff]
  indexes := h.exists_index_iff
  distinct _ _ _ := h.eq_of_index
  read := by
    refine ⟨d.pool, h.read_bytes htexts, h.size_slots, rfl, fun k index hindex => ?_⟩
    obtain ⟨hk, rfl⟩ := h.indexes_eq_some_iff.mp hindex
    exact h.stands hk

/-- Whatever else is asked for, indexes and constants stay. -/
theorem extended {more : List Key} (h : d.Holds asked) (h' : d'.Holds (asked ++ more)) :
    d'.Extends d where
  indexes k index hindex := by
    obtain ⟨hk, rfl⟩ := h.indexes_eq_some_iff.mp hindex
    refine h'.indexes_eq_some_iff.mpr ⟨List.mem_append_left _ hk, ?_⟩
    rw [idxOf_eraseDups_append hk]
  constants := by
    rw [h.constants_eq, h'.constants_eq, List.eraseDups_append, List.map_append,
      h.map_constant_append]
    exact List.prefix_append _ _

end Holds

end PoolDraft

/-! ## After any requests -/

namespace Request

/-- Requests fail if the distinct keys do not fit, and otherwise the pool holds exactly these keys
and each request is answered by the index of its key. -/
theorem askAll_cases (rs : List Request) :
    if (rs.flatMap keys).eraseDups.length ≤ PoolDraft.capacity then
      ∃ d : PoolDraft, d.Holds (rs.flatMap keys)
        ∧ askAll rs = .ok (rs.map fun r => r.key.index (rs.flatMap keys), d)
    else askAll rs = .error .poolFull := by
  have hrun := Asks.mapM asks rs {} [] PoolDraft.holds_empty
  rw [AsksAt, List.nil_append] at hrun
  split
  · next hfits =>
    rw [if_pos hfits] at hrun
    obtain ⟨indexes, d, hindexes, hd, hvalue⟩ := hrun
    have hreturned := hvalue []
    rw [List.append_nil] at hreturned
    refine ⟨d, hd, ?_⟩
    rw [hreturned]
    exact hindexes
  · next hfull => rwa [if_neg hfull] at hrun

variable {rs : List Request} {indexes : List UInt16} {d : PoolDraft}

theorem askAll_eq_ok (h : askAll rs = .ok (indexes, d)) :
    d.Holds (rs.flatMap keys) ∧ indexes = rs.map fun r => r.key.index (rs.flatMap keys) := by
  have hcases := askAll_cases rs
  split at hcases
  · obtain ⟨d', hd', hrun⟩ := hcases
    rw [h] at hrun
    cases hrun
    exact ⟨hd', rfl⟩
  · rw [h] at hcases
    cases hcases

theorem exists_askAll_eq_ok_iff (rs : List Request) :
    (∃ result, askAll rs = .ok result) ↔ (rs.flatMap keys).toFinset.card ≤ 65534 := by
  have hcases := askAll_cases rs
  rw [← length_eraseDups]
  split at hcases
  · next hfits =>
    obtain ⟨d, -, hrun⟩ := hcases
    exact iff_of_true ⟨_, hrun⟩ hfits
  · next hfull =>
    refine iff_of_false ?_ hfull
    rintro ⟨result, hrun⟩
    rw [hcases] at hrun
    cases hrun

/-- The index that answers a request is the one recorded for its key in the end. -/
theorem recorded_of_askAll (h : askAll rs = .ok (indexes, d)) :
    List.Forall₂ (fun r index => d.indexes[r.key]? = some index.toNat) rs indexes := by
  obtain ⟨hd, rfl⟩ := askAll_eq_ok h
  rw [List.forall₂_map_right_iff, List.forall₂_same]
  intro r hr
  have hk : r.key ∈ rs.flatMap keys := List.mem_flatMap.mpr ⟨r, hr, r.key_mem_keys⟩
  rw [hd.indexes_eq_some_iff, hd.toNat_index hk]
  exact ⟨hk, rfl⟩

/-- The first of several requests are answered as if the others were never made, and these change
nothing of the pool. -/
theorem askAll_of_append {earlier later : List Request}
    (h : askAll (earlier ++ later) = .ok (indexes, d)) :
    ∃ d', askAll earlier = .ok (indexes.take earlier.length, d') ∧ d.Extends d' := by
  obtain ⟨hd, rfl⟩ := askAll_eq_ok h
  rw [List.flatMap_append] at hd
  have hfits : (earlier.flatMap keys).eraseDups.length ≤ PoolDraft.capacity :=
    Nat.le_trans (length_eraseDups_le_append _ _) hd.fits
  have hcases := askAll_cases earlier
  rw [if_pos hfits] at hcases
  obtain ⟨d', hd', hrun⟩ := hcases
  refine ⟨d', ?_, hd'.extended hd⟩
  have hindexes : earlier.map (fun r => r.key.index ((earlier ++ later).flatMap keys))
      = earlier.map (fun r => r.key.index (earlier.flatMap keys)) := by
    refine List.map_congr_left fun r hr => ?_
    rw [List.flatMap_append]
    exact Key.index_append (List.mem_flatMap.mpr ⟨r, hr, r.key_mem_keys⟩) _
  rw [hrun, List.map_append, List.take_left' (by rw [List.length_map]), hindexes]

end Request

open Request in
/-- However an empty pool is asked for texts of at most 65535 bytes and for constants made of such
texts, its parts stay consistent; each request is answered by the index recorded for its key, and
later requests change neither answers nor indexes nor constants.  It fails only when more than
65534 distinct keys are asked for. -/
theorem requests_consistent (rs : List Request)
    (htexts : ∀ r ∈ rs, ∀ text ∈ r.texts, text.utf8ByteSize ≤ 65535) :
    ((∃ result, askAll rs = .ok result) ↔ (rs.flatMap keys).toFinset.card ≤ 65534)
      ∧ ∀ indexes d, askAll rs = .ok (indexes, d) →
        d.Consistent (rs.flatMap keys)
          ∧ List.Forall₂ (fun r index => d.indexes[r.key]? = some index.toNat) rs indexes
          ∧ ∀ earlier later, rs = earlier ++ later →
            ∃ d', askAll earlier = .ok (indexes.take earlier.length, d') ∧ d.Extends d' := by
  refine ⟨exists_askAll_eq_ok_iff rs, fun indexes d h => ⟨?_, recorded_of_askAll h, ?_⟩⟩
  · refine (askAll_eq_ok h).1.consistent fun text htext => ?_
    obtain ⟨r, hr, hkey⟩ := List.mem_flatMap.mp htext
    exact utf8ByteSize_le_of_key hkey (htexts r hr)
  · rintro earlier later rfl
    exact askAll_of_append h

/-- A class in two spellings, a method of each, and constants that are there already. -/
def mixedRequests : List Request :=
  [.method ⟨"a.I", "m", "()V", true⟩, .classInfo "a/I", .method ⟨"a/I", "m", "()V", true⟩,
    .utf8 "m", .field ⟨"a.I", "x", "()V"⟩]

/-- The class has one constant for both spellings, the method one for each. -/
theorem requests_consistent_mixed :
    (∀ r ∈ mixedRequests, ∀ text ∈ r.texts, text.utf8ByteSize ≤ 65535)
      ∧ ∃ d : PoolDraft, Request.askAll mixedRequests = .ok ([6, 2, 7, 3, 10], d)
        ∧ d.Consistent (mixedRequests.flatMap Request.keys) := by
  have htexts : ∀ r ∈ mixedRequests, ∀ text ∈ r.texts, text.utf8ByteSize ≤ 65535 := by decide
  obtain ⟨hsome, hall⟩ := requests_consistent mixedRequests htexts
  obtain ⟨⟨indexes, d⟩, hrun⟩ := hsome.mpr (by decide)
  obtain rfl : indexes = [6, 2, 7, 3, 10] := (Request.askAll_eq_ok hrun).2.trans (by decide)
  exact ⟨htexts, d, hrun, (hall _ _ hrun).1⟩

end Linkage.ClassFile
