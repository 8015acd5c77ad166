import Linkage.Proofs.ClassFile.RoundTrip

/-!
# Longer and shorter inputs

A class file is read from front to back, and whatever is decided is decided by the bytes read so
far.  So bytes that are added behind change nothing, unless the reader had come to the end: a class
stays the class and a fault the fault.  The nested class table is read from bytes of its own, whose
end is not the end of the file.

Read backwards, this says what becomes of a file that is cut off.  Whatever a part of it is read
as, short of coming to the end, the whole is read as too; but the whole of a written class is
consumed to its last byte, so no smaller part of it can be a class.

* `Scan.Stable`: a step that bytes added behind do not disturb.
* `stable_classFile`: reading a class file is one.
* `ClassLayout.Denotes.decode_of_prefix`: a class file that is cut off ends too early.
-/

namespace Linkage.ClassFile

namespace Scan

variable {α β : Type}

/-- What the step makes of some bytes it makes of them with more behind, and leaves these as they
are.  Only if it comes to the end of the bytes can more of them matter. -/
def Stable (step : Scan α) : Prop :=
  ∀ s more, step s ≠ .error .unexpectedEnd →
    step (s ++ more) = (step s).map fun read => (read.1, read.2 ++ more)

/-! ## Steps that look at bytes -/

theorem stable_byte : Stable byte := by
  intro s more h
  match s with
  | [] => exact absurd rfl h
  | _ :: _ => rfl

theorem stable_word : Stable word := by
  intro s more h
  match s with
  | [] => exact absurd rfl h
  | [_] => exact absurd rfl h
  | _ :: _ :: _ => rfl

theorem stable_doubleWord : Stable doubleWord := by
  intro s more h
  match s with
  | [] => exact absurd rfl h
  | [_] => exact absurd rfl h
  | [_, _] => exact absurd rfl h
  | [_, _, _] => exact absurd rfl h
  | _ :: _ :: _ :: _ :: _ => rfl

theorem stable_slice (n : Nat) : Stable (slice n) := by
  intro s more h
  cases hread : slice n s with
  | error fault =>
    refine absurd ?_ h
    unfold slice at hread ⊢
    cases hsplit : Bytes.splitExactly n s with
    | none => rfl
    | some parts => simp [hsplit] at hread
  | ok read =>
    obtain ⟨hs, hlength⟩ := slice_eq_ok_iff.mp hread
    exact slice_eq_ok_iff.mpr ⟨by rw [hs, List.append_assoc], hlength⟩

/-! ## Steps in sequence -/

theorem stable_pure (a : α) : Stable (pure a) :=
  fun _ _ _ => rfl

theorem stable_throw (fault : Fault) : Stable (throw fault : Scan α) :=
  fun _ _ _ => rfl

/-- A check that consumes nothing does not see the bytes. -/
theorem stable_lift (x : Except Fault α) : Stable (liftM x : Scan α) := by
  intro s more _
  cases x with
  | error fault => rfl
  | ok a => rfl

theorem Stable.bind {x : Scan α} {f : α → Scan β} (hx : Stable x) (hf : ∀ a, Stable (f a)) :
    Stable (x >>= f) := by
  intro s more h
  have hbind : ∀ s, (x >>= f) s = x s >>= fun read => f read.1 read.2 := fun _ => rfl
  rw [hbind] at h ⊢
  rw [hbind]
  cases hread : x s with
  | error fault =>
    rw [hread] at h
    have hfault : fault ≠ .unexpectedEnd := by
      rintro rfl
      exact h rfl
    rw [hx s more (by simpa [hread] using hfault), hread]
    rfl
  | ok read =>
    rw [hread] at h
    rw [hx s more (by simp [hread]), hread]
    exact hf read.1 read.2 more h

theorem stable_skip (n : Nat) : Stable (skip n) := by
  have hslice : skip n = (do let _ ← slice n; return ()) := by
    funext s
    show skip n s = slice n s >>= fun read => .ok ((), read.2)
    unfold skip slice
    rw [Bytes.dropExactly_eq_map]
    cases Bytes.splitExactly n s <;> rfl
  rw [hslice]
  exact (stable_slice n).bind fun _ => stable_pure ()

theorem Stable.times {step : Scan α} (h : Stable step) (n : Nat) : Stable (times step n) := by
  induction n with
  | zero => exact stable_pure []
  | succ n ih => exact h.bind fun a => ih.bind fun as => stable_pure (a :: as)

theorem Stable.counted {step : Scan α} (h : Stable step) : Stable (counted step) :=
  stable_word.bind fun n => h.times n.toNat

end Scan

open Scan

/-! ## The parts of a class file -/

theorem stable_constant (tag : UInt8) : Stable (constant tag) := by
  have hskip : ∀ n, Stable (do skip n; return Constant.other) :=
    fun n => (stable_skip n).bind fun _ => stable_pure _
  have hwords : ∀ f : UInt16 → UInt16 → Constant, Stable (do return f (← word) (← word)) :=
    fun f => stable_word.bind fun _ => stable_word.bind fun _ => stable_pure _
  unfold constant
  split
  · exact stable_word.bind fun length => (stable_slice length.toNat).bind fun _ => stable_pure _
  · exact hskip 4
  · exact hskip 4
  · exact stable_word.bind fun _ => stable_pure _
  · exact hskip 2
  · exact hskip 2
  · exact hskip 2
  · exact hskip 2
  · exact hwords _
  · exact hwords _
  · exact hwords _
  · exact hwords _
  · exact hskip 3
  · exact hskip 4
  · exact hskip 4
  · exact stable_throw _

/-- The induction is on the number of slots, and a wide constant leaves two fewer. -/
theorem stable_constants (n index : Nat) : Stable (constants n index) := by
  induction n using Nat.strongRecOn generalizing index with
  | _ n ih =>
    cases n with
    | zero => exact stable_pure []
    | succ n =>
      rw [constants_succ]
      refine stable_byte.bind fun tag => ?_
      by_cases hwide : isWide tag
      · rw [if_pos hwide]
        cases n with
        | zero => exact stable_throw _
        | succ m =>
          have hrest : Stable (constants m (index + 2)) := ih m (by omega) (index + 2)
          exact (stable_skip 8).bind fun _ => hrest.bind fun _ => stable_pure _
      · rw [if_neg hwide]
        have hrest : Stable (constants n (index + 1)) := ih n (by omega) (index + 1)
        exact (stable_constant tag).bind fun _ => hrest.bind fun _ => stable_pure _

theorem stable_pool : Stable pool :=
  stable_word.bind fun count =>
    (stable_constants (count.toNat - 1) 1).bind fun _ => stable_pure _

theorem stable_classAt (p : Pool) : Stable (classAt p) :=
  stable_word.bind fun index => stable_lift (p.className index)

theorem stable_skipAttribute : Stable skipAttribute :=
  stable_word.bind fun _ => stable_doubleWord.bind fun length => stable_skip length.toNat

theorem stable_member (p : Pool) : Stable (member p) := by
  unfold member
  refine stable_word.bind fun access => stable_word.bind fun nameIndex => ?_
  refine (stable_lift (p.utf8 nameIndex)).bind fun name => ?_
  refine stable_word.bind fun descriptorIndex => ?_
  refine (stable_lift (p.utf8 descriptorIndex)).bind fun descriptor => ?_
  exact stable_skipAttribute.counted.bind fun _ => stable_pure _

/-- The nested class table is read from the bytes of its attribute alone: seen from the file it is
a check like any other, and it may fail at the end of its own bytes. -/
theorem stable_classAttribute (p : Pool) : Stable (classAttribute p) := by
  unfold classAttribute
  refine stable_word.bind fun nameIndex => stable_doubleWord.bind fun length => ?_
  refine (stable_lift (p.utf8 nameIndex)).bind fun name => ?_
  by_cases hname : name = nestedTableName
  · rw [if_pos hname]
    refine (stable_slice length.toNat).bind fun body => ?_
    exact (stable_lift ((counted (nestedRow p)).run body)).bind fun _ => stable_pure _
  · rw [if_neg hname]
    exact (stable_skip length.toNat).bind fun _ => stable_pure _

theorem stable_classFile : Stable classFile := by
  unfold classFile
  refine stable_doubleWord.bind fun head => ?_
  by_cases hmagic : head = magic
  · rw [if_neg (not_not.mpr hmagic)]
    refine stable_word.bind fun _ => stable_word.bind fun _ => stable_pool.bind fun p => ?_
    refine stable_word.bind fun _ => stable_word.bind fun this => stable_word.bind fun super => ?_
    refine (stable_lift (p.className this)).bind fun _ => ?_
    refine (stable_lift (optionalClass p super)).bind fun _ => ?_
    refine (stable_classAt p).counted.bind fun _ => (stable_member p).counted.bind fun _ => ?_
    refine (stable_member p).counted.bind fun _ => ?_
    refine (stable_classAttribute p).counted.bind fun _ => ?_
    exact (stable_lift p.mentions).bind fun _ => stable_pure _
  · -- nothing is read after the fault
    rw [if_pos hmagic]
    exact fun _ _ _ => rfl

/-! ## Longer inputs -/

theorem decode_eq_map (s : Bytes) : decode s = (classFile s).map Prod.fst := rfl

theorem decode_eq_error_iff {s : Bytes} {fault : Fault} :
    decode s = .error fault ↔ classFile s = .error fault := by
  rw [decode_eq_map]
  cases classFile s <;> simp [Except.map]

/-- Bytes added behind change nothing that has been decided: neither a class nor any fault but that
of coming to the end. -/
theorem decode_append (s more : Bytes) (h : decode s ≠ .error .unexpectedEnd) :
    decode (s ++ more) = decode s := by
  rw [Ne, decode_eq_error_iff] at h
  rw [decode_eq_map, decode_eq_map, stable_classFile s more h]
  cases classFile s with
  | error fault => rfl
  | ok read => rfl

/-- The file of a class `A` without superclass, members and attributes, whose name is said to be at
an index. -/
def plainFile (this : UInt16) : Bytes :=
  [0xCA, 0xFE, 0xBA, 0xBE, 0, 0, 0, 52, 0, 3, 1, 0, 1, 0x41, 7, 0, 1, 0, 0x21]
    ++ Bytes.ofWord this ++ [0, 0, 0, 0, 0, 0, 0, 0, 0, 0]

/-- A class with a byte behind it, and a file with a wrong index that is found before its end. -/
theorem decode_append_plainFile :
    decode (plainFile 2) = .ok ⟨"A", none, [], ⟨0x21⟩, [], [], [], ["A"], [], []⟩
      ∧ decode (plainFile 2 ++ [7]) = .ok ⟨"A", none, [], ⟨0x21⟩, [], [], [], ["A"], [], []⟩
      ∧ decode (plainFile 3) = .error (.badIndex 3)
      ∧ decode (plainFile 3 ++ [7]) = .error (.badIndex 3) := by
  have hclass : decode (plainFile 2) = .ok ⟨"A", none, [], ⟨0x21⟩, [], [], [], ["A"], [], []⟩ := rfl
  have hfault : decode (plainFile 3) = .error (.badIndex 3) := rfl
  refine ⟨hclass, ?_, hfault, ?_⟩
  · rw [decode_append _ _ (by simp [hclass]), hclass]
  · rw [decode_append _ _ (by simp [hfault]), hfault]

/-! ## Shorter inputs -/

/-- A class file that is cut off anywhere comes to its end too early, and no other fault is found
before. -/
theorem ClassLayout.Denotes.decode_of_prefix {l : ClassLayout} {c : ClassView} (h : l.Denotes c)
    {part : Bytes} (hpart : part <+: l.bytes) (hcut : part ≠ l.bytes) :
    decode part = .error .unexpectedEnd := by
  obtain ⟨missing, hwhole⟩ := hpart
  rw [decode_eq_error_iff]
  by_contra hdecided
  have hstable := stable_classFile part missing hdecided
  -- what is left of the part and what is missing make up what is left of the whole: nothing
  rw [hwhole, h.classFile_bytes] at hstable
  obtain ⟨read, -, hrest⟩ := except_map_eq_ok_iff.mp hstable.symm
  obtain ⟨-, rfl⟩ := List.append_eq_nil_iff.mp (congrArg Prod.snd hrest)
  exact hcut (by rw [← hwhole, List.append_nil])

namespace Blueprint

/-- A blueprint within the limits of the format can be written, and what is written is read as the
view the blueprint describes, but as cut off whenever anything is missing at its end. -/
theorem decode_of_truncated (b : Blueprint) (h : b.Fits) :
    ∃ bytes, b.encode = .ok bytes ∧ decode bytes = .ok b.view
      ∧ ∀ part, part <+: bytes → part ≠ bytes → decode part = .error .unexpectedEnd := by
  obtain ⟨d, hd, hencode⟩ := b.encode_of_keys h.constants h.nested
  obtain ⟨l, hbytes, hdenotes⟩ := h.exists_layout hd
  refine ⟨_, hencode, ?_, fun part hpart hcut => ?_⟩
  · rw [← hbytes]
    exact decode_eq_ok_iff.mpr ⟨[], hdenotes.classFile_bytes⟩
  · rw [← hbytes] at hpart hcut
    exact hdenotes.decode_of_prefix hpart hcut

/-- Wherever the file is cut, in the pool, in a table or in a row of the nested classes, the cut is
noticed; the whole file is read. -/
theorem decode_of_truncated_twoSpellings :
    twoSpellings.Fits
      ∧ ∃ bytes, twoSpellings.encode = .ok bytes ∧ decode bytes = .ok twoSpellings.view
        ∧ ∀ n < bytes.length, decode (bytes.take n) = .error .unexpectedEnd := by
  obtain ⟨bytes, hencode, hwhole, hcut⟩ := decode_of_truncated twoSpellings fits_twoSpellings
  refine ⟨fits_twoSpellings, bytes, hencode, hwhole, fun n hn => ?_⟩
  refine hcut (bytes.take n) (List.take_prefix n bytes) fun hsame => ?_
  have hlength := congrArg List.length hsame
  rw [List.length_take] at hlength
  omega

end Blueprint

end Linkage.ClassFile
