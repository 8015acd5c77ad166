import Linkage.Proofs.ClassFile.Layout
import Linkage.Proofs.ClassFile.Scan
import Linkage.Proofs.Operations

/-!
# Reading accepts exactly the class files

The reader follows indexes as soon as it meets them and stops at the first fault, so what it
accepts is not plain from its text.  Here every part of it is matched with its layout, from the
constants up to the whole class; since each step is an equivalence that leaves the rest of the
input open, the parts fit together in both directions at once.

* `Pool.className_eq_ok_iff` and its neighbours: following an index against what it points to.
* `constants_eq_ok_iff`: the constants fill exactly the slots asked for.
* `mentions_split`: the mentions of the pool, sorted by kind.
* `classFile_eq_ok_iff`: the whole class file, with what follows it.
-/

namespace Linkage.ClassFile

open Scan

/-! ## Following indexes -/

namespace Pool

variable {p : Pool} {index : UInt16}

theorem get_eq_ok_iff {c : Constant} :
    p.get index = .ok c ↔ p.slots[index.toNat]? = some c ∧ c ≠ .unusable := by
  unfold get
  split <;> simp_all
  rintro rfl
  simp_all

theorem utf8_eq_ok_iff {text : String} : p.utf8 index = .ok text ↔ p.TextAt index text := by
  unfold utf8 TextAt
  rw [except_bind_eq_ok_iff]
  constructor
  · rintro ⟨c, hget, hc⟩
    cases c <;> cases hc
    exact (get_eq_ok_iff.mp hget).1
  · intro h
    exact ⟨.utf8 text, get_eq_ok_iff.mpr ⟨h, by simp⟩, rfl⟩

theorem className_eq_ok_iff {name : ClassName} :
    p.className index = .ok name ↔ p.ClassAt index name := by
  unfold className ClassAt
  rw [except_bind_eq_ok_iff]
  constructor
  · rintro ⟨c, hget, hc⟩
    cases c with
    | classInfo nameIndex =>
      obtain ⟨text, htext, hname⟩ := except_bind_eq_ok_iff.mp hc
      cases hname
      exact ⟨nameIndex, text, (get_eq_ok_iff.mp hget).1, utf8_eq_ok_iff.mp htext, rfl⟩
    | _ => cases hc
  · rintro ⟨nameIndex, text, hslot, htext, rfl⟩
    refine ⟨.classInfo nameIndex, get_eq_ok_iff.mpr ⟨hslot, by simp⟩, ?_⟩
    exact except_bind_eq_ok_iff.mpr ⟨text, utf8_eq_ok_iff.mpr htext, rfl⟩

theorem nameAndType_eq_ok_iff {name descriptor : String} :
    p.nameAndType index = .ok (name, descriptor) ↔ p.PairAt index name descriptor := by
  unfold nameAndType PairAt
  rw [except_bind_eq_ok_iff]
  constructor
  · rintro ⟨c, hget, hc⟩
    cases c with
    | nameAndType nameIndex descriptorIndex =>
      obtain ⟨n, hn, hc⟩ := except_bind_eq_ok_iff.mp hc
      obtain ⟨d, hd, hpair⟩ := except_bind_eq_ok_iff.mp hc
      cases hpair
      exact ⟨nameIndex, descriptorIndex, (get_eq_ok_iff.mp hget).1, utf8_eq_ok_iff.mp hn,
        utf8_eq_ok_iff.mp hd⟩
    | _ => cases hc
  · rintro ⟨nameIndex, descriptorIndex, hslot, hn, hd⟩
    refine ⟨.nameAndType nameIndex descriptorIndex, get_eq_ok_iff.mpr ⟨hslot, by simp⟩, ?_⟩
    exact except_bind_eq_ok_iff.mpr ⟨name, utf8_eq_ok_iff.mpr hn,
      except_bind_eq_ok_iff.mpr ⟨descriptor, utf8_eq_ok_iff.mpr hd, rfl⟩⟩

theorem optionalClass_eq_ok_iff {name : Option ClassName} :
    optionalClass p index = .ok name ↔ p.OptionalClassAt index name := by
  unfold optionalClass OptionalClassAt
  split
  · simp [eq_comm]
  · cases h : p.className index with
    | error fault =>
      have hnone : ∀ n, ¬ p.ClassAt index n := by
        intro n hn
        rw [className_eq_ok_iff.mpr hn] at h
        cases h
      simp [Except.map, hnone]
    | ok n =>
      constructor
      · intro hname
        cases hname
        exact ⟨n, className_eq_ok_iff.mp h, rfl⟩
      · rintro ⟨m, hm, rfl⟩
        rw [className_eq_ok_iff.mpr hm] at h
        cases h
        rfl

/-! ## What the pool mentions -/

theorem mention_classInfo_eq_ok_iff {name : UInt16} {m : Option Mention} :
    p.mention (.classInfo name) = .ok m ↔ ∃ n, p.NameAt name n ∧ m = some (.ofClass n) := by
  unfold mention NameAt
  simp only [except_bind_eq_ok_iff, utf8_eq_ok_iff]
  constructor
  · rintro ⟨text, htext, h⟩
    cases h
    exact ⟨_, ⟨text, htext, rfl⟩, rfl⟩
  · rintro ⟨n, ⟨text, htext, rfl⟩, rfl⟩
    exact ⟨text, htext, rfl⟩

/-- Following the two indexes of a field or method constant. -/
theorem follow_eq_ok_iff {owner pair : UInt16} {m : Option Mention}
    (make : ClassName → String → String → Mention) :
    (do let o ← p.className owner
        let (n, d) ← p.nameAndType pair
        return some (make o n d)) = Except.ok m ↔
      ∃ r, p.MemberAt (owner, pair) r ∧ m = some (make r.owner r.name r.descriptor) := by
  unfold MemberAt
  simp only [except_bind_eq_ok_iff, className_eq_ok_iff]
  constructor
  · rintro ⟨o, ho, ⟨n, d⟩, hnd, h⟩
    cases h
    exact ⟨⟨o, n, d⟩, ⟨ho, nameAndType_eq_ok_iff.mp hnd⟩, rfl⟩
  · rintro ⟨⟨o, n, d⟩, ⟨ho, hnd⟩, rfl⟩
    exact ⟨o, ho, (n, d), nameAndType_eq_ok_iff.mpr hnd, rfl⟩

theorem mention_fieldRef_eq_ok_iff {owner pair : UInt16} {m : Option Mention} :
    p.mention (.fieldRef owner pair) = .ok m ↔
      ∃ r, p.MemberAt (owner, pair) r ∧ m = some (.ofField r.owner r.name r.descriptor) :=
  follow_eq_ok_iff .ofField

theorem mention_methodRef_eq_ok_iff (ofInterface : Bool) {owner pair : UInt16}
    {m : Option Mention} :
    p.mention (.methodRef ofInterface owner pair) = .ok m ↔
      ∃ r, p.MemberAt (owner, pair) r ∧ m = some (.ofMethod r.owner r.name r.descriptor) :=
  follow_eq_ok_iff .ofMethod

end Pool

namespace Mention

/-- The class mentioned, if it is one. -/
def class? : Mention → Option ClassName
  | .ofClass n => some n
  | _ => none

/-- The method mentioned, if it is one. -/
def method? : Mention → Option MemberMention
  | .ofMethod o n d => some ⟨o, n, d⟩
  | _ => none

/-- The field mentioned, if it is one. -/
def field? : Mention → Option MemberMention
  | .ofField o n d => some ⟨o, n, d⟩
  | _ => none

end Mention

/-- Every constant that mentions something can be followed exactly when the constants of each
kind can, and the mentions of a kind are what its constants mention.  The induction is on the
slots; every slot adds to one of the three lists at most. -/
theorem mentions_split {p : Pool} {cs : List Constant} {classRefs : List ClassName}
    {methodRefs fieldRefs : List MemberMention} :
    (∃ found, List.Forall₂ (fun c m => p.mention c = .ok m) cs found
        ∧ classRefs = (found.filterMap id).filterMap Mention.class?
        ∧ methodRefs = (found.filterMap id).filterMap Mention.method?
        ∧ fieldRefs = (found.filterMap id).filterMap Mention.field?) ↔
      List.Forall₂ p.NameAt (cs.filterMap Constant.classIndex?) classRefs
        ∧ List.Forall₂ p.MemberAt (cs.filterMap Constant.methodIndexes?) methodRefs
        ∧ List.Forall₂ p.MemberAt (cs.filterMap Constant.fieldIndexes?) fieldRefs := by
  induction cs generalizing classRefs methodRefs fieldRefs with
  | nil =>
    simp only [List.filterMap_nil, List.forall₂_nil_left_iff]
    constructor
    · rintro ⟨found, rfl, rfl, rfl, rfl⟩
      exact ⟨rfl, rfl, rfl⟩
    · rintro ⟨rfl, rfl, rfl⟩
      exact ⟨[], rfl, rfl, rfl, rfl⟩
  | cons c cs ih =>
    cases c with
    | classInfo name =>
      constructor
      · rintro ⟨_, _ | ⟨hm, hfound⟩, rfl, rfl, rfl⟩
        obtain ⟨n, hn, rfl⟩ := Pool.mention_classInfo_eq_ok_iff.mp hm
        obtain ⟨hclasses, hmethods, hfields⟩ := ih.mp ⟨_, hfound, rfl, rfl, rfl⟩
        exact ⟨.cons hn hclasses, hmethods, hfields⟩
      · rintro ⟨_ | ⟨hn, hclasses⟩, hmethods, hfields⟩
        obtain ⟨found, hfound, rfl, rfl, rfl⟩ := ih.mpr ⟨hclasses, hmethods, hfields⟩
        have hm := Pool.mention_classInfo_eq_ok_iff.mpr ⟨_, hn, rfl⟩
        exact ⟨_, .cons hm hfound, rfl, rfl, rfl⟩
    | methodRef ofInterface owner pair =>
      constructor
      · rintro ⟨_, _ | ⟨hm, hfound⟩, rfl, rfl, rfl⟩
        obtain ⟨r, hr, rfl⟩ := (Pool.mention_methodRef_eq_ok_iff ofInterface).mp hm
        obtain ⟨hclasses, hmethods, hfields⟩ := ih.mp ⟨_, hfound, rfl, rfl, rfl⟩
        exact ⟨hclasses, .cons hr hmethods, hfields⟩
      · rintro ⟨hclasses, _ | ⟨hr, hmethods⟩, hfields⟩
        obtain ⟨found, hfound, rfl, rfl, rfl⟩ := ih.mpr ⟨hclasses, hmethods, hfields⟩
        have hm := (Pool.mention_methodRef_eq_ok_iff ofInterface).mpr ⟨_, hr, rfl⟩
        exact ⟨_, .cons hm hfound, rfl, rfl, rfl⟩
    | fieldRef owner pair =>
      constructor
      · rintro ⟨_, _ | ⟨hm, hfound⟩, rfl, rfl, rfl⟩
        obtain ⟨r, hr, rfl⟩ := Pool.mention_fieldRef_eq_ok_iff.mp hm
        obtain ⟨hclasses, hmethods, hfields⟩ := ih.mp ⟨_, hfound, rfl, rfl, rfl⟩
        exact ⟨hclasses, hmethods, .cons hr hfields⟩
      · rintro ⟨hclasses, hmethods, _ | ⟨hr, hfields⟩⟩
        obtain ⟨found, hfound, rfl, rfl, rfl⟩ := ih.mpr ⟨hclasses, hmethods, hfields⟩
        have hm := Pool.mention_fieldRef_eq_ok_iff.mpr ⟨_, hr, rfl⟩
        exact ⟨_, .cons hm hfound, rfl, rfl, rfl⟩
    | _ =>
      -- the other kinds mention nothing, and add nothing to any list
      constructor
      · rintro ⟨_, _ | ⟨hm, hfound⟩, rfl, rfl, rfl⟩
        cases hm
        exact ih.mp ⟨_, hfound, rfl, rfl, rfl⟩
      · intro h
        obtain ⟨found, hfound, rfl, rfl, rfl⟩ := ih.mpr h
        exact ⟨none :: found, .cons rfl hfound, rfl, rfl, rfl⟩

/-! ## Constants -/

/-- What is read after a tag is a constant of that tag and one slot. -/
theorem exists_layout_of_constant {tag : UInt8} {s rest : Bytes} {c : Constant}
    (h : constant tag s = .ok (c, rest)) :
    ∃ e : ConstantLayout, e.tag = tag ∧ s = e.payload ++ rest ∧ e.slots = [c] := by
  generalize hstep : constant tag = step at h
  unfold constant at hstep
  split at hstep <;> subst hstep
  case h_1 htag =>
    simp only [bind_eq_ok_iff, word_eq_ok_iff, slice_eq_ok_iff, pure_eq_ok_iff] at h
    obtain ⟨length, _, rfl, bytes, _, ⟨rfl, hlength⟩, rfl, rfl⟩ := h
    have hfits : bytes.length < 65536 := by
      rw [hlength]
      exact length.toNat_lt
    refine ⟨.text bytes hfits, UInt8.toNat_inj.mp htag.symm, ?_, rfl⟩
    rw [ConstantLayout.payload, wordOf, hlength, UInt16.ofNat_toNat, List.append_assoc]
  case h_2 htag =>
    obtain ⟨taken, hlength, rfl, rfl⟩ := skip_return_eq_ok_iff.mp h
    obtain ⟨value, rfl⟩ := Bytes.exists_eq_ofDoubleWord hlength
    exact ⟨.integer value, UInt8.toNat_inj.mp htag.symm, rfl, rfl⟩
  case h_3 htag =>
    obtain ⟨taken, hlength, rfl, rfl⟩ := skip_return_eq_ok_iff.mp h
    obtain ⟨bits, rfl⟩ := Bytes.exists_eq_ofDoubleWord hlength
    exact ⟨.float bits, UInt8.toNat_inj.mp htag.symm, rfl, rfl⟩
  case h_4 htag =>
    obtain ⟨name, rfl, rfl⟩ := one_word_eq_ok_iff.mp h
    exact ⟨.classInfo name, UInt8.toNat_inj.mp htag.symm, rfl, rfl⟩
  case h_5 htag =>
    obtain ⟨taken, hlength, rfl, rfl⟩ := skip_return_eq_ok_iff.mp h
    obtain ⟨text, rfl⟩ := Bytes.exists_eq_ofWord hlength
    exact ⟨.string text, UInt8.toNat_inj.mp htag.symm, rfl, rfl⟩
  case h_6 htag =>
    obtain ⟨taken, hlength, rfl, rfl⟩ := skip_return_eq_ok_iff.mp h
    obtain ⟨descriptor, rfl⟩ := Bytes.exists_eq_ofWord hlength
    exact ⟨.methodType descriptor, UInt8.toNat_inj.mp htag.symm, rfl, rfl⟩
  case h_7 htag =>
    obtain ⟨taken, hlength, rfl, rfl⟩ := skip_return_eq_ok_iff.mp h
    obtain ⟨name, rfl⟩ := Bytes.exists_eq_ofWord hlength
    exact ⟨.moduleInfo name, UInt8.toNat_inj.mp htag.symm, rfl, rfl⟩
  case h_8 htag =>
    obtain ⟨taken, hlength, rfl, rfl⟩ := skip_return_eq_ok_iff.mp h
    obtain ⟨name, rfl⟩ := Bytes.exists_eq_ofWord hlength
    exact ⟨.packageInfo name, UInt8.toNat_inj.mp htag.symm, rfl, rfl⟩
  case h_9 htag =>
    obtain ⟨owner, pair, rfl, rfl⟩ := two_words_eq_ok_iff.mp h
    exact ⟨.fieldRef owner pair, UInt8.toNat_inj.mp htag.symm, rfl, rfl⟩
  case h_10 htag =>
    obtain ⟨owner, pair, rfl, rfl⟩ := two_words_eq_ok_iff.mp h
    exact ⟨.methodRef false owner pair, UInt8.toNat_inj.mp htag.symm, rfl, rfl⟩
  case h_11 htag =>
    obtain ⟨owner, pair, rfl, rfl⟩ := two_words_eq_ok_iff.mp h
    exact ⟨.methodRef true owner pair, UInt8.toNat_inj.mp htag.symm, rfl, rfl⟩
  case h_12 htag =>
    obtain ⟨name, descriptor, rfl, rfl⟩ := two_words_eq_ok_iff.mp h
    exact ⟨.nameAndType name descriptor, UInt8.toNat_inj.mp htag.symm, rfl, rfl⟩
  case h_13 htag =>
    obtain ⟨_ | ⟨kind, taken⟩, hlength, rfl, rfl⟩ := skip_return_eq_ok_iff.mp h
    · cases hlength
    obtain ⟨reference, rfl⟩ := Bytes.exists_eq_ofWord (Nat.succ.inj hlength)
    exact ⟨.methodHandle kind reference, UInt8.toNat_inj.mp htag.symm, rfl, rfl⟩
  case h_14 htag =>
    obtain ⟨taken, hlength, rfl, rfl⟩ := skip_return_eq_ok_iff.mp h
    obtain ⟨bootstrap, pair, rfl⟩ := Bytes.exists_eq_ofWord_append hlength
    exact ⟨.dynamic bootstrap pair, UInt8.toNat_inj.mp htag.symm, rfl, rfl⟩
  case h_15 htag =>
    obtain ⟨taken, hlength, rfl, rfl⟩ := skip_return_eq_ok_iff.mp h
    obtain ⟨bootstrap, pair, rfl⟩ := Bytes.exists_eq_ofWord_append hlength
    exact ⟨.invokeDynamic bootstrap pair, UInt8.toNat_inj.mp htag.symm, rfl, rfl⟩
  case h_16 => exact absurd h throw_ne_ok

/-- A constant of one slot is read from what follows its tag. -/
theorem constant_of_layout {e : ConstantLayout} {c : Constant} (h : e.slots = [c])
    (rest : Bytes) : constant e.tag (e.payload ++ rest) = .ok (c, rest) := by
  cases e with
  | text bytes fits =>
    cases h
    refine bind_eq_ok_iff.mpr ⟨UInt16.ofNat bytes.length, bytes ++ rest, ?_, ?_⟩
    · rw [word_eq_ok_iff, ConstantLayout.payload, wordOf, List.append_assoc]
    · refine bind_eq_ok_iff.mpr ⟨bytes, rest, ?_, rfl⟩
      rw [slice_eq_ok_iff, UInt16.toNat_ofNat_of_lt' fits]
      exact ⟨rfl, rfl⟩
  | long high low => cases h
  | double high low => cases h
  | classInfo name =>
    cases h
    exact one_word_eq_ok_iff.mpr ⟨name, rfl, rfl⟩
  | fieldRef owner pair =>
    cases h
    exact two_words_eq_ok_iff.mpr ⟨owner, pair, rfl, rfl⟩
  | methodRef ofInterface owner pair =>
    cases h
    cases ofInterface <;> exact two_words_eq_ok_iff.mpr ⟨owner, pair, rfl, rfl⟩
  | nameAndType name descriptor =>
    cases h
    exact two_words_eq_ok_iff.mpr ⟨name, descriptor, rfl, rfl⟩
  | _ =>
    cases h
    exact skip_return_eq_ok_iff.mpr ⟨_, rfl, rfl, rfl⟩

/-- A constant takes one slot, or is wide and takes two. -/
theorem ConstantLayout.slots_cases (e : ConstantLayout) :
    (∃ c, e.slots = [c] ∧ isWide e.tag = false)
      ∨ (e.slots = [.other, .unusable] ∧ isWide e.tag = true ∧ e.payload.length = 8) := by
  cases e with
  | long high low => exact .inr ⟨rfl, rfl, rfl⟩
  | double high low => exact .inr ⟨rfl, rfl, rfl⟩
  | methodRef ofInterface owner pair => cases ofInterface <;> exact .inl ⟨_, rfl, rfl⟩
  | _ => exact .inl ⟨_, rfl, rfl⟩

/-- A wide tag and eight bytes are a wide constant. -/
theorem exists_wide_layout {tag : UInt8} {taken : Bytes} (hwide : isWide tag = true)
    (hlength : taken.length = 8) :
    ∃ e : ConstantLayout, e.tag = tag ∧ e.payload = taken ∧ e.slots = [.other, .unusable] := by
  have hhigh : (taken.take 4).length = 4 := by simp [hlength]
  have hlow : (taken.drop 4).length = 4 := by simp [hlength]
  obtain ⟨high, hhigh⟩ := Bytes.exists_eq_ofDoubleWord hhigh
  obtain ⟨low, hlow⟩ := Bytes.exists_eq_ofDoubleWord hlow
  have htaken : Bytes.ofDoubleWord high ++ Bytes.ofDoubleWord low = taken := by
    rw [← hhigh, ← hlow, List.take_append_drop]
  simp only [isWide, Bool.or_eq_true, decide_eq_true_eq] at hwide
  rcases hwide with rfl | rfl
  · exact ⟨.long high low, rfl, htaken, rfl⟩
  · exact ⟨.double high low, rfl, htaken, rfl⟩

theorem constants_succ (n index : Nat) : constants (n + 1) index = (do
    let tag ← byte
    if isWide tag then
      match n with
      | 0 => throw (.badIndex (UInt16.ofNat index))
      | m + 1 =>
        skip 8
        let cs ← constants m (index + 2)
        return .other :: .unusable :: cs
    else
      let c ← constant tag
      let cs ← constants n (index + 1)
      return c :: cs) := by
  cases n <;> rfl

section

variable {n index : Nat} {tag : UInt8} {s rest : Bytes} {cs : List Constant}

theorem constants_narrow_eq_ok_iff (hwide : isWide tag = false) :
    constants (n + 1) index (tag :: s) = .ok (cs, rest) ↔
      ∃ c mid cs', constant tag s = .ok (c, mid) ∧ constants n (index + 1) mid = .ok (cs', rest)
        ∧ cs = c :: cs' := by
  rw [constants_succ, bind_eq_ok_iff]
  simp only [byte_eq_ok_iff]
  constructor
  · rintro ⟨_, _, ⟨⟩, h⟩
    rw [if_neg (by simp [hwide]), bind_eq_ok_iff] at h
    obtain ⟨c, mid, hc, h⟩ := h
    obtain ⟨cs', _, hcs, h⟩ := bind_eq_ok_iff.mp h
    obtain ⟨rfl, rfl⟩ := pure_eq_ok_iff.mp h
    exact ⟨c, mid, cs', hc, hcs, rfl⟩
  · rintro ⟨c, mid, cs', hc, hcs, rfl⟩
    refine ⟨tag, s, rfl, ?_⟩
    rw [if_neg (by simp [hwide])]
    exact bind_eq_ok_iff.mpr ⟨c, mid, hc, bind_eq_ok_iff.mpr ⟨cs', rest, hcs, rfl⟩⟩

theorem constants_wide_eq_ok_iff (hwide : isWide tag = true) :
    constants (n + 1) index (tag :: s) = .ok (cs, rest) ↔
      ∃ m taken mid cs', n = m + 1 ∧ s = taken ++ mid ∧ taken.length = 8
        ∧ constants m (index + 2) mid = .ok (cs', rest) ∧ cs = .other :: .unusable :: cs' := by
  rw [constants_succ, bind_eq_ok_iff]
  simp only [byte_eq_ok_iff]
  constructor
  · rintro ⟨_, _, ⟨⟩, h⟩
    rw [if_pos hwide] at h
    cases n with
    | zero => exact absurd h throw_ne_ok
    | succ m =>
      simp only [bind_eq_ok_iff, skip_eq_ok_iff, pure_eq_ok_iff] at h
      obtain ⟨_, mid, ⟨taken, rfl, hlength⟩, cs', _, hcs, rfl, rfl⟩ := h
      exact ⟨m, taken, mid, cs', rfl, rfl, hlength, hcs, rfl⟩
  · rintro ⟨m, taken, mid, cs', rfl, rfl, hlength, hcs, rfl⟩
    refine ⟨tag, taken ++ mid, rfl, ?_⟩
    rw [if_pos hwide]
    exact bind_eq_ok_iff.mpr ⟨(), mid, skip_eq_ok_iff.mpr ⟨taken, rfl, hlength⟩,
      bind_eq_ok_iff.mpr ⟨cs', rest, hcs, rfl⟩⟩

/-- Filling slots takes constants that fill exactly as many.  The induction is on the number of
slots, and a wide constant leaves two fewer. -/
theorem exists_layouts_of_constants (h : constants n index s = .ok (cs, rest)) :
    ∃ es : List ConstantLayout, s = es.flatMap ConstantLayout.bytes ++ rest
      ∧ es.flatMap ConstantLayout.slots = cs ∧ cs.length = n := by
  induction n using Nat.strongRecOn generalizing index s cs with
  | _ n ih =>
    cases n with
    | zero =>
      rw [constants, pure_eq_ok_iff] at h
      obtain ⟨rfl, rfl⟩ := h
      exact ⟨[], rfl, rfl, rfl⟩
    | succ n =>
      cases s with
      | nil =>
        rw [constants_succ] at h
        cases h
      | cons tag s =>
        cases hwide : isWide tag with
        | false =>
          obtain ⟨c, mid, cs', hc, hcs, rfl⟩ := (constants_narrow_eq_ok_iff hwide).mp h
          obtain ⟨e, rfl, rfl, hslots⟩ := exists_layout_of_constant hc
          obtain ⟨es, rfl, rfl, hlength⟩ := ih n (by omega) hcs
          refine ⟨e :: es, ?_, ?_, by simp [hlength]⟩
          · simp [ConstantLayout.bytes]
          · simp [hslots]
        | true =>
          obtain ⟨m, taken, mid, cs', rfl, rfl, htaken, hcs, rfl⟩ :=
            (constants_wide_eq_ok_iff hwide).mp h
          obtain ⟨e, rfl, rfl, hslots⟩ := exists_wide_layout hwide htaken
          obtain ⟨es, rfl, rfl, hlength⟩ := ih m (by omega) hcs
          refine ⟨e :: es, ?_, ?_, by simp [hlength]⟩
          · simp [ConstantLayout.bytes]
          · simp [hslots]

/-- Constants are read back into the slots they fill, when that many are asked for. -/
theorem constants_of_layouts (es : List ConstantLayout) (index : Nat) (rest : Bytes) :
    constants (es.flatMap ConstantLayout.slots).length index
      (es.flatMap ConstantLayout.bytes ++ rest)
        = .ok (es.flatMap ConstantLayout.slots, rest) := by
  induction es generalizing index with
  | nil => rfl
  | cons e es ih =>
    have hbytes : (e :: es).flatMap ConstantLayout.bytes ++ rest
        = e.tag :: (e.payload ++ (es.flatMap ConstantLayout.bytes ++ rest)) := by
      simp [ConstantLayout.bytes]
    rw [hbytes, List.flatMap_cons]
    rcases e.slots_cases with ⟨c, hslots, hwide⟩ | ⟨hslots, hwide, hlength⟩
    · rw [hslots]
      exact (constants_narrow_eq_ok_iff hwide).mpr
        ⟨c, _, _, constant_of_layout hslots _, ih (index + 1), rfl⟩
    · rw [hslots]
      exact (constants_wide_eq_ok_iff hwide).mpr
        ⟨_, e.payload, _, _, rfl, rfl, hlength, ih (index + 2), rfl⟩

end

/-- The pool is a count and constants that fill the slots below it. -/
theorem pool_reads : Reads pool PoolLayout.bytes (fun l p => p = l.pool) := by
  intro s p rest
  unfold pool
  simp only [bind_eq_ok_iff, word_eq_ok_iff, pure_eq_ok_iff]
  constructor
  · rintro ⟨count, _, rfl, cs, _, hcs, rfl, rfl⟩
    obtain ⟨es, rfl, rfl, hlength⟩ := exists_layouts_of_constants hcs
    refine ⟨⟨count, es, hlength⟩, ?_, rfl⟩
    rw [PoolLayout.bytes, List.append_assoc]
  · rintro ⟨⟨count, es, hfills⟩, rfl, rfl⟩
    refine ⟨count, es.flatMap ConstantLayout.bytes ++ rest, ?_, _, rest, ?_, rfl, rfl⟩
    · rw [PoolLayout.bytes, List.append_assoc]
    · rw [← hfills]
      exact constants_of_layouts es 1 rest

/-! ## Tables -/

theorem classAt_reads (p : Pool) : Reads (classAt p) Bytes.ofWord p.ClassAt := by
  intro s name rest
  unfold classAt
  simp only [bind_eq_ok_iff, word_eq_ok_iff, lift_eq_ok_iff, Pool.className_eq_ok_iff]
  constructor
  · rintro ⟨index, _, rfl, hname, rfl⟩
    exact ⟨index, rfl, hname⟩
  · rintro ⟨index, rfl, hname⟩
    exact ⟨index, rest, rfl, hname, rfl⟩

/-- The length of a body and the body, as the two ways to pass over them need it. -/
theorem ofDoubleWord_length_append {length : UInt32} {body : Bytes}
    (h : body.length = length.toNat) :
    body.length < 4294967296 ∧ UInt32.ofNat body.length = length := by
  rw [h]
  exact ⟨length.toNat_lt, UInt32.ofNat_toNat⟩

theorem skipAttribute_reads : Reads skipAttribute AttributeLayout.bytes (fun _ _ => True) := by
  intro s u rest
  unfold skipAttribute
  simp only [bind_eq_ok_iff, word_eq_ok_iff, doubleWord_eq_ok_iff, skip_eq_ok_iff]
  constructor
  · rintro ⟨name, _, rfl, length, _, rfl, body, rfl, hbody⟩
    obtain ⟨hfits, hlength⟩ := ofDoubleWord_length_append hbody
    refine ⟨⟨name, body, hfits⟩, ?_, trivial⟩
    simp [AttributeLayout.bytes, hlength]
  · rintro ⟨⟨name, body, hfits⟩, rfl, -⟩
    refine ⟨name, _, ?_, UInt32.ofNat body.length, body ++ rest, rfl, body, rfl, ?_⟩
    · simp [AttributeLayout.bytes]
    · exact (UInt32.toNat_ofNat_of_lt' hfits).symm

theorem member_reads (p : Pool) :
    Reads (member p) MemberLayout.bytes (MemberLayout.Denotes p) := by
  intro s m rest
  unfold member
  simp only [bind_eq_ok_iff, word_eq_ok_iff, lift_eq_ok_iff, Pool.utf8_eq_ok_iff,
    skipAttribute_reads.counted, pure_eq_ok_iff]
  constructor
  · rintro ⟨access, _, rfl, nameIndex, _, rfl, name, _, ⟨hname, rfl⟩, descriptorIndex, _, rfl,
      descriptor, _, ⟨hdescriptor, rfl⟩, us, _, ⟨attributes, hfits, rfl, hus⟩, rfl, rfl⟩
    refine ⟨⟨access, nameIndex, descriptorIndex, ⟨attributes, hfits⟩⟩, ?_, hname, hdescriptor, rfl⟩
    simp [MemberLayout.bytes]
  · rintro ⟨⟨access, nameIndex, descriptorIndex, ⟨attributes, hfits⟩⟩, rfl, hname, hdescriptor,
      haccess⟩
    have hskipped : List.Forall₂ (fun _ _ => True) attributes (attributes.map fun _ => ()) :=
      List.forall₂_map_right_iff.mpr (List.forall₂_same.mpr fun _ _ => trivial)
    refine ⟨access, _, ?_, nameIndex, _, rfl, m.name, _, ⟨hname, rfl⟩, descriptorIndex, _, rfl,
      m.descriptor, _, ⟨hdescriptor, rfl⟩, _, rest, ⟨attributes, hfits, rfl, hskipped⟩, ?_, rfl⟩
    · simp [MemberLayout.bytes]
    · rw [← haccess]

theorem nestedRow_reads (p : Pool) :
    Reads (nestedRow p) NestedLayout.bytes (NestedLayout.Denotes p) := by
  intro s n rest
  unfold nestedRow
  simp only [bind_eq_ok_iff, word_eq_ok_iff, lift_eq_ok_iff, Pool.className_eq_ok_iff,
    Pool.optionalClass_eq_ok_iff, pure_eq_ok_iff]
  constructor
  · rintro ⟨inner, _, rfl, outer, _, rfl, simple, _, rfl, access, _, rfl, outerName, _,
      ⟨houter, rfl⟩, innerName, _, ⟨hinner, rfl⟩, rfl, rfl⟩
    refine ⟨⟨inner, outer, simple, access⟩, ?_, hinner, houter⟩
    simp [NestedLayout.bytes]
  · rintro ⟨⟨inner, outer, simple, access⟩, rfl, hinner, houter⟩
    refine ⟨inner, _, ?_, outer, _, rfl, simple, _, rfl, access, _, rfl, n.outer, _,
      ⟨houter, rfl⟩, n.name, rest, ⟨hinner, rfl⟩, rfl, rfl⟩
    simp [NestedLayout.bytes]

theorem nestedTable_eq_ok_iff {p : Pool} {body junk : Bytes} {rows : List NestedClass} :
    (counted (nestedRow p)).run body = .ok (rows, junk) ↔
      ∃ table : Table NestedLayout, body = countedBytes NestedLayout.bytes table.rows ++ junk
        ∧ List.Forall₂ (NestedLayout.Denotes p) table.rows rows := by
  show counted (nestedRow p) body = _ ↔ _
  rw [(nestedRow_reads p).counted]
  constructor
  · rintro ⟨table, hfits, hbody, htable⟩
    exact ⟨⟨table, hfits⟩, hbody, htable⟩
  · rintro ⟨⟨table, hfits⟩, hbody, htable⟩
    exact ⟨table, hfits, hbody, htable⟩

theorem classAttribute_reads (p : Pool) :
    Reads (classAttribute p) AttributeLayout.bytes (AttributeLayout.Denotes p) := by
  intro s table rest
  unfold classAttribute nestedTableName
  simp only [bind_eq_ok_iff, word_eq_ok_iff, doubleWord_eq_ok_iff, lift_eq_ok_iff,
    Pool.utf8_eq_ok_iff]
  constructor
  · rintro ⟨nameIndex, _, rfl, length, _, rfl, name, _, ⟨hname, rfl⟩, h⟩
    by_cases hn : name = "InnerClasses"
    · rw [if_pos hn] at h
      simp only [bind_eq_ok_iff, slice_eq_ok_iff, lift_eq_ok_iff, pure_eq_ok_iff] at h
      obtain ⟨body, _, ⟨rfl, hbody⟩, ⟨rows, junk⟩, _, ⟨hrows, rfl⟩, rfl, rfl⟩ := h
      obtain ⟨hfits, hlength⟩ := ofDoubleWord_length_append hbody
      obtain ⟨nested, hnested, hdenotes⟩ := nestedTable_eq_ok_iff.mp hrows
      refine ⟨⟨nameIndex, body, hfits⟩, ?_, name, hname, ?_⟩
      · simp [AttributeLayout.bytes, hlength]
      · rw [if_pos hn]
        exact ⟨rows, ⟨nested, junk, hnested, hdenotes⟩, rfl⟩
    · rw [if_neg hn] at h
      obtain ⟨body, hbody, rfl, rfl⟩ := skip_return_eq_ok_iff.mp h
      obtain ⟨hfits, hlength⟩ := ofDoubleWord_length_append hbody
      refine ⟨⟨nameIndex, body, hfits⟩, ?_, name, hname, ?_⟩
      · simp [AttributeLayout.bytes, hlength]
      · rw [if_neg hn]
  · rintro ⟨⟨nameIndex, body, hfits⟩, rfl, name, hname, htable⟩
    have hlength : body.length = (UInt32.ofNat body.length).toNat :=
      (UInt32.toNat_ofNat_of_lt' hfits).symm
    refine ⟨nameIndex, _, ?_, UInt32.ofNat body.length, body ++ rest, rfl, name, _,
      ⟨hname, rfl⟩, ?_⟩
    · simp [AttributeLayout.bytes]
    by_cases hn : name = "InnerClasses"
    · rw [if_pos hn] at htable ⊢
      obtain ⟨rows, ⟨nested, junk, hnested, hdenotes⟩, rfl⟩ := htable
      have hrows := nestedTable_eq_ok_iff.mpr ⟨nested, hnested, hdenotes⟩
      simp only [bind_eq_ok_iff, slice_eq_ok_iff, lift_eq_ok_iff, pure_eq_ok_iff]
      exact ⟨body, rest, ⟨rfl, hlength⟩, (rows, junk), rest, ⟨hrows, rfl⟩, rfl, rfl⟩
    · rw [if_neg hn] at htable ⊢
      exact skip_return_eq_ok_iff.mpr ⟨body, hlength, rfl, htable.symm⟩

/-! ## The class -/

theorem lastTable_eq (tables : List (Option (List NestedClass))) :
    lastTable tables = tables.reduceOption.getLast?.getD [] := by
  unfold lastTable List.reduceOption
  rw [List.getLastD_eq_getLast?]

theorem mentions_eq_ok_iff {p : Pool} {ms : List Mention} :
    p.mentions = .ok ms ↔ ∃ found,
      List.Forall₂ (fun c m => p.mention c = .ok m) p.slots.toList found
        ∧ ms = found.filterMap id := by
  unfold Pool.mentions
  simp only [except_bind_eq_ok_iff, mapM_eq_ok_iff]
  constructor
  · rintro ⟨found, hfound, h⟩
    cases h
    exact ⟨found, hfound, rfl⟩
  · rintro ⟨found, hfound, rfl⟩
    exact ⟨found, hfound, rfl⟩

theorem ofDoubleWord_magic : Bytes.ofDoubleWord magic = [0xCA, 0xFE, 0xBA, 0xBE] := rfl

/-- A class file and what follows it, in the order of reading. -/
theorem ClassLayout.bytes_append (l : ClassLayout) (rest : Bytes) :
    l.bytes ++ rest = Bytes.ofDoubleWord magic ++ (Bytes.ofWord l.minor ++ (Bytes.ofWord l.major
      ++ (l.pool.bytes ++ (Bytes.ofWord l.access ++ (Bytes.ofWord l.this ++ (Bytes.ofWord l.super
      ++ (countedBytes Bytes.ofWord l.interfaces.rows
      ++ (countedBytes MemberLayout.bytes l.fields.rows
      ++ (countedBytes MemberLayout.bytes l.methods.rows
      ++ (countedBytes AttributeLayout.bytes l.attributes.rows ++ rest)))))))))) := by
  rw [ofDoubleWord_magic, ClassLayout.bytes]
  simp only [List.append_assoc]

/-- What is read as a class file is laid out as one, and stands for the view read from it. -/
theorem exists_layout_of_classFile {s rest : Bytes} {c : ClassView}
    (h : classFile s = .ok (c, rest)) :
    ∃ l : ClassLayout, s = l.bytes ++ rest ∧ l.Denotes c := by
  unfold classFile at h
  obtain ⟨head, s, hhead, h⟩ := bind_eq_ok_iff.mp h
  by_cases hmagic : head = magic
  · rw [if_neg (not_not.mpr hmagic)] at h
    obtain ⟨minor, _, hminor, h⟩ := bind_eq_ok_iff.mp h
    obtain ⟨major, _, hmajor, h⟩ := bind_eq_ok_iff.mp h
    obtain ⟨_, _, hpool, h⟩ := bind_eq_ok_iff.mp h
    obtain ⟨access, _, haccess, h⟩ := bind_eq_ok_iff.mp h
    obtain ⟨this, _, hthis, h⟩ := bind_eq_ok_iff.mp h
    obtain ⟨super, _, hsuper, h⟩ := bind_eq_ok_iff.mp h
    obtain ⟨name, _, hreadName, h⟩ := bind_eq_ok_iff.mp h
    obtain ⟨superclass, _, hreadSuper, h⟩ := bind_eq_ok_iff.mp h
    obtain ⟨interfaces, _, hreadInterfaces, h⟩ := bind_eq_ok_iff.mp h
    obtain ⟨fields, _, hreadFields, h⟩ := bind_eq_ok_iff.mp h
    obtain ⟨methods, _, hreadMethods, h⟩ := bind_eq_ok_iff.mp h
    obtain ⟨tables, _, hreadTables, h⟩ := bind_eq_ok_iff.mp h
    obtain ⟨_, _, hreadMentions, h⟩ := bind_eq_ok_iff.mp h
    obtain ⟨rfl, rfl⟩ := pure_eq_ok_iff.mp h
    obtain ⟨hmentions, rfl⟩ := lift_eq_ok_iff.mp hreadMentions
    obtain ⟨found, hfound, rfl⟩ := mentions_eq_ok_iff.mp hmentions
    obtain ⟨attributes, hattributes, rfl, htables⟩ :=
      (classAttribute_reads _).counted.mp hreadTables
    obtain ⟨methodRows, hmethodRows, rfl, hmethods⟩ := (member_reads _).counted.mp hreadMethods
    obtain ⟨fieldRows, hfieldRows, rfl, hfields⟩ := (member_reads _).counted.mp hreadFields
    obtain ⟨interfaceRows, hinterfaceRows, rfl, hinterfaces⟩ :=
      (classAt_reads _).counted.mp hreadInterfaces
    obtain ⟨hsuperclass, rfl⟩ := lift_eq_ok_iff.mp hreadSuper
    rw [Pool.optionalClass_eq_ok_iff] at hsuperclass
    obtain ⟨hname, rfl⟩ := lift_eq_ok_iff.mp hreadName
    rw [Pool.className_eq_ok_iff] at hname
    obtain rfl := word_eq_ok_iff.mp hsuper
    obtain rfl := word_eq_ok_iff.mp hthis
    obtain rfl := word_eq_ok_iff.mp haccess
    obtain ⟨pool, rfl, rfl⟩ := (pool_reads _ _ _).mp hpool
    obtain rfl := word_eq_ok_iff.mp hmajor
    obtain rfl := word_eq_ok_iff.mp hminor
    obtain ⟨hclassRefs, hmethodRefs, hfieldRefs⟩ := mentions_split.mp ⟨found, hfound, rfl, rfl, rfl⟩
    refine ⟨⟨minor, major, pool, access, this, super, ⟨interfaceRows, hinterfaceRows⟩,
      ⟨fieldRows, hfieldRows⟩, ⟨methodRows, hmethodRows⟩, ⟨attributes, hattributes⟩⟩, ?_, ?_⟩
    · rw [doubleWord_eq_ok_iff.mp hhead, hmagic, ClassLayout.bytes_append]
    · exact {
        name := hname
        superclass := hsuperclass
        access := rfl
        interfaces := hinterfaces
        fields := hfields
        methods := hmethods
        nested := ⟨tables, htables, lastTable_eq tables⟩
        classRefs := hclassRefs
        methodRefs := hmethodRefs
        fieldRefs := hfieldRefs }
  · rw [if_pos hmagic] at h
    obtain ⟨_, _, hthrow, _⟩ := bind_eq_ok_iff.mp h
    exact absurd hthrow throw_ne_ok

/-- A class file is read as any view it stands for, whatever follows it. -/
theorem classFile_of_layout {l : ClassLayout} {c : ClassView} (h : l.Denotes c) (rest : Bytes) :
    classFile (l.bytes ++ rest) = .ok (c, rest) := by
  obtain ⟨tables, htables, hnested⟩ := h.nested
  obtain ⟨found, hfound, hclassRefs, hmethodRefs, hfieldRefs⟩ :=
    mentions_split.mpr ⟨h.classRefs, h.methodRefs, h.fieldRefs⟩
  have hview : ClassView.mk c.name c.superclass c.interfaces ⟨l.access⟩ c.fields c.methods
      (lastTable tables) ((found.filterMap id).filterMap Mention.class?)
      ((found.filterMap id).filterMap Mention.method?)
      ((found.filterMap id).filterMap Mention.field?) = c := by
    rw [← h.access, lastTable_eq, ← hnested, ← hclassRefs, ← hmethodRefs, ← hfieldRefs]
  rw [ClassLayout.bytes_append]
  unfold classFile
  refine bind_eq_ok_iff.mpr ⟨magic, _, doubleWord_eq_ok_iff.mpr rfl, ?_⟩
  rw [if_neg (not_not.mpr rfl)]
  simp only [bind_eq_ok_iff, word_eq_ok_iff, lift_eq_ok_iff, pool_reads _ _ _,
    Pool.className_eq_ok_iff, Pool.optionalClass_eq_ok_iff, (classAt_reads _).counted,
    (member_reads _).counted, (classAttribute_reads _).counted, mentions_eq_ok_iff,
    pure_eq_ok_iff]
  exact ⟨l.minor, _, rfl, l.major, _, rfl, _, _, ⟨l.pool, rfl, rfl⟩, l.access, _, rfl, l.this, _,
    rfl, l.super, _, rfl, c.name, _, ⟨h.name, rfl⟩, c.superclass, _, ⟨h.superclass, rfl⟩,
    c.interfaces, _, ⟨l.interfaces.rows, l.interfaces.fits, rfl, h.interfaces⟩,
    c.fields, _, ⟨l.fields.rows, l.fields.fits, rfl, h.fields⟩,
    c.methods, _, ⟨l.methods.rows, l.methods.fits, rfl, h.methods⟩,
    tables, _, ⟨l.attributes.rows, l.attributes.fits, rfl, htables⟩,
    _, rest, ⟨⟨found, hfound, rfl⟩, rfl⟩, hview, rfl⟩

theorem ClassLayout.Denotes.classFile_bytes {l : ClassLayout} {c : ClassView} (h : l.Denotes c) :
    classFile l.bytes = .ok (c, []) := by
  have hread := classFile_of_layout h []
  rwa [List.append_nil] at hread

theorem decode_eq_ok_iff {s : Bytes} {c : ClassView} :
    decode s = .ok c ↔ ∃ rest, classFile s = .ok (c, rest) := by
  unfold decode
  show Except.map Prod.fst (classFile s) = _ ↔ _
  cases classFile s with
  | error fault => simp [Except.map]
  | ok read =>
    obtain ⟨view, rest⟩ := read
    simp [Except.map]

/-- **Reading accepts exactly the class files.**  Bytes are read as a view exactly when they begin
with a class file that stands for this view; what follows it does not matter. -/
theorem decode_eq_ok_iff_layout (s : Bytes) (c : ClassView) :
    decode s = .ok c ↔ ∃ (l : ClassLayout) (junk : Bytes), s = l.bytes ++ junk ∧ l.Denotes c := by
  rw [decode_eq_ok_iff]
  constructor
  · rintro ⟨junk, hread⟩
    obtain ⟨l, hs, hl⟩ := exists_layout_of_classFile hread
    exact ⟨l, junk, hs, hl⟩
  · rintro ⟨l, junk, rfl, hl⟩
    exact ⟨junk, classFile_of_layout hl junk⟩

end Linkage.ClassFile
