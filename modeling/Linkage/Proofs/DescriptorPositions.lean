import Mathlib.Logic.Function.Iterate
import Linkage.Proofs.DescriptorFaults

/-!
# Positions in a descriptor

A descriptor can be read by a position that counts bytes.  What comes next is told by the byte
there, and bytes are passed one at a time, whatever character they belong to; only a class name is
cut out of the text, and a cut inside a character or past the end breaks the reading off.  Each
byte that is passed for what it is turns out to be a whole character, so that no cut ever does.

* `Moment`, `Moment.next`: such a reading, one step at a time.
* `Moment.Sound`: where the position stands among the characters; a step keeps it
  (`Moment.Sound.next`).
* `Leads`: the reading arrives where reading by characters does (`fieldType_leads`,
  `parameterTypes_leads`).
* `positions_safe`: both together, for types and signatures.
-/

namespace Linkage.Descriptor

/-! ## Reading by bytes -/

/-- Cuts a text after some bytes.  There is no cut past its end or inside a character. -/
def cut : Nat → List Char → Option (List Char × List Char)
  | 0, cs => some ([], cs)
  | _ + 1, [] => none
  | n + 1, c :: cs =>
    if c.utf8Size ≤ n + 1 then (cut (n + 1 - c.utf8Size) cs).map fun (xs, ys) => (c :: xs, ys)
    else none

/-- How many bytes stand before the first semicolon. -/
def semicolon? (cs : List Char) : Option Nat :=
  if ';' ∈ cs then some (byteLength (cs.takeWhile (· != ';'))) else none

/-- What a type is read for. -/
inductive Purpose where
  /-- It is all of a descriptor. -/
  | field
  /-- It is the parameter that follows these. -/
  | parameter (before : List FieldType)
  /-- It is the result of a method with these parameters. -/
  | result (parameters : List FieldType)

/-- What a descriptor stands for. -/
inductive Meaning where
  /-- A type. -/
  | field (type : FieldType)
  /-- A signature. -/
  | method (signature : Signature)

/-- What is to be read next. -/
inductive Work where
  /-- The opening parenthesis. -/
  | opening
  /-- Another parameter, if any. -/
  | parameters (before : List FieldType)
  /-- The closing parenthesis. -/
  | closing (parameters : List FieldType)
  /-- The result. -/
  | result (parameters : List FieldType)
  /-- More brackets, after `count` of them from `start` on. -/
  | brackets (start count : Nat) (purpose : Purpose)
  /-- The byte that tells a type that is no array. -/
  | element (dimensions : Nat) (purpose : Purpose)
  /-- What belongs to that byte, which has just been passed. -/
  | tagged (tag : UInt8) (dimensions : Nat) (purpose : Purpose)
  /-- The name of a class. -/
  | name (dimensions : Nat) (purpose : Purpose)
  /-- Nothing. -/
  | ending (meaning : Meaning)

/-- A moment of a reading. -/
inductive Moment where
  /-- So many bytes have been passed, and this is next. -/
  | working (position : Nat) (work : Work)
  /-- The reading has come to an answer. -/
  | ended (result : Except Fault Meaning)
  /-- The reading broke off. -/
  | broken

/-- What follows a type. -/
def Purpose.fulfilled (t : FieldType) : Purpose → Work
  | .field => .ending (.field t)
  | .parameter before => .parameters (before ++ [t])
  | .result parameters => .ending (.method ⟨parameters, some t⟩)

namespace Moment

/-- Goes on by the byte at a position. -/
def peek (s : String) (position : Nat) (go : UInt8 → Moment) : Moment :=
  match (Text.encode s)[position]? with
  | none => .ended (.error .unexpectedEnd)
  | some byte => go byte

/-- Passes a byte that has to be `wanted`. -/
def pass (s : String) (wanted : Char) (position : Nat) (work : Work) : Moment :=
  peek s position fun found =>
    if found = wanted.toUInt8 then .working (position + 1) work
    else .ended (.error (.expected wanted position found))

/-- Goes on by the byte that has been passed. -/
def dispatch (tag : UInt8) (position dimensions : Nat) (purpose : Purpose) : Moment :=
  if tag = 'L'.toUInt8 then .working position (.name dimensions purpose)
  else
    match Primitive.ofLetter? (Char.ofNat tag.toNat) with
    | some p => .working position (purpose.fulfilled ((FieldType.primitive p).arrays dimensions))
    | none =>
      match position with
      | 0 => .broken
      | before + 1 => .ended (.error (.unexpectedTag tag before))

/-- Cuts out the name of a class, and passes it and its semicolon. -/
def cutName (s : String) (position dimensions : Nat) (purpose : Purpose) : Moment :=
  match cut position s.toList with
  | none => .broken
  | some (_, rest) =>
    match semicolon? rest with
    | none => .ended (.error .unterminatedName)
    | some stop =>
      if stop = 0 then .ended (.error .emptyName)
      else
        match cut stop rest with
        | none => .broken
        | some (name, _) =>
          let type := FieldType.reference (.ofInternal (String.ofList name))
          .working (position + (stop + 1)) (purpose.fulfilled (type.arrays dimensions))

/-- The next moment. -/
def next (s : String) : Moment → Moment
  | .working p .opening => pass s '(' p (.parameters [])
  | .working p (.parameters before) =>
    peek s p fun byte =>
      if byte = ')'.toUInt8 then .working p (.closing before)
      else .working p (.brackets p 0 (.parameter before))
  | .working p (.closing parameters) => pass s ')' p (.result parameters)
  | .working p (.result parameters) =>
    peek s p fun byte =>
      if byte = 'V'.toUInt8 then .working (p + 1) (.ending (.method ⟨parameters, none⟩))
      else .working p (.brackets p 0 (.result parameters))
  | .working p (.brackets start count purpose) =>
    peek s p fun byte =>
      if byte = '['.toUInt8 then
        if maxDimensions < count + 1 then .ended (.error (.tooManyDimensions start))
        else .working (p + 1) (.brackets start (count + 1) purpose)
      else .working p (.element count purpose)
  | .working p (.element dimensions purpose) =>
    peek s p fun byte => .working (p + 1) (.tagged byte dimensions purpose)
  | .working p (.tagged tag dimensions purpose) => dispatch tag p dimensions purpose
  | .working p (.name dimensions purpose) => cutName s p dimensions purpose
  | .working p (.ending meaning) =>
    if p = s.utf8ByteSize then .ended (.ok meaning) else .ended (.error (.trailing p))
  | .ended result => .ended result
  | .broken => .broken

/-- Before a field descriptor is read. -/
def fieldStart : Moment := .working 0 (.brackets 0 0 .field)

/-- Before a method descriptor is read. -/
def methodStart : Moment := .working 0 .opening

end Moment

/-! ## Bytes and characters -/

theorem firstByte_of_ascii {c : Char} (h : c.toNat ≤ 0x7F) : firstByte c = UInt8.ofNat c.toNat := by
  rw [firstByte, Text.encodeChar_eq, if_pos h]
  rfl

/-- Longer characters begin with bytes that are no characters by themselves. -/
theorem lt_toNat_firstByte {c : Char} (h : ¬ c.toNat ≤ 0x7F) : 0x7F < (firstByte c).toNat := by
  rw [firstByte, Text.encodeChar_eq, if_neg h]
  split
  · rw [List.headD_cons, Text.toNat_ofNat_byte (by omega)]
    omega
  · split
    · rw [List.headD_cons, Text.toNat_ofNat_byte (by omega)]
      omega
    · rw [List.headD_cons, Text.toNat_ofNat_byte (by omega)]
      omega

theorem firstByte_eq_iff {c wanted : Char} (hwanted : wanted.toNat ≤ 0x7F) :
    firstByte c = wanted.toUInt8 ↔ c = wanted := by
  have hbyte : wanted.toUInt8.toNat = wanted.toNat :=
    Text.toNat_ofNat_byte (n := wanted.toNat) (by omega)
  constructor
  · intro h
    by_cases hc : c.toNat ≤ 0x7F
    · have hcode : c.toNat = wanted.toNat := by
        rw [← hbyte, ← h, firstByte_of_ascii hc, Text.toNat_ofNat_byte (by omega)]
      rw [← Char.ofNat_toNat c, hcode, Char.ofNat_toNat]
    · have hlong := lt_toNat_firstByte hc
      rw [h, hbyte] at hlong
      omega
  · rintro rfl
    exact firstByte_of_ascii hwanted

theorem ofLetter?_of_lt {c : Char} (h : 0x7F < c.toNat) : Primitive.ofLetter? c = none := by
  rw [Option.eq_none_iff_forall_ne_some]
  intro p hp
  rw [Primitive.ofLetter?_eq_some_iff] at hp
  have hletter : p.letter.toNat ≤ 0x7F := by cases p <;> decide
  rw [hp] at hletter
  omega

theorem ofLetter?_firstByte (c : Char) :
    Primitive.ofLetter? (Char.ofNat (firstByte c).toNat) = Primitive.ofLetter? c := by
  by_cases hc : c.toNat ≤ 0x7F
  · rw [firstByte_of_ascii hc, Text.toNat_ofNat_byte (by omega), Char.ofNat_toNat]
  · have hlong := lt_toNat_firstByte hc
    have hbyte := (firstByte c).toNat_lt
    have hvalid : (firstByte c).toNat.isValidChar := .inl (by omega)
    have hcode : (Char.ofNat (firstByte c).toNat).toNat = (firstByte c).toNat := by
      rw [Char.ofNat, dif_pos hvalid]
      rfl
    rw [ofLetter?_of_lt (by omega), ofLetter?_of_lt (by omega)]

theorem utf8Size_of_ascii {c : Char} (h : c.toNat ≤ 0x7F) : c.utf8Size = 1 := by
  rw [← String.length_utf8EncodeChar, Text.encodeChar_eq, if_pos h]
  rfl

theorem byteLength_eq_zero_iff {cs : List Char} : byteLength cs = 0 ↔ cs = [] := by
  cases cs with
  | nil => simp [byteLength]
  | cons c cs =>
    have hpos := c.utf8Size_pos
    refine iff_of_false ?_ (by simp)
    show c.utf8Size + byteLength cs ≠ 0
    omega

theorem utf8ByteSize_eq_byteLength (s : String) : s.utf8ByteSize = byteLength s.toList := by
  rw [byteLength_eq_length, ← Text.length_encode]
  rfl

/-! ## Cuts -/

theorem cut_eq_some_iff {n : Nat} {cs xs ys : List Char} :
    cut n cs = some (xs, ys) ↔ cs = xs ++ ys ∧ byteLength xs = n := by
  fun_induction cut n cs generalizing xs with
  | case1 cs =>
    rw [byteLength_eq_zero_iff]
    constructor
    · intro h
      cases h
      exact ⟨rfl, rfl⟩
    · rintro ⟨rfl, rfl⟩
      rfl
  | case2 n =>
    refine iff_of_false (by simp) ?_
    rintro ⟨h, hlength⟩
    rw [(List.append_eq_nil_iff.mp h.symm).1] at hlength
    cases hlength
  | case3 n c cs hfits ih =>
    rw [Option.map_eq_some_iff]
    constructor
    · rintro ⟨⟨xs', ys'⟩, hcut, h⟩
      cases h
      obtain ⟨rfl, hlength⟩ := ih.mp hcut
      refine ⟨rfl, ?_⟩
      show c.utf8Size + byteLength xs' = n + 1
      omega
    · rintro ⟨h, hlength⟩
      cases xs with
      | nil => cases hlength
      | cons d xs =>
        obtain ⟨rfl, rfl⟩ := List.cons.inj h
        have hsum : c.utf8Size + byteLength xs = n + 1 := hlength
        exact ⟨(xs, ys), ih.mpr ⟨rfl, by omega⟩, rfl⟩
  | case4 n c cs hfits =>
    refine iff_of_false (by simp) ?_
    rintro ⟨h, hlength⟩
    cases xs with
    | nil => cases hlength
    | cons d xs =>
      obtain ⟨rfl, -⟩ := List.cons.inj h
      have hsum : c.utf8Size + byteLength xs = n + 1 := hlength
      omega

theorem semicolon?_of_notMem {cs : List Char} (h : ';' ∉ cs) : semicolon? cs = none :=
  if_neg h

theorem semicolon?_append {name : List Char} (hplain : ';' ∉ name) (rest : List Char) :
    semicolon? (name ++ ';' :: rest) = some (byteLength name) := by
  rw [semicolon?, if_pos (by simp), (takeWhile_name hplain rest).1]

/-- Either a name has no semicolon, or it is what stands before the first one. -/
theorem name_cases (rest : List Char) :
    ';' ∉ rest ∨ ∃ name more, ';' ∉ name ∧ rest = name ++ ';' :: more := by
  by_cases h : ';' ∈ rest
  · obtain ⟨name, more, hrest, hplain⟩ := List.eq_append_cons_of_mem h
    exact .inr ⟨name, more, hplain, hrest⟩
  · exact .inl h

/-! ## Where the position stands -/

/-- The place is one in the text `s`: some first characters of the text lead to it. -/
def Place.In (q : Place) (s : String) : Prop :=
  ∃ cs, (Place.start s).Passes cs q

namespace Place.In

variable {s : String} {p : Nat} {c : Char} {rest : List Char}

theorem start (s : String) : (Place.start s).In s := ⟨[], passes_nil⟩

theorem passes {q r : Place} {cs : List Char} (h : q.In s) (hcs : q.Passes cs r) : r.In s := by
  obtain ⟨before, hbefore⟩ := h
  exact ⟨before ++ cs, hbefore.trans hcs⟩

theorem exists_append (h : (⟨p, rest⟩ : Place).In s) :
    ∃ cs, s.toList = cs ++ rest ∧ p = byteLength cs := by
  obtain ⟨cs, hrest, hoffset⟩ := h
  exact ⟨cs, hrest, hoffset.trans (Nat.zero_add _)⟩

/-- Behind a character of one byte is a place. -/
theorem succ (h : (⟨p, c :: rest⟩ : Place).In s) (hc : c.toNat ≤ 0x7F) :
    (⟨p + 1, rest⟩ : Place).In s := by
  have hlength : byteLength [c] = 1 := utf8Size_of_ascii hc
  exact h.passes ⟨rfl, by rw [hlength]⟩

theorem offset_add (h : (⟨p, rest⟩ : Place).In s) : p + byteLength rest = s.utf8ByteSize := by
  obtain ⟨cs, hs, rfl⟩ := h.exists_append
  rw [← byteLength_append, ← hs, utf8ByteSize_eq_byteLength]

/-- The byte at a place begins the character there. -/
theorem getElem?_encode (h : (⟨p, rest⟩ : Place).In s) :
    (Text.encode s)[p]? = rest.head?.map firstByte := by
  obtain ⟨cs, hs, rfl⟩ := h.exists_append
  rw [Text.encode, hs, List.flatMap_append, byteLength_eq_length,
    List.getElem?_append_right le_rfl, Nat.sub_self]
  cases rest with
  | nil => rfl
  | cons c rest =>
    have hpos : 0 < (String.utf8EncodeChar c).length := by
      rw [String.length_utf8EncodeChar]
      exact c.utf8Size_pos
    obtain ⟨byte, bytes, hbytes⟩ := List.exists_cons_of_length_pos hpos
    simp [firstByte, hbytes]

end Place.In

/-- The places of a text are its boundaries between characters. -/
theorem exists_in_iff {s : String} {p : Nat} :
    (∃ rest, (⟨p, rest⟩ : Place).In s) ↔ String.Pos.Raw.IsValid s ⟨p⟩ := by
  rw [String.Pos.Raw.isValid_iff_exists_append]
  constructor
  · rintro ⟨rest, h⟩
    obtain ⟨cs, hs, rfl⟩ := h.exists_append
    refine ⟨String.ofList cs, String.ofList rest, ?_, ?_⟩
    · rw [← String.ofList_append, ← hs, String.ofList_toList]
    · rw [String.Pos.Raw.ext_iff, String.byteIdx_rawEndPos, utf8ByteSize_eq_byteLength,
        String.toList_ofList]
  · rintro ⟨first, last, rfl, hp⟩
    rw [String.Pos.Raw.ext_iff, String.byteIdx_rawEndPos, utf8ByteSize_eq_byteLength] at hp
    refine ⟨last.toList, first.toList, String.toList_append, ?_⟩
    exact hp.trans (Nat.zero_add _).symm

/-- A text can be cut exactly between characters. -/
theorem cut_eq_none_iff {s : String} {p : Nat} :
    cut p s.toList = none ↔ ¬ String.Pos.Raw.IsValid s ⟨p⟩ := by
  rw [← exists_in_iff, Option.eq_none_iff_forall_ne_some, not_exists]
  constructor
  · intro h rest hrest
    obtain ⟨cs, hs, hp⟩ := hrest.exists_append
    exact h (cs, rest) (cut_eq_some_iff.mpr ⟨hs, hp.symm⟩)
  · rintro h ⟨cs, rest⟩ hcut
    obtain ⟨hs, rfl⟩ := cut_eq_some_iff.mp hcut
    exact h rest ⟨cs, hs, (Nat.zero_add _).symm⟩

namespace Moment

variable {s : String} {p : Nat} {c : Char} {rest : List Char} {go : UInt8 → Moment}

theorem peek_nil (h : (⟨p, []⟩ : Place).In s) : peek s p go = .ended (.error .unexpectedEnd) := by
  rw [peek, h.getElem?_encode]
  rfl

theorem peek_cons (h : (⟨p, c :: rest⟩ : Place).In s) : peek s p go = go (firstByte c) := by
  rw [peek, h.getElem?_encode]
  rfl

theorem peek_ite {wanted : Char} {yes no : Moment} (h : (⟨p, c :: rest⟩ : Place).In s)
    (hwanted : wanted.toNat ≤ 0x7F) :
    peek s p (fun byte => if byte = wanted.toUInt8 then yes else no)
      = if c = wanted then yes else no := by
  rw [peek_cons h]
  simp only [firstByte_eq_iff hwanted]

theorem cutName_of_notMem {dimensions : Nat} {purpose : Purpose}
    (h : (⟨p, rest⟩ : Place).In s) (hplain : ';' ∉ rest) :
    cutName s p dimensions purpose = .ended (.error .unterminatedName) := by
  obtain ⟨cs, hs, hp⟩ := h.exists_append
  have hcut : cut p s.toList = some (cs, rest) := cut_eq_some_iff.mpr ⟨hs, hp.symm⟩
  rw [cutName, hcut]
  dsimp only
  rw [semicolon?_of_notMem hplain]

theorem cutName_append {name : List Char} {dimensions : Nat} {purpose : Purpose}
    (h : (⟨p, name ++ ';' :: rest⟩ : Place).In s) (hplain : ';' ∉ name) :
    cutName s p dimensions purpose =
      if name = [] then .ended (.error .emptyName)
      else .working (p + (byteLength name + 1)) (purpose.fulfilled
        ((FieldType.reference (.ofInternal (String.ofList name))).arrays dimensions)) := by
  obtain ⟨cs, hs, hp⟩ := h.exists_append
  have hcut : cut p s.toList = some (cs, name ++ ';' :: rest) :=
    cut_eq_some_iff.mpr ⟨hs, hp.symm⟩
  have hname : cut (byteLength name) (name ++ ';' :: rest) = some (name, ';' :: rest) :=
    cut_eq_some_iff.mpr ⟨rfl, rfl⟩
  rw [cutName, hcut]
  dsimp only
  rw [semicolon?_append hplain]
  dsimp only
  rw [hname]
  simp only [byteLength_eq_zero_iff]

/-! ## What every moment keeps -/

/-- Reading stands at a place, or one byte behind the place of a character it knows the first
byte of. -/
def Sound (s : String) : Moment → Prop
  | .working p (.tagged tag _ _) =>
    ∃ before c rest, (⟨before, c :: rest⟩ : Place).In s ∧ p = before + 1 ∧ tag = firstByte c
  | .working p _ => ∃ rest, (⟨p, rest⟩ : Place).In s
  | .ended _ => True
  | .broken => False

theorem sound_peek (h : (⟨p, rest⟩ : Place).In s)
    (hgo : ∀ c more, (⟨p, c :: more⟩ : Place).In s → (go (firstByte c)).Sound s) :
    (peek s p go).Sound s := by
  cases rest with
  | nil =>
    rw [peek_nil h]
    trivial
  | cons c more =>
    rw [peek_cons h]
    exact hgo c more h

/-- A byte that is passed for a character of one byte is all of that character. -/
theorem in_succ_of_byte {wanted : Char} (h : (⟨p, c :: rest⟩ : Place).In s)
    (hwanted : wanted.toNat ≤ 0x7F) (hbyte : firstByte c = wanted.toUInt8) :
    (⟨p + 1, rest⟩ : Place).In s := by
  obtain rfl := (firstByte_eq_iff hwanted).mp hbyte
  exact h.succ hwanted

theorem sound_pass {wanted : Char} {work : Work} (h : (⟨p, rest⟩ : Place).In s)
    (hwanted : wanted.toNat ≤ 0x7F)
    (hwork : ∀ more, (⟨p + 1, more⟩ : Place).In s → (working (p + 1) work).Sound s) :
    (pass s wanted p work).Sound s := by
  refine sound_peek h fun c more hc => ?_
  split
  · next hbyte => exact hwork more (in_succ_of_byte hc hwanted hbyte)
  · trivial

theorem sound_fulfilled {purpose : Purpose} {t : FieldType} (h : (⟨p, rest⟩ : Place).In s) :
    (working p (purpose.fulfilled t)).Sound s := by
  cases purpose <;> exact ⟨rest, h⟩

theorem sound_dispatch {dimensions : Nat} {purpose : Purpose}
    (h : (⟨p, c :: rest⟩ : Place).In s) :
    (dispatch (firstByte c) (p + 1) dimensions purpose).Sound s := by
  unfold dispatch
  split
  · next hbyte => exact ⟨rest, in_succ_of_byte h (by decide) hbyte⟩
  · rw [ofLetter?_firstByte]
    split
    · next letter hletter =>
      rw [Primitive.ofLetter?_eq_some_iff] at hletter
      subst hletter
      exact sound_fulfilled (h.succ (by cases letter <;> decide))
    · trivial

theorem sound_cutName {dimensions : Nat} {purpose : Purpose} (h : (⟨p, rest⟩ : Place).In s) :
    (cutName s p dimensions purpose).Sound s := by
  rcases name_cases rest with hplain | ⟨name, more, hplain, rfl⟩
  · rw [cutName_of_notMem h hplain]
    trivial
  · rw [cutName_append h hplain]
    split
    · trivial
    · have hlength : byteLength (name ++ [';']) = byteLength name + 1 := byteLength_append _ _
      have hpasses : (⟨p, name ++ ';' :: more⟩ : Place).Passes (name ++ [';'])
          ⟨p + (byteLength name + 1), more⟩ := ⟨by simp, by rw [hlength]⟩
      exact sound_fulfilled (h.passes hpasses)

/-- A step leads to a place again, or to an answer. -/
theorem Sound.next {m : Moment} (h : m.Sound s) : (m.next s).Sound s := by
  cases m with
  | ended result => trivial
  | broken => exact h
  | working p work =>
    cases work with
    | tagged tag dimensions purpose =>
      obtain ⟨before, c, rest, hc, rfl, rfl⟩ := h
      exact sound_dispatch hc
    | opening =>
      obtain ⟨rest, h⟩ := h
      exact sound_pass h (by decide) fun more hmore => ⟨more, hmore⟩
    | closing parameters =>
      obtain ⟨rest, h⟩ := h
      exact sound_pass h (by decide) fun more hmore => ⟨more, hmore⟩
    | parameters before =>
      obtain ⟨rest, h⟩ := h
      refine sound_peek h fun c more hc => ?_
      split <;> exact ⟨rest, h⟩
    | result parameters =>
      obtain ⟨rest, h⟩ := h
      refine sound_peek h fun c more hc => ?_
      split
      · next hbyte => exact ⟨more, in_succ_of_byte hc (by decide) hbyte⟩
      · exact ⟨rest, h⟩
    | brackets start count purpose =>
      obtain ⟨rest, h⟩ := h
      refine sound_peek h fun c more hc => ?_
      split
      · next hbyte =>
        split
        · trivial
        · exact ⟨more, in_succ_of_byte hc (by decide) hbyte⟩
      · exact ⟨rest, h⟩
    | element dimensions purpose =>
      obtain ⟨rest, h⟩ := h
      exact sound_peek h fun c more hc => ⟨p, c, more, hc, rfl, rfl⟩
    | name dimensions purpose =>
      obtain ⟨rest, h⟩ := h
      exact sound_cutName h
    | ending meaning =>
      simp only [Moment.next]
      split <;> trivial

theorem Sound.iterate {m : Moment} (h : m.Sound s) (n : Nat) :
    ((Moment.next s)^[n] m).Sound s := by
  induction n generalizing m with
  | zero => exact h
  | succ n ih => exact ih h.next

/-- The position is in the text, and at the start of a character or the end of the text unless the
byte just passed is about to be refused. -/
def Safe (s : String) : Moment → Prop
  | .working p work => p ≤ s.utf8ByteSize ∧ (String.Pos.Raw.IsValid s ⟨p⟩
    ∨ ∃ tag dimensions purpose, work = .tagged tag dimensions purpose
      ∧ (Moment.working p work).next s = .ended (.error (.unexpectedTag tag (p - 1))))
  | .ended _ => True
  | .broken => False

/-- The first byte of a longer character is no tag. -/
theorem dispatch_of_lt {dimensions : Nat} {purpose : Purpose} (h : ¬ c.toNat ≤ 0x7F) :
    dispatch (firstByte c) (p + 1) dimensions purpose
      = .ended (.error (.unexpectedTag (firstByte c) p)) := by
  have hname : firstByte c ≠ 'L'.toUInt8 := by
    rw [ne_eq, firstByte_eq_iff (by decide)]
    rintro rfl
    exact h (by decide)
  rw [dispatch, if_neg hname, ofLetter?_firstByte, ofLetter?_of_lt (by omega)]

theorem Sound.safe {m : Moment} (h : m.Sound s) : m.Safe s := by
  -- at a place nothing is left to show
  have hplace : ∀ {p : Nat} {work : Work},
      (∃ rest, (⟨p, rest⟩ : Place).In s) → (working p work).Safe s := by
    rintro p work ⟨rest, h⟩
    exact ⟨by have := h.offset_add; omega, .inl (exists_in_iff.mp ⟨rest, h⟩)⟩
  cases m with
  | ended result => trivial
  | broken => exact h
  | working p work =>
    cases work with
    | tagged tag dimensions purpose =>
      obtain ⟨before, c, rest, hc, rfl, rfl⟩ := h
      by_cases hascii : c.toNat ≤ 0x7F
      · exact hplace ⟨rest, hc.succ hascii⟩
      · have hsize : before + (c.utf8Size + byteLength rest) = s.utf8ByteSize := hc.offset_add
        have hpos := c.utf8Size_pos
        exact ⟨by omega, .inr ⟨_, _, _, rfl, dispatch_of_lt hascii⟩⟩
    | _ => exact hplace h

end Moment

/-! ## Arriving where characters lead -/

/-- The reading of `s` comes from one moment to another. -/
def Leads (s : String) (m m' : Moment) : Prop :=
  ∃ n, (Moment.next s)^[n] m = m'

/-- Goes on from what has been read, unless that is a fault. -/
def Moment.resume {α : Type} (x : Except Fault α) (go : α → Moment) : Moment :=
  match x with
  | .ok a => go a
  | .error f => .ended (.error f)

namespace Leads

variable {s : String} {m m' m'' : Moment} {α : Type}

theorem refl (s : String) (m : Moment) : Leads s m m := ⟨0, rfl⟩

theorem of_next (h : m.next s = m') : Leads s m m' := ⟨1, h⟩

theorem trans (h : Leads s m m') (h' : Leads s m' m'') : Leads s m m'' := by
  obtain ⟨n, rfl⟩ := h
  obtain ⟨n', rfl⟩ := h'
  exact ⟨n' + n, Function.iterate_add_apply _ _ _ _⟩

/-- What has been read can be gone on from in another way that leads further. -/
theorem resume {x : Except Fault α} {go go' : α → Moment} (h : Leads s m (.resume x go))
    (hgo : ∀ a, x = .ok a → Leads s (go a) (go' a)) : Leads s m (.resume x go') := by
  cases x with
  | ok a => exact h.trans (hgo a rfl)
  | error f => exact h

end Leads

theorem Moment.resume_bind {α β : Type} (x : Except Fault α) (f : α → Except Fault β)
    (go : β → Moment) : resume (x >>= f) go = resume x fun a => resume (f a) go := by
  cases x <;> rfl

theorem Moment.ended_map {α : Type} (x : Except Fault α) (f : α → Meaning) :
    ended (x.map f) = resume x fun a => ended (.ok (f a)) := by
  cases x <;> rfl

variable {s : String} {q : Place}

theorem pass_eq {wanted : Char} {work : Work} (h : q.In s) (hwanted : wanted.toNat ≤ 0x7F) :
    Moment.pass s wanted q.offset work
      = .resume (expect wanted q) fun r => .working r.offset work := by
  obtain ⟨p, rest⟩ := q
  rw [Moment.pass]
  cases rest with
  | nil => exact Moment.peek_nil h
  | cons c rest =>
    rw [Moment.peek_cons h]
    by_cases hc : c = wanted
    · rw [if_pos ((firstByte_eq_iff hwanted).mpr hc)]
      simp [expect, hc, Moment.resume]
    · rw [if_neg (mt (firstByte_eq_iff hwanted).mp hc)]
      simp [expect, hc, Moment.resume]

theorem next_ending {meaning : Meaning} (h : q.In s) :
    (Moment.working q.offset (.ending meaning)).next s
      = .resume (finish q) fun _ => .ended (.ok meaning) := by
  obtain ⟨p, rest⟩ := q
  have hsize := h.offset_add
  cases rest with
  | nil => exact if_pos hsize
  | cons c rest =>
    have hpos := c.utf8Size_pos
    have hlength : byteLength (c :: rest) = c.utf8Size + byteLength rest := rfl
    exact if_neg (by dsimp only; omega)

theorem cutName_eq {p dimensions : Nat} {rest : List Char} {purpose : Purpose}
    (h : (⟨p + 1, rest⟩ : Place).In s) :
    Moment.cutName s (p + 1) dimensions purpose
      = .resume (elementType ⟨p, 'L' :: rest⟩) fun x =>
        .working x.2.offset (purpose.fulfilled (x.1.arrays dimensions)) := by
  rcases name_cases rest with hplain | ⟨name, more, hplain, rfl⟩
  · have hfault : elementType ⟨p, 'L' :: rest⟩ = .error .unterminatedName := by
      simp [elementType, dropWhile_name_eq_nil_iff.mpr hplain]
    rw [Moment.cutName_of_notMem h hplain, hfault, Moment.resume]
  · rw [Moment.cutName_append h hplain]
    by_cases hname : name = []
    · subst hname
      have hfault : elementType ⟨p, 'L' :: ([] ++ ';' :: more)⟩ = .error .emptyName := by
        simp [elementType]
      rw [if_pos rfl, hfault, Moment.resume]
    · have hread : elementType ⟨p, 'L' :: (name ++ ';' :: more)⟩
          = .ok (.reference (.ofInternal (String.ofList name)),
            ⟨p + 1 + (byteLength name + 1), more⟩) := by
        refine elementType_of_passes (w := .named name hname hplain) ⟨?_, ?_⟩
        · simp [ElementSpelling.chars]
        · rw [ElementSpelling.chars, byteLength_named]
          dsimp only
          omega
      rw [if_neg hname, hread, Moment.resume]

theorem dispatch_eq {c : Char} {p dimensions : Nat} {rest : List Char} {purpose : Purpose}
    (hc : c ≠ 'L') :
    Moment.dispatch (firstByte c) (p + 1) dimensions purpose
      = .resume (elementType ⟨p, c :: rest⟩) fun x =>
        .working x.2.offset (purpose.fulfilled (x.1.arrays dimensions)) := by
  have hname : firstByte c ≠ 'L'.toUInt8 := mt (firstByte_eq_iff (by decide)).mp hc
  rw [Moment.dispatch, if_neg hname, ofLetter?_firstByte]
  cases hletter : Primitive.ofLetter? c with
  | none => simp [elementType, hletter, Moment.resume]
  | some letter => simp [elementType, hletter, Moment.resume]

/-- A type that is no array takes two steps, or three with a name. -/
theorem elementType_leads {dimensions : Nat} {purpose : Purpose} (h : q.In s) :
    Leads s (.working q.offset (.element dimensions purpose))
      (.resume (elementType q) fun x =>
        .working x.2.offset (purpose.fulfilled (x.1.arrays dimensions))) := by
  obtain ⟨p, rest⟩ := q
  cases rest with
  | nil => exact .of_next (Moment.peek_nil h)
  | cons c rest =>
    have htag : (Moment.working p (.element dimensions purpose)).next s
        = .working (p + 1) (.tagged (firstByte c) dimensions purpose) := Moment.peek_cons h
    refine (Leads.of_next htag).trans ?_
    by_cases hc : c = 'L'
    · subst hc
      have hname : (Moment.working (p + 1) (.tagged (firstByte 'L') dimensions purpose)).next s
          = .working (p + 1) (.name dimensions purpose) := rfl
      exact (Leads.of_next hname).trans (.of_next (cutName_eq (h.succ (by decide))))
    · exact .of_next (dispatch_eq hc)

/-- Brackets are counted while there are not too many. -/
theorem brackets_lead {n p start count : Nat} {rest : List Char} {purpose : Purpose}
    (h : (⟨p, List.replicate n '[' ++ rest⟩ : Place).In s) (hn : count + n ≤ maxDimensions) :
    Leads s (.working p (.brackets start count purpose))
      (.working (p + n) (.brackets start (count + n) purpose)) := by
  induction n generalizing p count with
  | zero => exact .refl _ _
  | succ n ih =>
    rw [List.replicate_succ, List.cons_append] at h
    have hnext : (Moment.working p (.brackets start count purpose)).next s
        = .working (p + 1) (.brackets start (count + 1) purpose) := by
      refine (Moment.peek_ite h (by decide)).trans ?_
      rw [if_pos rfl, if_neg (by omega)]
    have hfew : count + 1 + n ≤ maxDimensions := by omega
    have hrest := ih (h.succ (by decide)) hfew
    rw [Nat.add_right_comm p, Nat.add_right_comm count] at hrest
    exact (Leads.of_next hnext).trans hrest

/-- Behind the brackets is none. -/
theorem ne_of_drop_brackets {rest more : List Char} {c : Char}
    (h : rest.drop (rest.takeWhile (· == '[')).length = c :: more) : c ≠ '[' := by
  have hdrop := congrArg (List.drop (rest.takeWhile (· == '[')).length)
    (List.takeWhile_append_dropWhile (p := (· == '[')) (l := rest))
  rw [List.drop_left, h] at hdrop
  have hhead := List.head_dropWhile_not (· == '[') (l := rest) (by rw [hdrop]; simp)
  simpa [hdrop] using hhead

theorem tooMany_leads {p count : Nat} {rest : List Char} {purpose : Purpose}
    (h : (⟨p, List.replicate count '[' ++ rest⟩ : Place).In s) (hcount : maxDimensions < count) :
    Leads s (.working p (.brackets p 0 purpose)) (.ended (.error (.tooManyDimensions p))) := by
  obtain ⟨k, rfl⟩ := Nat.exists_eq_add_of_lt hcount
  rw [Nat.add_assoc, List.replicate_add, List.append_assoc] at h
  have hlast := h.passes (r := ⟨p + maxDimensions, _⟩) ⟨rfl, by rw [byteLength_brackets]⟩
  refine (brackets_lead h (by omega)).trans (.of_next ?_)
  refine (Moment.peek_ite hlast (by decide)).trans ?_
  rw [if_pos rfl, if_pos (by omega)]

theorem fieldType_leads {purpose : Purpose} (h : q.In s) :
    Leads s (.working q.offset (.brackets q.offset 0 purpose))
      (.resume (fieldType q) fun x => .working x.2.offset (purpose.fulfilled x.1)) := by
  obtain ⟨p, rest⟩ := q
  have hsplit := brackets_append_drop rest
  have hcount : ∀ c more, rest.drop (rest.takeWhile (· == '[')).length = c :: more → c ≠ '[' :=
    fun c more => ne_of_drop_brackets
  unfold fieldType
  dsimp only
  -- brackets are counted there all at once, here one by one
  generalize (rest.takeWhile (· == '[')).length = n at hsplit hcount ⊢
  rw [← hsplit] at h
  by_cases hmany : maxDimensions < n
  · rw [if_pos hmany]
    exact tooMany_leads h hmany
  · rw [if_neg hmany, Moment.resume_bind]
    have hlast := h.passes (r := ⟨p + n, rest.drop n⟩) ⟨rfl, by rw [byteLength_brackets]⟩
    refine (brackets_lead h (by omega)).trans ?_
    rw [Nat.zero_add]
    generalize rest.drop n = rest' at hcount hlast ⊢
    cases rest' with
    | nil => exact .of_next (Moment.peek_nil hlast)
    | cons c more =>
      have hnext : (Moment.working (p + n) (.brackets p n purpose)).next s
          = .working (p + n) (.element n purpose) :=
        (Moment.peek_ite hlast (by decide)).trans (if_neg (hcount c more rfl))
      exact (Leads.of_next hnext).trans (elementType_leads hlast)

theorem parameterTypes_leads {fuel : Nat} {before : List FieldType} (h : q.In s)
    (hfuel : q.rest.length ≤ fuel) :
    Leads s (.working q.offset (.parameters before)) (.resume (parameterTypes fuel q) fun x =>
      .working x.2.offset (.closing (before ++ x.1))) := by
  -- on the steps left, with the types read so far as what changes
  induction fuel generalizing q before with
  | zero =>
    obtain ⟨p, rest⟩ := q
    obtain rfl : rest = [] := List.length_eq_zero_iff.mp (Nat.le_zero.mp hfuel)
    exact .of_next (Moment.peek_nil h)
  | succ fuel ih =>
    obtain ⟨p, rest⟩ := q
    cases rest with
    | nil => exact .of_next (Moment.peek_nil h)
    | cons c rest =>
      by_cases hc : c = ')'
      · subst hc
        refine .of_next ((Moment.peek_ite h (by decide)).trans ?_)
        simp [parameterTypes, Moment.resume]
      · have hnext : (Moment.working p (.parameters before)).next s
            = .working p (.brackets p 0 (.parameter before)) :=
          (Moment.peek_ite h (by decide)).trans (if_neg hc)
        have hread : parameterTypes (fuel + 1) ⟨p, c :: rest⟩
            = fieldType ⟨p, c :: rest⟩ >>= fun x => parameterTypes fuel x.2 >>= fun y =>
              .ok (x.1 :: y.1, y.2) := by
          rw [parameterTypes]
          split
          · next hempty => cases hempty
          · next hclosed => exact absurd (List.cons.inj hclosed).1 hc
          · rfl
        rw [hread, Moment.resume_bind]
        refine (Leads.of_next hnext).trans ((fieldType_leads h).resume fun x hx => ?_)
        obtain ⟨w, hpasses, -⟩ := fieldType_eq_ok_iff.mp hx
        rw [Moment.resume_bind]
        refine (ih (h.passes hpasses) (hpasses.length_le hfuel)).resume fun y _ => ?_
        rw [List.append_assoc]
        exact .refl _ _

theorem resultType_leads {parameters : List FieldType} (h : q.In s) :
    Leads s (.working q.offset (.result parameters)) (.resume (resultType q) fun x =>
      .working x.2.offset (.ending (.method ⟨parameters, x.1⟩))) := by
  obtain ⟨p, rest⟩ := q
  cases rest with
  | nil => exact .of_next (Moment.peek_nil h)
  | cons c rest =>
    by_cases hc : c = 'V'
    · subst hc
      exact .of_next ((Moment.peek_ite h (by decide)).trans (if_pos rfl))
    · have hnext : (Moment.working p (.result parameters)).next s
          = .working p (.brackets p 0 (.result parameters)) :=
        (Moment.peek_ite h (by decide)).trans (if_neg hc)
      have hread : resultType ⟨p, c :: rest⟩
          = fieldType ⟨p, c :: rest⟩ >>= fun x => .ok (some x.1, x.2) := by
        rw [resultType]
        split
        · next hempty => cases hempty
        · next hvoid => exact absurd (List.cons.inj hvoid).1 hc
        · rfl
      rw [hread, Moment.resume_bind]
      exact (Leads.of_next hnext).trans ((fieldType_leads h).resume fun x _ => .refl _ _)

theorem readField_leads (s : String) :
    Leads s .fieldStart (.ended ((readField s).map .field)) := by
  have hread : readField s = fieldType (.start s) >>= fun x =>
      finish x.2 >>= fun _ => .ok x.1 := rfl
  rw [Moment.ended_map, hread, Moment.resume_bind]
  refine (fieldType_leads (.start s)).resume fun x hx => ?_
  obtain ⟨w, hpasses, -⟩ := fieldType_eq_ok_iff.mp hx
  rw [Moment.resume_bind]
  exact .of_next (next_ending (Place.In.passes (.start s) hpasses))

theorem readMethod_leads (s : String) :
    Leads s .methodStart (.ended ((readMethod s).map .method)) := by
  have hread : readMethod s = expect '(' (.start s) >>= fun q =>
      parameterTypes q.rest.length q >>= fun x => expect ')' x.2 >>= fun r =>
      resultType r >>= fun y => finish y.2 >>= fun _ => .ok ⟨x.1, y.1⟩ := rfl
  rw [Moment.ended_map, hread, Moment.resume_bind]
  have hstart : Leads s .methodStart _ := .of_next (pass_eq (.start s) (by decide))
  refine hstart.resume fun q hq => ?_
  replace hq := Place.In.passes (.start s) ((expect_eq_ok_iff rfl).mp hq)
  rw [Moment.resume_bind]
  refine (parameterTypes_leads hq le_rfl).resume fun x hx => ?_
  obtain ⟨ws, hpasses, -⟩ := (parameterTypes_eq_ok_iff le_rfl).mp hx
  replace hx := hq.passes hpasses
  rw [Moment.resume_bind]
  have hclosing : Leads s (.working x.2.offset (.closing x.1)) _ :=
    .of_next (pass_eq hx (by decide))
  refine hclosing.resume fun r hr => ?_
  replace hr := hx.passes ((expect_eq_ok_iff rfl).mp hr)
  rw [Moment.resume_bind]
  refine (resultType_leads hr).resume fun y hy => ?_
  obtain ⟨w, hpasses, -⟩ := resultType_eq_ok_iff.mp hy
  rw [Moment.resume_bind]
  exact .of_next (next_ending (hr.passes hpasses))

/-- Read byte by byte, a text is never cut inside a character or past its end: at every moment the
position is in the text, and on a boundary between characters unless it follows the first byte of
a character that ends the reading as an unexpected tag.  The reading comes to the same answer as
reading by characters. -/
theorem positions_safe (s : String) :
    (∀ p, cut p s.toList = none ↔ ¬ String.Pos.Raw.IsValid s ⟨p⟩)
      ∧ (∀ n, ((Moment.next s)^[n] .fieldStart).Safe s)
      ∧ (∃ n, (Moment.next s)^[n] .fieldStart = .ended ((readField s).map .field))
      ∧ (∀ n, ((Moment.next s)^[n] .methodStart).Safe s)
      ∧ ∃ n, (Moment.next s)^[n] .methodStart = .ended ((readMethod s).map .method) := by
  have hfield : Moment.fieldStart.Sound s := ⟨s.toList, .start s⟩
  have hmethod : Moment.methodStart.Sound s := ⟨s.toList, .start s⟩
  exact ⟨fun _ => cut_eq_none_iff, fun n => (hfield.iterate n).safe, readField_leads s,
    fun n => (hmethod.iterate n).safe, readMethod_leads s⟩

-- between the two bytes of a character
example : (Moment.next "é")^[2] .fieldStart = .working 1 (.tagged 0xC3 0 .field)
    ∧ ¬ String.Pos.Raw.IsValid "é" ⟨1⟩ :=
  ⟨rfl, by decide⟩

end Linkage.Descriptor
