import Linkage.Proofs.ClassFile.Prefixes
import Linkage.Proofs.ClassFile.Sharing

/-!
# Counts and lengths as they are written

Counts and lengths are written as words.  Apart from the number of constants none is refused for
being too large: what stands in the file is the remainder that fits the word, and a reader that
believes it misreads what follows.

`Pieces` is a class file taken apart with every count and length as it stands, true or not, and
`Blueprint.pieces` is what is written for a blueprint.

* `Pieces.States`: how the numbers that stand in a file follow from what they count.
* `lengths_true_iff`: this is when all numbers are true, and then the file is well-formed.
* `longName_misread`: a name of 65536 bytes is written with length zero.
-/

namespace Linkage.ClassFile

/-! ## Class files with their numbers -/

/-- Rows behind the number that is said to count them. -/
structure Counted (α : Type) where
  /-- The number that stands before the rows. -/
  stated : UInt16
  /-- The rows. -/
  rows : List α

namespace Counted

variable {α : Type}

/-- The number and the rows. -/
def bytes (f : α → Bytes) (c : Counted α) : Bytes :=
  Bytes.ofWord c.stated ++ c.rows.flatMap f

/-- Rows with what is left of their number in a word. -/
def of (rows : List α) : Counted α :=
  ⟨UInt16.ofNat rows.length, rows⟩

/-- What is counted truly fits the word. -/
theorem length_le {c : Counted α} (h : c.stated.toNat = c.rows.length) : c.rows.length ≤ 65535 := by
  have hlt : c.stated.toNat < 65536 := c.stated.toNat_lt
  omega

/-- What fits the word is counted truly. -/
theorem stated_eq {c : Counted α} (h : c.stated.toNat = c.rows.length % 65536)
    (hle : c.rows.length ≤ 65535) : c.stated.toNat = c.rows.length :=
  h.trans (Nat.mod_eq_of_lt (Nat.lt_succ_of_le hle))

end Counted

/-- A constant as it stands in a file. -/
inductive ConstantPiece where
  /-- A text behind the number that is said to be its length. -/
  | text (stated : UInt16) (content : Bytes)
  /-- A tag and indexes. -/
  | indexes (tag : UInt8) (words : List UInt16)

/-- The tag and what follows it. -/
def ConstantPiece.bytes : ConstantPiece → Bytes
  | .text stated content => 1 :: (Bytes.ofWord stated ++ content)
  | .indexes tag words => tag :: words.flatMap Bytes.ofWord

/-- The nested class table as an attribute. -/
structure NestedPiece where
  /-- The index of its name. -/
  name : UInt16
  /-- The number that is said to be the length of the table. -/
  stated : UInt32
  /-- The table. -/
  table : Counted NestedRow

/-- The name, the length and the table. -/
def NestedPiece.bytes (n : NestedPiece) : Bytes :=
  Bytes.ofWord n.name ++ Bytes.ofDoubleWord n.stated ++ n.table.bytes NestedRow.bytes

/-- A class file with at most a nested class table for attributes. -/
structure Pieces where
  /-- The number that is said to be one more than that of the constants. -/
  stated : UInt16
  /-- The constants. -/
  constants : List ConstantPiece
  /-- The flags. -/
  access : UInt16
  /-- The index of the class itself. -/
  this : UInt16
  /-- The index of the superclass, zero for none. -/
  super : UInt16
  /-- The indexes of the interfaces. -/
  interfaces : Counted UInt16
  /-- The fields. -/
  fields : Counted MemberRow
  /-- The methods. -/
  methods : Counted MemberRow
  /-- The nested class table, if there is one. -/
  nested : Option NestedPiece

namespace Pieces

/-- The pieces in order. -/
def bytes (p : Pieces) : Bytes :=
  Bytes.ofDoubleWord magic ++ wordOf 0 ++ wordOf majorVersion
    ++ Bytes.ofWord p.stated ++ p.constants.flatMap ConstantPiece.bytes
    ++ Bytes.ofWord p.access ++ Bytes.ofWord p.this ++ Bytes.ofWord p.super
    ++ p.interfaces.bytes Bytes.ofWord
    ++ p.fields.bytes MemberRow.bytes
    ++ p.methods.bytes MemberRow.bytes
    ++ countedBytes NestedPiece.bytes p.nested.toList

/-- Where a number of 16 bits should be, `word` of it stands, and `double` of one of 32 bits. -/
structure States (p : Pieces) (word double : Nat → Nat) : Prop where
  /-- So does the number of constants, -/
  constants : p.stated.toNat = word (p.constants.length + 1)
  /-- the length of every text, -/
  texts : ∀ stated content, .text stated content ∈ p.constants →
    stated.toNat = word content.length
  /-- the number of interfaces, -/
  interfaces : p.interfaces.stated.toNat = word p.interfaces.rows.length
  /-- of fields -/
  fields : p.fields.stated.toNat = word p.fields.rows.length
  /-- and of methods, -/
  methods : p.methods.stated.toNat = word p.methods.rows.length
  /-- that of nested classes, -/
  nested : ∀ n ∈ p.nested, n.table.stated.toNat = word n.table.rows.length
  /-- and the length of their table. -/
  table : ∀ n ∈ p.nested, n.stated.toNat = double (n.table.bytes NestedRow.bytes).length

/-- Every number is that of the bytes or rows behind it. -/
abbrev Truthful (p : Pieces) : Prop := p.States id id

end Pieces

/-! ## What is written for a blueprint -/

/-- The constant of a key, given all keys. -/
def Key.piece (asked : List Key) : Key → ConstantPiece
  | .utf8 text => .text (UInt16.ofNat (Text.encode text).length) (Text.encode text)
  | .classInfo name => .indexes 7 [index asked (.utf8 name)]
  | .nameAndType name descriptor =>
    .indexes 12 [index asked (.utf8 name), index asked (.utf8 descriptor)]
  | .fieldRef owner name descriptor =>
    .indexes 9 [index asked (.classInfo owner.internal), index asked (.nameAndType name descriptor)]
  | .methodRef ofInterface owner name descriptor =>
    .indexes (if ofInterface then 11 else 10)
      [index asked (.classInfo owner.internal), index asked (.nameAndType name descriptor)]

theorem Key.bytes_piece (asked : List Key) (k : Key) :
    (k.piece asked).bytes = (k.constant asked).bytes := by
  cases k with
  | methodRef ofInterface owner name descriptor => cases ofInterface <;> rfl
  | _ => rfl

/-- The text of a key, behind the remainder of its length. -/
theorem Key.piece_eq_text_iff {asked : List Key} {k : Key} {stated : UInt16} {content : Bytes} :
    k.piece asked = .text stated content ↔ ∃ text, k = .utf8 text
      ∧ content = Text.encode text ∧ stated = UInt16.ofNat content.length := by
  cases k with
  | utf8 text =>
    constructor
    · intro h
      cases h
      exact ⟨text, rfl, rfl, rfl⟩
    · rintro ⟨text', hk, rfl, rfl⟩
      cases hk
      rfl
  | _ => simp [piece]

/-- The table of nested classes, behind the remainders of its length and of the number of rows. -/
def nestedPiece (t : UInt16 × List NestedRow) : NestedPiece :=
  ⟨t.1, UInt32.ofNat (2 + 8 * t.2.length), .of t.2⟩

theorem attributesBytes_eq (t : Option (UInt16 × List NestedRow)) :
    countedBytes NestedPiece.bytes (t.map nestedPiece).toList = attributesBytes t := by
  cases t with
  | none => rfl
  | some t => simp [countedBytes, attributesBytes, nestedPiece, NestedPiece.bytes, Counted.bytes,
      Counted.of, wordOf]

namespace Blueprint

/-- The pieces that are written for a blueprint, each number reduced to its word. -/
def pieces (b : Blueprint) : Pieces where
  stated := UInt16.ofNat (b.keys.eraseDups.length + 1)
  constants := b.keys.eraseDups.map (Key.piece b.keys)
  access := b.access
  this := (b.skeletonIn b.keys).this
  super := (b.skeletonIn b.keys).super
  interfaces := .of (b.skeletonIn b.keys).interfaces
  fields := .of (b.skeletonIn b.keys).fields
  methods := .of (b.skeletonIn b.keys).methods
  nested := (b.skeletonIn b.keys).nested.map nestedPiece

variable {b : Blueprint} {out : Bytes}

/-- What is written, if anything, is the skeleton with a pool of all keys. -/
theorem exists_holds_of_encode (h : b.encode = .ok out) :
    ∃ d : PoolDraft, d.Holds b.keys ∧ out = (b.skeletonIn b.keys).bytes b.access d := by
  have hcases := b.encode_cases
  split at hcases
  · obtain ⟨d, hd, hencode⟩ := hcases
    rw [h] at hencode
    split at hencode
    · exact ⟨d, hd, Except.ok.inj hencode⟩
    · cases hencode
  · rw [h] at hcases
    cases hcases

theorem bytes_pieces {d : PoolDraft} (hd : d.Holds b.keys) :
    b.pieces.bytes = (b.skeletonIn b.keys).bytes b.access d := by
  have hconstants : (b.keys.eraseDups.map (Key.piece b.keys)).flatMap ConstantPiece.bytes
      = d.constants.flatMap Constant.bytes := by
    rw [hd.constants_eq, List.flatMap_map, List.flatMap_map]
    simp only [Key.bytes_piece]
  rw [Pieces.bytes, pieces, attributesBytes_eq, hconstants, Skeleton.bytes, hd.next_eq]
  rfl

/-! ## The numbers -/

/-- Every number is written as its remainder. -/
theorem pieces_states (b : Blueprint) :
    b.pieces.States (· % 65536) (· % 4294967296) where
  constants := by
    rw [pieces, UInt16.toNat_ofNat', List.length_map]
  texts := by
    intro stated content hmem
    obtain ⟨k, -, hk⟩ := List.mem_map.mp hmem
    obtain ⟨text, -, -, rfl⟩ := Key.piece_eq_text_iff.mp hk
    exact UInt16.toNat_ofNat'
  interfaces := UInt16.toNat_ofNat'
  fields := UInt16.toNat_ofNat'
  methods := UInt16.toNat_ofNat'
  nested := by
    intro n hn
    obtain ⟨t, -, rfl⟩ := Option.mem_map.mp hn
    exact UInt16.toNat_ofNat'
  table := by
    intro n hn
    obtain ⟨t, -, rfl⟩ := Option.mem_map.mp hn
    rw [nestedPiece, UInt32.toNat_ofNat', ← length_countedBytes_nested]
    rfl

/-- Every text is written, class names in a form of the same length. -/
theorem exists_writtenText {text : String} (h : text ∈ b.texts) :
    ∃ written ∈ b.writtenTexts, written.utf8ByteSize = text.utf8ByteSize := by
  rcases List.mem_append.mp h with hclass | hrest
  · exact ⟨ClassName.internal text, List.mem_append_left _ (List.mem_map_of_mem hclass),
      ClassName.utf8ByteSize_internal text⟩
  · refine ⟨text, List.mem_append_right _ ?_, rfl⟩
    simp only [List.mem_append] at hrest ⊢
    grind only

theorem length_interfaces_pieces : b.pieces.interfaces.rows.length = b.interfaces.length :=
  List.length_map _

theorem length_fields_pieces : b.pieces.fields.rows.length = b.fields.length :=
  List.length_map _

theorem length_methods_pieces : b.pieces.methods.rows.length = b.methods.length :=
  List.length_map _

theorem length_nested_pieces {n : NestedPiece} (h : n ∈ b.pieces.nested) :
    n.table.rows.length = b.nested.length := by
  obtain ⟨t, ht, rfl⟩ := Option.mem_map.mp h
  have htable : nestedTableIn b.keys b.nested = some t := ht
  rw [nestedTableIn] at htable
  split at htable
  · cases htable
  · cases htable
    exact List.length_map _

theorem exists_nested_pieces (h : b.nested ≠ []) : ∃ n, n ∈ b.pieces.nested := by
  have htable : nestedTableIn b.keys b.nested
      = some ((Key.utf8 nestedTableName).index b.keys, b.nested.map (nestedRowIn b.keys)) := by
    rw [nestedTableIn, if_neg (by simpa using h)]
  exact ⟨_, Option.mem_map.mpr ⟨_, htable, rfl⟩⟩

/-- A number that is true fits the word it stands in. -/
theorem countable_of_truthful (h : b.pieces.Truthful) : b.Countable where
  texts := by
    intro text htext
    obtain ⟨written, hmem, hsize⟩ := exists_writtenText htext
    have hkey : .utf8 written ∈ b.keys.eraseDups :=
      List.mem_eraseDups.mpr (utf8_mem_keys.mpr hmem)
    have hstated := h.texts _ _ (List.mem_map.mpr ⟨_, hkey, rfl⟩)
    have hlt := (UInt16.ofNat (Text.encode written).length).toNat_lt
    rw [hstated, id, Text.length_encode, hsize] at hlt
    omega
  interfaces := length_interfaces_pieces ▸ Counted.length_le h.interfaces
  fields := length_fields_pieces ▸ Counted.length_le h.fields
  methods := length_methods_pieces ▸ Counted.length_le h.methods
  nested := by
    by_cases hnone : b.nested = []
    · simp [hnone]
    · obtain ⟨n, hn⟩ := exists_nested_pieces hnone
      rw [← length_nested_pieces hn]
      exact Counted.length_le (h.nested n hn)

/-- A number that fits its word is its own remainder. -/
theorem Fits.truthful (h : b.Fits) : b.pieces.Truthful where
  constants := by
    have hkeys := h.constants
    refine b.pieces_states.constants.trans (Nat.mod_eq_of_lt ?_)
    rw [pieces, List.length_map]
    omega
  texts := by
    intro stated content hmem
    refine (b.pieces_states.texts stated content hmem).trans (Nat.mod_eq_of_lt ?_)
    obtain ⟨k, hk, hpiece⟩ := List.mem_map.mp hmem
    obtain ⟨text, rfl, rfl, -⟩ := Key.piece_eq_text_iff.mp hpiece
    have hle := h.utf8ByteSize_le (List.mem_eraseDups.mp hk)
    rw [Text.length_encode]
    omega
  interfaces := Counted.stated_eq b.pieces_states.interfaces
    (Nat.le_trans (Nat.le_of_eq length_interfaces_pieces) h.interfaces)
  fields := Counted.stated_eq b.pieces_states.fields
    (Nat.le_trans (Nat.le_of_eq length_fields_pieces) h.fields)
  methods := Counted.stated_eq b.pieces_states.methods
    (Nat.le_trans (Nat.le_of_eq length_methods_pieces) h.methods)
  nested := fun n hn => Counted.stated_eq (b.pieces_states.nested n hn)
    (Nat.le_trans (Nat.le_of_eq (length_nested_pieces hn)) h.nested)
  table := by
    intro n hn
    have hle := h.nested
    have hlength := length_countedBytes_nested n.table.rows
    refine (b.pieces_states.table n hn).trans (Nat.mod_eq_of_lt ?_)
    have hbytes : (n.table.bytes NestedRow.bytes).length
        = (countedBytes NestedRow.bytes n.table.rows).length := by
      rw [Counted.bytes, countedBytes, List.length_append, List.length_append]
      rfl
    rw [hbytes, hlength, length_nested_pieces hn]
    omega

/-- What is written for a blueprint, whenever anything is, are its pieces, with every count and
length reduced to the word it stands in.  All of them are true exactly if every text takes at most
65535 bytes and there are at most 65535 interfaces, fields, methods and nested classes; then the
bytes are a class file that stands for the view of the blueprint. -/
theorem lengths_true_iff (b : Blueprint) (out : Bytes) (h : b.encode = .ok out) :
    out = b.pieces.bytes
      ∧ b.pieces.States (· % 65536) (· % 4294967296)
      ∧ (b.pieces.Truthful ↔ b.Countable)
      ∧ (b.Countable → ∃ l : ClassLayout, out = l.bytes ∧ l.Denotes b.view) := by
  obtain ⟨d, hd, rfl⟩ := exists_holds_of_encode h
  have hfits : b.Countable → b.Fits := fun hcount => ⟨hcount, hd.fits⟩
  refine ⟨(bytes_pieces hd).symm, b.pieces_states, ?_, ?_⟩
  · exact ⟨countable_of_truthful, fun hcount => (hfits hcount).truthful⟩
  · intro hcount
    obtain ⟨l, hbytes, hdenotes⟩ := (hfits hcount).exists_layout hd
    exact ⟨l, hbytes.symm, hdenotes⟩

/-- The file of a class with members, a nested class table and two spellings of a name. -/
theorem lengths_true_twoSpellings :
    twoSpellings.Countable ∧ ∃ out, twoSpellings.encode = .ok out ∧ out = twoSpellings.pieces.bytes
      ∧ twoSpellings.pieces.Truthful
      ∧ ∃ l : ClassLayout, out = l.bytes ∧ l.Denotes twoSpellings.view := by
  have hcount : twoSpellings.Countable := fits_twoSpellings.toCountable
  obtain ⟨d, -, hencode⟩ := twoSpellings.encode_of_keys fits_twoSpellings.constants hcount.nested
  obtain ⟨hbytes, -, htrue, hlayout⟩ := lengths_true_iff twoSpellings _ hencode
  exact ⟨hcount, _, hencode, hbytes, htrue.mpr hcount, hlayout hcount⟩

/-! A class whose name is one byte longer than a length can say. -/

/-- A name of so many letters. -/
def letters (n : Nat) : ClassName :=
  String.ofList (List.replicate n 'a')

theorem encode_internal_letters (n : Nat) :
    Text.encode (letters n).internal = List.replicate n 97 := by
  have hchars : (letters n).internal.toList = List.replicate n 'a' := by
    rw [ClassName.internal, Text.toList_replaceChar, letters, String.toList_ofList,
      List.map_replicate]
    rfl
  rw [Text.encode, hchars, List.flatMap_replicate]
  exact List.flatten_replicate_singleton

/-- A class with a name of so many letters, and nothing else. -/
def lettered (n : Nat) : Blueprint where
  name := letters n
  superclass := none

theorem keys_lettered (n : Nat) : (lettered n).keys.eraseDups
    = [.utf8 (letters n).internal, .classInfo (letters n).internal] := by
  have hkeys : (lettered n).keys
      = [.utf8 (letters n).internal, .classInfo (letters n).internal] := rfl
  rw [hkeys]
  simp [List.eraseDups_cons]

/-- The file of the class up to the first letter of its name, and the rest. -/
theorem bytes_lettered (n : Nat) : ∃ rest, (lettered (n + 1)).pieces.bytes
    = ([0xCA, 0xFE, 0xBA, 0xBE, 0, 0, 0, 52, 0, 3, 1] ++ wordOf (n + 1) ++ [97]) ++ rest := by
  have hconstants : (lettered (n + 1)).pieces.constants.flatMap ConstantPiece.bytes
      = 1 :: (wordOf (n + 1) ++ 97 :: List.replicate n 97)
        ++ (Key.piece (lettered (n + 1)).keys (.classInfo (letters (n + 1)).internal)).bytes := by
    rw [pieces, keys_lettered]
    simp [Key.piece, ConstantPiece.bytes, encode_internal_letters, wordOf, List.replicate_succ]
  have hstated : (lettered (n + 1)).pieces.stated = 3 := by
    rw [pieces, keys_lettered]
    rfl
  rw [Pieces.bytes, hconstants, hstated]
  simp only [List.append_assoc, List.cons_append, List.nil_append]
  exact ⟨_, rfl⟩

theorem encode_lettered (n : Nat) : (lettered n).encode = .ok (lettered n).pieces.bytes := by
  have hkeys : (lettered n).keys.eraseDups.length ≤ PoolDraft.capacity := by
    rw [keys_lettered]
    exact Nat.le_of_ble_eq_true rfl
  obtain ⟨d, hd, hencode⟩ := (lettered n).encode_of_keys hkeys (Nat.zero_le _)
  rw [hencode, bytes_pieces hd]

theorem countable_lettered {n : Nat} (h : (lettered n).Countable) : n ≤ 65535 := by
  have hsize := h.texts (letters n) List.mem_cons_self
  rwa [← ClassName.utf8ByteSize_internal, ← Text.length_encode, encode_internal_letters,
    List.length_replicate] at hsize

/-- A name of 65536 bytes is written, and with length zero: the file is not well-formed, its reader
takes the first letter of the name for the tag of the next constant. -/
theorem longName_misread :
    ∃ out, (lettered 65536).encode = .ok out ∧ ¬ (lettered 65536).pieces.Truthful
      ∧ decode out = .error (.unknownTag 97)
      ∧ ¬ ∃ (l : ClassLayout) (c : ClassView), out = l.bytes ∧ l.Denotes c := by
  have hmisread : decode (lettered 65536).pieces.bytes = .error (.unknownTag 97) := by
    obtain ⟨rest, hbytes⟩ := bytes_lettered 65535
    have hstart : decode ([0xCA, 0xFE, 0xBA, 0xBE, 0, 0, 0, 52, 0, 3, 1] ++ wordOf 65536 ++ [97])
        = .error (.unknownTag 97) := rfl
    have hdecided := decode_append _ rest (fun hend => by cases hstart.symm.trans hend)
    rw [hbytes]
    exact hdecided.trans hstart
  refine ⟨_, encode_lettered 65536, ?_, hmisread, ?_⟩
  · intro htrue
    exact absurd (countable_lettered (countable_of_truthful htrue)) (by decide)
  · rintro ⟨l, c, hbytes, hdenotes⟩
    have hread : decode (l.bytes ++ []) = .ok c :=
      (decode_eq_ok_iff_layout _ c).mpr ⟨l, [], rfl, hdenotes⟩
    rw [List.append_nil, ← hbytes, hmisread] at hread
    cases hread

end Blueprint

end Linkage.ClassFile
