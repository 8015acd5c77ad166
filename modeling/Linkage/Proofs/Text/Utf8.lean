import Linkage.Text.Lossy

/-!
# Reading the UTF-8 bytes of a text gives the text back

Reading never refuses bytes, so the law worth having is that it loses nothing of what was written:
`decodeLossy_encode`.  It is proved one character at a time, by the number of its bytes.  The only
delicate points are the first bytes `E0`, `ED`, `F0` and `F4`, after which fewer second bytes are
allowed: the characters that are written with them keep to these narrower ranges.
-/

namespace Linkage.Text

theorem toNat_ofNat_byte {n : Nat} (h : n < 256) : (UInt8.ofNat n).toNat = n :=
  UInt8.toNat_ofNat_of_lt' h

theorem byte_mem_range {low high : UInt8} {n : Nat} (hlow : low.toNat ≤ n)
    (hhigh : n ≤ high.toNat) :
    (low ≤ UInt8.ofNat n ∧ UInt8.ofNat n ≤ high) ∧ (UInt8.ofNat n).toNat = n := by
  have hbyte : (UInt8.ofNat n).toNat = n :=
    toNat_ofNat_byte (Nat.lt_of_le_of_lt hhigh high.toNat_lt)
  rw [UInt8.le_iff_toNat_le, UInt8.le_iff_toNat_le, hbyte]
  exact ⟨⟨hlow, hhigh⟩, rfl⟩

/-- A byte in the allowed range that is not the last one adds its six bits, and any further byte is
in the plain range. -/
theorem decodeFrom_next {bits more n : Nat} {low high : UInt8} {s : Bytes}
    (hlow : low.toNat ≤ n) (hhigh : n ≤ high.toNat) :
    decodeFrom (some ⟨bits, more + 1, low, high⟩) (UInt8.ofNat n :: s)
      = decodeFrom (some ⟨bits * 0x40 + n % 0x40, more, 0x80, 0xBF⟩) s := by
  obtain ⟨hrange, hbyte⟩ := byte_mem_range hlow hhigh
  rw [decodeFrom, if_pos hrange, hbyte]

/-- The last byte of a character adds its six bits and finishes it. -/
theorem decodeFrom_last {bits v : Nat} {s : Bytes} (h : bits = v / 64) :
    decodeFrom (some ⟨bits, 0, 0x80, 0xBF⟩) (UInt8.ofNat (v % 0x40 + 0x80) :: s)
      = Char.ofNat v :: decodeFrom none s := by
  have hlow : (0x80 : UInt8).toNat ≤ v % 0x40 + 0x80 := by
    show 0x80 ≤ _
    omega
  have hhigh : v % 0x40 + 0x80 ≤ (0xBF : UInt8).toNat := by
    show _ ≤ 0xBF
    omega
  obtain ⟨hrange, hbyte⟩ := byte_mem_range hlow hhigh
  have hv : bits * 0x40 + (v % 0x40 + 0x80) % 0x40 = v := by omega
  rw [decodeFrom, if_pos hrange, hbyte]
  show Char.ofNat (bits * 0x40 + (v % 0x40 + 0x80) % 0x40) :: _ = _
  rw [hv]

theorem decodeFrom_none_whole {n : Nat} {s : Bytes} (h : n < 0x80) :
    decodeFrom none (UInt8.ofNat n :: s) = Char.ofNat n :: decodeFrom none s := by
  have hlead : Lead.of (UInt8.ofNat n) = .whole (Char.ofNat n) := by
    simp only [Lead.of, toNat_ofNat_byte (show n < 256 by omega), if_pos h]
  rw [decodeFrom, hlead]

theorem decodeFrom_none_opens {n : Nat} {p : Begun} {s : Bytes}
    (h : Lead.of (UInt8.ofNat n) = .opens p) :
    decodeFrom none (UInt8.ofNat n :: s) = decodeFrom (some p) s := by
  rw [decodeFrom, h]

/-! ## First bytes of longer characters -/

theorem lead_two {n : Nat} (hlow : 0xC2 ≤ n) (hhigh : n < 0xE0) :
    Lead.of (UInt8.ofNat n) = .opens ⟨n % 0x20, 0, 0x80, 0xBF⟩ := by
  simp only [Lead.of, toNat_ofNat_byte (show n < 256 by omega)]
  rw [if_neg (by omega), if_neg (by omega), if_pos hhigh]

/-- The first byte of a character of three bytes allows the second byte it is written with. -/
theorem lead_three {v : Nat} (hlow : 0x800 ≤ v) (hhigh : v < 0x10000)
    (hscalar : v < 0xD800 ∨ 0xDFFF < v) :
    ∃ low high, Lead.of (UInt8.ofNat (v / 4096 % 0x10 + 0xE0)) = .opens ⟨v / 4096, 1, low, high⟩
      ∧ low.toNat ≤ v / 64 % 0x40 + 0x80 ∧ v / 64 % 0x40 + 0x80 ≤ high.toNat := by
  have hbyte : (UInt8.ofNat (v / 4096 % 0x10 + 0xE0)).toNat = v / 4096 + 0xE0 := by
    rw [toNat_ofNat_byte (by omega)]
    omega
  simp only [Lead.of, hbyte]
  rw [if_neg (by omega), if_neg (by omega), if_neg (by omega)]
  by_cases hfirst : v / 4096 = 0
  · rw [if_pos (by omega), hfirst]
    refine ⟨0xA0, 0xBF, rfl, ?_, ?_⟩
    · show 0xA0 ≤ _
      omega
    · show _ ≤ 0xBF
      omega
  rw [if_neg (by omega)]
  by_cases hsurrogate : v / 4096 = 0xD
  · rw [if_pos (by omega), hsurrogate]
    refine ⟨0x80, 0x9F, rfl, ?_, ?_⟩
    · show 0x80 ≤ _
      omega
    · show _ ≤ 0x9F
      omega
  rw [if_neg (by omega), if_pos (by omega)]
  have hbits : (v / 4096 + 0xE0) % 0x10 = v / 4096 := by omega
  rw [hbits]
  refine ⟨0x80, 0xBF, rfl, ?_, ?_⟩
  · show 0x80 ≤ _
    omega
  · show _ ≤ 0xBF
    omega

/-- The first byte of a character of four bytes allows the second byte it is written with. -/
theorem lead_four {v : Nat} (hlow : 0x10000 ≤ v) (hhigh : v < 0x110000) :
    ∃ low high, Lead.of (UInt8.ofNat (v / 262144 % 0x08 + 0xF0)) = .opens ⟨v / 262144, 2, low, high⟩
      ∧ low.toNat ≤ v / 4096 % 0x40 + 0x80 ∧ v / 4096 % 0x40 + 0x80 ≤ high.toNat := by
  have hbyte : (UInt8.ofNat (v / 262144 % 0x08 + 0xF0)).toNat = v / 262144 + 0xF0 := by
    rw [toNat_ofNat_byte (by omega)]
    omega
  simp only [Lead.of, hbyte]
  rw [if_neg (by omega), if_neg (by omega), if_neg (by omega), if_neg (by omega), if_neg (by omega),
    if_neg (by omega)]
  by_cases hfirst : v / 262144 = 0
  · rw [if_pos (by omega), hfirst]
    refine ⟨0x90, 0xBF, rfl, ?_, ?_⟩
    · show 0x90 ≤ _
      omega
    · show _ ≤ 0xBF
      omega
  rw [if_neg (by omega)]
  by_cases hlast : v / 262144 = 4
  · rw [if_neg (by omega), if_pos (by omega), hlast]
    refine ⟨0x80, 0x8F, rfl, ?_, ?_⟩
    · show 0x80 ≤ _
      omega
    · show _ ≤ 0x8F
      omega
  rw [if_pos (by omega)]
  have hbits : (v / 262144 + 0xF0) % 0x08 = v / 262144 := by omega
  rw [hbits]
  refine ⟨0x80, 0xBF, rfl, ?_, ?_⟩
  · show 0x80 ≤ _
    omega
  · show _ ≤ 0xBF
    omega

/-! ## One character, and all of them -/

theorem toNat_val_scalar (c : Char) : c.toNat < 0xD800 ∨ (0xDFFF < c.toNat ∧ c.toNat < 0x110000) :=
  c.valid

theorem encodeChar_eq (c : Char) : String.utf8EncodeChar c =
    if c.toNat ≤ 0x7F then [UInt8.ofNat c.toNat]
    else if c.toNat ≤ 0x7FF then
      [UInt8.ofNat (c.toNat / 64 % 0x20 + 0xC0), UInt8.ofNat (c.toNat % 0x40 + 0x80)]
    else if c.toNat ≤ 0xFFFF then
      [UInt8.ofNat (c.toNat / 4096 % 0x10 + 0xE0), UInt8.ofNat (c.toNat / 64 % 0x40 + 0x80),
        UInt8.ofNat (c.toNat % 0x40 + 0x80)]
    else
      [UInt8.ofNat (c.toNat / 262144 % 0x08 + 0xF0), UInt8.ofNat (c.toNat / 4096 % 0x40 + 0x80),
        UInt8.ofNat (c.toNat / 64 % 0x40 + 0x80), UInt8.ofNat (c.toNat % 0x40 + 0x80)] := rfl

theorem decodeFrom_encodeChar (c : Char) (s : Bytes) :
    decodeFrom none (String.utf8EncodeChar c ++ s) = c :: decodeFrom none s := by
  have hscalar := toNat_val_scalar c
  have hchar : Char.ofNat c.toNat = c := Char.ofNat_toNat c
  rw [encodeChar_eq]
  by_cases hone : c.toNat ≤ 0x7F
  · rw [if_pos hone, List.singleton_append, decodeFrom_none_whole (by omega), hchar]
  rw [if_neg hone]
  by_cases htwo : c.toNat ≤ 0x7FF
  · rw [if_pos htwo, List.cons_append, List.singleton_append,
      decodeFrom_none_opens (lead_two (by omega) (by omega)), decodeFrom_last (by omega), hchar]
  rw [if_neg htwo]
  by_cases hthree : c.toNat ≤ 0xFFFF
  · obtain ⟨low, high, hlead, hlow, hhigh⟩ := lead_three (show 0x800 ≤ c.toNat by omega)
      (by omega) (by omega)
    rw [if_pos hthree, List.cons_append, List.cons_append, List.singleton_append,
      decodeFrom_none_opens hlead, decodeFrom_next hlow hhigh, decodeFrom_last (by omega), hchar]
  · obtain ⟨low, high, hlead, hlow, hhigh⟩ := lead_four (show 0x10000 ≤ c.toNat by omega)
      (by omega)
    rw [if_neg hthree, List.cons_append, List.cons_append, List.cons_append, List.singleton_append,
      decodeFrom_none_opens hlead, decodeFrom_next hlow hhigh,
      decodeFrom_next (show 0x80 ≤ _ by omega) (show _ ≤ 0xBF by omega), decodeFrom_last (by omega),
      hchar]

/-- Whatever bytes follow, the characters that were written are read first. -/
theorem decodeFrom_chars_append (cs : List Char) (s : Bytes) :
    decodeFrom none (cs.flatMap String.utf8EncodeChar ++ s) = cs ++ decodeFrom none s := by
  induction cs with
  | nil => rfl
  | cons c cs ih =>
    rw [List.flatMap_cons, List.append_assoc, decodeFrom_encodeChar, ih, List.cons_append]

/-- Reading the bytes of a text gives the text back. -/
theorem decodeLossy_encode (s : String) : decodeLossy (encode s) = s := by
  have hchars := decodeFrom_chars_append s.toList []
  rw [List.append_nil] at hchars
  unfold decodeLossy encode
  rw [hchars, decodeFrom, List.append_nil, String.ofList_toList]

/-- A text whose bytes begin another text is a beginning of it. -/
theorem exists_toList_eq_append {s d : String} {bytes : Bytes} (h : encode s = encode d ++ bytes) :
    ∃ rest, s.toList = d.toList ++ rest := by
  have hread := congrArg (decodeFrom none) h
  have hchars := decodeFrom_chars_append s.toList []
  rw [List.append_nil, decodeFrom, List.append_nil] at hchars
  rw [encode, encode, hchars, decodeFrom_chars_append] at hread
  exact ⟨_, hread⟩

/-- The bytes of a text are as many as its size in UTF-8. -/
theorem length_encode (s : String) : (encode s).length = s.utf8ByteSize := by
  rw [← String.size_toByteArray, ← String.utf8Encode_toList]
  unfold encode List.utf8Encode
  rw [List.size_toByteArray]

end Linkage.Text
