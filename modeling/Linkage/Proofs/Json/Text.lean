import Mathlib.Data.List.TakeWhile
import Mathlib.Data.Option.Basic
import Linkage.Json.Basic
import Linkage.Json.Reading

/-!
# Written values are read back

The text of a value, in whatever layout, is read as the tree of that value and nothing is left of
it.  Escaping is undone character by character: what a character is written as is read as one
piece, and pieces denote what they were written for.  A numeral ends where a separator, a blank or
the text ends, so every value is read from within a text as well.

* `Json.reading`: the tree of a value.
* `Quoted.read_write`, `Numeral.read_toDigits`: texts and numbers.
* `Json.value_chars`: values, by induction on the value.
* `Json.ofChars_chars`: whole texts.
-/

namespace Linkage.Json

/-! ## Quoted text -/

namespace Quoted

theorem hexValue?_hexDigit : ∀ n < 16, hexValue? (hexDigit n) = some n := by
  decide

/-- The piece a written character is read as. -/
def pieceOf (c : Char) : Piece :=
  if c.toNat < 0x20 ∧ c ∉ ['\n', '\r', '\t', '\x08', '\x0c'] then .unit c.toNat else .char c

theorem scan_control {c : Char} (h : c.toNat < 0x20) (s : List Char) :
    scan ('\\' :: 'u' :: '0' :: '0' :: hexDigit (c.toNat / 16) :: hexDigit (c.toNat % 16) :: s)
      = (scan s).map fun (ps, rest) => (.unit c.toNat :: ps, rest) := by
  have hzero : hexValue? '0' = some 0 := by decide
  have hunit : unit? '0' '0' (hexDigit (c.toNat / 16)) (hexDigit (c.toNat % 16))
      = some c.toNat := by
    rw [unit?, hzero, hexValue?_hexDigit _ (by omega), hexValue?_hexDigit _ (by omega)]
    show some _ = some _
    congr 1
    omega
  rw [scan, hunit]

theorem scan_plain {c : Char} (hquote : c ≠ '"') (hslash : c ≠ '\\') (hplain : ¬ c.toNat < 0x20)
    (s : List Char) :
    scan (c :: s) = (scan s).map fun (ps, rest) => (.char c :: ps, rest) := by
  rw [scan.eq_def]
  split
  · next h => cases h
  · next h => exact absurd (List.cons.inj h).1 hquote
  · next h => exact absurd (List.cons.inj h).1 hslash
  · next h => exact absurd (List.cons.inj h).1 hslash
  · next h =>
    obtain ⟨rfl, rfl⟩ := List.cons.inj h
    rw [if_neg (by simp [hplain, hslash])]

theorem scan_escape (c : Char) (s : List Char) :
    scan (escape c ++ s) = (scan s).map fun (ps, rest) => (pieceOf c :: ps, rest) := by
  unfold escape
  split
  · next h => subst h; rfl
  split
  · next h => subst h; rfl
  split
  · next h => subst h; rfl
  split
  · next h => subst h; rfl
  split
  · next h => subst h; rfl
  split
  · next h => subst h; rfl
  split
  · next h => subst h; rfl
  next hquote hslash hn hr ht hb hf =>
  split
  · next hcontrol =>
    have hpiece : pieceOf c = .unit c.toNat := by simp [pieceOf, hcontrol, hn, hr, ht, hb, hf]
    rw [hpiece]
    exact scan_control hcontrol s
  · next hcontrol =>
    have hpiece : pieceOf c = .char c := by simp [pieceOf, hcontrol]
    rw [hpiece]
    exact scan_plain hquote hslash hcontrol s

theorem scan_write (cs rest : List Char) :
    scan (cs.flatMap escape ++ '"' :: rest) = some (cs.map pieceOf, rest) := by
  induction cs with
  | nil => rfl
  | cons c cs ih =>
    rw [List.flatMap_cons, List.append_assoc, scan_escape, ih]
    rfl

/-- A unit written for a character is no half of a surrogate pair. -/
theorem denote_pieceOf (c : Char) (ps : List Piece) :
    denote (pieceOf c :: ps) = (denote ps).map (c :: ·) := by
  unfold pieceOf
  split
  · next h =>
    have hhigh : isHigh c.toNat = false := by
      simp only [isHigh, Bool.and_eq_false_iff, decide_eq_false_iff_not]
      omega
    have hlow : isLow c.toNat = false := by
      simp only [isLow, Bool.and_eq_false_iff, decide_eq_false_iff_not]
      omega
    cases ps with
    | nil => simp [denote, hhigh, hlow]
    | cons p ps =>
      cases p with
      | char d => simp [denote, hhigh, hlow]
      | unit u => simp [denote, hhigh, hlow]
  · rfl

theorem denote_map_pieceOf (cs : List Char) : denote (cs.map pieceOf) = some cs := by
  induction cs with
  | nil => rfl
  | cons c cs ih =>
    rw [List.map_cons, denote_pieceOf, ih]
    rfl

/-- A text between quotes is read as that text, whatever follows. -/
theorem read_write (s : String) (rest : List Char) :
    read (s.toList.flatMap escape ++ '"' :: rest) = some (some s, rest) := by
  rw [read, scan_write]
  show some ((denote (s.toList.map pieceOf)).map String.ofList, rest) = _
  rw [denote_map_pieceOf]
  simp

end Quoted

/-! ## Numerals -/

namespace Numeral

/-- A natural number as it is written. -/
def ofNat (n : Nat) : Numeral :=
  ⟨false, (Nat.toDigits 10 n).map digitOf, none, none⟩

/-- A number is what its digits denote. -/
theorem natural?_ofNat (n : Nat) : (ofNat n).natural? = some n := by
  have hvalue : valueOf (ofNat n).whole = Nat.ofDigitChars 10 (Nat.toDigits 10 n) 0 := by
    rw [valueOf, ofNat, List.foldl_map, Nat.ofDigitChars]
    simp only [digitOf, Nat.mul_comm 10]
  rw [Nat.ofDigitChars_ten_toDigits] at hvalue
  rw [natural?, hvalue]
  rfl

/-- No numeral goes on with this text. -/
def Ends (rest : List Char) : Prop :=
  ∀ c ∈ rest.head?, c.isDigit = false ∧ c ≠ '.' ∧ c ≠ 'e' ∧ c ≠ 'E'

theorem isDigit_of_mem_toDigits {n : Nat} {c : Char} (h : c ∈ Nat.toDigits 10 n) :
    c.isDigit = true :=
  Nat.isDigit_of_mem_toDigits (by omega) (by omega) h

theorem spanDigits_append {ds rest : List Char} (hds : ∀ c ∈ ds, c.isDigit = true)
    (hrest : Ends rest) : spanDigits (ds ++ rest) = (ds.map digitOf, rest) := by
  rw [spanDigits, List.takeWhile_append_of_pos hds, List.dropWhile_append_of_pos hds]
  cases rest with
  | nil => simp
  | cons c rest => simp [(hrest c rfl).1]

/-- Only zero is written with a zero in front. -/
theorem eq_zero_of_head {n : Nat} (h : (ofNat n).whole.head? = some 0) : n = 0 := by
  induction n using Nat.strongRecOn with
  | _ n ih =>
    unfold ofNat at h ih
    by_cases hn : n < 10
    · rw [Nat.toDigits_of_lt_base hn] at h
      have hdigit : digitOf n.digitChar = n := Nat.toNat_digitChar_sub_48_of_lt_ten hn
      simpa [hdigit] using h
    · have hfront := ih (n / 10) (by omega)
      rw [Nat.toDigits_of_base_le (by omega) (by omega)] at h
      obtain ⟨d, ds, hds⟩ :=
        List.exists_cons_of_ne_nil (Nat.toDigits_ne_nil (n := n / 10) (b := 10))
      rw [hds] at h hfront
      have := hfront (by simpa using h)
      omega

/-- The digits of a number are not empty, and begin with a zero only if that is all. -/
theorem whole_ofNat (n : Nat) : (ofNat n).whole ≠ []
    ∧ ((ofNat n).whole.head? ≠ some 0 ∨ (ofNat n).whole.length = 1) := by
  refine ⟨by simp [ofNat, Nat.toDigits_ne_nil], ?_⟩
  by_cases hhead : (ofNat n).whole.head? = some 0
  · rw [eq_zero_of_head hhead]
    exact .inr rfl
  · exact .inl hhead

theorem exists_head_toDigits (n : Nat) :
    ∃ d ds, Nat.toDigits 10 n = d :: ds ∧ d.isDigit = true := by
  obtain ⟨d, ds, hds⟩ := List.exists_cons_of_ne_nil (Nat.toDigits_ne_nil (n := n) (b := 10))
  exact ⟨d, ds, hds, isDigit_of_mem_toDigits (n := n) (by simp [hds])⟩

theorem fraction?_of_ends {rest : List Char} (h : Ends rest) :
    fraction? rest = some (none, rest) := by
  unfold fraction?
  split
  · exact absurd rfl (h '.' rfl).2.1
  · rfl

theorem exponent?_of_ends {rest : List Char} (h : Ends rest) :
    exponent? rest = some (none, rest) := by
  unfold exponent?
  split
  · rfl
  · next e t =>
    obtain ⟨-, -, he, hE⟩ := h e rfl
    rw [if_neg (by simp [he, hE])]

/-- A number is read as it is written, if no numeral goes on with what follows. -/
theorem read_toDigits (n : Nat) {rest : List Char} (hrest : Ends rest) :
    read (Nat.toDigits 10 n ++ rest) = some (ofNat n, rest) := by
  have hspan : spanDigits (Nat.toDigits 10 n ++ rest) = ((ofNat n).whole, rest) :=
    spanDigits_append (fun c => isDigit_of_mem_toDigits (n := n)) hrest
  have hunsigned : ∀ t, Nat.toDigits 10 n ++ rest ≠ '-' :: t := by
    intro t h
    obtain ⟨d, ds, hds, hd⟩ := exists_head_toDigits n
    rw [hds] at h
    rw [(List.cons.inj h).1] at hd
    revert hd
    decide
  unfold read
  split
  next h =>
  split at h
  · next hminus => exact absurd hminus (hunsigned _)
  · cases h
    rw [hspan]
    show (ite _ _ _ >>= _) = _
    rw [if_pos (whole_ofNat n)]
    show (fraction? rest >>= _) = _
    rw [fraction?_of_ends hrest]
    show (exponent? rest >>= _) = _
    rw [exponent?_of_ends hrest]
    rfl

end Numeral

/-! ## Values -/

mutual

/-- The tree of a value. -/
def reading : Json → Reading
  | .null => .null
  | .bool b => .bool b
  | .number n => .number (.ofNat n)
  | .string s => .string (some s)
  | .array items => .array (itemReadings items) true
  | .object members => .object (memberReadings members) true

/-- The trees of the items of a list. -/
def itemReadings : List Json → List Reading
  | [] => []
  | v :: vs => v.reading :: itemReadings vs

/-- The trees of the members of an object. -/
def memberReadings : List (String × Json) → List (Option String × Reading)
  | [] => []
  | (k, v) :: ms => (some k, v.reading) :: memberReadings ms

end

theorem itemReadings_eq (vs : List Json) : itemReadings vs = vs.map reading := by
  induction vs with
  | nil => rfl
  | cons v vs ih => rw [itemReadings, ih, List.map_cons]

theorem memberReadings_eq (ms : List (String × Json)) :
    memberReadings ms = ms.map fun m => (some m.1, m.2.reading) := by
  induction ms with
  | nil => rfl
  | cons m ms ih => rw [memberReadings, ih, List.map_cons]

/-- Values by induction: what holds of the items of a list or the members of an object holds of
it. -/
theorem inductionOn {P : Json → Prop} (null : P .null) (bool : ∀ b, P (.bool b))
    (number : ∀ n, P (.number n)) (string : ∀ s, P (.string s))
    (array : ∀ items, (∀ v ∈ items, P v) → P (.array items))
    (object : ∀ members, (∀ m ∈ members, P m.2) → P (.object members)) (v : Json) : P v := by
  refine @Json.rec P (fun items => ∀ v ∈ items, P v) (fun members => ∀ m ∈ members, P m.2)
    (fun m => P m.2) null bool number string array object ?_ ?_ ?_ ?_ ?_ v
  · simp
  · intro v vs hv hvs
    exact List.forall_mem_cons.mpr ⟨hv, hvs⟩
  · simp
  · intro m ms hm hms
    exact List.forall_mem_cons.mpr ⟨hm, hms⟩
  · intro k v hv
    exact hv

/-- A layout whose texts can be read: after a colon only blanks stand. -/
def Layout.IsReadable (l : Layout) : Prop :=
  ∃ pad, l.colon = ':' :: pad ∧ ∀ c ∈ pad, Reading.isBlank c = true

theorem Layout.isReadable_compact : Layout.compact.IsReadable :=
  ⟨[], rfl, by simp⟩

theorem Layout.isReadable_pretty : Layout.pretty.IsReadable :=
  ⟨[' '], rfl, List.forall_mem_singleton.mpr rfl⟩

theorem Layout.isBlank_of_mem_lineBreak (l : Layout) (depth : Nat) :
    ∀ c ∈ l.lineBreak depth, Reading.isBlank c = true := by
  unfold lineBreak
  split
  · simp
  · intro c hc
    rcases List.mem_cons.mp hc with rfl | hc
    · decide
    · rw [List.eq_of_mem_replicate hc]
      decide

theorem skipBlanks_append {blanks s : List Char} (h : ∀ c ∈ blanks, Reading.isBlank c = true) :
    Reading.skipBlanks (blanks ++ s) = Reading.skipBlanks s :=
  List.dropWhile_append_of_pos h

theorem skipBlanks_cons {c : Char} {s : List Char} (h : Reading.isBlank c = false) :
    Reading.skipBlanks (c :: s) = c :: s :=
  List.dropWhile_cons_of_neg (by simp [h])

/-- No value begins with a blank or a closing bracket. -/
theorem exists_head_chars (l : Layout) (depth : Nat) (v : Json) :
    ∃ c rest, v.chars l depth = c :: rest ∧ Reading.isBlank c = false ∧ c ≠ ']' := by
  cases v with
  | null => exact ⟨_, _, rfl, by decide⟩
  | bool b => cases b <;> exact ⟨_, _, rfl, by decide⟩
  | number n =>
    obtain ⟨d, ds, hds, hd⟩ := Numeral.exists_head_toDigits n
    refine ⟨d, ds, hds, ?_, ?_⟩
    · rw [Bool.eq_false_iff]
      intro hblank
      simp only [Reading.isBlank, Bool.or_eq_true, decide_eq_true_eq] at hblank
      rcases hblank with ((rfl | rfl) | rfl) | rfl <;> revert hd <;> decide
    · rintro rfl
      revert hd
      decide
  | string s => exact ⟨_, _, rfl, by decide⟩
  | array items => cases items <;> exact ⟨_, _, rfl, by decide⟩
  | object members => rcases members with _ | ⟨⟨k, v⟩, ms⟩ <;> exact ⟨_, _, rfl, by decide⟩

/-- Given enough steps, the value is read from within a text, after any blanks and before anything
that no numeral goes on with. -/
def ReadsBack (l : Layout) (v : Json) : Prop :=
  ∀ depth fuel blanks rest, (∀ c ∈ blanks, Reading.isBlank c = true) → Numeral.Ends rest →
    2 * (v.chars l depth).length ≤ fuel →
    Reading.value fuel (blanks ++ (v.chars l depth ++ rest)) = (v.reading, some rest)

theorem ends_of_blank {c : Char} {s : List Char} (h : Reading.isBlank c = true) :
    Numeral.Ends (c :: s) := by
  intro c' hc'
  cases hc'
  simp only [Reading.isBlank, Bool.or_eq_true, decide_eq_true_eq] at h
  rcases h with ((rfl | rfl) | rfl) | rfl <;> decide

/-- A numeral ends before the end of the list or object it stands in. -/
theorem ends_lineBreak (l : Layout) (depth : Nat) {c : Char} (hc : c = ']' ∨ c = '\x7d')
    (rest : List Char) : Numeral.Ends (l.lineBreak depth ++ c :: rest) := by
  cases hbreak : l.lineBreak depth with
  | nil => rcases hc with rfl | rfl <;> (intro d hd; cases hd; decide)
  | cons b bs =>
    refine ends_of_blank (l.isBlank_of_mem_lineBreak depth b ?_)
    rw [hbreak]
    exact List.mem_cons_self

theorem ends_items (l : Layout) (depth depth' : Nat) (vs : List Json) (rest : List Char) :
    Numeral.Ends (itemsChars l depth vs ++ (l.lineBreak depth' ++ ']' :: rest)) := by
  cases vs with
  | nil => exact ends_lineBreak l depth' (.inl rfl) rest
  | cons v vs => intro d hd; cases hd; decide

theorem ends_members (l : Layout) (depth depth' : Nat) (ms : List (String × Json))
    (rest : List Char) :
    Numeral.Ends (membersChars l depth ms ++ (l.lineBreak depth' ++ '\x7d' :: rest)) := by
  rcases ms with _ | ⟨⟨k, v⟩, ms⟩
  · exact ends_lineBreak l depth' (.inr rfl) rest
  · intro d hd; cases hd; decide

/-! ### Steps of the reader -/

namespace Reading

variable {fuel : Nat} {s s₁ s₂ s₃ s₄ : List Char} {v : Reading}

theorem items_last (hv : value fuel s = (v, some s₁)) (hend : skipBlanks s₁ = ']' :: s₂) :
    items (fuel + 1) s = ([v], some s₂) := by
  simp [items, hv, hend]

theorem items_next {vs : List Reading} {rest : Option (List Char)}
    (hv : value fuel s = (v, some s₁)) (hcomma : skipBlanks s₁ = ',' :: s₂)
    (hmore : items fuel s₂ = (vs, rest)) : items (fuel + 1) s = (v :: vs, rest) := by
  simp [items, hv, hcomma, hmore]

variable {name : Option String}

theorem members_last (hname : skipBlanks s = '"' :: s₁) (hread : Quoted.read s₁ = some (name, s₂))
    (hcolon : skipBlanks s₂ = ':' :: s₃) (hv : value fuel s₃ = (v, some s₄)) {rest : List Char}
    (hend : skipBlanks s₄ = '\x7d' :: rest) : members (fuel + 1) s = ([(name, v)], some rest) := by
  simp [members, hname, hread, hcolon, hv, hend]

theorem members_next (hname : skipBlanks s = '"' :: s₁) (hread : Quoted.read s₁ = some (name, s₂))
    (hcolon : skipBlanks s₂ = ':' :: s₃) (hv : value fuel s₃ = (v, some s₄)) {s₅ : List Char}
    (hcomma : skipBlanks s₄ = ',' :: s₅) {ms : List (Option String × Reading)}
    {rest : Option (List Char)} (hmore : members fuel s₅ = (ms, rest)) :
    members (fuel + 1) s = ((name, v) :: ms, rest) := by
  simp [members, hname, hread, hcolon, hv, hcomma, hmore]

theorem value_null (h : skipBlanks s = 'n' :: 'u' :: 'l' :: 'l' :: s₁) :
    value (fuel + 1) s = (.null, some s₁) := by
  simp [value, h]

theorem value_true (h : skipBlanks s = 't' :: 'r' :: 'u' :: 'e' :: s₁) :
    value (fuel + 1) s = (.bool true, some s₁) := by
  simp [value, h]

theorem value_false (h : skipBlanks s = 'f' :: 'a' :: 'l' :: 's' :: 'e' :: s₁) :
    value (fuel + 1) s = (.bool false, some s₁) := by
  simp [value, h]

theorem value_string (h : skipBlanks s = '"' :: s₁) (hread : Quoted.read s₁ = some (name, s₂)) :
    value (fuel + 1) s = (.string name, some s₂) := by
  simp [value, h, hread]

theorem value_emptyArray (h : skipBlanks s = '[' :: s₁) (hend : skipBlanks s₁ = ']' :: s₂) :
    value (fuel + 1) s = (.array [] true, some s₂) := by
  simp [value, h, hend]

theorem value_array {vs : List Reading} (h : skipBlanks s = '[' :: s₁)
    (hfirst : skipBlanks s₁ = s₂) (hopen : ∀ t, s₂ ≠ ']' :: t)
    (hitems : items fuel s₂ = (vs, some s₃)) :
    value (fuel + 1) s = (.array vs true, some s₃) := by
  simp [value, h, hfirst, hitems]

theorem value_emptyObject (h : skipBlanks s = '\x7b' :: s₁) (hend : skipBlanks s₁ = '\x7d' :: s₂) :
    value (fuel + 1) s = (.object [] true, some s₂) := by
  simp [value, h, hend]

theorem value_object {ms : List (Option String × Reading)} (h : skipBlanks s = '\x7b' :: s₁)
    (hfirst : skipBlanks s₁ = s₂) (hopen : ∀ t, s₂ ≠ '\x7d' :: t)
    (hmembers : members fuel s₂ = (ms, some s₃)) :
    value (fuel + 1) s = (.object ms true, some s₃) := by
  simp [value, h, hfirst, hmembers]

theorem value_number {c : Char} {n : Numeral} (h : skipBlanks s = c :: s₁)
    (hc : c.isDigit = true) (hread : Numeral.read (c :: s₁) = some (n, s₂)) :
    value (fuel + 1) s = (.number n, some s₂) := by
  have hne : ∀ d : Char, d.isDigit = false → c ≠ d := by
    rintro d hd rfl
    rw [hd] at hc
    cases hc
  have hn := hne 'n' (by decide)
  have ht := hne 't' (by decide)
  have hf := hne 'f' (by decide)
  have hquote := hne '"' (by decide)
  have hbracket := hne '[' (by decide)
  have hbrace := hne '\x7b' (by decide)
  simp [value, h, hread, hn, ht, hf, hquote, hbracket, hbrace]

end Reading

/-! ### Lists, objects and all values -/

section

variable {l : Layout}

theorem skipBlanks_value (depth : Nat) (v : Json) {blanks : List Char}
    (hblanks : ∀ c ∈ blanks, Reading.isBlank c = true) (rest : List Char) :
    Reading.skipBlanks (blanks ++ (v.chars l depth ++ rest)) = v.chars l depth ++ rest := by
  obtain ⟨c, s, hchars, hc, -⟩ := exists_head_chars l depth v
  rw [skipBlanks_append hblanks, hchars, List.cons_append, skipBlanks_cons hc]

theorem items_chars {v : Json} {vs : List Json} (hv : ReadsBack l v)
    (hvs : ∀ w ∈ vs, ReadsBack l w) {depth depth' fuel : Nat} (blanks : List Char)
    {rest : List Char} (hblanks : ∀ c ∈ blanks, Reading.isBlank c = true)
    (hfuel : 2 * ((v.chars l depth).length + (itemsChars l depth vs).length) + 1 ≤ fuel) :
    Reading.items fuel (blanks ++ (v.chars l depth
        ++ (itemsChars l depth vs ++ (l.lineBreak depth' ++ ']' :: rest))))
      = (v.reading :: vs.map reading, some rest) := by
  induction vs generalizing v fuel blanks with
  | nil =>
    obtain ⟨fuel, rfl⟩ : ∃ f, fuel = f + 1 := ⟨fuel - 1, by omega⟩
    refine Reading.items_last
      (hv depth fuel blanks _ hblanks (ends_items l depth depth' _ rest) (by omega)) ?_
    rw [itemsChars, List.nil_append, skipBlanks_append (l.isBlank_of_mem_lineBreak depth'),
      skipBlanks_cons (by decide)]
  | cons w ws ih =>
    obtain ⟨fuel, rfl⟩ : ∃ f, fuel = f + 1 := ⟨fuel - 1, by omega⟩
    obtain ⟨hw, hws⟩ := List.forall_mem_cons.mp hvs
    have hlength : (itemsChars l depth (w :: ws)).length
        = 1 + (l.lineBreak depth).length + (w.chars l depth).length
          + (itemsChars l depth ws).length := by
      simp only [itemsChars, List.length_cons, List.length_append]
      omega
    refine Reading.items_next
      (hv depth fuel blanks _ hblanks (ends_items l depth depth' _ rest) (by omega)) ?_
      (ih hw hws _ (l.isBlank_of_mem_lineBreak depth) (by omega))
    rw [itemsChars, List.cons_append, skipBlanks_cons (by decide), List.append_assoc,
      List.append_assoc]

variable (hl : l.IsReadable)

include hl

theorem members_chars {k : String} {v : Json} {ms : List (String × Json)}
    (hv : ReadsBack l v) (hms : ∀ m ∈ ms, ReadsBack l m.2) {depth depth' fuel : Nat}
    (blanks : List Char) {rest : List Char} (hblanks : ∀ c ∈ blanks, Reading.isBlank c = true)
    (hfuel : 2 * ((v.chars l depth).length + (membersChars l depth ms).length) + 1 ≤ fuel) :
    Reading.members fuel (blanks ++ (Quoted.write k ++ (l.colon ++ (v.chars l depth
        ++ (membersChars l depth ms ++ (l.lineBreak depth' ++ '\x7d' :: rest))))))
      = ((some k, v.reading) :: ms.map (fun m => (some m.1, m.2.reading)), some rest) := by
  obtain ⟨pad, hcolon, hpad⟩ := hl
  have hname : ∀ (blanks : List Char) (k : String) (s : List Char),
      (∀ c ∈ blanks, Reading.isBlank c = true) →
      Reading.skipBlanks (blanks ++ (Quoted.write k ++ (l.colon ++ s)))
        = '"' :: (k.toList.flatMap Quoted.escape ++ '"' :: ':' :: (pad ++ s)) := by
    intro blanks k s hblanks
    rw [skipBlanks_append hblanks, Quoted.write, List.cons_append, skipBlanks_cons (by decide),
      hcolon, List.append_assoc]
    rfl
  induction ms generalizing k v fuel blanks with
  | nil =>
    obtain ⟨fuel, rfl⟩ : ∃ f, fuel = f + 1 := ⟨fuel - 1, by omega⟩
    refine Reading.members_last (hname blanks k _ hblanks) (Quoted.read_write k _)
      (skipBlanks_cons (by decide))
      (hv depth fuel pad _ hpad (ends_members l depth depth' _ rest) (by omega)) ?_
    rw [membersChars, List.nil_append, skipBlanks_append (l.isBlank_of_mem_lineBreak depth'),
      skipBlanks_cons (by decide)]
  | cons m ms ih =>
    obtain ⟨fuel, rfl⟩ : ∃ f, fuel = f + 1 := ⟨fuel - 1, by omega⟩
    obtain ⟨hm, hms⟩ := List.forall_mem_cons.mp hms
    have hlength : (membersChars l depth (m :: ms)).length
        = 1 + (l.lineBreak depth).length + (Quoted.write m.1).length + l.colon.length
          + (m.2.chars l depth).length + (membersChars l depth ms).length := by
      simp only [membersChars, List.length_cons, List.length_append]
      omega
    refine Reading.members_next (hname blanks k _ hblanks) (Quoted.read_write k _)
      (skipBlanks_cons (by decide))
      (hv depth fuel pad _ hpad (ends_members l depth depth' _ rest) (by omega)) ?_
      (ih hm hms _ (l.isBlank_of_mem_lineBreak depth) (by omega))
    rw [membersChars, List.cons_append, skipBlanks_cons (by decide)]
    simp only [List.append_assoc]

/-- Every value is read back.  The induction is on the value; a list or an object is longer than
what it holds, so the steps are enough for that. -/
theorem value_chars (v : Json) : ReadsBack l v := by
  induction v using Json.inductionOn with
  | null =>
    intro depth fuel blanks rest hblanks _ hfuel
    obtain ⟨fuel, rfl⟩ : ∃ f, fuel = f + 1 := ⟨fuel - 1, by simp [chars] at hfuel; omega⟩
    exact Reading.value_null (skipBlanks_value depth .null hblanks rest)
  | bool b =>
    intro depth fuel blanks rest hblanks _ hfuel
    cases b with
    | true =>
      obtain ⟨fuel, rfl⟩ : ∃ f, fuel = f + 1 := ⟨fuel - 1, by simp [chars] at hfuel; omega⟩
      exact Reading.value_true (skipBlanks_value depth (.bool true) hblanks rest)
    | false =>
      obtain ⟨fuel, rfl⟩ : ∃ f, fuel = f + 1 := ⟨fuel - 1, by simp [chars] at hfuel; omega⟩
      exact Reading.value_false (skipBlanks_value depth (.bool false) hblanks rest)
  | number n =>
    intro depth fuel blanks rest hblanks hrest hfuel
    have hskip := skipBlanks_value (l := l) depth (.number n) hblanks rest
    have hread := Numeral.read_toDigits n hrest
    obtain ⟨d, ds, hds, hd⟩ := Numeral.exists_head_toDigits n
    rw [chars, hds] at hskip hfuel ⊢
    rw [hds] at hread
    obtain ⟨fuel, rfl⟩ : ∃ f, fuel = f + 1 := ⟨fuel - 1, by simp at hfuel; omega⟩
    exact Reading.value_number hskip hd hread
  | string s =>
    intro depth fuel blanks rest hblanks _ hfuel
    obtain ⟨fuel, rfl⟩ : ∃ f, fuel = f + 1 :=
      ⟨fuel - 1, by simp [chars, Quoted.write] at hfuel; omega⟩
    have htext : (Json.string s).chars l depth ++ rest
        = '"' :: (s.toList.flatMap Quoted.escape ++ '"' :: rest) := by
      simp [chars, Quoted.write]
    exact Reading.value_string ((skipBlanks_value depth _ hblanks rest).trans htext)
      (Quoted.read_write s rest)
  | array items ih =>
    intro depth fuel blanks rest hblanks _ hfuel
    have hskip := skipBlanks_value (l := l) depth (.array items) hblanks rest
    cases items with
    | nil =>
      obtain ⟨fuel, rfl⟩ : ∃ f, fuel = f + 1 := ⟨fuel - 1, by simp [chars] at hfuel; omega⟩
      exact Reading.value_emptyArray hskip (skipBlanks_cons (by decide))
    | cons v vs =>
      obtain ⟨hv, hvs⟩ := List.forall_mem_cons.mp ih
      have htext : (Json.array (v :: vs)).chars l depth ++ rest
          = '[' :: (l.lineBreak (depth + 1) ++ (v.chars l (depth + 1)
            ++ (itemsChars l (depth + 1) vs ++ (l.lineBreak depth ++ ']' :: rest)))) := by
        simp [chars]
      have hlength : (v.chars l (depth + 1)).length + (itemsChars l (depth + 1) vs).length + 2
          ≤ ((Json.array (v :: vs)).chars l depth).length := by
        simp only [chars, List.length_cons, List.length_append]
        omega
      obtain ⟨fuel, rfl⟩ : ∃ f, fuel = f + 1 := ⟨fuel - 1, by omega⟩
      have hopen : ∀ t, v.chars l (depth + 1)
          ++ (itemsChars l (depth + 1) vs ++ (l.lineBreak depth ++ ']' :: rest)) ≠ ']' :: t := by
        obtain ⟨c, s, hchars, -, hc⟩ := exists_head_chars l (depth + 1) v
        rw [hchars]
        intro t h
        exact hc (List.cons.inj h).1
      rw [reading, itemReadings_eq]
      exact Reading.value_array (hskip.trans htext)
        (skipBlanks_value (depth + 1) v (l.isBlank_of_mem_lineBreak (depth + 1)) _) hopen
        (items_chars hv hvs [] (by simp) (by omega))
  | object members ih =>
    intro depth fuel blanks rest hblanks _ hfuel
    have hskip := skipBlanks_value (l := l) depth (.object members) hblanks rest
    rcases members with _ | ⟨⟨k, v⟩, ms⟩
    · obtain ⟨fuel, rfl⟩ : ∃ f, fuel = f + 1 := ⟨fuel - 1, by simp [chars] at hfuel; omega⟩
      exact Reading.value_emptyObject hskip (skipBlanks_cons (by decide))
    · have hv : ReadsBack l v := ih (k, v) List.mem_cons_self
      have hms : ∀ m ∈ ms, ReadsBack l m.2 := fun m hm => ih m (List.mem_cons_of_mem _ hm)
      have htext : (Json.object ((k, v) :: ms)).chars l depth ++ rest
          = '\x7b' :: (l.lineBreak (depth + 1) ++ (Quoted.write k ++ (l.colon
            ++ (v.chars l (depth + 1) ++ (membersChars l (depth + 1) ms
              ++ (l.lineBreak depth ++ '\x7d' :: rest)))))) := by
        simp [chars]
      have hlength : (v.chars l (depth + 1)).length + (membersChars l (depth + 1) ms).length + 2
          ≤ ((Json.object ((k, v) :: ms)).chars l depth).length := by
        simp only [chars, List.length_cons, List.length_append]
        omega
      obtain ⟨fuel, rfl⟩ : ∃ f, fuel = f + 1 := ⟨fuel - 1, by omega⟩
      have hfirst : ∀ s, Reading.skipBlanks (l.lineBreak (depth + 1) ++ (Quoted.write k ++ s))
          = Quoted.write k ++ s := by
        intro s
        rw [skipBlanks_append (l.isBlank_of_mem_lineBreak (depth + 1)), Quoted.write,
          List.cons_append, skipBlanks_cons (by decide)]
      have hopen : ∀ s t, Quoted.write k ++ s ≠ '\x7d' :: t := by
        intro s t h
        exact absurd (List.cons.inj h).1 (by decide)
      rw [reading, memberReadings_eq]
      exact Reading.value_object (hskip.trans htext) (hfirst _) (hopen _)
        (members_chars hl hv hms [] (by simp) (by omega))

/-- The text of a value is read as its tree, and nothing is left. -/
theorem ofChars_chars (v : Json) :
    Document.ofChars (v.chars l 0) = ⟨v.reading, true⟩ := by
  have hvalue := value_chars hl v 0 (2 * (v.chars l 0).length + 1) [] [] (by simp)
    (by simp [Numeral.Ends]) (by omega)
  rw [List.nil_append, List.append_nil] at hvalue
  rw [Document.ofChars, hvalue]
  rfl

end

theorem ofText_compact (v : Json) : Document.ofText v.compact = ⟨v.reading, true⟩ := by
  rw [Document.ofText, compact, String.toList_ofList]
  exact ofChars_chars Layout.isReadable_compact v

theorem ofText_pretty (v : Json) : Document.ofText v.pretty = ⟨v.reading, true⟩ := by
  rw [Document.ofText, pretty, String.toList_ofList]
  exact ofChars_chars Layout.isReadable_pretty v

end Linkage.Json
