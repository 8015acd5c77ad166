import Mathlib.Data.List.Infix
import Linkage.Proofs.Descriptors
import Linkage.Proofs.Text.Utf8

/-!
# What is wrong with a descriptor

A text that is no descriptor may be the beginning of one, it may have one as its beginning, or
neither.  Reading tells these apart.  That the text ends too early, or that a class name in it
does, is said of the beginnings of descriptors and of nothing else; that characters are left over,
of the texts a descriptor ends within.

* `Begins`: a text with more to come.
* `Reads`: a reader of some texts, which is cut short exactly by their beginnings; `Reads.andThen`
  puts readers together, as those of the parts of a signature.
* `Diagnoses`: what the faults of a reader of whole texts say.
* `descriptors_diagnosed`: types and signatures.
-/

namespace Linkage.Descriptor

/-! ## Messages tell faults apart -/

namespace Fault

/-- How the message of a fault begins. -/
def opening : Fault → String
  | .unexpectedEnd => "unexpected end of descriptor"
  | .expected _ _ _ => "expected '"
  | .trailing _ => "trailing characters at offset "
  | .tooManyDimensions _ => "more than "
  | .unterminatedName => "unterminated class name"
  | .emptyName => "empty class name"
  | .unexpectedTag _ _ => "unexpected tag '"

theorem exists_message_eq (f : Fault) : ∃ rest, f.message = f.opening ++ rest := by
  cases f with
  | unexpectedEnd => exact ⟨"", (String.append_empty).symm⟩
  | expected wanted offset found =>
    refine ⟨String.singleton wanted ++ ("' at offset " ++ (offset.repr ++ (", found '" ++
      (shown found ++ "'")))), ?_⟩
    simp only [← String.append_assoc]
    rfl
  | trailing offset => exact ⟨_, rfl⟩
  | tooManyDimensions offset =>
    refine ⟨maxDimensions.repr ++ (" array dimensions at offset " ++ offset.repr), ?_⟩
    simp only [← String.append_assoc]
    rfl
  | unterminatedName => exact ⟨"", (String.append_empty).symm⟩
  | emptyName => exact ⟨"", (String.append_empty).symm⟩
  | unexpectedTag found offset =>
    refine ⟨shown found ++ ("' at offset " ++ offset.repr), ?_⟩
    simp only [← String.append_assoc]
    rfl

theorem message_trailing (k : Nat) :
    (trailing k).message = "trailing characters at offset " ++ k.repr := rfl

theorem opening_prefix {f : Fault} {text : String} (h : f.message = text) :
    f.opening.toList <+: text.toList := by
  obtain ⟨rest, hrest⟩ := f.exists_message_eq
  rw [← h, hrest, String.toList_append]
  exact List.prefix_append _ _

theorem eq_unexpectedEnd_of_message {f : Fault}
    (h : f.message = "unexpected end of descriptor") : f = .unexpectedEnd := by
  have hprefix := opening_prefix h
  cases f with
  | unexpectedEnd => rfl
  | _ => simp [opening] at hprefix

theorem eq_unterminatedName_of_message {f : Fault}
    (h : f.message = "unterminated class name") : f = .unterminatedName := by
  have hprefix := opening_prefix h
  cases f with
  | unterminatedName => rfl
  | _ => simp [opening] at hprefix

theorem eq_trailing_of_message {f : Fault} {k : Nat}
    (h : f.message = s!"trailing characters at offset {k}") : f = .trailing k := by
  have hprefix := opening_prefix h
  rw [show s!"trailing characters at offset {k}" = "trailing characters at offset " ++ k.repr
    from rfl] at h hprefix
  cases f with
  | trailing offset =>
    have hdigits := congrArg String.toList h
    rw [message_trailing, String.toList_append, String.toList_append, List.append_right_inj,
      Nat.toList_repr, Nat.toList_repr] at hdigits
    have hvalue := congrArg (Nat.ofDigitChars 10 · 0) hdigits
    simp only [Nat.ofDigitChars_ten_toDigits] at hvalue
    rw [hvalue]
  | _ => simp [opening, String.toList_append] at hprefix

end Fault

/-! ## Beginnings -/

/-- The characters `cs` are the beginning of `ds`, and some are missing. -/
def Begins (cs ds : List Char) : Prop :=
  cs <+: ds ∧ cs ≠ ds

theorem begins_nil_iff {ds : List Char} : Begins [] ds ↔ ds ≠ [] := by
  simp [Begins, eq_comm]

theorem begins_cons_iff {c d : Char} {cs ds : List Char} :
    Begins (c :: cs) (d :: ds) ↔ c = d ∧ Begins cs ds := by
  simp only [Begins, List.cons_prefix_cons, ne_eq, List.cons.injEq, not_and]
  tauto

theorem begins_append_left_iff {cs ds es : List Char} :
    Begins (cs ++ ds) (cs ++ es) ↔ Begins ds es := by
  rw [Begins, Begins, List.prefix_append_right_inj, ne_eq, List.append_right_inj]

theorem not_begins_nil {cs : List Char} : ¬ Begins cs [] := by
  rintro ⟨hbegins, hne⟩
  exact hne (List.prefix_nil.mp hbegins)

theorem begins_singleton_iff {cs : List Char} {c : Char} : Begins cs [c] ↔ cs = [] := by
  cases cs with
  | nil => simp [begins_nil_iff]
  | cons d cs => simp [begins_cons_iff, not_begins_nil]

theorem begins_append_iff {cs ds es : List Char} :
    Begins cs (ds ++ es) ↔ Begins cs ds ∨ ∃ rest, cs = ds ++ rest ∧ Begins rest es := by
  induction ds generalizing cs with
  | nil => simp [not_begins_nil]
  | cons d ds ih =>
    cases cs with
    | nil => simp [begins_nil_iff]
    | cons c cs =>
      rw [List.cons_append, begins_cons_iff, begins_cons_iff, ih]
      simp only [List.cons_append, List.cons.injEq]
      constructor
      · rintro ⟨rfl, h | ⟨rest, hcs, h⟩⟩
        · exact .inl ⟨rfl, h⟩
        · exact .inr ⟨rest, ⟨rfl, hcs⟩, h⟩
      · rintro (⟨rfl, h⟩ | ⟨rest, ⟨rfl, hcs⟩, h⟩)
        · exact ⟨rfl, .inl h⟩
        · exact ⟨rfl, .inr ⟨rest, hcs, h⟩⟩

/-! ## Readers -/

/-- A reader of a part of a descriptor. -/
abbrev Reader (α : Type) := Place → Except Fault (α × Place)

/-- The text ended too early. -/
def CutShort {α : Type} (result : Except Fault α) : Prop :=
  result = .error .unexpectedEnd ∨ result = .error .unterminatedName

variable {α β : Type}

theorem cutShort_bind_iff {x : Except Fault α} {f : α → Except Fault β} :
    CutShort (x >>= f) ↔ CutShort x ∨ ∃ a, x = .ok a ∧ CutShort (f a) := by
  cases x with
  | error fault => simp [CutShort, bind, Except.bind]
  | ok a => simp [CutShort, bind, Except.bind]

theorem not_cutShort_ok {a : α} : ¬ CutShort (.ok a) := by
  rintro (h | h) <;> cases h

/-- The reader reads what the texts stand for, whatever follows, and is cut short exactly by their
beginnings. -/
structure Reads (read : Reader α) (Spells : List Char → α → Prop) : Prop where
  /-- What is read stands there. -/
  ok_iff : ∀ {p q a}, read p = .ok (a, q) ↔ ∃ cs, Spells cs a ∧ p.Passes cs q
  /-- Something is missing exactly if more could have followed. -/
  cutShort_iff : ∀ {p}, CutShort (read p) ↔ ∃ cs a, Spells cs a ∧ Begins p.rest cs
  /-- That too much stands there is not for the reader to say. -/
  ne_trailing : ∀ {p k}, read p ≠ .error (.trailing k)

/-- Reads one thing and then another. -/
def andThen (x : Reader α) (y : Reader β) : Reader (α × β) := fun p => do
  let (a, q) ← x p
  let (b, r) ← y q
  return ((a, b), r)

variable {x : Reader α} {y : Reader β}
variable {Spells : List Char → α → Prop} {Spells' : List Char → β → Prop}

theorem Reads.andThen (hx : Reads x Spells) (hy : Reads y Spells') (hsome : ∃ cs b, Spells' cs b) :
    Reads (andThen x y) fun cs ab =>
      ∃ front back, cs = front ++ back ∧ Spells front ab.1 ∧ Spells' back ab.2 where
  ok_iff := by
    intro p r ab
    constructor
    · intro h
      obtain ⟨⟨a, q⟩, hread, h⟩ := except_bind_eq_ok_iff.mp h
      obtain ⟨⟨b, r'⟩, hread', h⟩ := except_bind_eq_ok_iff.mp h
      cases h
      obtain ⟨front, hspells, hpasses⟩ := hx.ok_iff.mp hread
      obtain ⟨back, hspells', hpasses'⟩ := hy.ok_iff.mp hread'
      exact ⟨_, ⟨front, back, rfl, hspells, hspells'⟩, hpasses.trans hpasses'⟩
    · rintro ⟨_, ⟨front, back, rfl, hspells, hspells'⟩, hpasses⟩
      obtain ⟨q, hfront, hback⟩ := hpasses.exists_between
      refine except_bind_eq_ok_iff.mpr ⟨_, hx.ok_iff.mpr ⟨front, hspells, hfront⟩, ?_⟩
      exact except_bind_eq_ok_iff.mpr ⟨_, hy.ok_iff.mpr ⟨back, hspells', hback⟩, rfl⟩
  cutShort_iff := by
    intro p
    unfold Descriptor.andThen
    rw [cutShort_bind_iff, hx.cutShort_iff]
    constructor
    · rintro (⟨cs, a, hspells, hbegins⟩ | ⟨⟨a, q⟩, hread, h⟩)
      · obtain ⟨back, b, hspells'⟩ := hsome
        exact ⟨_, (a, b), ⟨cs, back, rfl, hspells, hspells'⟩, begins_append_iff.mpr (.inl hbegins)⟩
      · obtain ⟨front, hspells, hpasses⟩ := hx.ok_iff.mp hread
        rcases cutShort_bind_iff.mp h with h | ⟨_, _, h⟩
        · obtain ⟨back, b, hspells', hbegins⟩ := hy.cutShort_iff.mp h
          refine ⟨_, (a, b), ⟨front, back, rfl, hspells, hspells'⟩, ?_⟩
          rw [hpasses.rest]
          exact begins_append_left_iff.mpr hbegins
        · rcases h with h | h <;> cases h
    · rintro ⟨_, ⟨a, b⟩, ⟨front, back, rfl, hspells, hspells'⟩, hbegins⟩
      rcases begins_append_iff.mp hbegins with hbegins | ⟨rest, hrest, hbegins⟩
      · exact .inl ⟨front, a, hspells, hbegins⟩
      · have hpasses : p.Passes front ⟨p.offset + byteLength front, rest⟩ := ⟨hrest, rfl⟩
        refine .inr ⟨_, hx.ok_iff.mpr ⟨front, hspells, hpasses⟩, cutShort_bind_iff.mpr (.inl ?_)⟩
        exact hy.cutShort_iff.mpr ⟨back, b, hspells', hbegins⟩
  ne_trailing := by
    intro p k h
    rcases except_bind_eq_error_iff.mp h with h | ⟨⟨a, q⟩, -, h⟩
    · exact hx.ne_trailing h
    · rcases except_bind_eq_error_iff.mp h with h | ⟨_, -, h⟩
      · exact hy.ne_trailing h
      · cases h

theorem Reads.map {γ : Type} (hx : Reads x Spells) (g : α → γ) :
    Reads (fun p => Prod.map g id <$> x p) fun cs c => ∃ a, Spells cs a ∧ g a = c where
  ok_iff := by
    intro p q c
    rw [map_eq_pure_bind, except_bind_eq_ok_iff]
    constructor
    · rintro ⟨⟨a, q'⟩, hread, h⟩
      cases h
      obtain ⟨cs, hspells, hpasses⟩ := hx.ok_iff.mp hread
      exact ⟨cs, ⟨a, hspells, rfl⟩, hpasses⟩
    · rintro ⟨cs, ⟨a, hspells, rfl⟩, hpasses⟩
      exact ⟨(a, q), hx.ok_iff.mpr ⟨cs, hspells, hpasses⟩, rfl⟩
  cutShort_iff := by
    intro p
    rw [map_eq_pure_bind, cutShort_bind_iff, hx.cutShort_iff, or_iff_left]
    · constructor
      · rintro ⟨cs, a, hspells, hbegins⟩
        exact ⟨cs, g a, ⟨a, hspells, rfl⟩, hbegins⟩
      · rintro ⟨cs, _, ⟨a, hspells, -⟩, hbegins⟩
        exact ⟨cs, a, hspells, hbegins⟩
    · rintro ⟨_, -, h⟩
      exact not_cutShort_ok h
  ne_trailing := by
    intro p k h
    rw [map_eq_pure_bind] at h
    rcases except_bind_eq_error_iff.mp h with h | ⟨_, -, h⟩
    · exact hx.ne_trailing h
    · cases h

theorem Reads.of_iff {Spells₂ : List Char → α → Prop} (hx : Reads x Spells)
    (h : ∀ cs a, Spells cs a ↔ Spells₂ cs a) : Reads x Spells₂ := by
  have heq : Spells = Spells₂ := by
    funext cs a
    exact propext (h cs a)
  exact heq ▸ hx

/-- The characters spell the value. -/
def Spelled {ω : Type} (chars : ω → List Char) (value : ω → α) (cs : List Char) (a : α) : Prop :=
  ∃ w, chars w = cs ∧ value w = a

section

variable {ω : Type} {chars : ω → List Char} {value : ω → α}

theorem exists_spelled_passes_iff {p q : Place} {a : α} :
    (∃ cs, Spelled chars value cs a ∧ p.Passes cs q)
      ↔ ∃ w, p.Passes (chars w) q ∧ value w = a := by
  constructor
  · rintro ⟨_, ⟨w, rfl, hvalue⟩, hpasses⟩
    exact ⟨w, hpasses, hvalue⟩
  · rintro ⟨w, hpasses, hvalue⟩
    exact ⟨_, ⟨w, rfl, hvalue⟩, hpasses⟩

theorem exists_spelled_begins_iff {s : List Char} :
    (∃ cs a, Spelled chars value cs a ∧ Begins s cs) ↔ ∃ w, Begins s (chars w) := by
  constructor
  · rintro ⟨_, _, ⟨w, rfl, -⟩, hbegins⟩
    exact ⟨w, hbegins⟩
  · rintro ⟨w, hbegins⟩
    exact ⟨_, _, ⟨w, rfl, rfl⟩, hbegins⟩

end

/-! ## Types -/

/-- A name is cut short if no semicolon ends it. -/
theorem begins_named_iff {s : List Char} :
    (∃ name, name ≠ [] ∧ ';' ∉ name ∧ Begins s (name ++ [';'])) ↔ ';' ∉ s := by
  constructor
  · rintro ⟨name, -, hplain, hbegins⟩ hmem
    rcases begins_append_iff.mp hbegins with hshort | ⟨rest, rfl, hrest⟩
    · exact hplain (hshort.1.subset hmem)
    · rw [begins_singleton_iff.mp hrest, List.append_nil] at hmem
      exact hplain hmem
  · intro hplain
    refine ⟨s ++ ['A'], by simp, by simpa using hplain, ?_⟩
    rw [List.append_assoc]
    exact begins_append_iff.mpr (.inr ⟨[], (List.append_nil s).symm, by simp [begins_nil_iff]⟩)

theorem dropWhile_name_eq_nil_iff {s : List Char} : s.dropWhile (· != ';') = [] ↔ ';' ∉ s := by
  rw [List.dropWhile_eq_nil_iff]
  constructor
  · intro hall hmem
    simpa using hall _ hmem
  · intro hplain c hc
    simpa using ne_of_mem_of_not_mem hc hplain

theorem cutShort_elementType_iff {p : Place} :
    CutShort (elementType p) ↔ ∃ w : ElementSpelling, Begins p.rest w.chars := by
  obtain ⟨offset, rest⟩ := p
  unfold elementType
  dsimp only
  split
  · refine iff_of_true (.inl rfl) ⟨.letter .int, ?_⟩
    exact begins_nil_iff.mpr (List.cons_ne_nil _ _)
  · next s =>
    have hnamed : (∃ w : ElementSpelling, Begins ('L' :: s) w.chars)
        ↔ ∃ name, name ≠ [] ∧ ';' ∉ name ∧ Begins s (name ++ [';']) := by
      constructor
      · rintro ⟨w, hbegins⟩
        cases w with
        | letter p => exact absurd (begins_cons_iff.mp hbegins).2 not_begins_nil
        | named name hnonempty hplain =>
          exact ⟨name, hnonempty, hplain, (begins_cons_iff.mp hbegins).2⟩
      · rintro ⟨name, hnonempty, hplain, hbegins⟩
        exact ⟨.named name hnonempty hplain, begins_cons_iff.mpr ⟨rfl, hbegins⟩⟩
    rw [hnamed, begins_named_iff, ← dropWhile_name_eq_nil_iff]
    split
    · next hend => exact iff_of_true (.inr rfl) hend
    · next c rest hend =>
      refine iff_of_false ?_ (by rw [hend]; exact List.cons_ne_nil c rest)
      split
      · rintro (h | h) <;> cases h
      · exact not_cutShort_ok
  · next c s hL =>
    refine iff_of_false ?_ ?_
    · split
      · exact not_cutShort_ok
      · rintro (h | h) <;> cases h
    · rintro ⟨w, hbegins⟩
      cases w with
      | letter p => exact not_begins_nil (begins_cons_iff.mp hbegins).2
      | named name _ _ => exact hL (begins_cons_iff.mp hbegins).1

theorem elementType_ne_trailing {p : Place} {k : Nat} :
    elementType p ≠ .error (.trailing k) := by
  unfold elementType
  intro h
  split at h
  · cases h
  · dsimp only at h
    split at h
    · cases h
    · split at h <;> cases h
  · split at h <;> cases h

/-- Brackets that stand there belong to whatever follows them. -/
theorem begins_of_brackets {s cs : List Char}
    (h : Begins (s.drop (s.takeWhile (· == '[')).length) cs) :
    Begins s (List.replicate (s.takeWhile (· == '[')).length '[' ++ cs) := by
  have hwhole : Begins (List.replicate (s.takeWhile (· == '[')).length '[' ++ _) (_ ++ cs) :=
    begins_append_left_iff.mpr h
  rwa [brackets_append_drop] at hwhole

/-- The beginning of a type is some brackets and then the beginning of its element. -/
theorem brackets_of_begins {s : List Char} {w : FieldSpelling} (h : Begins s w.chars) :
    ∃ n ≤ 255, ∃ rest, s = List.replicate n '[' ++ rest ∧ Begins rest w.element.chars := by
  rcases begins_append_iff.mp h with hshort | ⟨rest, hs, hrest⟩
  -- The text ends among the brackets, and nothing of the element is there.
  · obtain ⟨n, hn, hs⟩ : ∃ n ≤ w.dimensions, s = List.replicate n '[' :=
      ⟨s.length, by simpa using hshort.1.length_le, List.prefix_replicate_iff.mp hshort.1 |>.2⟩
    obtain ⟨c, rest, hchars, -⟩ := w.element.exists_head
    refine ⟨n, hn.trans w.bounded, [], by rw [hs, List.append_nil], ?_⟩
    rw [hchars]
    exact begins_nil_iff.mpr (List.cons_ne_nil c rest)
  · exact ⟨w.dimensions, w.bounded, rest, hs, hrest⟩

theorem takeWhile_of_begins {n : Nat} {rest : List Char} {w : ElementSpelling}
    (h : Begins rest w.chars) :
    (List.replicate n '[' ++ rest).takeWhile (· == '[') = List.replicate n '[' := by
  obtain ⟨c, more, hchars, hc, -⟩ := w.exists_head
  rw [hchars] at h
  rw [List.takeWhile_append_of_pos (by simp)]
  cases rest with
  | nil => simp
  | cons d rest => simp [(begins_cons_iff.mp h).1, hc]

theorem cutShort_fieldType_iff {p : Place} :
    CutShort (fieldType p) ↔ ∃ w : FieldSpelling, Begins p.rest w.chars := by
  obtain ⟨offset, rest⟩ := p
  unfold fieldType
  dsimp only
  constructor
  · intro h
    split at h
    · rcases h with h | h <;> cases h
    · next hbounded =>
      rcases cutShort_bind_iff.mp h with h | ⟨_, -, h⟩
      · obtain ⟨w, hbegins⟩ := cutShort_elementType_iff.mp h
        exact ⟨⟨_, w, Nat.le_of_not_lt hbounded⟩, begins_of_brackets hbegins⟩
      · exact absurd h not_cutShort_ok
  · rintro ⟨w, hbegins⟩
    obtain ⟨n, hn, after, rfl, hafter⟩ := brackets_of_begins hbegins
    have hallowed : ¬ maxDimensions < n := Nat.not_lt.mpr hn
    rw [takeWhile_of_begins hafter, List.length_replicate, if_neg hallowed]
    refine cutShort_bind_iff.mpr (.inl (cutShort_elementType_iff.mpr ⟨w.element, ?_⟩))
    rwa [List.drop_left' (List.length_replicate)]

theorem fieldType_ne_trailing {p : Place} {k : Nat} : fieldType p ≠ .error (.trailing k) := by
  unfold fieldType
  intro h
  dsimp only at h
  split at h
  · cases h
  · rcases except_bind_eq_error_iff.mp h with h | ⟨_, -, h⟩
    · exact elementType_ne_trailing h
    · cases h

theorem reads_fieldType : Reads fieldType (Spelled FieldSpelling.chars FieldSpelling.type) where
  ok_iff := by
    intro p q t
    rw [exists_spelled_passes_iff]
    exact fieldType_eq_ok_iff
  cutShort_iff := by
    intro p
    rw [exists_spelled_begins_iff]
    exact cutShort_fieldType_iff
  ne_trailing := fieldType_ne_trailing

/-! ## Signatures -/

/-- Nothing is missing once the parenthesis is closed: no type begins with one. -/
theorem not_begins_parameters {s : List Char} {ws : List FieldSpelling} :
    ¬ Begins (')' :: s) (ws.flatMap FieldSpelling.chars ++ [')']) := by
  intro h
  cases ws with
  | nil => exact not_begins_nil (begins_cons_iff.mp h).2
  | cons w ws =>
    obtain ⟨c, rest, hchars, hc, -⟩ := w.exists_head
    rw [List.flatMap_cons, hchars] at h
    exact hc (begins_cons_iff.mp h).1.symm

/-- The induction is on the fuel, of which the length of the text is enough. -/
theorem cutShort_parameterTypes_iff {fuel : Nat} {p : Place} (hfuel : p.rest.length ≤ fuel) :
    CutShort (parameterTypes fuel p)
      ↔ ∃ ws : List FieldSpelling, Begins p.rest (ws.flatMap FieldSpelling.chars ++ [')']) := by
  induction fuel generalizing p with
  | zero =>
    have hempty : p.rest = [] := List.length_eq_zero_iff.mp (Nat.le_zero.mp hfuel)
    rw [hempty]
    exact iff_of_true (.inl rfl) ⟨[], begins_nil_iff.mpr (by simp)⟩
  | succ fuel ih =>
    unfold parameterTypes
    split
    · next hempty =>
      rw [hempty]
      exact iff_of_true (.inl rfl) ⟨[], begins_nil_iff.mpr (by simp)⟩
    · next s hclosed =>
      rw [hclosed]
      exact iff_of_false not_cutShort_ok fun ⟨ws, h⟩ => not_begins_parameters h
    · next hempty hclosed =>
      constructor
      · intro h
        rcases cutShort_bind_iff.mp h with h | ⟨⟨t, q⟩, hread, h⟩
        · obtain ⟨w, hbegins⟩ := cutShort_fieldType_iff.mp h
          refine ⟨[w], ?_⟩
          rw [List.flatMap_singleton]
          exact begins_append_iff.mpr (.inl hbegins)
        · obtain ⟨w, hpasses, -⟩ := fieldType_eq_ok_iff.mp hread
          rcases cutShort_bind_iff.mp h with h | ⟨_, -, h⟩
          · obtain ⟨ws, hbegins⟩ := (ih (hpasses.length_le hfuel)).mp h
            refine ⟨w :: ws, ?_⟩
            rw [hpasses.rest, List.flatMap_cons, List.append_assoc]
            exact begins_append_left_iff.mpr hbegins
          · exact absurd h not_cutShort_ok
      · rintro ⟨ws, hbegins⟩
        cases ws with
        | nil => exact absurd (begins_singleton_iff.mp hbegins) (by simpa using hempty)
        | cons w ws =>
          rw [List.flatMap_cons, List.append_assoc] at hbegins
          rcases begins_append_iff.mp hbegins with hshort | ⟨rest, hrest, hmore⟩
          · exact cutShort_bind_iff.mpr (.inl (cutShort_fieldType_iff.mpr ⟨w, hshort⟩))
          · have hpasses : p.Passes w.chars ⟨p.offset + byteLength w.chars, rest⟩ := ⟨hrest, rfl⟩
            refine cutShort_bind_iff.mpr (.inr ⟨_, fieldType_eq_ok_iff.mpr ⟨w, hpasses, rfl⟩, ?_⟩)
            refine cutShort_bind_iff.mpr (.inl ?_)
            exact (ih (hpasses.length_le hfuel)).mpr ⟨ws, hmore⟩

theorem parameterTypes_ne_trailing {fuel k : Nat} {p : Place} :
    parameterTypes fuel p ≠ .error (.trailing k) := by
  induction fuel generalizing p with
  | zero =>
    intro h
    cases h
  | succ fuel ih =>
    unfold parameterTypes
    intro h
    split at h
    · cases h
    · cases h
    · rcases except_bind_eq_error_iff.mp h with h | ⟨⟨t, q⟩, -, h⟩
      · exact fieldType_ne_trailing h
      · rcases except_bind_eq_error_iff.mp h with h | ⟨_, -, h⟩
        · exact ih h
        · cases h

/-- Reads a character for nothing but its place. -/
def mark (wanted : Char) : Reader Unit := fun p => do
  let q ← expect wanted p
  return ((), q)

theorem reads_mark {wanted : Char} (hone : wanted.utf8Size = 1) :
    Reads (mark wanted) fun cs _ => cs = [wanted] where
  ok_iff := by
    intro p q _
    constructor
    · intro h
      obtain ⟨q', hread, h⟩ := except_bind_eq_ok_iff.mp h
      cases h
      exact ⟨_, rfl, (expect_eq_ok_iff hone).mp hread⟩
    · rintro ⟨_, rfl, hpasses⟩
      exact except_bind_eq_ok_iff.mpr ⟨q, (expect_eq_ok_iff hone).mpr hpasses, rfl⟩
  cutShort_iff := by
    rintro ⟨offset, rest⟩
    have hspells : (∃ cs, ∃ _ : Unit, cs = [wanted] ∧ Begins rest cs) ↔ rest = [] := by
      simp [begins_singleton_iff]
    rw [hspells]
    unfold mark expect
    cases rest with
    | nil => exact iff_of_true (.inl rfl) rfl
    | cons c s =>
      refine iff_of_false (fun h => ?_) (List.cons_ne_nil c s)
      dsimp only at h
      split at h
      · exact not_cutShort_ok h
      · rcases h with h | h <;> cases h
  ne_trailing := by
    intro p k h
    rcases except_bind_eq_error_iff.mp h with h | ⟨_, -, h⟩
    · unfold expect at h
      split at h
      · cases h
      · split at h <;> cases h
    · cases h

/-- Reads parameters up to the closing parenthesis, and the parenthesis. -/
def parameters : Reader (List FieldType) := fun p => do
  let (ts, q) ← parameterTypes p.rest.length p
  let r ← expect ')' q
  return (ts, r)

/-- The text of parameters with the parenthesis after them. -/
def parameterChars (ws : List FieldSpelling) : List Char :=
  ws.flatMap FieldSpelling.chars ++ [')']

theorem expect_of_head {q : Place} (h : q.rest.head? = some ')') : ∃ r, expect ')' q = .ok r := by
  obtain ⟨rest, hrest⟩ := List.head?_eq_some_iff.mp h
  unfold expect
  rw [hrest]
  exact ⟨_, if_pos rfl⟩

theorem reads_parameters :
    Reads parameters (Spelled parameterChars (List.map FieldSpelling.type)) where
  ok_iff := by
    intro p r ts
    rw [exists_spelled_passes_iff]
    constructor
    · intro h
      obtain ⟨⟨ts', q⟩, hread, h⟩ := except_bind_eq_ok_iff.mp h
      obtain ⟨r', hclose, h⟩ := except_bind_eq_ok_iff.mp h
      cases h
      obtain ⟨ws, hpasses, -, rfl⟩ := (parameterTypes_eq_ok_iff le_rfl).mp hread
      exact ⟨ws, hpasses.trans ((expect_eq_ok_iff rfl).mp hclose), rfl⟩
    · rintro ⟨ws, hpasses, rfl⟩
      obtain ⟨q, hwords, hclose⟩ := hpasses.exists_between
      have hstop : q.rest.head? = some ')' := by rw [hclose.rest]; rfl
      refine except_bind_eq_ok_iff.mpr
        ⟨_, (parameterTypes_eq_ok_iff le_rfl).mpr ⟨ws, hwords, hstop, rfl⟩, ?_⟩
      exact except_bind_eq_ok_iff.mpr ⟨r, (expect_eq_ok_iff rfl).mpr hclose, rfl⟩
  cutShort_iff := by
    intro p
    rw [exists_spelled_begins_iff]
    unfold parameters parameterChars
    rw [← cutShort_parameterTypes_iff le_rfl, cutShort_bind_iff, or_iff_left]
    rintro ⟨⟨ts, q⟩, hread, h⟩
    obtain ⟨_, -, hstop, -⟩ := (parameterTypes_eq_ok_iff le_rfl).mp hread
    obtain ⟨r, hclose⟩ := expect_of_head hstop
    dsimp only at h
    rw [hclose] at h
    exact not_cutShort_ok h
  ne_trailing := by
    intro p k h
    rcases except_bind_eq_error_iff.mp h with h | ⟨⟨ts, q⟩, hread, h⟩
    · exact parameterTypes_ne_trailing h
    · obtain ⟨_, -, hstop, -⟩ := (parameterTypes_eq_ok_iff le_rfl).mp hread
      obtain ⟨r, hclose⟩ := expect_of_head hstop
      dsimp only at h
      rw [hclose] at h
      cases h

theorem reads_resultType :
    Reads resultType
      (Spelled MethodSpelling.resultChars (Option.map FieldSpelling.type)) where
  ok_iff := by
    intro p q t
    rw [exists_spelled_passes_iff]
    exact resultType_eq_ok_iff
  cutShort_iff := by
    intro p
    rw [exists_spelled_begins_iff]
    unfold resultType
    split
    · next hempty =>
      rw [hempty]
      exact iff_of_true (.inl rfl) ⟨none, begins_nil_iff.mpr (List.cons_ne_nil _ _)⟩
    · next s hvoid =>
      rw [hvoid]
      refine iff_of_false not_cutShort_ok ?_
      rintro ⟨w, hbegins⟩
      cases w with
      | none => exact not_begins_nil (begins_cons_iff.mp hbegins).2
      | some w =>
        obtain ⟨c, rest, hchars, -, hc⟩ := w.exists_head
        rw [MethodSpelling.resultChars, hchars] at hbegins
        exact hc (begins_cons_iff.mp hbegins).1.symm
    · next hempty hvoid =>
      rw [cutShort_bind_iff, cutShort_fieldType_iff, or_iff_left]
      · constructor
        · rintro ⟨w, hbegins⟩
          exact ⟨some w, hbegins⟩
        · rintro ⟨w, hbegins⟩
          cases w with
          | none => exact absurd (begins_singleton_iff.mp hbegins) (by simpa using hempty)
          | some w => exact ⟨w, hbegins⟩
      · rintro ⟨_, -, h⟩
        exact not_cutShort_ok h
  ne_trailing := by
    intro p k h
    unfold resultType at h
    split at h
    · cases h
    · cases h
    · rcases except_bind_eq_error_iff.mp h with h | ⟨_, -, h⟩
      · exact fieldType_ne_trailing h
      · cases h

/-- Reads a signature, whatever follows. -/
def signature : Reader Signature := fun p =>
  Prod.map (fun parts => ⟨parts.2.1, parts.2.2⟩) id
    <$> andThen (mark '(') (andThen parameters resultType) p

theorem reads_signature :
    Reads signature (Spelled MethodSpelling.chars MethodSpelling.signature) := by
  have hvoid : ∃ cs t, Spelled MethodSpelling.resultChars (Option.map FieldSpelling.type) cs t :=
    ⟨_, _, none, rfl, rfl⟩
  have hempty : ∃ cs parts, ∃ front back, cs = front ++ back ∧
      Spelled parameterChars (List.map FieldSpelling.type) front (Prod.fst parts) ∧
      Spelled MethodSpelling.resultChars (Option.map FieldSpelling.type) back (Prod.snd parts) :=
    ⟨_, (_, _), _, _, rfl, ⟨[], rfl, rfl⟩, none, rfl, rfl⟩
  have hmark := reads_mark (show Char.utf8Size '(' = 1 from rfl)
  have hparts := (hmark.andThen (reads_parameters.andThen reads_resultType hvoid) hempty).map
    fun parts => Signature.mk parts.2.1 parts.2.2
  refine hparts.of_iff fun cs d => ?_
  constructor
  · rintro ⟨⟨_, _, _⟩, ⟨_, _, rfl, rfl, _, _, rfl, ⟨ws, rfl, rfl⟩, w, rfl, rfl⟩, rfl⟩
    refine ⟨⟨ws, w⟩, ?_, rfl⟩
    simp [MethodSpelling.chars, parameterChars]
  · rintro ⟨⟨ws, w⟩, rfl, rfl⟩
    refine ⟨((), _, _), ⟨_, _, ?_, rfl, _, _, rfl, ⟨ws, rfl, rfl⟩, w, rfl, rfl⟩, rfl⟩
    simp [MethodSpelling.chars, parameterChars]

/-! ## Whole texts -/

/-- Reads a whole text. -/
def whole (read : Reader α) (s : String) : Except Fault α := do
  let (a, p) ← read (.start s)
  finish p
  return a

theorem readField_eq_whole : readField = whole fieldType := rfl

theorem readMethod_eq_whole : readMethod = whole signature := by
  funext s
  unfold readMethod whole signature andThen mark parameters
  simp only [map_eq_pure_bind, bind_assoc, pure_bind]
  rfl

section

variable {s : String}

theorem Reads.whole_eq_ok_iff (h : Reads x Spells) {a : α} :
    whole x s = .ok a ↔ Spells s.toList a := by
  constructor
  · intro hwhole
    obtain ⟨⟨a', p⟩, hread, hwhole⟩ := except_bind_eq_ok_iff.mp hwhole
    obtain ⟨_, hend, hwhole⟩ := except_bind_eq_ok_iff.mp hwhole
    cases hwhole
    obtain ⟨cs, hspells, hpasses⟩ := h.ok_iff.mp hread
    have hrest : s.toList = cs ++ p.rest := hpasses.rest
    rw [finish_eq_ok_iff.mp hend, List.append_nil] at hrest
    rwa [hrest]
  · intro hspells
    have hpasses : (Place.start s).Passes s.toList ⟨byteLength s.toList, []⟩ :=
      ⟨(List.append_nil _).symm, (Nat.zero_add _).symm⟩
    exact except_bind_eq_ok_iff.mpr ⟨_, h.ok_iff.mpr ⟨_, hspells, hpasses⟩, rfl⟩

theorem Reads.cutShort_whole_iff (h : Reads x Spells) :
    CutShort (whole x s) ↔ ∃ cs a, Spells cs a ∧ Begins s.toList cs := by
  have hread : CutShort (x (.start s)) ↔ ∃ cs a, Spells cs a ∧ Begins s.toList cs := h.cutShort_iff
  unfold whole
  rw [cutShort_bind_iff, hread, or_iff_left]
  rintro ⟨⟨a, p⟩, -, hend⟩
  rcases cutShort_bind_iff.mp hend with hend | ⟨_, -, hend⟩
  · unfold finish at hend
    split at hend
    · exact not_cutShort_ok hend
    · rcases hend with hend | hend <;> cases hend
  · exact not_cutShort_ok hend

theorem Reads.whole_eq_trailing_iff (h : Reads x Spells) {k : Nat} :
    whole x s = .error (.trailing k)
      ↔ ∃ cs a rest, Spells cs a ∧ s.toList = cs ++ rest ∧ rest ≠ [] ∧ byteLength cs = k := by
  constructor
  · intro hwhole
    rcases except_bind_eq_error_iff.mp hwhole with hread | ⟨⟨a, p⟩, hread, hwhole⟩
    · exact absurd hread h.ne_trailing
    · obtain ⟨cs, hspells, hpasses⟩ := h.ok_iff.mp hread
      have hoffset : p.offset = 0 + byteLength cs := hpasses.offset
      rcases except_bind_eq_error_iff.mp hwhole with hend | ⟨_, -, hend⟩
      · unfold finish at hend
        split at hend
        · cases hend
        · next hrest =>
          cases hend
          refine ⟨cs, a, p.rest, hspells, hpasses.rest, by simpa using hrest, ?_⟩
          rw [hoffset, Nat.zero_add]
      · cases hend
  · rintro ⟨cs, a, rest, hspells, hs, hrest, rfl⟩
    have hpasses : (Place.start s).Passes cs ⟨byteLength cs, rest⟩ := ⟨hs, (Nat.zero_add _).symm⟩
    refine except_bind_eq_error_iff.mpr (.inr ⟨_, h.ok_iff.mpr ⟨cs, hspells, hpasses⟩, ?_⟩)
    refine except_bind_eq_error_iff.mpr (.inl ?_)
    simp [finish, hrest]

end

/-! ## What the faults say -/

theorem byteLength_eq_length (cs : List Char) :
    byteLength cs = (cs.flatMap String.utf8EncodeChar).length := by
  induction cs with
  | nil => rfl
  | cons c cs ih =>
    rw [List.flatMap_cons, List.length_append, ← ih, String.length_utf8EncodeChar]
    rfl

/-- The first bytes of a text, but not all, are a text if they are the bytes of its first
characters. -/
theorem firstBytes_iff {s d : String} {k : Nat} :
    (k < (Text.encode s).length ∧ Text.encode d = (Text.encode s).take k)
      ↔ ∃ rest, s.toList = d.toList ++ rest ∧ rest ≠ [] ∧ byteLength d.toList = k := by
  have hbytes : byteLength d.toList = (Text.encode d).length := byteLength_eq_length d.toList
  constructor
  · rintro ⟨hk, htake⟩
    have hlength : (Text.encode d).length = k := by
      rw [htake, List.length_take]
      omega
    have hsplit : Text.encode s = Text.encode d ++ (Text.encode s).drop k := by
      rw [htake, List.take_append_drop]
    obtain ⟨rest, hrest⟩ := Text.exists_toList_eq_append hsplit
    refine ⟨rest, hrest, ?_, hbytes.trans hlength⟩
    rintro rfl
    rw [List.append_nil, String.toList_inj] at hrest
    rw [hrest] at hk
    omega
  · rintro ⟨rest, hs, hrest, rfl⟩
    have hencode : Text.encode s = Text.encode d ++ rest.flatMap String.utf8EncodeChar := by
      rw [Text.encode, Text.encode, hs, List.flatMap_append]
    obtain ⟨c, rest, rfl⟩ := List.exists_cons_of_ne_nil hrest
    have hpos : 0 < (String.utf8EncodeChar c).length := by
      rw [String.length_utf8EncodeChar]
      exact c.utf8Size_pos
    rw [hbytes, hencode, List.take_left]
    refine ⟨?_, rfl⟩
    rw [List.flatMap_cons, List.length_append, List.length_append]
    omega

/-- The faults of the reader tell how a text relates to the valid ones. -/
structure Diagnoses (read : String → Except Fault α) (Valid : String → Prop) : Prop where
  /-- The valid texts are read, and no others. -/
  valid_iff : ∀ s, Valid s ↔ ∃ a, read s = .ok a
  /-- Something is missing exactly from the beginnings of valid texts. -/
  cutShort_iff : ∀ s, (∃ fault, read s = .error fault
      ∧ (fault.message = "unexpected end of descriptor"
        ∨ fault.message = "unterminated class name"))
    ↔ ∃ d, Valid d ∧ Begins s.toList d.toList
  /-- No valid text begins another. -/
  not_begins : ∀ d d', Valid d → Valid d' → ¬ Begins d.toList d'.toList
  /-- Characters are left over exactly if the bytes before them, but not all bytes, are a valid
  text. -/
  trailing_iff : ∀ s k, (∃ fault, read s = .error fault
      ∧ fault.message = s!"trailing characters at offset {k}")
    ↔ k < (Text.encode s).length ∧ ∃ d, Valid d ∧ Text.encode d = (Text.encode s).take k

theorem cutShort_iff_message {result : Except Fault α} :
    (∃ fault, result = .error fault ∧ (fault.message = "unexpected end of descriptor"
      ∨ fault.message = "unterminated class name")) ↔ CutShort result := by
  constructor
  · rintro ⟨fault, rfl, hmessage | hmessage⟩
    · exact .inl (congrArg _ (Fault.eq_unexpectedEnd_of_message hmessage))
    · exact .inr (congrArg _ (Fault.eq_unterminatedName_of_message hmessage))
  · rintro (rfl | rfl)
    · exact ⟨_, rfl, .inl rfl⟩
    · exact ⟨_, rfl, .inr rfl⟩

theorem trailing_iff_message {result : Except Fault α} {k : Nat} :
    (∃ fault, result = .error fault ∧ fault.message = s!"trailing characters at offset {k}")
      ↔ result = .error (.trailing k) := by
  constructor
  · rintro ⟨fault, rfl, hmessage⟩
    rw [Fault.eq_trailing_of_message hmessage]
  · rintro rfl
    exact ⟨_, rfl, rfl⟩

theorem Reads.diagnoses (h : Reads x Spells) {Valid : String → Prop}
    (hvalid : ∀ s, Valid s ↔ ∃ a, Spells s.toList a) : Diagnoses (whole x) Valid where
  valid_iff := by
    intro s
    rw [hvalid]
    exact exists_congr fun a => h.whole_eq_ok_iff.symm
  cutShort_iff := by
    intro s
    rw [cutShort_iff_message, h.cutShort_whole_iff]
    constructor
    · rintro ⟨cs, a, hspells, hbegins⟩
      refine ⟨String.ofList cs, (hvalid _).mpr ⟨a, ?_⟩, ?_⟩
      · rwa [String.toList_ofList]
      · rwa [String.toList_ofList]
    · rintro ⟨d, hd, hbegins⟩
      obtain ⟨a, hspells⟩ := (hvalid d).mp hd
      exact ⟨d.toList, a, hspells, hbegins⟩
  not_begins := by
    -- a text cannot be read and be cut short
    intro d d' hd hd' hbegins
    obtain ⟨a, hspells⟩ := (hvalid d).mp hd
    obtain ⟨a', hspells'⟩ := (hvalid d').mp hd'
    have hcut := h.cutShort_whole_iff.mpr ⟨d'.toList, a', hspells', hbegins⟩
    rw [h.whole_eq_ok_iff.mpr hspells] at hcut
    exact not_cutShort_ok hcut
  trailing_iff := by
    intro s k
    rw [trailing_iff_message, h.whole_eq_trailing_iff]
    constructor
    · rintro ⟨cs, a, rest, hspells, hs, hrest, hk⟩
      rw [← String.toList_ofList (l := cs)] at hspells hs hk
      obtain ⟨hlt, htake⟩ := firstBytes_iff.mpr ⟨rest, hs, hrest, hk⟩
      exact ⟨hlt, String.ofList cs, (hvalid _).mpr ⟨a, hspells⟩, htake⟩
    · rintro ⟨hlt, d, hd, htake⟩
      obtain ⟨a, hspells⟩ := (hvalid d).mp hd
      obtain ⟨rest, hs, hrest, hk⟩ := firstBytes_iff.mp ⟨hlt, htake⟩
      exact ⟨d.toList, a, rest, hspells, hs, hrest, hk⟩

/-- The text is a method descriptor by the grammar. -/
def IsMethodDescriptor (s : String) : Prop :=
  ∃ w : MethodSpelling, w.chars = s.toList

/-- The text is a field descriptor by the grammar. -/
def IsFieldDescriptor (s : String) : Prop :=
  ∃ w : FieldSpelling, w.chars = s.toList

/-- Descriptors of methods and of fields are said to be cut short exactly if they are, none is the
beginning of another, and characters are left over exactly where a descriptor ends before the
text does. -/
theorem descriptors_diagnosed :
    Diagnoses readMethod IsMethodDescriptor ∧ Diagnoses readField IsFieldDescriptor := by
  rw [readMethod_eq_whole, readField_eq_whole]
  constructor
  · refine reads_signature.diagnoses fun s => ⟨?_, ?_⟩
    · rintro ⟨w, hw⟩
      exact ⟨w.signature, w, hw, rfl⟩
    · rintro ⟨_, w, hw, -⟩
      exact ⟨w, hw⟩
  · refine reads_fieldType.diagnoses fun s => ⟨?_, ?_⟩
    · rintro ⟨w, hw⟩
      exact ⟨w.type, w, hw, rfl⟩
    · rintro ⟨_, w, hw, -⟩
      exact ⟨w, hw⟩

end Linkage.Descriptor
