import Mathlib.Data.List.TakeWhile
import Mathlib.Logic.Function.Basic
import Linkage.Descriptor.Reading
import Linkage.Proofs.Operations

/-!
# Descriptors are read by their grammar

The grammar as data: a spelling says of which parts a descriptor is made, and only spellings the
grammar allows can be built.  A text is read as a type or signature exactly if it is the text of a
spelling that stands for it.  Names may hold brackets, parentheses and the letters of types, and
still no text has two spellings, since a spelling shows by itself where it ends.

* `FieldSpelling`, `MethodSpelling`: the grammar.
* `fieldType_eq_ok_iff`, `parameterTypes_eq_ok_iff`: reading from within a descriptor, for any text
  that follows.
* `FieldSpelling.chars_append_inj`: where a spelling ends.
* `descriptors_exact`: reading whole descriptors.
-/

namespace Linkage

theorem Primitive.letter_injective : Function.Injective Primitive.letter := by
  intro p q h
  have hp := ofLetter?_letter p
  rw [h, ofLetter?_letter q] at hp
  exact (Option.some.inj hp).symm

theorem Primitive.ofLetter?_eq_some_iff {c : Char} {p : Primitive} :
    ofLetter? c = some p ↔ p.letter = c := by
  constructor
  · intro h
    unfold ofLetter? at h
    split at h <;> cases h <;> rfl
  · rintro rfl
    exact ofLetter?_letter p

namespace Descriptor

/-! ## The grammar -/

/-- How a type that is no array is spelled. -/
inductive ElementSpelling where
  /-- By the letter of a primitive type. -/
  | letter (p : Primitive)
  /-- By the internal name of a class, between `L` and a semicolon. -/
  | named (name : List Char) (nonempty : name ≠ []) (plain : ';' ∉ name)

/-- How a type is spelled: brackets and then an element type. -/
structure FieldSpelling where
  /-- How many brackets. -/
  dimensions : Nat
  /-- What they stand before. -/
  element : ElementSpelling
  /-- There are not too many. -/
  bounded : dimensions ≤ 255

/-- How a signature is spelled: parameters between parentheses and then the result. -/
structure MethodSpelling where
  /-- The parameters in order. -/
  parameters : List FieldSpelling
  /-- The result; `V` if absent. -/
  result : Option FieldSpelling

/-- A name goes up to the first semicolon. -/
theorem takeWhile_name {name : List Char} (hplain : ';' ∉ name) (rest : List Char) :
    (name ++ ';' :: rest).takeWhile (· != ';') = name
      ∧ (name ++ ';' :: rest).dropWhile (· != ';') = ';' :: rest := by
  have hall : ∀ c ∈ name, (c != ';') = true := by
    intro c hc
    simp only [bne_iff_ne, ne_eq]
    rintro rfl
    exact hplain hc
  rw [List.takeWhile_append_of_pos hall, List.dropWhile_append_of_pos hall]
  simp

namespace ElementSpelling

/-- The text. -/
def chars : ElementSpelling → List Char
  | .letter p => [p.letter]
  | .named name _ _ => 'L' :: (name ++ [';'])

/-- The type it stands for. -/
def type : ElementSpelling → FieldType
  | .letter p => .primitive p
  | .named name _ _ => .reference (.ofInternal (String.ofList name))

/-- No element type begins with a character that says something else about a descriptor. -/
theorem exists_head (w : ElementSpelling) :
    ∃ c rest, w.chars = c :: rest ∧ c ≠ '[' ∧ c ≠ ')' ∧ c ≠ 'V' := by
  cases w with
  | letter p => exact ⟨p.letter, [], rfl, by cases p <;> decide⟩
  | named name _ _ => exact ⟨'L', name ++ [';'], rfl, by decide⟩

theorem chars_append_inj {w w' : ElementSpelling} {r r' : List Char}
    (h : w.chars ++ r = w'.chars ++ r') : w = w' ∧ r = r' := by
  have hletter : ∀ p : Primitive, p.letter ≠ 'L' := by
    intro p
    cases p <;> decide
  cases w with
  | letter p =>
    cases w' with
    | letter p' =>
      obtain ⟨hp, hr⟩ := List.cons.inj h
      exact ⟨by rw [Primitive.letter_injective hp], hr⟩
    | named name' _ _ => exact absurd (List.cons.inj h).1 (hletter p)
  | named name _ hplain =>
    cases w' with
    | letter p' => exact absurd (List.cons.inj h).1.symm (hletter p')
    | named name' _ hplain' =>
      simp only [chars, List.cons_append, List.append_assoc, List.nil_append, List.cons.injEq,
        true_and] at h
      have hname := congrArg (List.takeWhile (· != ';')) h
      rw [(takeWhile_name hplain r).1, (takeWhile_name hplain' r').1] at hname
      subst hname
      exact ⟨rfl, (List.cons.inj (List.append_cancel_left h)).2⟩

end ElementSpelling

namespace FieldSpelling

/-- The text. -/
def chars (w : FieldSpelling) : List Char :=
  List.replicate w.dimensions '[' ++ w.element.chars

/-- The type it stands for. -/
def type (w : FieldSpelling) : FieldType :=
  w.element.type.arrays w.dimensions

theorem exists_head (w : FieldSpelling) :
    ∃ c rest, w.chars = c :: rest ∧ c ≠ ')' ∧ c ≠ 'V' := by
  obtain ⟨n, element, -⟩ := w
  cases n with
  | zero =>
    obtain ⟨c, rest, hchars, -, hc⟩ := element.exists_head
    exact ⟨c, rest, hchars, hc⟩
  | succ n => exact ⟨'[', List.replicate n '[' ++ element.chars, rfl, by decide⟩

theorem takeWhile_brackets (n : Nat) (w : ElementSpelling) (r : List Char) :
    (List.replicate n '[' ++ (w.chars ++ r)).takeWhile (· == '[') = List.replicate n '[' := by
  obtain ⟨c, rest, hchars, hc, -⟩ := w.exists_head
  rw [hchars, List.takeWhile_append_of_pos (by simp)]
  simp [hc]

/-- Whatever follows, a spelling shows where it ends. -/
theorem chars_append_inj {w w' : FieldSpelling} {r r' : List Char}
    (h : w.chars ++ r = w'.chars ++ r') : w = w' ∧ r = r' := by
  obtain ⟨n, element, hn⟩ := w
  obtain ⟨n', element', hn'⟩ := w'
  simp only [chars, List.append_assoc] at h
  have hdimensions := congrArg (fun s => (s.takeWhile (· == '[')).length) h
  simp only [takeWhile_brackets, List.length_replicate] at hdimensions
  subst hdimensions
  obtain ⟨rfl, hr⟩ := ElementSpelling.chars_append_inj (List.append_cancel_left h)
  exact ⟨rfl, hr⟩

/-- A list of spellings ends where a closing parenthesis stands for a type. -/
theorem flatMap_chars_append_inj {ws ws' : List FieldSpelling} {r r' : List Char}
    (h : ws.flatMap chars ++ ')' :: r = ws'.flatMap chars ++ ')' :: r') : ws = ws' ∧ r = r' := by
  induction ws generalizing ws' with
  | nil =>
    cases ws' with
    | nil => exact ⟨rfl, (List.cons.inj h).2⟩
    | cons w' ws' =>
      obtain ⟨c, rest, hchars, hc, -⟩ := w'.exists_head
      rw [List.flatMap_cons, hchars] at h
      exact absurd (List.cons.inj h).1.symm hc
  | cons w ws ih =>
    cases ws' with
    | nil =>
      obtain ⟨c, rest, hchars, hc, -⟩ := w.exists_head
      rw [List.flatMap_cons, hchars] at h
      exact absurd (List.cons.inj h).1 hc
    | cons w' ws' =>
      simp only [List.flatMap_cons, List.append_assoc] at h
      obtain ⟨rfl, hrest⟩ := chars_append_inj h
      obtain ⟨rfl, hr⟩ := ih hrest
      exact ⟨rfl, hr⟩

end FieldSpelling

namespace MethodSpelling

/-- The text of a result. -/
def resultChars : Option FieldSpelling → List Char
  | none => ['V']
  | some w => w.chars

/-- The text. -/
def chars (w : MethodSpelling) : List Char :=
  '(' :: (w.parameters.flatMap FieldSpelling.chars ++ ')' :: resultChars w.result)

/-- The signature it stands for. -/
def signature (w : MethodSpelling) : Signature :=
  ⟨w.parameters.map FieldSpelling.type, w.result.map FieldSpelling.type⟩

theorem resultChars_append_inj {w w' : Option FieldSpelling} {r r' : List Char}
    (h : resultChars w ++ r = resultChars w' ++ r') : w = w' ∧ r = r' := by
  cases w with
  | none =>
    cases w' with
    | none => exact ⟨rfl, (List.cons.inj h).2⟩
    | some w' =>
      obtain ⟨c, rest, hchars, -, hc⟩ := w'.exists_head
      rw [resultChars, resultChars, hchars] at h
      exact absurd (List.cons.inj h).1.symm hc
  | some w =>
    cases w' with
    | none =>
      obtain ⟨c, rest, hchars, -, hc⟩ := w.exists_head
      rw [resultChars, resultChars, hchars] at h
      exact absurd (List.cons.inj h).1 hc
    | some w' =>
      obtain ⟨rfl, hr⟩ := FieldSpelling.chars_append_inj h
      exact ⟨rfl, hr⟩

theorem chars_append_inj {w w' : MethodSpelling} {r r' : List Char}
    (h : w.chars ++ r = w'.chars ++ r') : w = w' ∧ r = r' := by
  obtain ⟨parameters, result⟩ := w
  obtain ⟨parameters', result'⟩ := w'
  simp only [chars, List.cons_append, List.append_assoc, List.cons.injEq, true_and] at h
  obtain ⟨rfl, hresult⟩ := FieldSpelling.flatMap_chars_append_inj h
  obtain ⟨rfl, hr⟩ := resultChars_append_inj hresult
  exact ⟨rfl, hr⟩

end MethodSpelling

/-! ## Reading from within a descriptor -/

/-- From the place `p`, the characters `cs` lead to the place `q`. -/
structure Place.Passes (p : Place) (cs : List Char) (q : Place) : Prop where
  /-- They stand at `p`, and what follows them at `q`. -/
  rest : p.rest = cs ++ q.rest
  /-- Offsets count bytes. -/
  offset : q.offset = p.offset + byteLength cs

theorem byteLength_append (cs ds : List Char) :
    byteLength (cs ++ ds) = byteLength cs + byteLength ds := by
  induction cs with
  | nil => simp [byteLength]
  | cons c cs ih =>
    show c.utf8Size + byteLength (cs ++ ds) = c.utf8Size + byteLength cs + byteLength ds
    rw [ih, Nat.add_assoc]

namespace Place

variable {p q r : Place} {cs ds : List Char}

theorem passes_nil : p.Passes [] p := ⟨rfl, rfl⟩

theorem passes_nil_iff : p.Passes [] q ↔ p = q := by
  constructor
  · rintro ⟨hrest, hoffset⟩
    obtain ⟨_, _⟩ := p
    obtain ⟨_, _⟩ := q
    cases hrest
    cases hoffset
    rfl
  · rintro rfl
    exact passes_nil

theorem Passes.trans (h : p.Passes cs q) (h' : q.Passes ds r) : p.Passes (cs ++ ds) r where
  rest := by rw [h.rest, h'.rest, List.append_assoc]
  offset := by rw [h'.offset, h.offset, byteLength_append, Nat.add_assoc]

/-- The place between two runs of characters. -/
theorem Passes.exists_between (h : p.Passes (cs ++ ds) r) :
    ∃ q, p.Passes cs q ∧ q.Passes ds r := by
  refine ⟨⟨p.offset + byteLength cs, ds ++ r.rest⟩, ⟨?_, rfl⟩, ⟨rfl, ?_⟩⟩
  · rw [h.rest, List.append_assoc]
  · rw [h.offset, byteLength_append, Nat.add_assoc]

theorem Passes.unique (h : p.Passes cs q) (h' : p.Passes cs r) : q = r := by
  obtain ⟨_, _⟩ := q
  obtain ⟨_, _⟩ := r
  obtain ⟨hrest, rfl⟩ := h
  obtain ⟨hrest', rfl⟩ := h'
  rw [hrest] at hrest'
  cases List.append_cancel_left hrest'
  rfl

end Place

theorem byteLength_letter (p : Primitive) : byteLength [p.letter] = 1 := by
  cases p <;> rfl

theorem byteLength_brackets (n : Nat) : byteLength (List.replicate n '[') = n := by
  induction n with
  | zero => rfl
  | succ n ih =>
    show Char.utf8Size '[' + byteLength (List.replicate n '[') = n + 1
    rw [ih, show Char.utf8Size '[' = 1 from rfl, Nat.add_comm]

theorem byteLength_named (name : List Char) :
    byteLength ('L' :: (name ++ [';'])) = byteLength name + 2 := by
  show Char.utf8Size 'L' + byteLength (name ++ [';']) = _
  rw [byteLength_append, show Char.utf8Size 'L' = 1 from rfl,
    show byteLength [';'] = 1 from rfl]
  omega

theorem elementType_of_passes {p q : Place} {w : ElementSpelling} (h : p.Passes w.chars q) :
    elementType p = .ok (w.type, q) := by
  obtain ⟨offset, rest⟩ := p
  obtain ⟨offset', rest'⟩ := q
  obtain ⟨rfl, hoffset⟩ := h
  dsimp only at hoffset
  cases w with
  | letter p =>
    rw [ElementSpelling.chars, byteLength_letter] at hoffset
    subst hoffset
    cases p <;> rfl
  | named name hnonempty hplain =>
    rw [ElementSpelling.chars, byteLength_named] at hoffset
    subst hoffset
    obtain ⟨htake, hdrop⟩ := takeWhile_name hplain rest'
    simp [elementType, ElementSpelling.chars, ElementSpelling.type, htake, hdrop, hnonempty,
      Nat.add_assoc]

theorem exists_passes_of_elementType {p q : Place} {t : FieldType}
    (h : elementType p = .ok (t, q)) :
    ∃ w : ElementSpelling, p.Passes w.chars q ∧ w.type = t := by
  obtain ⟨offset, rest⟩ := p
  unfold elementType at h
  dsimp only at h
  split at h
  · cases h
  · next s =>
    split at h
    · cases h
    · next c rest' hdrop =>
      split at h
      · cases h
      · next hname =>
        cases h
        -- what the name stops at is a semicolon, and none is in it
        have hsplit := List.takeWhile_append_dropWhile (p := (· != ';')) (l := s)
        have hstop := List.head_dropWhile_not (· != ';') (l := s) (by rw [hdrop]; simp)
        simp only [hdrop, List.head_cons, bne_eq_false_iff_eq] at hstop
        subst hstop
        rw [hdrop] at hsplit
        refine ⟨.named (s.takeWhile (· != ';')) (by simpa using hname) ?_, ⟨?_, ?_⟩, rfl⟩
        · intro hmem
          simpa using List.mem_takeWhile_imp hmem
        · show 'L' :: s = 'L' :: (s.takeWhile (· != ';') ++ [';']) ++ rest'
          rw [List.cons_append, List.append_assoc]
          exact congrArg _ hsplit.symm
        · rw [ElementSpelling.chars, byteLength_named, Nat.add_assoc]
  · next c s _ =>
    split at h
    · next letter hletter =>
      cases h
      rw [Primitive.ofLetter?_eq_some_iff] at hletter
      subst hletter
      exact ⟨.letter letter, ⟨rfl, by rw [ElementSpelling.chars, byteLength_letter]⟩, rfl⟩
    · cases h

theorem elementType_eq_ok_iff {p q : Place} {t : FieldType} :
    elementType p = .ok (t, q) ↔ ∃ w : ElementSpelling, p.Passes w.chars q ∧ w.type = t := by
  constructor
  · exact exists_passes_of_elementType
  · rintro ⟨w, hpasses, rfl⟩
    exact elementType_of_passes hpasses

/-- The brackets at the front of a text, and the rest. -/
theorem brackets_append_drop (s : List Char) :
    List.replicate (s.takeWhile (· == '[')).length '[' ++ s.drop (s.takeWhile (· == '[')).length
      = s := by
  have hall : s.takeWhile (· == '[') = List.replicate (s.takeWhile (· == '[')).length '[' := by
    rw [List.eq_replicate_iff]
    refine ⟨rfl, fun c hc => ?_⟩
    simpa using List.mem_takeWhile_imp hc
  obtain ⟨rest, hrest⟩ := List.takeWhile_prefix (p := (· == '[')) (l := s)
  rw [← hall]
  nth_rewrite 3 [← hrest]
  rw [List.drop_left, hrest]

theorem fieldType_eq_ok_iff {p q : Place} {t : FieldType} :
    fieldType p = .ok (t, q) ↔ ∃ w : FieldSpelling, p.Passes w.chars q ∧ w.type = t := by
  obtain ⟨offset, rest⟩ := p
  unfold fieldType
  dsimp only
  constructor
  · intro h
    split at h
    · cases h
    · next hbounded =>
      obtain ⟨⟨t', q'⟩, hread, h⟩ := except_bind_eq_ok_iff.mp h
      cases h
      obtain ⟨w, hpasses, rfl⟩ := elementType_eq_ok_iff.mp hread
      refine ⟨⟨_, w, Nat.le_of_not_lt hbounded⟩, ?_, rfl⟩
      refine Place.Passes.trans ⟨(brackets_append_drop rest).symm, ?_⟩ hpasses
      rw [byteLength_brackets]
  · rintro ⟨⟨n, w, hn⟩, hpasses, rfl⟩
    obtain ⟨between, hbrackets, helement⟩ := hpasses.exists_between
    have hcount : (rest.takeWhile (· == '[')).length = n := by
      rw [show rest = List.replicate n '[' ++ (w.chars ++ q.rest) from
        hbrackets.rest.trans (by rw [helement.rest]), FieldSpelling.takeWhile_brackets,
        List.length_replicate]
    have hbetween : (⟨offset + n, rest.drop n⟩ : Place) = between := by
      refine Place.Passes.unique (p := ⟨offset, rest⟩) ⟨?_, by rw [byteLength_brackets]⟩ hbrackets
      show rest = List.replicate n '[' ++ rest.drop n
      conv_lhs => rw [← brackets_append_drop rest, hcount]
    have hallowed : ¬ maxDimensions < n := Nat.not_lt.mpr hn
    rw [hcount, if_neg hallowed, hbetween, elementType_of_passes helement]
    rfl

/-- A type takes a character at least. -/
theorem Place.Passes.length_le {fuel : Nat} {p q : Place} {w : FieldSpelling}
    (h : p.Passes w.chars q) (hfuel : p.rest.length ≤ fuel + 1) : q.rest.length ≤ fuel := by
  obtain ⟨c, rest, hchars, -⟩ := w.exists_head
  rw [h.rest, hchars] at hfuel
  simp only [List.cons_append, List.length_cons, List.length_append] at hfuel
  omega

/-- Reading parameters takes types up to a closing parenthesis, given as many steps as there are
characters. -/
theorem parameterTypes_eq_ok_iff {fuel : Nat} {p q : Place} {ts : List FieldType}
    (hfuel : p.rest.length ≤ fuel) :
    parameterTypes fuel p = .ok (ts, q) ↔ ∃ ws : List FieldSpelling,
      p.Passes (ws.flatMap FieldSpelling.chars) q ∧ q.rest.head? = some ')'
        ∧ ws.map FieldSpelling.type = ts := by
  induction fuel generalizing p q ts with
  | zero =>
    have hempty : p.rest = [] := List.length_eq_zero_iff.mp (Nat.le_zero.mp hfuel)
    refine iff_of_false (fun h => by cases h) ?_
    rintro ⟨ws, hpasses, hclosed, -⟩
    have hrest := hpasses.rest
    rw [hempty] at hrest
    rw [(List.append_eq_nil_iff.mp hrest.symm).2] at hclosed
    cases hclosed
  | succ fuel ih =>
    unfold parameterTypes
    constructor
    · intro h
      split at h
      · cases h
      · next rest hclosed =>
        cases h
        exact ⟨[], Place.passes_nil, by rw [hclosed]; rfl, rfl⟩
      · obtain ⟨⟨t, between⟩, hread, h⟩ := except_bind_eq_ok_iff.mp h
        obtain ⟨⟨ts', q'⟩, hmore, h⟩ := except_bind_eq_ok_iff.mp h
        cases h
        obtain ⟨w, hpasses, rfl⟩ := fieldType_eq_ok_iff.mp hread
        obtain ⟨ws, hpasses', hclosed, rfl⟩ := (ih (hpasses.length_le hfuel)).mp hmore
        exact ⟨w :: ws, hpasses.trans hpasses', hclosed, rfl⟩
    · rintro ⟨ws, hpasses, hclosed, rfl⟩
      cases ws with
      | nil =>
        obtain rfl := Place.passes_nil_iff.mp hpasses
        obtain ⟨rest, hrest⟩ := List.head?_eq_some_iff.mp hclosed
        rw [hrest]
        rfl
      | cons w ws =>
        obtain ⟨between, hfirst, hmore⟩ := hpasses.exists_between
        obtain ⟨c, rest, hchars, hc, -⟩ := w.exists_head
        have hread := fieldType_eq_ok_iff.mpr ⟨w, hfirst, rfl⟩
        have hmore := (ih (hfirst.length_le hfuel)).mpr ⟨ws, hmore, hclosed, rfl⟩
        have hrest : p.rest = c :: (rest ++ between.rest) := by rw [hfirst.rest, hchars]; rfl
        split
        · next hempty => rw [hempty] at hrest; cases hrest
        · next hclosing =>
          rw [hclosing] at hrest
          exact absurd (List.cons.inj hrest).1.symm hc
        · rw [hread]
          show (parameterTypes fuel between >>= _) = _
          rw [hmore]
          rfl

/-! ## Whole descriptors -/

theorem expect_eq_ok_iff {wanted : Char} {p q : Place} (hone : wanted.utf8Size = 1) :
    expect wanted p = .ok q ↔ p.Passes [wanted] q := by
  obtain ⟨offset, rest⟩ := p
  have hlength : byteLength [wanted] = 1 := by simp [byteLength, hone]
  unfold expect
  constructor
  · intro h
    split at h
    · cases h
    · next c s hrest =>
      split at h
      · next hc =>
        cases h
        exact ⟨by rw [hrest, hc]; rfl, by rw [hlength]⟩
      · cases h
  · intro h
    obtain ⟨offset', rest'⟩ := q
    obtain ⟨rfl, hoffset⟩ := h
    rw [hlength] at hoffset
    dsimp only at hoffset
    subst hoffset
    simp

theorem resultType_eq_ok_iff {p q : Place} {t : Option FieldType} :
    resultType p = .ok (t, q) ↔ ∃ w : Option FieldSpelling,
      p.Passes (MethodSpelling.resultChars w) q ∧ w.map FieldSpelling.type = t := by
  unfold resultType
  constructor
  · intro h
    split at h
    · cases h
    · next s hrest =>
      cases h
      exact ⟨none, ⟨hrest, rfl⟩, rfl⟩
    · obtain ⟨⟨t', q'⟩, hread, h⟩ := except_bind_eq_ok_iff.mp h
      cases h
      obtain ⟨w, hpasses, rfl⟩ := fieldType_eq_ok_iff.mp hread
      exact ⟨some w, hpasses, rfl⟩
  · rintro ⟨w, hpasses, rfl⟩
    cases w with
    | none =>
      obtain ⟨offset, rest⟩ := p
      obtain ⟨offset', rest'⟩ := q
      obtain ⟨rfl, hoffset⟩ := hpasses
      obtain rfl : offset' = offset + 1 := hoffset
      rfl
    | some w =>
      obtain ⟨c, rest, hchars, -, hc⟩ := w.exists_head
      have hrest : p.rest = c :: (rest ++ q.rest) := by
        rw [hpasses.rest, MethodSpelling.resultChars, hchars]
        rfl
      split
      · next hempty => rw [hempty] at hrest; cases hrest
      · next hvoid =>
        rw [hvoid] at hrest
        exact absurd (List.cons.inj hrest).1.symm hc
      · rw [fieldType_eq_ok_iff.mpr ⟨w, hpasses, rfl⟩]
        rfl

theorem finish_eq_ok_iff {p : Place} : finish p = .ok () ↔ p.rest = [] := by
  unfold finish
  cases p.rest <;> simp

theorem readField_eq_ok_iff {s : String} {t : FieldType} :
    readField s = .ok t ↔ ∃ w : FieldSpelling, s.toList = w.chars ∧ w.type = t := by
  unfold readField
  constructor
  · intro h
    obtain ⟨⟨t', p⟩, hread, h⟩ := except_bind_eq_ok_iff.mp h
    obtain ⟨_, hend, h⟩ := except_bind_eq_ok_iff.mp h
    cases h
    obtain ⟨w, hpasses, rfl⟩ := fieldType_eq_ok_iff.mp hread
    have hrest := hpasses.rest
    rw [finish_eq_ok_iff.mp hend, List.append_nil] at hrest
    exact ⟨w, hrest, rfl⟩
  · rintro ⟨w, hs, rfl⟩
    have hpasses : (Place.start s).Passes w.chars ⟨byteLength w.chars, []⟩ :=
      ⟨by rw [List.append_nil]; exact hs, (Nat.zero_add _).symm⟩
    rw [fieldType_eq_ok_iff.mpr ⟨w, hpasses, rfl⟩]
    rfl

theorem readMethod_eq_ok_iff {s : String} {d : Signature} :
    readMethod s = .ok d ↔ ∃ w : MethodSpelling, s.toList = w.chars ∧ w.signature = d := by
  unfold readMethod
  constructor
  · intro h
    obtain ⟨opened, hopen, h⟩ := except_bind_eq_ok_iff.mp h
    obtain ⟨⟨ts, before⟩, hparameters, h⟩ := except_bind_eq_ok_iff.mp h
    obtain ⟨closed, hclose, h⟩ := except_bind_eq_ok_iff.mp h
    obtain ⟨⟨t, last⟩, hresult, h⟩ := except_bind_eq_ok_iff.mp h
    obtain ⟨_, hend, h⟩ := except_bind_eq_ok_iff.mp h
    cases h
    obtain ⟨ws, hws, -, rfl⟩ := (parameterTypes_eq_ok_iff le_rfl).mp hparameters
    obtain ⟨w, hw, rfl⟩ := resultType_eq_ok_iff.mp hresult
    have hall := ((expect_eq_ok_iff rfl).mp hopen).trans
      (hws.trans (((expect_eq_ok_iff rfl).mp hclose).trans hw))
    have hrest := hall.rest
    rw [finish_eq_ok_iff.mp hend, List.append_nil] at hrest
    exact ⟨⟨ws, w⟩, hrest, rfl⟩
  · rintro ⟨⟨ws, w⟩, hs, rfl⟩
    have hall : (Place.start s).Passes
        (['('] ++ (ws.flatMap FieldSpelling.chars ++ ([')'] ++ MethodSpelling.resultChars w)))
        ⟨byteLength (MethodSpelling.chars ⟨ws, w⟩), []⟩ :=
      ⟨by rw [List.append_nil]; exact hs, (Nat.zero_add _).symm⟩
    -- the places the reader comes to: after each parenthesis, and after the parameters
    obtain ⟨opened, hopen, hall⟩ := hall.exists_between
    obtain ⟨before, hparameters, hall⟩ := hall.exists_between
    obtain ⟨closed, hclose, hresult⟩ := hall.exists_between
    have hstop : before.rest.head? = some ')' := by rw [hclose.rest]; rfl
    rw [(expect_eq_ok_iff rfl).mpr hopen]
    show (parameterTypes opened.rest.length opened >>= _) = _
    rw [(parameterTypes_eq_ok_iff le_rfl).mpr ⟨ws, hparameters, hstop, rfl⟩]
    show (expect ')' before >>= _) = _
    rw [(expect_eq_ok_iff rfl).mpr hclose]
    show (resultType closed >>= _) = _
    rw [resultType_eq_ok_iff.mpr ⟨w, hresult, rfl⟩]
    rfl

/-- A text is read as a type exactly if it is up to 255 brackets before the letter of a primitive
type or a class name between `L` and a semicolon, and as a signature exactly if it is such types
between parentheses before such a type or `V`; what is read is what these parts stand for, and no
text is made of parts in two ways. -/
theorem descriptors_exact :
    (∀ (s : String) (t : FieldType), readField s = .ok t ↔
        ∃ w : FieldSpelling, s.toList = w.chars ∧ w.type = t)
      ∧ (∀ (s : String) (d : Signature), readMethod s = .ok d ↔
        ∃ w : MethodSpelling, s.toList = w.chars ∧ w.signature = d)
      ∧ Function.Injective FieldSpelling.chars ∧ Function.Injective MethodSpelling.chars := by
  refine ⟨fun _ _ => readField_eq_ok_iff, fun _ _ => readMethod_eq_ok_iff, ?_, ?_⟩
  · intro w w' h
    exact (FieldSpelling.chars_append_inj (congrArg (· ++ []) h)).1
  · intro w w' h
    exact (MethodSpelling.chars_append_inj (congrArg (· ++ []) h)).1

end Descriptor

end Linkage
