import Linkage.Proofs.Descriptors
import Linkage.Proofs.Json.Decoding

/-!
# How deep a type may nest and still be read back

Every array dimension of a type is an object around the next when the type is written as JSON, and
so is the name of a class.  A text may enter 127 lists and objects; a descriptor may have 255
dimensions.  So not every descriptor whose type is written can be read back: it can exactly if its
text stays within the limit, and the text is refused otherwise.

* `FieldType.levels`: the objects the text of a type nests.
* `InvertsWithin`: a decoder that reads back what fits and refuses what does not.
* `descriptors_readBack`: which descriptors survive being written and read.
* `deepArrays_refused`: some do not.
-/

namespace Linkage

namespace Json.Decoder

variable {ε α : Type}

/-- Given at least as many levels as a value takes, the decoder reads it back; given fewer, it
refuses its text. -/
def InvertsWithin (d : Decoder ε α) (write : α → Json) (depth : α → Nat) : Prop :=
  ∀ levels a, d levels (write a).reading = if depth a ≤ levels then .ok a else .error .malformed

theorem InvertsWithin.option {d : Decoder ε α} {write : α → Json} {depth : α → Nat}
    (h : d.InvertsWithin write depth) (hnull : ∀ a, (write a).reading ≠ .null) (levels : Nat)
    (o : Option α) :
    d.option levels (ofOption write o).reading
      = if ∀ a ∈ o, depth a ≤ levels then .ok o else .error .malformed := by
  cases o with
  | none => simp [ofOption, reading, Decoder.option]
  | some a =>
    rw [ofOption, option_of_ne_null d levels (hnull a), h levels a]
    by_cases hdepth : depth a ≤ levels
    · simp [hdepth, Except.map]
    · simp [hdepth, Except.map]

/-- A list is read back if all its items are; the first that takes too many levels is refused. -/
theorem InvertsWithin.list {d : Decoder ε α} {write : α → Json} {depth : α → Nat}
    (h : d.InvertsWithin write depth) (levels : Nat) (as : List α) :
    d.list (levels + 1) (ofList write as).reading
      = if ∀ a ∈ as, depth a ≤ levels then .ok as else .error .malformed := by
  have hcons : ∀ a (as : List α), (∀ b ∈ a :: as, depth b ≤ levels)
      ↔ depth a ≤ levels ∧ ∀ b ∈ as, depth b ≤ levels := fun _ _ => List.forall_mem_cons
  have hitems : (as.map fun a => (write a).reading).mapM (d levels)
      = if ∀ a ∈ as, depth a ≤ levels then .ok as else .error .malformed := by
    induction as with
    | nil => rfl
    | cons a as ih =>
      rw [List.map_cons, List.mapM_cons, h levels a, ih]
      by_cases ha : depth a ≤ levels
      · by_cases has : ∀ b ∈ as, depth b ≤ levels
        · rw [if_pos ha, if_pos has, if_pos ((hcons a as).mpr ⟨ha, has⟩)]
          rfl
        · rw [if_pos ha, if_neg has, if_neg fun hall => has ((hcons a as).mp hall).2]
          rfl
      · rw [if_neg ha, if_neg fun hall => ha ((hcons a as).mp hall).1]
        rfl
  rw [ofList, reading, itemReadings_eq, List.map_map]
  show ((as.map fun a => (write a).reading).mapM (d levels) >>= _) = _
  rw [hitems]
  by_cases hall : ∀ a ∈ as, depth a ≤ levels
  · rw [if_pos hall]
    rfl
  · rw [if_neg hall]
    rfl

end Json.Decoder

open Json.Decoder

/-! ## Types -/

namespace FieldType

variable {ε : Type}

/-- How many objects the text of a type nests: one for each array dimension, and one for the name of
a class. -/
def levels : FieldType → Nat
  | .primitive _ => 0
  | .reference _ => 1
  | .array element => element.levels + 1

@[simp]
theorem levels_arrays (n : Nat) (t : FieldType) : (t.arrays n).levels = t.levels + n := by
  induction n with
  | zero => rfl
  | succ n ih => rw [arrays, levels, ih, Nat.add_assoc]

theorem caseOf_word (element : Json.Decoder ε FieldType) (p : Primitive) :
    caseOf element p.word = some (.word (.primitive p)) := by
  rw [caseOf, Primitive.ofWord?_word]

theorem reading_toJson_ne_null (t : FieldType) : t.toJson.reading ≠ .null := by
  cases t <;> simp [toJson, Json.reading]

/-- The induction is on the type: every dimension takes the object it stands in, and what is left of
the levels goes to its element. -/
theorem invertsWithin_decoder :
    InvertsWithin (decoder : Json.Decoder ε FieldType) toJson FieldType.levels := by
  intro levels t
  induction t generalizing levels with
  | primitive p =>
    cases levels <;> simp [toJson, Json.reading, decoder, variant, caseOf_word, FieldType.levels]
  | reference name =>
    cases levels with
    | zero => rfl
    | succ n =>
      rw [FieldType.levels, if_pos (Nat.le_add_left 1 n)]
      rfl
  | array element ih =>
    cases levels with
    | zero => rfl
    | succ n =>
      have hread : decoder (n + 1) (FieldType.array element).toJson.reading
          = (decoder n element.toJson.reading).map FieldType.array >>= fun t =>
            (whole true t : Except (Json.DecodeError ε) FieldType) := rfl
      rw [hread, ih n, FieldType.levels]
      by_cases hfits : element.levels ≤ n
      · rw [if_pos hfits, if_pos (Nat.succ_le_succ hfits)]
        rfl
      · rw [if_neg hfits, if_neg fun h => hfits (Nat.le_of_succ_le_succ h)]
        rfl

end FieldType

/-! ## Signatures -/

namespace Signature

variable {ε : Type}

/-- The parameters are read first and then the result, each with what the object leaves. -/
theorem decoder_reading (s : Signature) (levels : Nat) :
    (decoder : Json.Decoder ε Signature) (levels + 1) s.toJson.reading = (do
      let parameters ← FieldType.decoder.list levels (Json.ofList FieldType.toJson
        s.parameters).reading
      let result ← FieldType.decoder.option levels (Json.ofOption FieldType.toJson s.result).reading
      return ⟨parameters, result⟩) := by
  rw [toJson, Json.reading, Json.memberReadings_eq]
  show (List.foldlM (readMember _ levels) _ _ >>= _) = _
  rw [List.map_cons, List.foldlM_cons, readMember_of rfl rfl]
  cases FieldType.decoder.list levels (Json.ofList FieldType.toJson s.parameters).reading with
  | error fault => rfl
  | ok parameters =>
    show (List.foldlM (readMember _ levels) _ _ >>= _) = _
    rw [List.map_cons, List.foldlM_cons, readMember_of rfl rfl]
    cases FieldType.decoder.option levels (Json.ofOption FieldType.toJson s.result).reading with
    | error fault => rfl
    | ok result => rfl

/-- Parameters stand in a list in an object, the result stands in the object itself. -/
theorem decoder_toJson (s : Signature) (levels : Nat) :
    (decoder : Json.Decoder ε Signature) (levels + 2) s.toJson.reading
      = if (∀ t ∈ s.parameters, t.levels ≤ levels) ∧ ∀ t ∈ s.result, t.levels ≤ levels + 1
        then .ok s else .error .malformed := by
  rw [decoder_reading, FieldType.invertsWithin_decoder.list,
    FieldType.invertsWithin_decoder.option FieldType.reading_toJson_ne_null]
  by_cases hparameters : ∀ t ∈ s.parameters, t.levels ≤ levels
  · by_cases hresult : ∀ t ∈ s.result, t.levels ≤ levels + 1
    · rw [if_pos hparameters, if_pos hresult, if_pos ⟨hparameters, hresult⟩]
      rfl
    · rw [if_pos hparameters, if_neg hresult, if_neg fun h => hresult h.2]
      rfl
  · have hnot : ¬ ((∀ t ∈ s.parameters, t.levels ≤ levels)
        ∧ ∀ t ∈ s.result, t.levels ≤ levels + 1) := fun h => hparameters h.1
    rw [if_neg hparameters, if_neg hnot]
    rfl

end Signature

/-! ## Descriptors -/

namespace Descriptor

/-- The type of a descriptor that is read survives being written as JSON and read again exactly if
its text nests at most 127 levels; a signature survives exactly if no parameter nests more than 125
and its result not more than 126.  All others are refused, none comes back as something else. -/
theorem descriptors_readBack (ε : Type) :
    (∀ (s : String) (t : FieldType), readField s = .ok t →
        decodeText (FieldType.decoder : Json.Decoder ε FieldType) t.toJson.compact
          = if t.levels ≤ 127 then .ok t else .error .malformed)
      ∧ (∀ (s : String) (d : Signature), readMethod s = .ok d →
        decodeText (Signature.decoder : Json.Decoder ε Signature) d.toJson.compact
          = if (∀ t ∈ d.parameters, t.levels ≤ 125) ∧ ∀ t ∈ d.result, t.levels ≤ 126
            then .ok d else .error .malformed) := by
  refine ⟨fun s t _ => ?_, fun s d _ => ?_⟩
  · rw [decodeText_compact_eq, levelLimit]
    exact FieldType.invertsWithin_decoder 127 t
  · rw [decodeText_compact_eq, levelLimit]
    exact Signature.decoder_toJson d 125

/-- An array of 128 dimensions has a descriptor and cannot be read back, neither can a method with a
parameter of 126. -/
theorem deepArrays_refused :
    (readField (String.ofList (List.replicate 128 '[' ++ ['I']))
        = .ok ((FieldType.primitive .int).arrays 128)
      ∧ decodeText (FieldType.decoder : Json.Decoder Empty FieldType)
          ((FieldType.primitive .int).arrays 128).toJson.compact = .error .malformed)
      ∧ readMethod (String.ofList ('(' :: (List.replicate 126 '[' ++ ['I', ')', 'V'])))
          = .ok ⟨[(FieldType.primitive .int).arrays 126], none⟩
      ∧ decodeText (Signature.decoder : Json.Decoder Empty Signature)
          (Signature.toJson ⟨[(FieldType.primitive .int).arrays 126], none⟩).compact
        = .error .malformed := by
  refine ⟨⟨?_, ?_⟩, ?_, ?_⟩
  · exact readField_eq_ok_iff.mpr
      ⟨⟨128, .letter .int, by decide⟩, String.toList_ofList, rfl⟩
  · rw [decodeText_compact_eq, levelLimit, FieldType.invertsWithin_decoder, FieldType.levels_arrays]
    rfl
  · refine readMethod_eq_ok_iff.mpr ⟨⟨[⟨126, .letter .int, by decide⟩], none⟩, ?_, rfl⟩
    rw [String.toList_ofList]
    simp only [MethodSpelling.chars, List.flatMap_cons, List.flatMap_nil, List.append_assoc,
      FieldSpelling.chars]
    rfl
  · have hdeep : ((FieldType.primitive .int).arrays 126).levels = 126 := by
      rw [FieldType.levels_arrays]
      rfl
    rw [decodeText_compact_eq, levelLimit, Signature.decoder_toJson _ 125, if_neg]
    intro h
    have hfits := h.1 _ List.mem_cons_self
    omega

end Descriptor

end Linkage
