import Linkage.Audit.Settings
import Linkage.ClassFile.View
import Linkage.Proofs.References
import Linkage.Proofs.Reports

/-!
# Values of the model are read back

References, outcomes, views of classes, settings and sets of references are written on one line and
read back as what they were, whatever the texts in them and however long their lists.  They are
written in different ways: members told apart by a tag, words with and without a value, numbers in
range, fields that may be left out.  Each way has its law, and a record is read member by member.

A set of references is read from three lists in any order and with any repetitions; only which
references they hold matters.

* `Reference.inverts_decoder`, `Outcome.inverts_decoder`, `ClassView.inverts_decoder`: reading
  undoes writing, for each type.
* `Settings.decoder_reading`: settings are read back if their size limit is in range.
* `ReferenceSet.decodeText_eq_map`: a set is read from three lists as they stand.
* `values_readBack`: all of it about texts.
-/

namespace Linkage

open Json.Decoder

variable {ε : Type}

/-! ## References and outcomes -/

/-- The kind stands before the members of a reference, which are texts and so can be held. -/
theorem Reference.inverts_decoder :
    Inverts (Reference.decoder : Json.Decoder ε Reference) toJson 1 := by
  intro levels r hlevels
  obtain ⟨n, rfl⟩ : ∃ n, levels = n + 1 := ⟨levels - 1, by omega⟩
  cases r with
  | toClass r =>
    refine (tagged_reading rfl ?_ ?_).trans ?_
    · simp [ClassReference.members]
    · simp [ClassReference.members, Json.reading, isHeld]
    · exact congrArg (Except.map toClass) (ClassReference.inverts_decoder (n + 1) r hlevels)
  | toMethod r =>
    refine (tagged_reading rfl ?_ ?_).trans ?_
    · simp [MethodReference.members]
    · simp [MethodReference.members, Json.reading, isHeld]
    · exact congrArg (Except.map toMethod) (MethodReference.inverts_decoder (n + 1) r hlevels)
  | toField r =>
    refine (tagged_reading rfl ?_ ?_).trans ?_
    · simp [FieldReference.members]
    · simp [FieldReference.members, Json.reading, isHeld]
    · exact congrArg (Except.map toField) (FieldReference.inverts_decoder (n + 1) r hlevels)

theorem Outcome.inverts_decoder : Inverts (Outcome.decoder : Json.Decoder ε Outcome) toJson 1 := by
  intro levels o hlevels
  obtain ⟨n, rfl⟩ : ∃ n, levels = n + 1 := ⟨levels - 1, by omega⟩
  cases o with
  | resolved => rfl
  | broken cause => cases cause <;> rfl

/-! ## Views of classes -/

theorem AccessFlags.inverts_decoder :
    Inverts (AccessFlags.decoder : Json.Decoder ε AccessFlags) toJson 0 := by
  rintro levels ⟨bits⟩ -
  rw [decoder, map, toJson, natural_reading, if_pos bits.toNat_lt]
  simp [Except.map]

theorem Member.inverts_decoder : Inverts (Member.decoder : Json.Decoder ε Member) toJson 1 := by
  refine inverts_record (fun m => ⟨some m.name, some m.descriptor, some m.access⟩) ?_ (fun _ => rfl)
  intro levels m _
  refine (foldlM_readMember_cons (inverts_string _ _ (Nat.zero_le _)) rfl rfl _).trans ?_
  refine (foldlM_readMember_cons (inverts_string _ _ (Nat.zero_le _)) rfl rfl _).trans ?_
  refine (foldlM_readMember_cons (AccessFlags.inverts_decoder _ _ (Nat.zero_le _)) rfl rfl _).trans
    ?_
  rfl

theorem MemberMention.inverts_decoder :
    Inverts (MemberMention.decoder : Json.Decoder ε MemberMention) toJson 1 :=
  inverts_record (fun m => ⟨some m.owner, some m.name, some m.descriptor⟩) (fun _ _ _ => rfl)
    (fun _ => rfl)

theorem inverts_option_string :
    Inverts (option (string : Json.Decoder ε String)) (.ofOption .string) 0 :=
  inverts_string.option fun s => by simp [Json.reading]

theorem NestedClass.inverts_decoder :
    Inverts (NestedClass.decoder : Json.Decoder ε NestedClass) toJson 1 := by
  refine inverts_record (fun n => ⟨some n.name, some n.outer⟩) ?_ (fun _ => rfl)
  intro levels n _
  refine (foldlM_readMember_cons (inverts_string _ _ (Nat.zero_le _)) rfl rfl _).trans ?_
  refine (foldlM_readMember_cons (inverts_option_string _ _ (Nat.zero_le _)) rfl rfl _).trans ?_
  rfl

/-- A view holds lists of rows, so it takes three levels. -/
theorem ClassView.inverts_decoder :
    Inverts (ClassView.decoder : Json.Decoder ε ClassView) toJson 3 := by
  refine inverts_record (fun c => ⟨some c.name, some c.superclass, some c.interfaces, some c.access,
    some c.fields, some c.methods, some c.nested, some c.classRefs, some c.methodRefs,
    some c.fieldRefs⟩) ?_ (fun _ => rfl)
  intro levels c hlevels
  have hname := inverts_string (ε := ε) levels c.name (Nat.zero_le _)
  have hsuperclass := inverts_option_string (ε := ε) levels c.superclass (Nat.zero_le _)
  have hinterfaces := inverts_string (ε := ε).list levels c.interfaces (by omega)
  have haccess := AccessFlags.inverts_decoder (ε := ε) levels c.access (Nat.zero_le _)
  have hfields := Member.inverts_decoder (ε := ε).list levels c.fields hlevels
  have hmethods := Member.inverts_decoder (ε := ε).list levels c.methods hlevels
  have hnested := NestedClass.inverts_decoder (ε := ε).list levels c.nested hlevels
  have hclassRefs := inverts_string (ε := ε).list levels c.classRefs (by omega)
  have hmethodRefs := MemberMention.inverts_decoder (ε := ε).list levels c.methodRefs hlevels
  have hfieldRefs := MemberMention.inverts_decoder (ε := ε).list levels c.fieldRefs hlevels
  refine (foldlM_readMember_cons hname rfl rfl _).trans ?_
  refine (foldlM_readMember_cons hsuperclass rfl rfl _).trans ?_
  refine (foldlM_readMember_cons hinterfaces rfl rfl _).trans ?_
  refine (foldlM_readMember_cons haccess rfl rfl _).trans ?_
  refine (foldlM_readMember_cons hfields rfl rfl _).trans ?_
  refine (foldlM_readMember_cons hmethods rfl rfl _).trans ?_
  refine (foldlM_readMember_cons hnested rfl rfl _).trans ?_
  refine (foldlM_readMember_cons hclassRefs rfl rfl _).trans ?_
  refine (foldlM_readMember_cons hmethodRefs rfl rfl _).trans ?_
  refine (foldlM_readMember_cons hfieldRefs rfl rfl _).trans ?_
  rfl

/-! ## Settings -/

theorem Platform.inverts_decoder :
    Inverts (Platform.decoder : Json.Decoder ε Platform) toJson 2 := by
  refine inverts_record (fun p => ⟨some p.images, some p.assumed⟩) ?_ (fun _ => rfl)
  intro levels p hlevels
  refine (foldlM_readMember_cons (Path.inverts_decoder.list _ _ hlevels) rfl rfl _).trans ?_
  refine (foldlM_readMember_cons (inverts_string.list _ _ hlevels) rfl rfl _).trans ?_
  rfl

/-- Settings are read back unless their size limit is out of range. -/
theorem Settings.decoder_reading (s : Settings) {levels : Nat} (hlevels : 2 ≤ levels) :
    (decoder : Json.Decoder ε Settings) (levels + 1) s.toJson.reading
      = if s.maxClassSize < sizeBound then .ok s else .error .malformed := by
  have hentries : Inverts (option (list (Path.decoder : Json.Decoder ε Path)))
      (.ofOption (Json.ofList Path.toJson)) 1 :=
    Path.inverts_decoder.list.option fun ps => by simp [Json.ofList, Json.reading]
  have hparallel := inverts_bool (ε := ε) levels s.parallel (Nat.zero_le _)
  rw [decoder, toJson, record_reading, List.map_cons, foldlM_readMember_cons hparallel rfl rfl,
    List.map_cons, List.foldlM_cons, readMember_of rfl rfl, natural_reading]
  by_cases hsize : s.maxClassSize < sizeBound
  · have hentry := hentries levels s.entryArtifacts (by omega)
    have hplatform := Platform.inverts_decoder (ε := ε) levels s.platform hlevels
    rw [if_pos hsize, if_pos hsize]
    show List.foldlM _ _ _ >>= _ = _
    rw [List.map_cons, foldlM_readMember_cons hentry rfl rfl, List.map_cons,
      foldlM_readMember_cons hplatform rfl rfl]
    rfl
  · rw [if_neg hsize, if_neg hsize]
    rfl

/-! ## Sets of references -/

namespace ReferenceSet

theorem ascends_normalized (s : ReferenceSet) : s.normalized.Ascends :=
  ascends_ofLists _ _ _

theorem mem_normalized {s : ReferenceSet} {r : Reference} :
    r ∈ s.normalized.toList ↔ r ∈ s.toList := by
  cases r <;> simp [normalized, ofLists, mem_ascending]

theorem normalized_eq_self_iff {s : ReferenceSet} : s.normalized = s ↔ s.Ascends := by
  refine ⟨fun h => ?_, Ascends.ofLists_eq⟩
  rw [← h]
  exact s.ascends_normalized

/-- Lists that hold the same are one set. -/
theorem normalized_congr {s s' : ReferenceSet} (h : ∀ r, r ∈ s.toList ↔ r ∈ s'.toList) :
    s.normalized = s'.normalized :=
  s.ascends_normalized.ext s'.ascends_normalized fun r => by
    rw [mem_normalized, mem_normalized, h]

theorem inverts_listsDecoder : Inverts (listsDecoder : Json.Decoder ε ReferenceSet) toJson 3 := by
  refine inverts_record (fun s => ⟨some s.classes, some s.methods, some s.fields⟩) ?_
    (fun _ => rfl)
  intro levels s hlevels
  have hclasses := ClassReference.inverts_decoder (ε := ε).list levels s.classes hlevels
  have hmethods := MethodReference.inverts_decoder (ε := ε).list levels s.methods hlevels
  have hfields := FieldReference.inverts_decoder (ε := ε).list levels s.fields hlevels
  refine (foldlM_readMember_cons hclasses rfl rfl _).trans ?_
  refine (foldlM_readMember_cons hmethods rfl rfl _).trans ?_
  refine (foldlM_readMember_cons hfields rfl rfl _).trans ?_
  rfl

theorem decodeText_eq_map (text : String) :
    decodeText (decoder : Json.Decoder ε ReferenceSet) text
      = (decodeText listsDecoder text).map normalized :=
  decodeText_map _ _ _

end ReferenceSet

/-! ## Texts -/

/-- References, outcomes and views of classes are read back from their texts, and so are settings
whose size limit is in range.  Three lists of references are read back as they stand exactly if they
ascend strictly; texts whose lists hold the same references, in whatever order and however often,
are read as one set, which ascends strictly and holds those references. -/
theorem values_readBack (ε : Type) :
    (∀ r : Reference, decodeText (Reference.decoder : Json.Decoder ε _) r.toJson.compact = .ok r)
      ∧ (∀ o : Outcome, decodeText (Outcome.decoder : Json.Decoder ε _) o.toJson.compact = .ok o)
      ∧ (∀ c : ClassView,
        decodeText (ClassView.decoder : Json.Decoder ε _) c.toJson.compact = .ok c)
      ∧ (∀ s : Settings, decodeText (Settings.decoder : Json.Decoder ε _) s.toJson.compact
        = if s.maxClassSize < Settings.sizeBound then .ok s else .error .malformed)
      ∧ (∀ s : ReferenceSet,
        decodeText (ReferenceSet.listsDecoder : Json.Decoder ε _) s.toJson.compact = .ok s
          ∧ (decodeText (ReferenceSet.decoder : Json.Decoder ε _) s.toJson.compact = .ok s
            ↔ s.Ascends))
      ∧ ∀ text text' lists lists',
        decodeText (ReferenceSet.listsDecoder : Json.Decoder ε _) text = .ok lists →
        decodeText (ReferenceSet.listsDecoder : Json.Decoder ε _) text' = .ok lists' →
        (∀ r, r ∈ lists.toList ↔ r ∈ lists'.toList) →
        ∃ s : ReferenceSet, decodeText (ReferenceSet.decoder : Json.Decoder ε _) text = .ok s
          ∧ decodeText (ReferenceSet.decoder : Json.Decoder ε _) text' = .ok s
          ∧ s.Ascends ∧ ∀ r, r ∈ s.toList ↔ r ∈ lists.toList := by
  have hlists : ∀ s : ReferenceSet,
      decodeText (ReferenceSet.listsDecoder : Json.Decoder ε _) s.toJson.compact = .ok s :=
    decodeText_compact ReferenceSet.inverts_listsDecoder (by decide)
  refine ⟨?_, ?_, ?_, ?_, ?_, ?_⟩
  · exact decodeText_compact Reference.inverts_decoder (by decide)
  · exact decodeText_compact Outcome.inverts_decoder (by decide)
  · exact decodeText_compact ClassView.inverts_decoder (by decide)
  · intro s
    rw [decodeText_compact_eq, levelLimit]
    exact s.decoder_reading (by decide)
  · intro s
    refine ⟨hlists s, ?_⟩
    rw [ReferenceSet.decodeText_eq_map, hlists s, ← ReferenceSet.normalized_eq_self_iff]
    exact ⟨Except.ok.inj, congrArg Except.ok⟩
  · intro text text' lists lists' htext htext' hsame
    refine ⟨lists.normalized, ?_, ?_, lists.ascends_normalized,
      fun _ => ReferenceSet.mem_normalized⟩
    · rw [ReferenceSet.decodeText_eq_map, htext]
      rfl
    · rw [ReferenceSet.decodeText_eq_map, htext', ReferenceSet.normalized_congr hsame]
      rfl

end Linkage
