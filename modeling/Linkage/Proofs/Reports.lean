import Linkage.Proofs.Json.Decoding
import Linkage.Report.Basic

/-!
# Reports are read back, and never with an error that pairs wrongly

A report is written and read field by field, so that reading undoes writing needs one law for each
record.  What a text says of its errors before they are checked is read by a second decoder, which
keeps reason and place as they stand; a text that is accepted as a report says the same to both.

* `BrokenReference.Raw`, `ArtifactReport.Raw`: what a text says, unchecked.
* `BrokenReference.decoder_eq_ok_iff`: an error is accepted if reason and place make up its cause.
* `reports_readBack`: every report is read back, and the errors of a text that is accepted, or that
  come from an outcome, lack a place exactly if their reason is that the class is not found.
-/

namespace Linkage

open Json.Decoder

/-! ## Parts of a report -/

theorem ClassReference.inverts_decoder {ε : Type} :
    Inverts (ClassReference.decoder : Json.Decoder ε ClassReference) toJson 1 :=
  inverts_record (fun r => ⟨some r.source, some r.target⟩) (fun _ _ _ => rfl) (fun _ => rfl)

theorem MethodReference.inverts_decoder {ε : Type} :
    Inverts (MethodReference.decoder : Json.Decoder ε MethodReference) toJson 1 :=
  inverts_record (fun r => ⟨some r.source, some r.target, some r.method, some r.descriptor⟩)
    (fun _ _ _ => rfl) (fun _ => rfl)

theorem FieldReference.inverts_decoder {ε : Type} :
    Inverts (FieldReference.decoder : Json.Decoder ε FieldReference) toJson 1 :=
  inverts_record (fun r => ⟨some r.source, some r.target, some r.field⟩)
    (fun _ _ _ => rfl) (fun _ => rfl)

theorem Path.inverts_decoder {ε : Type} :
    Inverts (Path.decoder : Json.Decoder ε Path) toJson 0 :=
  inverts_string.map (g := Path.text) fun _ => rfl

theorem Path.inverts_option_decoder {ε : Type} :
    Inverts (option (Path.decoder : Json.Decoder ε Path)) (.ofOption toJson) 0 :=
  Path.inverts_decoder.option fun p => by simp [toJson, Json.reading]

theorem Reason.inverts_decoder {ε : Type} :
    Inverts (Reason.decoder : Json.Decoder ε Reason) toJson 0 := by
  intro levels reason _
  cases reason <;> rfl

/-! ## Broken references -/

/-- A cause is known by its reason and its place. -/
theorem Cause.eq_of_pair {c c' : Cause} (hreason : c.reason = c'.reason)
    (hplace : c.location? = c'.location?) : c = c' := by
  have hc := Cause.ofPair_eq_ok_iff.mpr ⟨hreason, hplace⟩
  rw [Cause.ofPair_eq_ok_iff.mpr ⟨rfl, rfl⟩] at hc
  exact (Except.ok.inj hc).symm

namespace BrokenReference

variable {ρ : Type} {f : ρ → Json} {depth : Nat}

/-- What a text says of a broken reference, however it pairs reason and place. -/
abbrev Raw (ρ : Type) := ρ × Reason × Option Path

/-- There is no place exactly if the class is not found. -/
def Raw.IsPaired (x : Raw ρ) : Prop :=
  x.2.2 = none ↔ x.2.1 = .classNotFound

/-- What a broken reference is written as. -/
def raw (b : BrokenReference ρ) : Raw ρ :=
  (b.reference, b.cause.reason, b.cause.location?)

theorem isPaired_raw (b : BrokenReference ρ) : b.raw.IsPaired :=
  b.cause.location?_eq_none_iff

/-- An error is known by its reference, its reason and its place. -/
theorem raw_injective : Function.Injective (raw : BrokenReference ρ → Raw ρ) := by
  rintro ⟨reference, cause⟩ ⟨reference', cause'⟩ h
  simp only [raw, Prod.mk.injEq] at h
  obtain ⟨rfl, hreason, hplace⟩ := h
  rw [Cause.eq_of_pair hreason hplace]

theorem ofOutcome?_eq_some_iff {reference : ρ} {outcome : Outcome} {b : BrokenReference ρ} :
    ofOutcome? reference outcome = some b ↔ ∃ cause,
      outcome = .broken cause ∧ b.raw = (reference, cause.reason, cause.location?) := by
  constructor
  · intro h
    cases outcome with
    | resolved => cases h
    | broken cause =>
      cases h
      exact ⟨cause, rfl, rfl⟩
  · rintro ⟨cause, rfl, hraw⟩
    exact congrArg some (raw_injective hraw).symm

theorem inverts_recordDecoder {ε : Type} {d : Json.Decoder ε ρ} (h : d.Inverts f depth) :
    Inverts (recordDecoder d) (fun x => .object [("reference", f x.1),
      ("reason", x.2.1.toJson), ("target_class_location", .ofOption Path.toJson x.2.2)])
      (depth + 1) := by
  refine inverts_record (fun x => ⟨some x.1, some x.2.1, some x.2.2⟩) ?_ (fun _ => rfl)
  rintro levels ⟨reference, reason, place⟩ hlevels
  have hreference := h levels reference hlevels
  have hreason := Reason.inverts_decoder (ε := ε) levels reason (Nat.zero_le _)
  have hplace := Path.inverts_option_decoder (ε := ε) levels place (Nat.zero_le _)
  simp [readMember, Field.of, Json.Decoder.map, hreference, hreason, hplace, Except.map, bind,
    Except.bind, pure, Except.pure]

/-- A broken reference is accepted if its text names the reason and the place of its cause. -/
theorem decoder_eq_ok_iff {d : Json.Decoder Mispairing ρ} {levels : Nat} {r : Json.Reading}
    {b : BrokenReference ρ} :
    decoder d levels r = .ok b ↔ recordDecoder d levels r = .ok b.raw := by
  constructor
  · intro h
    obtain ⟨⟨reference, reason, place⟩, hrecord, hpair⟩ := except_bind_eq_ok_iff.mp h
    dsimp only at hpair
    split at hpair
    · next cause hcause =>
      cases hpair
      obtain ⟨rfl, rfl⟩ := Cause.ofPair_eq_ok_iff.mp hcause
      exact hrecord
    · cases hpair
  · intro h
    refine except_bind_eq_ok_iff.mpr ⟨b.raw, h, ?_⟩
    have hcause : Cause.ofPair b.cause.reason b.cause.location? = .ok b.cause :=
      Cause.ofPair_eq_ok_iff.mpr ⟨rfl, rfl⟩
    simp [raw, hcause, pure, Except.pure]

theorem inverts_decoder {d : Json.Decoder Mispairing ρ} (h : d.Inverts f depth) :
    Inverts (decoder d) (toJson f) (depth + 1) := fun levels b hlevels =>
  decoder_eq_ok_iff.mpr (inverts_recordDecoder h levels b.raw hlevels)

theorem refines_decoder (d : Json.Decoder Mispairing ρ) :
    Refines (decoder d) (recordDecoder d) raw :=
  fun _ _ _ h => decoder_eq_ok_iff.mp h

end BrokenReference

/-! ## Reports -/

namespace ArtifactReport

theorem inverts_decoder : Inverts decoder toJson 4 := by
  refine inverts_record
    (fun r => ⟨some r.artifact, some r.classes, some r.methods, some r.fields⟩) ?_ (fun _ => rfl)
  intro levels r hlevels
  have hartifact := Path.inverts_decoder (ε := Mispairing) levels r.artifact (Nat.zero_le _)
  have hclasses := (BrokenReference.inverts_decoder ClassReference.inverts_decoder).list
    levels r.classes hlevels
  have hmethods := (BrokenReference.inverts_decoder MethodReference.inverts_decoder).list
    levels r.methods hlevels
  have hfields := (BrokenReference.inverts_decoder FieldReference.inverts_decoder).list
    levels r.fields hlevels
  simp [readMember, Field.of, Json.Decoder.map, hartifact, hclasses, hmethods, hfields, Except.map,
    bind, Except.bind, pure, Except.pure]

/-- What a text says of an artifact, its errors unchecked. -/
structure Raw where
  /-- The artifact. -/
  artifact : Path
  /-- Broken references to classes. -/
  classes : List (BrokenReference.Raw ClassReference)
  /-- Broken references to methods. -/
  methods : List (BrokenReference.Raw MethodReference)
  /-- Broken references to fields. -/
  fields : List (BrokenReference.Raw FieldReference)

namespace Raw

/-- Every error lacks a place exactly if its class is not found. -/
structure IsPaired (x : Raw) : Prop where
  /-- So do those of classes, -/
  classes : ∀ e ∈ x.classes, e.IsPaired
  /-- those of methods, -/
  methods : ∀ e ∈ x.methods, e.IsPaired
  /-- and those of fields. -/
  fields : ∀ e ∈ x.fields, e.IsPaired

/-- Reads a report and checks no error. -/
def decoder : Json.Decoder Mispairing Raw :=
  recordDecoder BrokenReference.recordDecoder Raw.mk

end Raw

/-- What a report is written as. -/
def raw (r : ArtifactReport) : Raw :=
  ⟨r.artifact, r.classes.map (·.raw), r.methods.map (·.raw), r.fields.map (·.raw)⟩

theorem isPaired_raw (r : ArtifactReport) : r.raw.IsPaired where
  classes := List.forall_mem_map.mpr fun b _ => b.isPaired_raw
  methods := List.forall_mem_map.mpr fun b _ => b.isPaired_raw
  fields := List.forall_mem_map.mpr fun b _ => b.isPaired_raw

/-- What a draft holds, unchecked. -/
def Draft.raw (d : Draft BrokenReference) : Draft BrokenReference.Raw :=
  ⟨d.artifact, d.classes.map (List.map (·.raw)), d.methods.map (List.map (·.raw)),
    d.fields.map (List.map (·.raw))⟩

theorem refines_decoder : Refines decoder Raw.decoder raw := by
  refine record_refines (φ := Draft.raw) ?_ ?_
  · refine .cons ?_ (.cons ?_ (.cons ?_ (.cons ?_ .nil)))
    · exact .of (ψ := id) (fun _ _ _ h => h) (fun _ => by simp [Draft.raw]) (fun _ _ => rfl)
    · exact .of (BrokenReference.refines_decoder _).list (fun _ => rfl) (fun _ _ => rfl)
    · exact .of (BrokenReference.refines_decoder _).list (fun _ => rfl) (fun _ _ => rfl)
    · exact .of (BrokenReference.refines_decoder _).list (fun _ => rfl) (fun _ _ => rfl)
  · rintro ⟨_ | artifact, _ | classes, _ | methods, _ | fields⟩ r hr <;> cases hr
    rfl

end ArtifactReport

namespace ClassPathReport

theorem inverts_decoder : Inverts decoder toJson 6 := by
  refine inverts_record (fun r => ⟨some r.artifacts⟩) ?_ (fun _ => rfl)
  intro levels r hlevels
  have hartifacts := ArtifactReport.inverts_decoder.list levels r.artifacts hlevels
  simp [readMember, Field.of, Json.Decoder.map, hartifacts, Except.map, bind, Except.bind, pure,
    Except.pure]

/-- Reads the reports of a class path and checks no error. -/
def rawDecoder : Json.Decoder Mispairing (List ArtifactReport.Raw) :=
  recordDecoder ArtifactReport.Raw.decoder id

/-- What a draft holds, unchecked. -/
def Draft.raw (d : Draft ArtifactReport) : Draft ArtifactReport.Raw :=
  ⟨d.artifacts.map (List.map (·.raw))⟩

theorem refines_decoder : Refines decoder rawDecoder (·.artifacts.map (·.raw)) := by
  refine record_refines (φ := Draft.raw) ?_ ?_
  · exact .cons (.of ArtifactReport.refines_decoder.list (fun _ => rfl) (fun _ _ => rfl)) .nil
  · rintro ⟨_ | artifacts⟩ r hr <;> cases hr
    rfl

end ClassPathReport

/-- Every report is read back from its text.  A text that is accepted as a report, as the reports
of a class path or as a broken reference says what was read from it, and each of its errors lacks a
place exactly if its class is not found; so does an error that has a given cause, or that an outcome
gives.  An outcome gives an error exactly if it is broken, and the error has the reason and the
place of its cause. -/
theorem reports_readBack :
    (∀ r : ArtifactReport, decodeText ArtifactReport.decoder r.toJson.compact = .ok r)
      ∧ (∀ r : ClassPathReport, decodeText ClassPathReport.decoder r.toJson.compact = .ok r)
      ∧ (∀ text r, decodeText ArtifactReport.decoder text = .ok r →
        decodeText ArtifactReport.Raw.decoder text = .ok r.raw ∧ r.raw.IsPaired)
      ∧ (∀ text r, decodeText ClassPathReport.decoder text = .ok r →
        decodeText ClassPathReport.rawDecoder text = .ok (r.artifacts.map (·.raw))
          ∧ ∀ a ∈ r.artifacts, a.raw.IsPaired)
      ∧ (∀ (ρ : Type) (d : Json.Decoder Mispairing ρ) text b,
        decodeText (BrokenReference.decoder d) text = .ok b →
        decodeText (BrokenReference.recordDecoder d) text = .ok b.raw ∧ b.raw.IsPaired)
      ∧ ∀ (ρ : Type) (reference : ρ), (∀ cause, (BrokenReference.mk reference cause).raw.IsPaired)
        ∧ ∀ outcome b,
          (BrokenReference.ofOutcome? reference outcome = some b ↔ ∃ cause,
            outcome = .broken cause ∧ b.raw = (reference, cause.reason, cause.location?))
          ∧ (BrokenReference.ofOutcome? reference outcome = some b → b.raw.IsPaired) := by
  refine ⟨?_, ?_, ?_, ?_, ?_, ?_⟩
  · exact decodeText_compact ArtifactReport.inverts_decoder (by decide)
  · exact decodeText_compact ClassPathReport.inverts_decoder (by decide)
  · exact fun text r h => ⟨ArtifactReport.refines_decoder.decodeText h, r.isPaired_raw⟩
  · exact fun text r h => ⟨ClassPathReport.refines_decoder.decodeText h, fun a _ => a.isPaired_raw⟩
  · exact fun ρ d text b h => ⟨(BrokenReference.refines_decoder d).decodeText h, b.isPaired_raw⟩
  · exact fun ρ reference => ⟨fun cause => BrokenReference.isPaired_raw _,
      fun outcome b => ⟨BrokenReference.ofOutcome?_eq_some_iff, fun _ => b.isPaired_raw⟩⟩

end Linkage
