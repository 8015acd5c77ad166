import Linkage.Json.Decoder
import Linkage.Proofs.Json.Text
import Linkage.Proofs.Operations

/-!
# Decoders that undo writing

A decoder inverts a way of writing if it reads every written value back, given enough levels.
There is one law for each way to put decoders together, so a type is read back if its parts are.
In the same way a decoder refines one that checks less if it accepts nothing the other does not.

* `Inverts`: reading undoes writing.
* `decodeText_compact`: the text of a value is decoded as that value.
* `Refines`: what is accepted is accepted with fewer checks, as the same content.
* `record_refines`: a record refines another if its fields do, by a step for each member.
-/

namespace Linkage.Json.Decoder

variable {ε α β σ : Type}

/-- With `depth` levels or more, the decoder reads back every value that is written. -/
def Inverts (d : Decoder ε α) (write : α → Json) (depth : Nat) : Prop :=
  ∀ levels a, depth ≤ levels → d levels (write a).reading = .ok a

theorem decodeText_compact_eq (d : Decoder ε α) (v : Json) :
    decodeText d v.compact = d levelLimit v.reading := by
  rw [decodeText, decode, ofText_compact]
  show (d levelLimit v.reading >>= fun a => whole true a) = _
  cases d levelLimit v.reading <;> rfl

theorem decodeText_compact {d : Decoder ε α} {write : α → Json} {depth : Nat}
    (h : d.Inverts write depth) (hdepth : depth ≤ levelLimit) (a : α) :
    decodeText d (write a).compact = .ok a := by
  rw [decodeText_compact_eq]
  exact h levelLimit a hdepth

theorem decodeText_map (d : Decoder ε α) (f : α → β) (text : String) :
    decodeText (d.map f) text = (decodeText d text).map f := by
  unfold decodeText decode Decoder.map
  cases d levelLimit (Document.ofText text).root with
  | error fault => rfl
  | ok a =>
    show whole _ (f a) = (whole _ a).map f
    cases (Document.ofText text).ended <;> rfl

/-- What can be read back is told apart by what is written. -/
theorem Inverts.injective {d : Decoder ε α} {write : α → Json} {depth : Nat}
    (h : d.Inverts write depth) : Function.Injective write := by
  intro a b hwrite
  have ha := h depth a (Nat.le_refl depth)
  rw [hwrite, h depth b (Nat.le_refl depth)] at ha
  exact (Except.ok.inj ha).symm

theorem inverts_string : Inverts (string : Decoder ε String) .string 0 :=
  fun _ _ _ => rfl

theorem inverts_bool : Inverts (bool : Decoder ε Bool) .bool 0 :=
  fun _ _ _ => rfl

/-- A number is read back if it is below the bound, and refused otherwise. -/
theorem natural_reading (bound n levels : Nat) :
    (natural bound : Decoder ε Nat) levels (Json.number n).reading
      = if n < bound then .ok n else .error .malformed := by
  rw [reading, natural, Numeral.natural?_ofNat]

theorem Inverts.map {d : Decoder ε α} {write : α → Json} {depth : Nat} (h : d.Inverts write depth)
    {f : α → β} {g : β → α} (hfg : ∀ b, f (g b) = b) :
    (d.map f).Inverts (fun b => write (g b)) depth := by
  intro levels b hlevels
  rw [Decoder.map, h levels (g b) hlevels]
  show Except.ok (f (g b)) = _
  rw [hfg]

theorem option_of_ne_null (d : Decoder ε α) (levels : Nat) {r : Reading} (hnull : r ≠ .null) :
    d.option levels r = (d levels r).map some := by
  unfold Decoder.option
  split
  · exact absurd rfl hnull
  · rfl

theorem Inverts.option {d : Decoder ε α} {write : α → Json} {depth : Nat}
    (h : d.Inverts write depth) (hnull : ∀ a, (write a).reading ≠ .null) :
    d.option.Inverts (.ofOption write) depth := by
  intro levels a hlevels
  cases a with
  | none => rfl
  | some a =>
    rw [ofOption, option_of_ne_null d levels (hnull a), h levels a hlevels]
    rfl

theorem Inverts.list {d : Decoder ε α} {write : α → Json} {depth : Nat}
    (h : d.Inverts write depth) : d.list.Inverts (.ofList write) (depth + 1) := by
  intro levels as hlevels
  obtain ⟨levels, rfl⟩ : ∃ n, levels = n + 1 := ⟨levels - 1, by omega⟩
  have hitems : (as.map fun a => (write a).reading).mapM (d levels) = .ok as := by
    rw [mapM_eq_ok_iff, List.forall₂_map_left_iff, List.forall₂_same]
    intro a _
    exact h levels a (by omega)
  rw [ofList, reading, itemReadings_eq, List.map_map]
  show ((as.map fun a => (write a).reading).mapM (d levels) >>= _) = _
  rw [hitems]
  rfl

/-! ## Records -/

/-- What a draft stands for once it is filled in. -/
def finished (finish : σ → Option α) (s : σ) : Except (DecodeError ε) α :=
  match finish s with
  | some a => .ok a
  | none => .error .malformed

theorem finished_eq_ok_iff {finish : σ → Option α} {s : σ} {a : α} :
    (finished finish s : Except (DecodeError ε) α) = .ok a ↔ finish s = some a := by
  unfold finished
  cases finish s <;> simp

/-- A member of a known name fills in its field. -/
theorem readMember_of {fields : List (Field ε σ)} {name : String} {get : σ → Option α}
    {set : σ → α → σ} {d : Decoder ε α}
    (hfield : fields.find? (·.name = name) = some (.of name get set d)) {s : σ}
    (hempty : get s = none) (levels : Nat) (r : Reading) :
    readMember fields levels s (some name, r) = (d levels r).map (set s) := by
  have hfilled : ¬ (Field.of name get set d).isFilled s = true := by
    simp [Field.of, hempty]
  simp only [readMember, hfield]
  rw [if_neg hfilled]
  show ((d levels r).map _).map _ = _
  cases d levels r <;> rfl

/-- A member of a known name is read and the others after it. -/
theorem foldlM_readMember_cons {fields : List (Field ε σ)} {name : String} {get : σ → Option α}
    {set : σ → α → σ} {d : Decoder ε α} {levels : Nat} {r : Reading} {a : α} {s : σ}
    (hread : d levels r = .ok a)
    (hfield : fields.find? (·.name = name) = some (.of name get set d)) (hempty : get s = none)
    (ms : List (Option String × Reading)) :
    ((some name, r) :: ms).foldlM (readMember fields levels) s
      = ms.foldlM (readMember fields levels) (set s a) := by
  rw [List.foldlM_cons, readMember_of hfield hempty, hread]
  rfl

/-- A record is read member by member, and then stands for what its draft does. -/
theorem record_reading (presence : Presence) (fields : List (Field ε σ)) (blank : σ)
    (finish : σ → Option α) (members : List (String × Json)) (levels : Nat) :
    record presence fields blank finish (levels + 1) (Json.object members).reading
      = (members.map fun m => (some m.1, m.2.reading)).foldlM (readMember fields levels) blank
        >>= finished finish := by
  rw [reading, memberReadings_eq]
  rfl

/-- A record is read back if its members fill in a draft that stands for it. -/
theorem inverts_record {presence : Presence} {fields : List (Field ε σ)} {blank : σ}
    {finish : σ → Option α} {members : α → List (String × Json)} {depth : Nat} (draft : α → σ)
    (hmembers : ∀ levels a, depth ≤ levels →
      ((members a).map fun m => (some m.1, m.2.reading)).foldlM (readMember fields levels) blank
        = .ok (draft a))
    (hfinish : ∀ a, finish (draft a) = some a) :
    (record presence fields blank finish).Inverts (fun a => .object (members a)) (depth + 1) := by
  intro levels a hlevels
  obtain ⟨levels, rfl⟩ : ∃ n, levels = n + 1 := ⟨levels - 1, by omega⟩
  rw [record_reading, hmembers levels a (by omega)]
  exact finished_eq_ok_iff.mpr (hfinish a)

/-! ## Alternatives -/

/-- A text names its alternative by the tag and is read by the decoder of that, if the tag is no
other member and the other members can be held. -/
theorem tagged_reading {tag word : String} {caseOf : String → Option (Decoder ε α)}
    {d : Decoder ε α} (hcase : caseOf word = some d) {members : List (String × Json)} {levels : Nat}
    (htag : tag ∉ members.map Prod.fst)
    (hheld : ∀ m ∈ members, isHeld levels m.2.reading = true) :
    tagged tag caseOf (levels + 1) (Json.object ((tag, .string word) :: members)).reading
      = d (levels + 1) (Json.object members).reading := by
  have hother : ∀ m ∈ memberReadings members, m.1 ≠ some tag ∧ m.1.isSome = true
      ∧ isHeld levels m.2 = true := by
    rw [memberReadings_eq]
    intro m hm
    obtain ⟨⟨k, v⟩, hk, rfl⟩ := List.mem_map.mp hm
    refine ⟨fun hname => htag ?_, rfl, hheld _ hk⟩
    exact List.mem_map.mpr ⟨_, hk, Option.some.inj hname⟩
  have htagged : (memberReadings members).filter (fun m => m.1 == some tag) = [] :=
    List.filter_eq_nil_iff.mpr fun m hm => by simp [(hother m hm).1]
  have hothers : (memberReadings members).filter (fun m => m.1 != some tag)
      = memberReadings members :=
    List.filter_eq_self.mpr fun m hm => by simp [(hother m hm).1]
  have hall : (memberReadings members).all (fun m => m.1.isSome && isHeld levels m.2) = true :=
    List.all_eq_true.mpr fun m hm => by simp [(hother m hm).2.1, (hother m hm).2.2]
  simp [reading, memberReadings, tagged, htagged, hothers, hcase, hall]

/-! ## Decoders that check less -/

/-- What the one decoder accepts the other accepts too, as its image. -/
def Refines (d : Decoder ε α) (d' : Decoder ε β) (φ : α → β) : Prop :=
  ∀ levels r a, d levels r = .ok a → d' levels r = .ok (φ a)

theorem whole_eq_ok_iff {closed : Bool} {a b : α} :
    (whole closed a : Except (DecodeError ε) α) = .ok b ↔ closed = true ∧ a = b := by
  cases closed <;> simp [whole]

theorem whole_image {closed : Bool} {a b : α} (φ : α → β)
    (h : (whole closed a : Except (DecodeError ε) α) = .ok b) :
    (whole closed (φ a) : Except (DecodeError ε) β) = .ok (φ b) := by
  obtain ⟨hclosed, rfl⟩ := whole_eq_ok_iff.mp h
  exact whole_eq_ok_iff.mpr ⟨hclosed, rfl⟩

theorem Refines.decodeText {d : Decoder ε α} {d' : Decoder ε β} {φ : α → β} (h : d.Refines d' φ)
    {text : String} {a : α} (ha : decodeText d text = .ok a) : d'.decodeText text = .ok (φ a) := by
  obtain ⟨b, hread, hended⟩ := except_bind_eq_ok_iff.mp ha
  exact except_bind_eq_ok_iff.mpr ⟨φ b, h _ _ _ hread, whole_image φ hended⟩

theorem Refines.list {d : Decoder ε α} {d' : Decoder ε β} {φ : α → β} (h : d.Refines d' φ) :
    d.list.Refines d'.list (List.map φ) := by
  intro levels r as has
  unfold Decoder.list at has ⊢
  split at has
  · next levels items closed =>
    obtain ⟨bs, hitems, hclosed⟩ := except_bind_eq_ok_iff.mp has
    refine except_bind_eq_ok_iff.mpr ⟨bs.map φ, ?_, whole_image (List.map φ) hclosed⟩
    rw [mapM_eq_ok_iff] at hitems ⊢
    rw [List.forall₂_map_right_iff]
    exact hitems.imp fun r a hr => h levels r a hr
  · cases has

/-- What the one field reads into a draft the other reads into its image. -/
structure Field.Refines {τ : Type} (φ : σ → τ) (f : Field ε σ) (g : Field ε τ) : Prop where
  /-- They have one name. -/
  name : g.name = f.name
  /-- They are filled together. -/
  isFilled : ∀ s, g.isFilled (φ s) = f.isFilled s
  /-- What the one fills in the other does. -/
  read : ∀ levels r set, f.read levels r = .ok set →
    ∃ set', g.read levels r = .ok set' ∧ ∀ s, set' (φ s) = φ (set s)

section

variable {τ : Type} {φ : σ → τ} {fields : List (Field ε σ)} {images : List (Field ε τ)}
  {levels : Nat}

theorem Field.Refines.of {name : String} {get : σ → Option α} {set : σ → α → σ}
    {d : Decoder ε α} {get' : τ → Option β} {set' : τ → β → τ} {d' : Decoder ε β} {ψ : α → β}
    (h : d.Refines d' ψ) (hget : ∀ s, get' (φ s) = (get s).map ψ)
    (hset : ∀ s a, set' (φ s) (ψ a) = φ (set s a)) :
    Field.Refines φ (.of name get set d) (.of name get' set' d') where
  name := rfl
  isFilled s := by simp [Field.of, hget]
  read levels r filled hread := by
    obtain ⟨a, ha, rfl⟩ := except_map_eq_ok_iff.mp hread
    exact ⟨fun s => set' s (ψ a), except_map_eq_ok_iff.mpr ⟨ψ a, h levels r a ha, rfl⟩,
      fun s => hset s a⟩

/-- The field of a name, and its image, are found at the same place. -/
theorem find?_refines (h : List.Forall₂ (Field.Refines φ) fields images) (name : String) :
    Option.Rel (Field.Refines φ) (fields.find? (·.name = name)) (images.find? (·.name = name)) := by
  induction h with
  | nil => exact .none
  | cons hfield _ ih =>
    simp only [List.find?_cons, hfield.name]
    split
    · exact .some hfield
    · exact ih

theorem readMember_refines (h : List.Forall₂ (Field.Refines φ) fields images) {s t : σ}
    {m : Option String × Reading} (hread : readMember fields levels s m = .ok t) :
    readMember images levels (φ s) m = .ok (φ t) := by
  obtain ⟨_ | name, r⟩ := m
  · cases hread
  have hfind := find?_refines h name
  unfold readMember at hread ⊢
  dsimp only at hread ⊢
  generalize fields.find? (·.name = name) = field at hread hfind
  generalize images.find? (·.name = name) = image at hfind
  cases hfind with
  | none => exact whole_image φ hread
  | @some f g hfield =>
    dsimp only at hread ⊢
    rw [hfield.isFilled]
    split at hread
    · cases hread
    · next hempty =>
      rw [if_neg hempty]
      obtain ⟨set, hset, rfl⟩ := except_map_eq_ok_iff.mp hread
      obtain ⟨set', hset', hsame⟩ := hfield.read levels r set hset
      exact except_map_eq_ok_iff.mpr ⟨set', hset', hsame s⟩

/-- Reading the members of an object one after the other keeps the drafts together. -/
theorem foldlM_readMember_refines (h : List.Forall₂ (Field.Refines φ) fields images) {s t : σ}
    {ms : List (Option String × Reading)} (hread : ms.foldlM (readMember fields levels) s = .ok t) :
    ms.foldlM (readMember images levels) (φ s) = .ok (φ t) := by
  induction ms generalizing s with
  | nil =>
    cases hread
    rfl
  | cons m ms ih =>
    rw [List.foldlM_cons] at hread ⊢
    obtain ⟨u, hfirst, hrest⟩ := except_bind_eq_ok_iff.mp hread
    exact except_bind_eq_ok_iff.mpr ⟨φ u, readMember_refines h hfirst, ih hrest⟩

/-- So does reading the items of a list into the fields. -/
theorem readItems_refines {presence : Presence} (h : List.Forall₂ (Field.Refines φ) fields images)
    {s t : σ} {rs : List Reading} (hread : readItems presence levels fields rs s = .ok t) :
    readItems presence levels images rs (φ s) = .ok (φ t) := by
  induction h generalizing rs s with
  | nil =>
    cases rs with
    | nil =>
      cases hread
      rfl
    | cons r rs => cases hread
  | cons hfield _ ih =>
    cases rs with
    | nil =>
      unfold readItems at hread ⊢
      split at hread
      · next hsome =>
        cases hread
        rw [if_pos hsome]
      · cases hread
    | cons r rs =>
      obtain ⟨set, hset, hrest⟩ := except_bind_eq_ok_iff.mp hread
      obtain ⟨set', hset', hsame⟩ := hfield.read levels r set hset
      refine except_bind_eq_ok_iff.mpr ⟨set', hset', ?_⟩
      rw [hsame]
      exact ih hrest

theorem record_refines {presence : Presence} {blank : σ} {finish : σ → Option α}
    {finish' : τ → Option β} {ψ : α → β} (h : List.Forall₂ (Field.Refines φ) fields images)
    (hfinish : ∀ s a, finish s = some a → finish' (φ s) = some (ψ a)) :
    (record presence fields blank finish).Refines (record presence images (φ blank) finish')
      ψ := by
  -- Once the draft is filled in, both forms of a record end in the same way.
  have hend : ∀ (s : σ) (closed : Bool) (a : α),
      (whole closed s >>= finished finish : Except (DecodeError ε) α) = .ok a →
      (whole closed (φ s) >>= finished finish' : Except (DecodeError ε) β) = .ok (ψ a) := by
    intro s closed a ha
    obtain ⟨t, hclosed, ht⟩ := except_bind_eq_ok_iff.mp ha
    refine except_bind_eq_ok_iff.mpr ⟨φ t, whole_image φ hclosed, ?_⟩
    exact finished_eq_ok_iff.mpr (hfinish t a (finished_eq_ok_iff.mp ht))
  intro levels r a ha
  unfold record at ha ⊢
  split at ha
  · obtain ⟨s, hs, hrest⟩ := except_bind_eq_ok_iff.mp ha
    exact except_bind_eq_ok_iff.mpr ⟨φ s, foldlM_readMember_refines h hs, hend _ _ _ hrest⟩
  · obtain ⟨s, hs, hrest⟩ := except_bind_eq_ok_iff.mp ha
    exact except_bind_eq_ok_iff.mpr ⟨φ s, readItems_refines h hs, hend _ _ _ hrest⟩
  · cases ha

end

end Linkage.Json.Decoder
