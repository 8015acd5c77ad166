import Linkage.Storage.Artifact
import Mathlib.Data.List.Basic

/-!
# Paths put together

The segments of a path that was put together from a directory and an entry are those of both, but
for a slash the directory may end with.  An entry that is made of names has these names as its
segments.

* `IsName`: a segment that leads down.
* `segments_join`, `segments_entryOf`: the segments of an entry's path.
-/

namespace Linkage.Path

/-- A segment that leads from a directory to something in it. -/
structure IsName (s : String) : Prop where
  /-- It says something. -/
  ne_empty : s ≠ ""
  /-- It does not stay where it is. -/
  ne_current : s ≠ "."
  /-- It does not go up. -/
  ne_parent : s ≠ ".."
  /-- It is a single segment. -/
  plain : '/' ∉ s.toList

instance (s : String) : Decidable (IsName s) :=
  decidable_of_iff (s ≠ "" ∧ s ≠ "." ∧ s ≠ ".." ∧ '/' ∉ s.toList)
    ⟨fun ⟨hempty, hcurrent, hparent, hplain⟩ => ⟨hempty, hcurrent, hparent, hplain⟩,
      fun h => ⟨h.ne_empty, h.ne_current, h.ne_parent, h.plain⟩⟩

/-! ## Segments -/

theorem splitSlash_ne_nil (cs : List Char) : splitSlash cs ≠ [] := by
  cases cs with
  | nil => simp [splitSlash]
  | cons c cs =>
    unfold splitSlash
    split
    · simp
    · split <;> simp

theorem splitSlash_append (cs rest : List Char) :
    splitSlash (cs ++ '/' :: rest) = splitSlash cs ++ splitSlash rest := by
  induction cs with
  | nil => rfl
  | cons c cs ih =>
    rw [List.cons_append, splitSlash, splitSlash, ih]
    split
    · rfl
    · obtain ⟨piece, pieces, hcs⟩ := List.exists_cons_of_ne_nil (splitSlash_ne_nil cs)
      rw [hcs]
      rfl

theorem splitSlash_of_plain {cs : List Char} (h : '/' ∉ cs) : splitSlash cs = [cs] := by
  induction cs with
  | nil => rfl
  | cons c cs ih =>
    rw [List.mem_cons, not_or] at h
    rw [splitSlash, if_neg (Ne.symm h.1), ih h.2]

theorem plain_of_mem_splitSlash {cs piece : List Char} (h : piece ∈ splitSlash cs) :
    '/' ∉ piece := by
  induction cs generalizing piece with
  | nil =>
    rw [List.mem_singleton.mp h]
    exact List.not_mem_nil
  | cons c cs ih =>
    rw [splitSlash] at h
    split at h
    · rcases List.mem_cons.mp h with rfl | h
      · exact List.not_mem_nil
      · exact ih h
    · next hslash =>
      obtain ⟨first, pieces, hcs⟩ := List.exists_cons_of_ne_nil (splitSlash_ne_nil cs)
      rw [hcs] at h ih
      rcases List.mem_cons.mp h with rfl | h
      · rw [List.mem_cons, not_or]
        exact ⟨Ne.symm hslash, ih List.mem_cons_self⟩
      · exact ih (List.mem_cons_of_mem _ h)

theorem plain_of_mem_segments {p : Path} {s : String} (h : s ∈ p.segments) : '/' ∉ s.toList := by
  obtain ⟨piece, hpiece, rfl⟩ := List.mem_map.mp h
  rw [String.toList_ofList]
  exact plain_of_mem_splitSlash hpiece

theorem segments_slash (front back : String) :
    segments ⟨front ++ "/" ++ back⟩ = segments ⟨front⟩ ++ segments ⟨back⟩ := by
  have htext : (front ++ "/" ++ back).toList = front.toList ++ '/' :: back.toList := by
    simp [String.toList_append]
  unfold segments
  rw [htext, splitSlash_append, List.map_append]

theorem segments_of_plain {s : String} (h : '/' ∉ s.toList) : segments ⟨s⟩ = [s] := by
  unfold segments
  rw [splitSlash_of_plain h, List.map_singleton, String.ofList_toList]

/-- An entry made of names has these names as its segments. -/
theorem segments_entryOf {names : List String} (hne : names ≠ [])
    (hplain : ∀ s ∈ names, '/' ∉ s.toList) : segments ⟨Artifact.entryOf names⟩ = names := by
  unfold Artifact.entryOf
  induction names with
  | nil => exact absurd rfl hne
  | cons s names ih =>
    rw [List.forall_mem_cons] at hplain
    cases names with
    | nil =>
      rw [String.intercalate_singleton]
      exact segments_of_plain hplain.1
    | cons s' names =>
      rw [String.intercalate_cons_cons, segments_slash, segments_of_plain hplain.1,
        ih (by simp) hplain.2]
      rfl

/-! ## Components -/

theorem isName_of_innerComponent? {segment s : String}
    (h : innerComponent? segment = some (.name s)) (hplain : '/' ∉ segment.toList) : IsName s := by
  unfold innerComponent? at h
  split at h
  · cases h
  · next hstay =>
    rw [not_or] at hstay
    split at h
    · cases h
    · next hup =>
      cases h
      exact ⟨hstay.1, hstay.2, hup, hplain⟩

/-- The components of a path that are names lead down. -/
theorem isName_of_mem_components {p : Path} {s : String} (h : .name s ∈ p.components) :
    IsName s := by
  have hplain : ∀ s ∈ p.segments, '/' ∉ s.toList := fun s hs => plain_of_mem_segments hs
  unfold components at h
  split at h
  · cases h
  · next first rest hsegments =>
    rw [hsegments, List.forall_mem_cons] at hplain
    rcases List.mem_append.mp h with h | h
    · split at h
      · simp at h
      · split at h
        · simp at h
        · exact isName_of_innerComponent? (by simpa using h) hplain.1
    · obtain ⟨segment, hsegment, hname⟩ := List.mem_filterMap.mp h
      exact isName_of_innerComponent? hname (hplain.2 segment hsegment)

/-! ## The path of an entry -/

theorem startsWith_slash_iff {s : String} :
    Text.startsWith "/" s = true ↔ ∃ rest, s.toList = '/' :: rest := by
  rw [Text.startsWith, List.isPrefixOf_iff_prefix]
  exact ⟨fun ⟨rest, h⟩ => ⟨rest, h.symm⟩, fun ⟨rest, h⟩ => ⟨rest, h.symm⟩⟩

theorem startsWith_slash_append {s : String} (h : s ≠ "") (rest : String) :
    Text.startsWith "/" (s ++ rest) = Text.startsWith "/" s := by
  have hne : s.toList ≠ [] := by simpa using h
  obtain ⟨c, cs, hs⟩ := List.exists_cons_of_ne_nil hne
  rw [Bool.eq_iff_iff, startsWith_slash_iff, startsWith_slash_iff, String.toList_append, hs]
  simp

theorem not_startsWith_entryOf {names : List String} (h : ∀ s ∈ names, IsName s) :
    Text.startsWith "/" (Artifact.entryOf names) = false := by
  cases names with
  | nil => rfl
  | cons s names =>
    rw [Bool.eq_false_iff, ne_eq, startsWith_slash_iff]
    rintro ⟨rest, hrest⟩
    -- A slash at the front makes the first segment empty.
    have hsegments := segments_entryOf (List.cons_ne_nil s names) fun s hs => (h s hs).plain
    rw [segments, hrest, splitSlash, if_pos rfl, List.map_cons, List.cons.injEq] at hsegments
    exact (h s List.mem_cons_self).ne_empty hsegments.1.symm

section

variable {p : Path} {e : String}

theorem join_of_endsWith (hp : p.text ≠ "") (he : Text.startsWith "/" e = false)
    (hend : Text.endsWith "/" p.text = true) : p.join e = ⟨p.text ++ e⟩ := by
  simp [join, hp, he, hend]

theorem join_of_not_endsWith (hp : p.text ≠ "") (he : Text.startsWith "/" e = false)
    (hend : Text.endsWith "/" p.text = false) : p.join e = ⟨p.text ++ "/" ++ e⟩ := by
  simp [join, hp, he, hend]

theorem isAbsolute_join (hp : p.text ≠ "") (he : Text.startsWith "/" e = false) :
    (p.join e).isAbsolute = p.isAbsolute := by
  cases hend : Text.endsWith "/" p.text with
  | true =>
    rw [join_of_endsWith hp he hend]
    exact startsWith_slash_append hp e
  | false =>
    rw [join_of_not_endsWith hp he hend]
    show Text.startsWith "/" (p.text ++ "/" ++ e) = _
    rw [String.append_assoc]
    exact startsWith_slash_append hp _

/-- The segments of an entry's path.  A slash at the end of the directory takes the place of the
one between them. -/
theorem segments_join (hp : p.text ≠ "") (he : Text.startsWith "/" e = false) :
    (p.join e).segments = p.segments ++ segments ⟨e⟩
      ∨ ∃ front, p.segments = front ++ [""] ∧ (p.join e).segments = front ++ segments ⟨e⟩ := by
  cases hend : Text.endsWith "/" p.text with
  | true =>
    right
    obtain ⟨front, hfront⟩ := List.isSuffixOf_iff_suffix.mp hend
    have htext : p.text = String.ofList front ++ "/" ++ "" := by
      rw [← String.toList_inj]
      simp [← hfront, String.toList_append]
    have hjoined : p.text ++ e = String.ofList front ++ "/" ++ e := by
      rw [htext, String.append_empty]
    refine ⟨segments ⟨String.ofList front⟩, ?_, ?_⟩
    · show segments ⟨p.text⟩ = _
      rw [htext, segments_slash]
      rfl
    · rw [join_of_endsWith hp he hend, hjoined, segments_slash]
  | false =>
    left
    rw [join_of_not_endsWith hp he hend, segments_slash]

end

end Linkage.Path
