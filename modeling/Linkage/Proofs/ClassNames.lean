import Linkage.ClassName
import Linkage.Proofs.Text.Utf8

/-!
# Class names with dots, with slashes, and as entries

The internal form of a name forgets which separators were dots and which were slashes, and so does
the binary form read back from it.  Both forget the same: two names have one internal form exactly
when they have one binary form.  No form is longer than the name it comes from.
-/

namespace Linkage

namespace Text

theorem toList_replaceChar (a b : Char) (s : String) :
    (replaceChar a b s).toList = s.toList.map fun c => if c = a then b else c := by
  rw [replaceChar, String.toList_ofList]

/-- Replacing a character by one of the same length keeps the length of a text. -/
theorem utf8ByteSize_replaceChar {a b : Char}
    (h : (String.utf8EncodeChar a).length = (String.utf8EncodeChar b).length) (s : String) :
    (replaceChar a b s).utf8ByteSize = s.utf8ByteSize := by
  rw [← length_encode, ← length_encode, encode, encode, toList_replaceChar, List.length_flatMap,
    List.length_flatMap, List.map_map]
  congr 1
  refine List.map_congr_left fun c _ => ?_
  by_cases hc : c = a
  · simp [hc, h]
  · simp [hc]

end Text

namespace ClassName

theorem ofInternal_internal (n : ClassName) : ofInternal n.internal = ofInternal n := by
  rw [ofInternal, ofInternal, ← String.toList_inj, Text.toList_replaceChar,
    Text.toList_replaceChar, internal, Text.toList_replaceChar, List.map_map]
  refine List.map_congr_left fun c _ => ?_
  by_cases hc : c = '.'
  · simp [hc]
  · simp [hc]

theorem internal_ofInternal (n : ClassName) : (ofInternal n).internal = n.internal := by
  rw [internal, internal, ← String.toList_inj, Text.toList_replaceChar,
    Text.toList_replaceChar, ofInternal, Text.toList_replaceChar, List.map_map]
  refine List.map_congr_left fun c _ => ?_
  by_cases hc : c = '/'
  · simp [hc]
  · simp [hc]

/-- The two forms tell the same names apart. -/
theorem ofInternal_inj_iff (m n : ClassName) :
    ofInternal m = ofInternal n ↔ m.internal = n.internal := by
  constructor
  · intro h
    rw [← internal_ofInternal m, h, internal_ofInternal]
  · intro h
    rw [← ofInternal_internal m, h, ofInternal_internal]

/-- The class of the entry a class is stored under. -/
theorem ofEntry_entry (n : ClassName) : ofEntry n.entry = ofInternal n := by
  have hlist : n.entry.toList = n.internal.toList ++ entrySuffix.toList := by
    rw [entry, String.toList_append]
  have hends : Text.endsWith entrySuffix n.entry = true := by
    rw [Text.endsWith, List.isSuffixOf_iff_suffix, hlist]
    exact List.suffix_append _ _
  have hstem : n.entry.toList.take (n.entry.toList.length - entrySuffix.toList.length)
      = n.internal.toList := by
    rw [hlist, List.length_append, Nat.add_sub_cancel, List.take_left]
  rw [ofEntry, if_pos hends, hstem, String.ofList_toList, ofInternal_internal]

theorem utf8ByteSize_internal (n : ClassName) : n.internal.utf8ByteSize = n.utf8ByteSize :=
  Text.utf8ByteSize_replaceChar (by decide) n

theorem utf8ByteSize_simple_le (n : ClassName) : n.simple.utf8ByteSize ≤ n.utf8ByteSize := by
  have hparts := congrArg (fun cs => (cs.flatMap String.utf8EncodeChar).length)
    (Text.throughLast_append_afterLast '$' n.toList)
  simp only [List.flatMap_append, List.length_append] at hparts
  rw [← Text.length_encode, ← Text.length_encode, Text.encode, Text.encode, simple,
    String.toList_ofList]
  omega

end ClassName

end Linkage
