import Mathlib.Data.Finset.Card
import Mathlib.Data.List.Induction

/-!
# Lists without their repetitions

`List.eraseDups` keeps the first occurrence of every element.  Two lists that agree without their
repetitions have the same elements, first mentioned in the same order.

* `eraseDups_append_congr`, `eraseDups_flatMap_congr`: putting such lists together.
* `filterMap_eraseDups`, `find?_eraseDups`: picking and searching.
* `length_eraseDups`: counting.
-/

namespace Linkage

variable {α β : Type} [BEq α] [LawfulBEq α] [BEq β] [LawfulBEq β]

/-! ## One list after another -/

theorem eraseDups_append_of_subset {xs ys : List α} (h : ys ⊆ xs) :
    (xs ++ ys).eraseDups = xs.eraseDups := by
  have hnone : ys.removeAll xs = [] := by
    refine List.filter_eq_nil_iff.mpr fun a ha => ?_
    simp [h ha]
  rw [List.eraseDups_append, hnone, List.eraseDups_nil, List.append_nil]

theorem eraseDups_append_of_mem {xs : List α} {a : α} (h : a ∈ xs) :
    (xs ++ [a]).eraseDups = xs.eraseDups :=
  eraseDups_append_of_subset (by simpa using h)

theorem eraseDups_append_of_notMem {xs : List α} {a : α} (h : a ∉ xs) :
    (xs ++ [a]).eraseDups = xs.eraseDups ++ [a] := by
  have hone : [a].removeAll xs = [a] := by simp [List.removeAll, h]
  rw [List.eraseDups_append, hone]
  rfl

/-- The position of an element among the distinct ones stays when more are appended. -/
theorem idxOf_eraseDups_append {xs : List α} {a : α} (h : a ∈ xs) (more : List α) :
    (xs ++ more).eraseDups.idxOf a = xs.eraseDups.idxOf a := by
  rw [List.eraseDups_append, List.idxOf_append, if_pos (List.mem_eraseDups.mpr h)]

theorem idxOf_eraseDups_append_self {xs : List α} {a : α} (h : a ∉ xs) :
    (xs ++ [a]).eraseDups.idxOf a = xs.eraseDups.length := by
  rw [eraseDups_append_of_notMem h, List.idxOf_append, if_neg (by rwa [List.mem_eraseDups])]
  simp

theorem length_eraseDups_le_append (xs ys : List α) :
    xs.eraseDups.length ≤ (xs ++ ys).eraseDups.length := by
  rw [List.eraseDups_append, List.length_append]
  omega

theorem nodup_eraseDups (xs : List α) : xs.eraseDups.Nodup := by
  induction xs using List.reverseRecOn with
  | nil => simp
  | append_singleton xs a ih =>
    by_cases ha : a ∈ xs
    · rwa [eraseDups_append_of_mem ha]
    · rw [eraseDups_append_of_notMem ha, List.nodup_append]
      refine ⟨ih, by simp, ?_⟩
      rintro x hx y hy rfl
      rw [List.mem_singleton] at hy
      exact ha (hy ▸ List.mem_eraseDups.mp hx)

theorem length_eraseDups {α : Type} [DecidableEq α] (xs : List α) :
    xs.eraseDups.length = xs.toFinset.card := by
  rw [← List.toFinset_card_of_nodup (nodup_eraseDups xs)]
  congr 1
  ext a
  simp

/-! ## Picking and searching -/

/-- Dropping repetitions and picking can be done in either order, if what is picked tells the
elements apart. -/
theorem filterMap_eraseDups {f : α → Option β} {xs : List α}
    (hinj : ∀ a ∈ xs, ∀ a' ∈ xs, ∀ b, f a = some b → f a' = some b → a = a') :
    xs.eraseDups.filterMap f = (xs.filterMap f).eraseDups := by
  -- from the end, since a repetition is dropped at its later place
  induction xs using List.reverseRecOn with
  | nil => rfl
  | append_singleton xs a ih =>
    have ih' := ih fun x hx y hy => hinj x (by simp [hx]) y (by simp [hy])
    by_cases ha : a ∈ xs
    · rw [eraseDups_append_of_mem ha, ih', List.filterMap_append]
      cases hb : f a with
      | none => simp [hb]
      | some b =>
        have hmem : b ∈ xs.filterMap f := List.mem_filterMap.mpr ⟨a, ha, hb⟩
        rw [List.filterMap_cons_some hb, List.filterMap_nil, eraseDups_append_of_mem hmem]
    · rw [eraseDups_append_of_notMem ha, List.filterMap_append, ih', List.filterMap_append]
      cases hb : f a with
      | none => simp [hb]
      | some b =>
        have hnew : b ∉ xs.filterMap f := by
          intro hmem
          obtain ⟨a', ha', hb'⟩ := List.mem_filterMap.mp hmem
          have heq := hinj a' (by simp [ha']) a (by simp) b hb' hb
          exact ha (heq ▸ ha')
        rw [List.filterMap_cons_some hb, List.filterMap_nil, eraseDups_append_of_notMem hnew]

theorem eraseDups_filter (p : α → Bool) (xs : List α) :
    (xs.filter p).eraseDups = xs.eraseDups.filter p := by
  rw [← List.filterMap_eq_filter]
  symm
  refine filterMap_eraseDups fun a _ a' _ b ha ha' => ?_
  rw [Option.guard_eq_some_iff] at ha ha'
  rw [ha.1, ha'.1]

/-- What a search finds first is no repetition. -/
theorem find?_eraseDups (p : α → Bool) (xs : List α) : xs.eraseDups.find? p = xs.find? p := by
  rw [← List.head?_filter, ← List.head?_filter, ← eraseDups_filter]
  cases xs.filter p with
  | nil => rfl
  | cons a rest => rw [List.eraseDups_cons, List.head?_cons, List.head?_cons]

/-! ## Lists that agree without their repetitions -/

theorem mem_iff_of_eraseDups_eq {xs ys : List α} (h : xs.eraseDups = ys.eraseDups) (a : α) :
    a ∈ xs ↔ a ∈ ys := by
  rw [← List.mem_eraseDups, h, List.mem_eraseDups]

theorem eraseDups_append_congr {xs xs' ys ys' : List α} (hx : xs.eraseDups = xs'.eraseDups)
    (hy : ys.eraseDups = ys'.eraseDups) : (xs ++ ys).eraseDups = (xs' ++ ys').eraseDups := by
  have hnew : (ys.removeAll xs).eraseDups = (ys'.removeAll xs').eraseDups := by
    unfold List.removeAll
    rw [eraseDups_filter, eraseDups_filter, hy]
    simp [mem_iff_of_eraseDups_eq hx]
  rw [List.eraseDups_append, List.eraseDups_append, hx, hnew]

theorem eraseDups_flatMap (f : α → List β) (xs : List α) :
    (xs.eraseDups.flatMap f).eraseDups = (xs.flatMap f).eraseDups := by
  induction xs using List.reverseRecOn with
  | nil => rfl
  | append_singleton xs a ih =>
    rw [List.flatMap_append, List.flatMap_singleton]
    by_cases ha : a ∈ xs
    · have hthere : f a ⊆ xs.flatMap f := fun b hb => List.mem_flatMap.mpr ⟨a, ha, hb⟩
      rw [eraseDups_append_of_mem ha, ih, eraseDups_append_of_subset hthere]
    · rw [eraseDups_append_of_notMem ha, List.flatMap_append, List.flatMap_singleton]
      exact eraseDups_append_congr ih rfl

theorem eraseDups_flatMap_congr {xs ys : List α} (h : xs.eraseDups = ys.eraseDups)
    (f : α → List β) : (xs.flatMap f).eraseDups = (ys.flatMap f).eraseDups := by
  rw [← eraseDups_flatMap, h, eraseDups_flatMap]

end Linkage
