import Mathlib.Data.Finset.Card
import Linkage.Proofs.Audit.Inspection
import Linkage.Proofs.ClassPath.FirstMatch

/-!
# Indexes that answer alike

Two indexes, perhaps over different files, that find every name in the same artifact ask the same
questions about a reference.  If every class loads alike as well, every reference has the same
outcome, and an artifact with the same classes has the same report.

* `outcome_congr`: the same names give the same questions.
* `SameAnswers`: the same names and the same classes.
* `SameAnswers.serve`, `SameAnswers.inspected`: the same outcomes and reports.
-/

namespace Linkage

namespace ClassIndex

variable {i i' : ClassIndex}

/-! ## The same names -/

theorem contains_congr (h : ∀ name, i'.definer? name = i.definer? name) (name : ClassName) :
    i'.contains name = i.contains name := by
  rw [contains_eq_isSome_definer?, contains_eq_isSome_definer?, h]

theorem size_congr (h : ∀ name, i'.contains name = i.contains name) : i'.size = i.size := by
  have hcard : ∀ i : ClassIndex, i.size = i.places.keys.toFinset.card := by
    intro i
    rw [List.toFinset_card_of_nodup Std.HashMap.nodup_keys, Std.HashMap.length_keys]
    rfl
  have hkeys : i'.places.keys.toFinset = i.places.keys.toFinset := by
    ext name
    rw [List.mem_toFinset, List.mem_toFinset, Std.HashMap.mem_keys, Std.HashMap.mem_keys,
      Std.HashMap.mem_iff_contains, Std.HashMap.mem_iff_contains]
    exact iff_of_eq (congrArg (· = true) (h name))
  rw [hcard, hcard, hkeys]

theorem assumes_congr (hassumed : i'.platform.assumed = i.platform.assumed)
    (h : ∀ name, i'.contains name = i.contains name) : i'.assumes = i.assumes := by
  funext name
  unfold assumes Platform.assumes
  rw [h name, hassumed]

/-- Indexes that find every name in the same artifact ask the same questions. -/
theorem outcome_congr (hassumed : i'.platform.assumed = i.platform.assumed)
    (h : ∀ name, i'.definer? name = i.definer? name) (r : Reference) :
    i'.outcome r = i.outcome r := by
  have hcontains := contains_congr h
  have hsize := size_congr hcontains
  have hassumes := assumes_congr hassumed hcontains
  have hmayUse : i'.mayUse = i.mayUse := by
    funext source f
    rw [mayUse, mayUse, hsize]
  have hmember : i'.memberOutcome = i.memberOutcome := by
    funext source target q
    simp only [memberOutcome, definedOutcome, h, hassumes, hsize, hmayUse]
  cases r with
  | toClass r => simp only [outcome, classOutcome, hcontains, hassumes]
  | toMethod r => simp only [outcome, hmember]
  | toField r => simp only [outcome, hmember]

/-! ## The same classes -/

/-- Over their own files, the indexes find every name in the same artifact and load the same
class. -/
structure SameAnswers (t : FileTree) (i : ClassIndex) (t' : FileTree) (i' : ClassIndex) :
    Prop where
  /-- They assume the same classes. -/
  platform : i'.platform = i.platform
  /-- Every name is found in the same artifact. -/
  definer : ∀ name, i'.definer? name = i.definer? name
  /-- It loads alike, or fails alike. -/
  load : ∀ name, i'.load t' name = i.load t name

variable {t t' : FileTree}

theorem SameAnswers.answer (h : SameAnswers t i t' i') : i'.answer t' = i.answer t := by
  funext name
  rw [ClassIndex.answer, h.load, ClassIndex.answer]

theorem SameAnswers.outcome (h : SameAnswers t i t' i') (r : Reference) :
    i'.outcome r = i.outcome r :=
  outcome_congr (congrArg Platform.assumed h.platform) h.definer r

theorem SameAnswers.resolution (h : SameAnswers t i t' i') (r : Reference) :
    Audit.resolution t' i' r = Audit.resolution t i r := by
  rw [Audit.resolution_eq_run, Audit.resolution_eq_run, h.outcome, h.answer]

theorem SameAnswers.direct (h : SameAnswers t i t' i') (r : Request) :
    r.direct t' i' = r.direct t i := by
  have houtcome := h.outcome
  have hsize := size_congr (contains_congr h.definer)
  cases r with
  | resolve r => simp only [Request.direct, houtcome, h.answer]
  | resolveClass r => simp only [Request.direct, houtcome, h.answer]
  | resolveMethod r => simp only [Request.direct, houtcome, h.answer]
  | resolveField r => simp only [Request.direct, houtcome, h.answer]
  | descendsFrom name ancestor => simp only [Request.direct, hsize, h.answer]

/-- Linkers that are asked the same, one after the other, answer alike. -/
theorem SameAnswers.serve (h : SameAnswers t i t' i') (rs : List Request) :
    (Linker.serve t' i' rs {}).1 = (Linker.serve t i rs {}).1 := by
  rw [((Linker.faithful_fresh t' i').serve rs).1, ((Linker.faithful_fresh t i).serve rs).1]
  exact List.map_congr_left fun r _ => h.direct r

/-- An artifact with the same classes has the same report, and counts the same. -/
theorem SameAnswers.inspected (h : SameAnswers t i t' i') {l : Listing}
    (hviews : i'.viewsOf t' l = i.viewsOf t l) :
    Audit.inspected t' i' l = Audit.inspected t i l := by
  have hdecided : ∀ {ρ : Type} (wrap : ρ → Reference),
      Audit.decided t' i' wrap = Audit.decided t i wrap := by
    intro ρ wrap
    funext r
    rw [Audit.decided, h.resolution, Audit.decided]
  unfold Audit.inspected Audit.reported
  simp only [hviews, hdecided]

end ClassIndex

end Linkage
