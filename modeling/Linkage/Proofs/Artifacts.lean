import Linkage.Proofs.Ascending
import Linkage.Storage.Artifact

/-!
# What an artifact holds

The entries of an artifact that are listed are those it holds and the dialect knows, in ascending
order.  They can be listed exactly if everything the artifact holds can.  A class is read from
bytes by the dialect alone, whatever the artifact.
-/

namespace Linkage.Artifact

/-- The artifact holds the entry, and the dialect lists it. -/
def Holds (t : FileTree) (dialect : ClassFile.Dialect) (a : Artifact) (e : String) : Prop :=
  ∃ all, a.allEntries t = .ok all ∧ e ∈ all ∧ dialect.lists e = true

variable {t : FileTree} {dialect : ClassFile.Dialect} {a : Artifact}

theorem path_of_open {p : Path} (h : Artifact.open t p = .ok a) : a.path = p := by
  unfold Artifact.open at h
  split at h <;> cases h <;> rfl

/-! ## Listing -/

theorem entries_eq_ok_iff {es : List String} : a.entries t dialect = .ok es ↔
    ∃ all, a.allEntries t = .ok all ∧ (all.filter dialect.lists).mergeSort textLe = es := by
  unfold entries
  cases a.allEntries t <;> simp [bind, Except.bind, pure, Except.pure]

theorem entries_eq_error_iff {cause : ArtifactFailure} :
    a.entries t dialect = .error cause ↔ a.allEntries t = .error cause := by
  unfold entries
  cases a.allEntries t <;> simp [bind, Except.bind, pure, Except.pure]

theorem exists_entries_iff :
    (∃ es, a.entries t dialect = .ok es) ↔ ∃ all, a.allEntries t = .ok all := by
  simp [entries_eq_ok_iff]

theorem mem_entries_iff {es : List String} (h : a.entries t dialect = .ok es) {e : String} :
    e ∈ es ↔ a.Holds t dialect e := by
  obtain ⟨all, hall, rfl⟩ := entries_eq_ok_iff.mp h
  simp [Holds, hall]

theorem pairwise_entries {es : List String} (h : a.entries t dialect = .ok es) :
    es.Pairwise fun e e' => textLe e e' = true := by
  obtain ⟨all, -, rfl⟩ := entries_eq_ok_iff.mp h
  exact List.pairwise_mergeSort totalOrder_textLe.trans totalOrder_textLe.total _

/-! ## Reading -/

theorem exists_read_of_view {limit : Nat} {e : String} {c : ClassView}
    (h : a.view t dialect limit e = .ok c) : ∃ bytes, dialect.read bytes = .ok c := by
  unfold view at h
  -- archives and directories differ in where the bytes come from only
  rcases harchive : a.archive with _ | entries
  all_goals
    rw [harchive] at h
    obtain ⟨bytes, -, h⟩ := except_bind_eq_ok_iff.mp h
    refine ⟨bytes, ?_⟩
    dsimp only at h
    split at h
    · next hread =>
      cases h
      exact hread
    · cases h

/-- An archive holds a class that can be read under the entry. -/
theorem view_of_find? {p : Path} {entries : List ArchiveEntry} {entry : String} {e : ArchiveEntry}
    {limit : Nat} {c : ClassView} (hfind : entries.find? (fun e => e.name == entry) = some e)
    (hsize : e.bytes.length ≤ limit) (hsound : e.isCorrupt = false)
    (hread : dialect.read e.bytes = .ok c) :
    view t dialect limit ⟨p, some entries⟩ entry = .ok c := by
  have hbytes : readArchived ⟨p, some entries⟩ entries entry limit = .ok e.bytes := by
    simp [readArchived, hfind, checkSize, Nat.not_lt.mpr hsize, hsound, bind, Except.bind, pure,
      Except.pure]
  simp [view, hbytes, hread, bind, Except.bind, pure, Except.pure]

end Linkage.Artifact
