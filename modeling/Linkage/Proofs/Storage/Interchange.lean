import Linkage.Audit.Scan
import Linkage.Proofs.Artifacts
import Linkage.Proofs.Storage.Deletion
import Linkage.Proofs.Storage.Reach

/-!
# Directories and archives are interchangeable

The same files can be kept in a directory or in an archive.  The entries that are listed and the
classes that are read from them are the same, and so are the failures, but for the path of the
artifact.  The order in which an archive keeps its entries does not show.

* `Contents`: files to be kept.
* `InDirectory`, `InArchive`: where they are kept.
* `InDirectory.view`, `InArchive.view`: either way, an entry is read as its bytes say.
* `scan_of_interchange`: the references are the same.
-/

namespace Linkage

/-! ## Failures elsewhere -/

/-- A path that is moved if it is this one. -/
def Path.moved (p q path : Path) : Path :=
  if path = p then q else path

/-- The failure of an artifact with another path. -/
def ArtifactFailure.mapPath (g : Path → Path) : ArtifactFailure → ArtifactFailure
  | .missing path fault => .missing (g path) fault
  | .unreadable path fault => .unreadable (g path) fault
  | .badArchive path fault => .badArchive (g path) fault
  | .badClass path entry fault => .badClass (g path) entry fault
  | .tooLarge path entry size limit => .tooLarge (g path) entry size limit

/-- The failure with other paths of artifacts. -/
def Failure.mapPath (g : Path → Path) : Failure → Failure
  | .cannotRead path cause => .cannotRead (g path) (cause.mapPath g)
  | .artifact cause => .artifact (cause.mapPath g)
  | .notOnClassPath path => .notOnClassPath (g path)
  | failure => failure

namespace Artifact

/-- The class that bytes of an entry hold, unless they are too many. -/
def held (a : Artifact) (dialect : ClassFile.Dialect) (limit : Nat) (e : String) (bytes : Bytes) :
    Except ArtifactFailure ClassView :=
  a.checkSize e bytes.length limit >>= fun _ => a.decoded dialect e bytes

/-- Where the artifact is shows in failures only. -/
theorem held_moved (a a' : Artifact) (dialect : ClassFile.Dialect) (limit : Nat) (e : String)
    (bytes : Bytes) :
    a'.held dialect limit e bytes
      = (a.held dialect limit e bytes).mapError (.mapPath (.moved a.path a'.path)) := by
  unfold held checkSize decoded
  by_cases hlarge : limit < bytes.length
  · rw [if_pos hlarge, if_pos hlarge]
    simp [bind, Except.bind, Except.mapError, ArtifactFailure.mapPath, Path.moved]
  · rw [if_neg hlarge, if_neg hlarge]
    cases dialect.read bytes <;>
      simp [bind, Except.bind, Except.mapError, ArtifactFailure.mapPath, Path.moved]

end Artifact

/-! ## Files to be kept -/

/-- Files by the names that lead to them. -/
structure Contents where
  /-- The files. -/
  files : List (List String × Bytes)
  /-- No two have the same names. -/
  unique : (files.map Prod.fst).Nodup
  /-- Each has a name. -/
  ne_root : ∀ f ∈ files, f.1 ≠ []
  /-- All are reached by names. -/
  names : ∀ f ∈ files, ∀ s ∈ f.1, Path.IsName s

namespace Contents

open Artifact

variable {c : Contents} {t t' : FileTree} {p q : Path} {own : List String}
  {stored : List ArchiveEntry} {dialect : ClassFile.Dialect}

/-- The names of the files as entries. -/
def entryNames (c : Contents) : List String :=
  c.files.map fun f => entryOf f.1

theorem entryOf_inj {f f' : List String × Bytes} (hf : f ∈ c.files) (hf' : f' ∈ c.files)
    (h : entryOf f.1 = entryOf f'.1) : f.1 = f'.1 := by
  have hsegments := Path.segments_entryOf (c.ne_root f hf) fun s hs => (c.names f hf s hs).plain
  have hsegments' :=
    Path.segments_entryOf (c.ne_root f' hf') fun s hs => (c.names f' hf' s hs).plain
  rw [← hsegments, ← hsegments', h]

theorem nodup_entryNames (c : Contents) : c.entryNames.Nodup := by
  refine List.Nodup.map_on (fun f hf f' hf' h => ?_) (.of_map _ c.unique)
  exact List.inj_on_of_nodup_map c.unique hf hf' (entryOf_inj hf hf' h)

/-- The directory at a path holds the files and no others, and none has a path or a name that is
longer than the system allows. -/
structure InDirectory (c : Contents) (t : FileTree) (p : Path) (own : List String) : Prop where
  /-- The tree was made by changes. -/
  made : t.Made
  /-- The path leads to a directory. -/
  leads : t.lookUp p = .ok (.directory own)
  /-- The files below it are these. -/
  mem_iff : ∀ names content, (own ++ names, content) ∈ t.files ↔
    ∃ bytes, content = .plain bytes ∧ (names, bytes) ∈ c.files
  /-- Names are not too long. -/
  short : ∀ f ∈ c.files, ∀ s ∈ f.1, s.utf8ByteSize ≤ FileTree.maxNameLength
  /-- The paths of the files are not refused. -/
  admitted : ∀ f ∈ c.files, (p.join (entryOf f.1)).refusal? = none
  /-- The paths of the directories below are not too long. -/
  listable : ∀ d ∈ t.directoriesBelow own,
    (p.join (entryOf d)).text.utf8ByteSize ≤ FileTree.maxPathLength

/-- The archive at a path has these entries: the files, in any order, and none is corrupt. -/
structure InArchive (c : Contents) (t : FileTree) (q : Path) (stored : List ArchiveEntry) :
    Prop where
  /-- The path leads to an archive. -/
  leads : ∃ own, t.lookUp q = .ok (.file own (.archive stored))
  /-- Its entries are the files. -/
  perm : stored.Perm (c.files.map fun f => ⟨entryOf f.1, f.2, false⟩)

/-! ## Listing -/

theorem InDirectory.filesBelow_perm (h : c.InDirectory t p own) :
    (t.filesBelow own).Perm (c.files.map fun f => (f.1, .plain f.2)) := by
  have hbelow : (t.filesBelow own).Nodup := by
    refine List.Nodup.filterMap (fun f f' g hg hg' => ?_) (.of_map _ h.made.grounded.unique)
    simp only [Option.mem_def, Option.ite_none_right_eq_some, List.isPrefixOf_iff_prefix,
      Option.some.injEq] at hg hg'
    obtain ⟨⟨rest, hrest⟩, rfl⟩ := hg
    obtain ⟨⟨rest', hrest'⟩, heq⟩ := hg'
    rw [← hrest, ← hrest', List.drop_left, List.drop_left, Prod.mk.injEq] at heq
    exact Prod.ext (by rw [← hrest, ← hrest', heq.1]) heq.2.symm
  have hkept : (c.files.map fun f => (f.1, FileContent.plain f.2)).Nodup := by
    refine List.Nodup.map (fun f f' heq => ?_) (.of_map _ c.unique)
    simpa [Prod.ext_iff] using heq
  rw [List.perm_ext_iff_of_nodup hbelow hkept]
  rintro ⟨names, content⟩
  rw [FileTree.mem_filesBelow, h.mem_iff, List.mem_map]
  constructor
  · rintro ⟨bytes, rfl, hf⟩
    exact ⟨(names, bytes), hf, rfl⟩
  · rintro ⟨⟨names', bytes⟩, hf, heq⟩
    cases heq
    exact ⟨bytes, rfl, hf⟩

/-- All entries of the directory. -/
theorem InDirectory.exists_allEntries (h : c.InDirectory t p own) :
    ∃ all, allEntries t ⟨p, none⟩ = .ok all ∧ all.Perm c.entryNames := by
  have hnone : (directoryPaths t ⟨p, none⟩ own).find?
      (fun path => FileTree.maxPathLength < path.text.utf8ByteSize) = none := by
    rw [List.find?_eq_none]
    intro path hpath
    obtain ⟨e, he, rfl⟩ := List.mem_map.mp hpath
    obtain ⟨d, hd, rfl⟩ := List.mem_map.mp (List.mem_mergeSort.mp he)
    simpa using h.listable d hd
  refine ⟨(t.filesBelow own).map fun f => entryOf f.1, ?_, ?_⟩
  · rw [allEntries_of_node h.leads, entriesBelow, hnone]
  · have hperm := h.filesBelow_perm.map fun f => entryOf f.1
    rwa [List.map_map] at hperm

/-- All entries of the archive. -/
theorem InArchive.names_perm (h : c.InArchive t q stored) :
    (stored.map ArchiveEntry.name).Perm c.entryNames := by
  have hnames := h.perm.map ArchiveEntry.name
  rwa [List.map_map] at hnames

/-! ## Reading -/

theorem InDirectory.view (h : c.InDirectory t p own) {f : List String × Bytes} (hf : f ∈ c.files)
    (limit : Nat) : Artifact.view t dialect limit ⟨p, none⟩ (entryOf f.1)
      = held ⟨p, none⟩ dialect limit (entryOf f.1) f.2 := by
  have hfile : (own ++ f.1, .plain f.2) ∈ t.files := (h.mem_iff _ _).mpr ⟨f.2, rfl, hf⟩
  have hlookUp := h.made.lookUp_entry h.leads hfile (c.ne_root f hf) (h.short f hf)
    (h.admitted f hf)
  rw [view_of_directory rfl, readFile]
  dsimp only
  rw [hlookUp]
  show (checkSize _ _ _ _ >>= fun _ => .ok f.2) >>= _ = _
  rw [bind_assoc]
  rfl

theorem InArchive.view (h : c.InArchive t q stored) {f : List String × Bytes}
    (hf : f ∈ c.files) (limit : Nat) :
    Artifact.view t dialect limit ⟨q, some stored⟩ (entryOf f.1)
      = held ⟨q, some stored⟩ dialect limit (entryOf f.1) f.2 := by
  have hnodup : (stored.map ArchiveEntry.name).Nodup :=
    h.names_perm.nodup_iff.mpr c.nodup_entryNames
  have hmem : ⟨entryOf f.1, f.2, false⟩ ∈ stored :=
    h.perm.mem_iff.mpr (List.mem_map.mpr ⟨f, hf, rfl⟩)
  have hfind := find?_of_nodup_key hnodup hmem
  rw [view_of_archive rfl, readArchived, hfind]
  show (checkSize _ _ _ _ >>= fun _ => .ok f.2) >>= _ = _
  rw [bind_assoc]
  rfl

/-! ## Both -/

/-- The entries of the files that are listed. -/
def listed (c : Contents) (dialect : ClassFile.Dialect) : List String :=
  (c.entryNames.filter dialect.lists).mergeSort textLe

theorem mem_listed_iff {e : String} :
    e ∈ c.listed dialect ↔ dialect.lists e = true ∧ ∃ f ∈ c.files, entryOf f.1 = e := by
  rw [listed, List.mem_mergeSort, List.mem_filter, entryNames, List.mem_map, and_comm]

theorem InDirectory.entries_eq (h : c.InDirectory t p own) (dialect : ClassFile.Dialect) :
    Artifact.entries t dialect ⟨p, none⟩ = .ok (c.listed dialect) := by
  obtain ⟨all, hall, hperm⟩ := h.exists_allEntries
  exact entries_eq_ok_iff.mpr ⟨all, hall, mergeSort_eq_of_perm totalOrder_textLe (hperm.filter _)⟩

theorem InArchive.entries_eq (h : c.InArchive t q stored) (dialect : ClassFile.Dialect) :
    Artifact.entries t dialect ⟨q, some stored⟩ = .ok (c.listed dialect) :=
  entries_eq_ok_iff.mpr
    ⟨_, rfl, mergeSort_eq_of_perm totalOrder_textLe (h.names_perm.filter _)⟩

section

variable (h : c.InDirectory t p own) (h' : c.InArchive t' q stored)

include h h'

theorem view_of_interchange {e : String} (he : e ∈ c.listed dialect) (limit : Nat) :
    Artifact.view t' dialect limit ⟨q, some stored⟩ e
      = (Artifact.view t dialect limit ⟨p, none⟩ e).mapError (.mapPath (.moved p q)) := by
  obtain ⟨-, f, hf, rfl⟩ := mem_listed_iff.mp he
  rw [h.view hf, h'.view hf]
  exact held_moved _ _ dialect limit _ _

/-- All classes are the same, or the first failure is. -/
theorem views_of_interchange (limit : Nat) :
    views t' dialect limit ⟨q, some stored⟩
      = (views t dialect limit ⟨p, none⟩).mapError (.mapPath (.moved p q)) := by
  unfold views
  rw [h.entries_eq, h'.entries_eq]
  show (c.listed dialect).mapM _ = Except.mapError _ ((c.listed dialect).mapM _)
  rw [mapM_mapError]
  exact mapM_congr fun e he => view_of_interchange h h' he limit

end

theorem scan_of_views {g : Path → Path} {limit : Nat}
    (h : (Artifact.open t' q >>= views t' dialect limit)
      = (Artifact.open t p >>= views t dialect limit).mapError (.mapPath g)) (log : Array Event) :
    (Logged.scan t' dialect limit q).run.run log
      = (((Logged.scan t dialect limit p).run.run log).1.mapError (.mapPath g),
        ((Logged.scan t dialect limit p).run.run log).2) := by
  unfold Logged.scan
  rw [h]
  cases Artifact.open t p >>= views t dialect limit with
  | error cause => rfl
  | ok classes =>
    show (Logged.allReferences classes).run.run log
      = (((Logged.allReferences classes).run.run log).1.mapError _,
        ((Logged.allReferences classes).run.run log).2)
    unfold Logged.allReferences
    cases Linkage.allReferences classes with
    | error malformed => rfl
    | ok references => rfl

/-- The same files in a directory and in an archive: both artifacts can be opened, list the same
entries in the same order, namely those of the files that the dialect knows, and under every limit
read the same class from each, or fail alike but for the path.  The references of their classes are
the same, or the failure is, and so is what is reported. -/
theorem directory_archive_interchange (c : Contents) (t t' : FileTree) (p q : Path)
    (own : List String) (stored : List ArchiveEntry) (hdirectory : c.InDirectory t p own)
    (harchive : c.InArchive t' q stored) :
    ∃ directory archive, Artifact.open t p = .ok directory ∧ Artifact.open t' q = .ok archive
      ∧ directory.form = .directory ∧ archive.form = .archive
      ∧ ∀ dialect,
        (∃ es, directory.entries t dialect = .ok es ∧ archive.entries t' dialect = .ok es
          ∧ (∀ e, e ∈ es ↔ dialect.lists e = true ∧ ∃ f ∈ c.files, entryOf f.1 = e)
          ∧ ∀ e ∈ es, ∀ limit, archive.view t' dialect limit e
            = (directory.view t dialect limit e).mapError (.mapPath (.moved p q)))
        ∧ ∀ limit log, (Logged.scan t' dialect limit q).run.run log
          = (((Logged.scan t dialect limit p).run.run log).1.mapError (.mapPath (.moved p q)),
            ((Logged.scan t dialect limit p).run.run log).2) := by
  obtain ⟨own', hleads⟩ := harchive.leads
  have hopen : Artifact.open t p = .ok ⟨p, none⟩ := by rw [Artifact.open, hdirectory.leads]
  have hopen' : Artifact.open t' q = .ok ⟨q, some stored⟩ := by rw [Artifact.open, hleads]
  refine ⟨_, _, hopen, hopen', rfl, rfl, fun dialect => ⟨?_, fun limit log => ?_⟩⟩
  · exact ⟨_, hdirectory.entries_eq dialect, harchive.entries_eq dialect, fun e => mem_listed_iff,
      fun e he limit => view_of_interchange hdirectory harchive he limit⟩
  · refine scan_of_views ?_ log
    rw [hopen, hopen']
    exact views_of_interchange hdirectory harchive limit

/-! A class, and a file among the metadata. -/

/-- The files. -/
def paired : Contents where
  files := [(["p", "A.class"], [1]), (["META-INF", "M.class"], [2])]
  unique := by decide
  ne_root := by decide
  names := by decide

/-- The files in a directory. -/
def pairedTree : FileTree :=
  ⟨[["b"], ["b", "p"], ["b", "META-INF"]],
    [(["b", "p", "A.class"], .plain [1]), (["b", "META-INF", "M.class"], .plain [2])]⟩

/-- The entries of an archive, in another order. -/
def pairedEntries : List ArchiveEntry :=
  [⟨"META-INF/M.class", [2], false⟩, ⟨"p/A.class", [1], false⟩]

theorem paired_inDirectory : paired.InDirectory pairedTree ⟨"b"⟩ ["b"] where
  made := (FileTree.Made.empty.write ⟨"b/p/A.class"⟩ (.plain [1])).write ⟨"b/META-INF/M.class"⟩
    (.plain [2])
  leads := by decide
  mem_iff := by
    intro names content
    simp only [pairedTree, paired, List.cons_append, List.nil_append, List.mem_cons,
      List.not_mem_nil, or_false, Prod.mk.injEq, List.cons.injEq, true_and]
    constructor
    · rintro (⟨rfl, rfl⟩ | ⟨rfl, rfl⟩)
      · exact ⟨[1], rfl, .inl ⟨rfl, rfl⟩⟩
      · exact ⟨[2], rfl, .inr ⟨rfl, rfl⟩⟩
    · rintro ⟨bytes, rfl, ⟨rfl, rfl⟩ | ⟨rfl, rfl⟩⟩
      · exact .inl ⟨rfl, rfl⟩
      · exact .inr ⟨rfl, rfl⟩
  short := by decide
  admitted := by decide
  listable := by decide

theorem paired_inArchive :
    paired.InArchive ⟨[], [(["c.jar"], .archive pairedEntries)]⟩ ⟨"c.jar"⟩ pairedEntries where
  leads := ⟨["c.jar"], by decide⟩
  perm := List.Perm.swap _ _ _

/-- Directory and archive cannot be told apart by their references. -/
theorem directory_archive_interchange_paired :
    let t' : FileTree := ⟨[], [(["c.jar"], .archive pairedEntries)]⟩
    paired.InDirectory pairedTree ⟨"b"⟩ ["b"] ∧ paired.InArchive t' ⟨"c.jar"⟩ pairedEntries
      ∧ ∀ limit log, (Logged.scan t' .standard limit ⟨"c.jar"⟩).run.run log
        = (((Logged.scan pairedTree .standard limit ⟨"b"⟩).run.run log).1.mapError
            (.mapPath (.moved ⟨"b"⟩ ⟨"c.jar"⟩)),
          ((Logged.scan pairedTree .standard limit ⟨"b"⟩).run.run log).2) := by
  intro t'
  obtain ⟨_, _, -, -, -, -, hall⟩ := directory_archive_interchange paired pairedTree t' ⟨"b"⟩
    ⟨"c.jar"⟩ ["b"] pairedEntries paired_inDirectory paired_inArchive
  exact ⟨paired_inDirectory, paired_inArchive, (hall .standard).2⟩

end Contents

end Linkage
