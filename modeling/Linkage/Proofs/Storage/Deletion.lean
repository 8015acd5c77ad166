import Linkage.Proofs.ClassPath.FirstMatch
import Linkage.Proofs.Storage.Trees

/-!
# Deleting entries of an artifact

Entries are deleted from an archive by leaving them out, and from a directory by removing their
files.  No other artifact is changed by that, unless it has one of these files too; and of the
artifact itself the other entries are read as before.

* `FileTree.without`: the tree after the deletion.
* `ofPath_without_of_apart`: artifacts that share no file with the one that was changed.
* `exists_ofPath_without`: the one that was changed.
-/

namespace Linkage

/-! ## The tree after the deletion -/

/-- The content without some entries, if it is an archive. -/
def FileContent.without (hidden : String → Bool) : FileContent → FileContent
  | .plain bytes => .plain bytes
  | .archive entries => .archive (entries.filter fun e => !hidden e.name)

namespace Node

/-- What becomes of a file when entries are deleted from the artifact at a node. -/
def deletion (hidden : String → Bool) (node : Node) (names : List String) (content : FileContent) :
    Option FileContent :=
  match node with
  | .file own _ => some (if names = own then content.without hidden else content)
  | .directory own =>
    if own <+: names ∧ hidden (Artifact.entryOf (names.drop own.length)) = true then none
    else some content
  | .outside => some content

/-- The artifact at a node has the file with these names. -/
def Owns : Node → List String → Prop
  | .file own _, names => names = own
  | .directory own, names => own <+: names
  | .outside, _ => False

theorem deletion_of_not_owns {hidden : String → Bool} {node : Node} {names : List String}
    (h : ¬ node.Owns names) (content : FileContent) :
    node.deletion hidden names content = some content := by
  cases node with
  | file own _ => exact congrArg some (if_neg h)
  | directory own => exact if_neg fun hd => h hd.1
  | outside => rfl

end Node

namespace FileTree

/-- The tree after entries have been deleted from the artifact at a path. -/
def without (t : FileTree) (b : Path) (hidden : String → Bool) : FileTree :=
  match t.lookUp b with
  | .ok node => t.edit (node.deletion hidden)
  | .error _ => t

/-- The artifacts at two paths share no file. -/
def Apart (t : FileTree) (p q : Path) : Prop :=
  ∀ node node', t.lookUp p = .ok node → t.lookUp q = .ok node' →
    ∀ f ∈ t.files, ¬ (node.Owns f.1 ∧ node'.Owns f.1)

variable {t : FileTree} {b p : Path} {hidden : String → Bool}

theorem without_of_ok {node : Node} (h : t.lookUp b = .ok node) :
    t.without b hidden = t.edit (node.deletion hidden) := by
  rw [without, h]

theorem without_of_error {fault : PathFault} (h : t.lookUp b = .error fault) :
    t.without b hidden = t := by
  rw [without, h]

theorem Apart.kept {node node' : Node} (h : t.Apart b p) (hb : t.lookUp b = .ok node)
    (hp : t.lookUp p = .ok node') {f : List String × FileContent} (hf : f ∈ t.files)
    (howns : node'.Owns f.1) (content : FileContent) :
    node.deletion hidden f.1 content = some content :=
  Node.deletion_of_not_owns (fun hnode => h _ _ hb hp f hf ⟨hnode, howns⟩) content

/-- What a path leads to does not change if the artifact there shares no file. -/
theorem Apart.lookUp {node node' : Node} (h : t.Apart b p) (hb : t.lookUp b = .ok node)
    (hp : t.lookUp p = .ok node') : (t.edit (node.deletion hidden)).lookUp p = .ok node' := by
  have hsame : (t.edit (node.deletion hidden)).lookUp p = .ok (node'.mapContent id) := by
    refine lookUp_edit hp ?_
    rintro names content rfl
    obtain ⟨f, hf, rfl⟩ := mem_files_of_lookUp hp
    exact h.kept hb hp hf rfl
  rwa [Node.mapContent_id] at hsame

end FileTree

/-! ## Reading a directory -/

namespace Artifact

variable {t t' : FileTree} {dialect : ClassFile.Dialect} {limit : Nat} {a : Artifact}

theorem exists_node_of_open {p : Path} (h : Artifact.open t p = .ok a) :
    ∃ node, t.lookUp p = .ok node := by
  unfold Artifact.open at h
  cases hnode : t.lookUp p with
  | ok node => exact ⟨node, rfl⟩
  | error fault =>
    rw [hnode] at h
    cases h

theorem open_congr {p : Path} (h : t'.lookUp p = t.lookUp p) :
    Artifact.open t' p = Artifact.open t p := by
  unfold Artifact.open
  rw [h]

/-- The class that the bytes of an entry hold. -/
def decoded (a : Artifact) (dialect : ClassFile.Dialect) (e : String) (bytes : Bytes) :
    Except ArtifactFailure ClassView :=
  match dialect.read bytes with
  | .ok c => .ok c
  | .error fault => .error (.badClass a.path e fault)

theorem view_of_archive {entries : List ArchiveEntry} (h : a.archive = some entries) (e : String) :
    a.view t dialect limit e = a.readArchived entries e limit >>= a.decoded dialect e := by
  unfold view
  rw [h]
  rfl

theorem view_of_directory (h : a.archive = none) (e : String) :
    a.view t dialect limit e = a.readFile t e limit >>= a.decoded dialect e := by
  unfold view
  rw [h]
  rfl

theorem readFile_congr {e : String} (h : t'.lookUp (a.path.join e) = t.lookUp (a.path.join e)) :
    a.readFile t' e limit = a.readFile t e limit := by
  unfold readFile
  dsimp only
  rw [h]

/-- Entries that are kept are read from an archive as before. -/
theorem readArchived_filter {entries : List ArchiveEntry} {hidden : String → Bool} {e : String}
    (h : hidden e = false) : a.readArchived (entries.filter fun e => !hidden e.name) e limit
      = a.readArchived entries e limit := by
  have hfind : (entries.filter fun e => !hidden e.name).find? (fun x => x.name == e)
      = entries.find? fun x => x.name == e := by
    rw [List.find?_filter]
    congr 1
    funext x
    by_cases hx : x.name = e <;> simp [hx, h]
  unfold readArchived
  rw [hfind]

theorem open_cases {p : Path} (h : Artifact.open t p = .ok a) :
    (∃ own entries, t.lookUp p = .ok (.file own (.archive entries)) ∧ a = ⟨p, some entries⟩)
      ∨ (∃ own, t.lookUp p = .ok (.directory own) ∧ a = ⟨p, none⟩)
      ∨ (t.lookUp p = .ok .outside ∧ a = ⟨p, none⟩) := by
  unfold Artifact.open at h
  cases hnode : t.lookUp p with
  | error fault =>
    rw [hnode] at h
    cases h
  | ok node =>
    rw [hnode] at h
    obtain ⟨own, bytes | entries⟩ | ⟨own⟩ | _ := node
    · cases h
    · cases h
      exact .inl ⟨own, entries, rfl, rfl⟩
    · cases h
      exact .inr (.inl ⟨own, rfl, rfl⟩)
    · cases h
      exact .inr (.inr ⟨rfl, rfl⟩)

theorem allEntries_of_node {p : Path} {node : Node} (h : t.lookUp p = .ok node) :
    allEntries t ⟨p, none⟩ = entriesBelow t ⟨p, none⟩ node := by
  unfold allEntries
  dsimp only
  rw [h]

/-- Whether the entries of a directory can be listed depends on its directories only. -/
theorem entriesBelow_of_directories {own all : List String}
    (h : a.entriesBelow t (.directory own) = .ok all) (ht : t'.directories = t.directories) :
    a.entriesBelow t' (.directory own) = .ok ((t'.filesBelow own).map fun f => entryOf f.1) := by
  have hpaths : a.directoryPaths t' own = a.directoryPaths t own := by
    unfold directoryPaths FileTree.directoriesBelow
    rw [ht]
  unfold entriesBelow at h ⊢
  dsimp only at h ⊢
  rw [hpaths]
  split at h
  · cases h
  · rfl

theorem mem_entriesBelow {own all : List String}
    (h : a.entriesBelow t (.directory own) = .ok all) {e : String} :
    e ∈ all ↔ ∃ rest content, (own ++ rest, content) ∈ t.files ∧ entryOf rest = e := by
  have hall := entriesBelow_of_directories h rfl
  rw [h, Except.ok.injEq] at hall
  simp only [hall, List.mem_map, Prod.exists, FileTree.mem_filesBelow]

/-! ## Artifacts that are not changed -/

variable {b p : Path} {hidden : String → Bool} {node : Node} {all : List String}

theorem open_of_apart (h : t.Apart b p) (hb : t.lookUp b = .ok node)
    (hopen : Artifact.open t p = .ok a) :
    Artifact.open (t.edit (node.deletion hidden)) p = .ok a := by
  obtain ⟨node', hp⟩ := exists_node_of_open hopen
  rw [← hopen]
  exact open_congr ((h.lookUp hb hp).trans hp.symm)

theorem allEntries_of_apart (h : t.Apart b p) (hb : t.lookUp b = .ok node)
    (hopen : Artifact.open t p = .ok a) (hall : a.allEntries t = .ok all) :
    a.allEntries (t.edit (node.deletion hidden)) = .ok all := by
  rcases open_cases hopen with ⟨own, entries, -, rfl⟩ | ⟨own, hp, rfl⟩ | ⟨hp, rfl⟩
  · exact hall
  · rw [allEntries_of_node hp] at hall
    rw [allEntries_of_node (h.lookUp hb hp),
      entriesBelow_of_directories hall (t.edit_directories _),
      FileTree.filesBelow_edit fun f hf hown => h.kept hb hp hf hown,
      ← entriesBelow_of_directories hall rfl, hall]
  · rw [allEntries_of_node hp] at hall
    rw [allEntries_of_node (h.lookUp hb hp)]
    exact hall

/-- The path of an entry of a directory leads where it did if its file is kept. -/
theorem readFile_of_kept (ht : t.WellFormed) {own : List String}
    {change : List String → FileContent → Option FileContent}
    (hp : t.lookUp p = .ok (.directory own)) {rest : List String} {content : FileContent}
    (hf : (own ++ rest, content) ∈ t.files)
    (hkept : ∀ content, change (own ++ rest) content = some content) :
    readFile (t.edit change) ⟨p, none⟩ (entryOf rest) limit
      = readFile t ⟨p, none⟩ (entryOf rest) limit :=
  readFile_congr (ht.lookUp_entry_edit hp hf rfl hkept)

theorem view_of_apart (ht : t.WellFormed) (h : t.Apart b p) (hb : t.lookUp b = .ok node)
    (hopen : Artifact.open t p = .ok a) (hall : a.allEntries t = .ok all) {e : String}
    (he : e ∈ all) :
    a.view (t.edit (node.deletion hidden)) dialect limit e = a.view t dialect limit e := by
  rcases open_cases hopen with ⟨own, entries, -, rfl⟩ | ⟨own, hp, rfl⟩ | ⟨hp, rfl⟩
  · rw [view_of_archive rfl, view_of_archive rfl]
  · rw [allEntries_of_node hp] at hall
    obtain ⟨rest, content, hf, rfl⟩ := (mem_entriesBelow hall).mp he
    have hkept : ∀ content, node.deletion hidden (own ++ rest) content = some content :=
      h.kept hb hp hf (List.prefix_append own rest)
    rw [view_of_directory rfl, view_of_directory rfl, readFile_of_kept ht hp hf hkept]
  · rw [allEntries_of_node hp] at hall
    cases hall
    cases he

/-! ## The artifact that is changed -/

/-- Of the entries of one artifact the other has those that are not hidden, and reads them
alike. -/
def Pruned (hidden : String → Bool) (t : FileTree) (a : Artifact) (t' : FileTree) (a' : Artifact) :
    Prop :=
  ∀ all, a.allEntries t = .ok all → ∃ all', a'.allEntries t' = .ok all'
    ∧ (∀ e, e ∈ all' ↔ e ∈ all ∧ hidden e = false)
    ∧ ∀ e ∈ all', ∀ dialect limit, a'.view t' dialect limit e = a.view t dialect limit e

theorem pruned_archive (entries : List ArchiveEntry) :
    Pruned hidden t ⟨b, some entries⟩ t' ⟨b, some (entries.filter fun e => !hidden e.name)⟩ := by
  rintro all hall
  cases hall
  have hmem : ∀ e, e ∈ (entries.filter fun e => !hidden e.name).map ArchiveEntry.name ↔
      e ∈ entries.map ArchiveEntry.name ∧ hidden e = false := by
    intro e
    simp only [List.mem_map, List.mem_filter, Bool.not_eq_true']
    constructor
    · rintro ⟨x, ⟨hx, hkept⟩, rfl⟩
      exact ⟨⟨x, hx, rfl⟩, hkept⟩
    · rintro ⟨⟨x, hx, rfl⟩, hkept⟩
      exact ⟨x, ⟨hx, hkept⟩, rfl⟩
  refine ⟨_, rfl, hmem, fun e he dialect limit => ?_⟩
  rw [view_of_archive rfl, view_of_archive rfl, readArchived_filter ((hmem e).mp he).2]
  rfl

theorem pruned_directory (ht : t.WellFormed) {own : List String}
    (hb : t.lookUp b = .ok (.directory own)) :
    Pruned hidden t ⟨b, none⟩ (t.edit ((Node.directory own).deletion hidden)) ⟨b, none⟩ := by
  intro all hall
  rw [allEntries_of_node hb] at hall
  have hb' : (t.edit ((Node.directory own).deletion hidden)).lookUp b = .ok (.directory own) :=
    FileTree.lookUp_edit_of_not_file hb (by simp)
  obtain ⟨all', hall'⟩ : ∃ all', entriesBelow (t.edit ((Node.directory own).deletion hidden))
      ⟨b, none⟩ (.directory own) = .ok all' :=
    ⟨_, entriesBelow_of_directories hall (t.edit_directories _)⟩
  have hdeletion : ∀ rest content, (Node.directory own).deletion hidden (own ++ rest) content
      = if hidden (entryOf rest) = true then none else some content := by
    intro rest content
    simp [Node.deletion]
  have hmem : ∀ e, e ∈ all' ↔ e ∈ all ∧ hidden e = false := by
    intro e
    rw [mem_entriesBelow hall', mem_entriesBelow hall]
    simp only [FileTree.mem_edit, hdeletion]
    constructor
    · rintro ⟨rest, content, ⟨old, hf, hkept⟩, rfl⟩
      split at hkept
      · cases hkept
      · next hshown => exact ⟨⟨rest, old, hf, rfl⟩, by simpa using hshown⟩
    · rintro ⟨⟨rest, content, hf, rfl⟩, hkept⟩
      exact ⟨rest, content, ⟨content, hf, by simp [hkept]⟩, rfl⟩
  refine ⟨all', (allEntries_of_node hb').trans hall', hmem, fun e he dialect limit => ?_⟩
  obtain ⟨he, hkept⟩ := (hmem e).mp he
  obtain ⟨rest, content, hf, rfl⟩ := (mem_entriesBelow hall).mp he
  rw [view_of_directory rfl, view_of_directory rfl,
    readFile_of_kept ht hb hf fun content => by rw [hdeletion, hkept]; rfl]

/-- What is left of an artifact after a deletion opens, and is the artifact without the entries that
were deleted. -/
theorem exists_pruned (ht : t.WellFormed) (hidden : String → Bool) (hb : t.lookUp b = .ok node)
    (hopen : Artifact.open t b = .ok a) :
    ∃ a', Artifact.open (t.edit (node.deletion hidden)) b = .ok a'
      ∧ Pruned hidden t a (t.edit (node.deletion hidden)) a' := by
  rcases open_cases hopen with ⟨own, entries, hb', rfl⟩ | ⟨own, hb', rfl⟩ | ⟨hb', rfl⟩
  all_goals
    rw [hb, Except.ok.injEq] at hb'
    subst hb'
  · have hlookUp : (t.edit ((Node.file own (.archive entries)).deletion hidden)).lookUp b
        = .ok (.file own (.archive (entries.filter fun e => !hidden e.name))) := by
      refine FileTree.lookUp_edit (g := FileContent.without hidden) hb ?_
      intro names content heq content'
      cases heq
      exact congrArg some (if_pos rfl)
    refine ⟨_, ?_, pruned_archive entries⟩
    unfold Artifact.open
    rw [hlookUp]
  · have hlookUp : (t.edit ((Node.directory own).deletion hidden)).lookUp b
        = .ok (.directory own) := FileTree.lookUp_edit_of_not_file hb (by simp)
    exact ⟨_, (open_congr (hlookUp.trans hb.symm)).trans hopen, pruned_directory ht hb⟩
  · have hlookUp : (t.edit (Node.outside.deletion hidden)).lookUp b = .ok .outside :=
      FileTree.lookUp_edit_of_not_file hb (by simp)
    refine ⟨_, (open_congr (hlookUp.trans hb.symm)).trans hopen, fun all hall => ?_⟩
    rw [allEntries_of_node hb] at hall
    cases hall
    exact ⟨[], allEntries_of_node hlookUp, by simp, by simp⟩

end Artifact

/-! ## Listings -/

namespace ClassIndex

variable {t : FileTree} {dialect : ClassFile.Dialect} {b p : Path} {l : Listing}

/-- An artifact that shares no file with the one that is changed is listed and read as before. -/
theorem ofPath_without_of_apart (ht : t.WellFormed) (hidden : String → Bool) (h : t.Apart b p)
    (hl : Listing.ofPath t dialect p = .ok l) :
    Listing.ofPath (t.without b hidden) dialect p = .ok l
      ∧ ∀ e ∈ l.entries, ∀ limit,
        l.artifact.view (t.without b hidden) dialect limit e
          = l.artifact.view t dialect limit e := by
  cases hb : t.lookUp b with
  | error fault =>
    rw [FileTree.without_of_error hb]
    exact ⟨hl, fun _ _ _ => rfl⟩
  | ok node =>
    rw [FileTree.without_of_ok hb]
    obtain ⟨hopen, hentries⟩ := ofPath_eq_ok_iff.mp hl
    obtain ⟨all, hall, hsorted⟩ := Artifact.entries_eq_ok_iff.mp hentries
    constructor
    · exact ofPath_eq_ok_iff.mpr ⟨Artifact.open_of_apart h hb hopen,
        Artifact.entries_eq_ok_iff.mpr ⟨all, Artifact.allEntries_of_apart h hb hopen hall, hsorted⟩⟩
    · intro e he limit
      obtain ⟨_, hall', he', -⟩ := (Artifact.mem_entries_iff hentries).mp he
      exact Artifact.view_of_apart ht h hb hopen hall' he'

/-- The artifact that is changed lists the entries that were not deleted, and reads them as
before. -/
theorem exists_ofPath_without (ht : t.WellFormed) (hidden : String → Bool)
    (hl : Listing.ofPath t dialect b = .ok l) :
    ∃ l', Listing.ofPath (t.without b hidden) dialect b = .ok l'
      ∧ (∀ e, e ∈ l'.entries ↔ e ∈ l.entries ∧ hidden e = false)
      ∧ ∀ e ∈ l'.entries, ∀ limit,
        l'.artifact.view (t.without b hidden) dialect limit e
          = l.artifact.view t dialect limit e := by
  obtain ⟨hopen, hentries⟩ := ofPath_eq_ok_iff.mp hl
  obtain ⟨node, hb⟩ := Artifact.exists_node_of_open hopen
  obtain ⟨a', hopen', hpruned⟩ := Artifact.exists_pruned ht hidden hb hopen
  obtain ⟨all, hall, -⟩ := Artifact.entries_eq_ok_iff.mp hentries
  obtain ⟨all', hall', hmem, hviews⟩ := hpruned all hall
  obtain ⟨entries', hentries'⟩ : ∃ es, a'.entries _ dialect = .ok es :=
    Artifact.exists_entries_iff.mpr ⟨all', hall'⟩
  rw [FileTree.without_of_ok hb]
  refine ⟨⟨a', entries'⟩, ofPath_eq_ok_iff.mpr ⟨hopen', hentries'⟩, fun e => ?_,
    fun e he limit => ?_⟩
  · rw [Artifact.mem_entries_iff hentries', Artifact.mem_entries_iff hentries]
    simp only [Artifact.Holds, hall, hall', Except.ok.injEq, exists_eq_left', hmem]
    tauto
  · obtain ⟨_, hall'', he', -⟩ := (Artifact.mem_entries_iff hentries').mp he
    rw [hall', Except.ok.injEq] at hall''
    exact hviews e (hall'' ▸ he') dialect limit

end ClassIndex

end Linkage
