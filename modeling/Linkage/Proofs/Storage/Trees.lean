import Linkage.Proofs.Operations
import Linkage.Proofs.Storage.Paths

/-!
# Where paths lead when files change

A path is followed segment by segment, and only what its last segment leads to can be a file.  So a
change of files that leaves this file alone, or only its content, leaves the path where it leads.
Files of a directory are reached by their names if the tree is well formed, as every tree is that
was made by changes.

* `edit`: a tree with files changed or removed, and `walk_edit`, where paths lead in it.
* `WellFormed`, `Made.wellFormed`: what holds of the files of every tree.
* `lookUp_entry_edit`: the path of an entry leads to its file.
-/

namespace Linkage

/-! ## Following a path -/

namespace Path

/-- Why a path is refused, whatever the files. -/
def refusal? (p : Path) : Option PathFault :=
  if p.text.toList.contains '\x00' then some .holdsNul
  else if p.text.isEmpty then some .notFound
  else if FileTree.maxPathLength < p.text.utf8ByteSize then some .nameTooLong
  else none

/-- Where a path begins. -/
def origin (p : Path) : Node :=
  if p.isAbsolute then .outside else .directory []

theorem origin_ne_file (p : Path) (names : List String) (content : FileContent) :
    p.origin ≠ .file names content := by
  unfold origin
  split <;> simp

theorem ne_empty_of_refusal? {p : Path} (h : p.refusal? = none) : p.text ≠ "" := by
  intro hempty
  simp [refusal?, hempty] at h

end Path

/-- A node with its content changed, if it is a file. -/
def Node.mapContent (g : FileContent → FileContent) : Node → Node
  | .file names content => .file names (g content)
  | node => node

theorem Node.mapContent_id (node : Node) : node.mapContent id = node := by
  cases node <;> rfl

theorem Node.mapContent_of_not_file {g : FileContent → FileContent} {node : Node}
    (h : ∀ names content, node ≠ .file names content) : node.mapContent g = node := by
  cases node with
  | file names content => exact absurd rfl (h names content)
  | directory names => rfl
  | outside => rfl

namespace FileTree

variable {t : FileTree}

/-- Follows segments from a node. -/
def walk (t : FileTree) (node : Node) (segments : List String) : Except PathFault Node :=
  segments.foldlM t.step node

theorem walk_cons (node : Node) (s : String) (segments : List String) :
    t.walk node (s :: segments) = t.step node s >>= fun next => t.walk next segments :=
  List.foldlM_cons

theorem walk_append (node : Node) (front back : List String) :
    t.walk node (front ++ back) = t.walk node front >>= fun next => t.walk next back :=
  List.foldlM_append

theorem lookUp_eq (p : Path) : t.lookUp p = match p.refusal? with
    | some fault => .error fault
    | none => t.walk p.origin p.segments := by
  unfold lookUp Path.refusal?
  split
  · rfl
  · split
    · rfl
    · split
      · rfl
      · rfl

theorem lookUp_eq_ok_iff {p : Path} {node : Node} :
    t.lookUp p = .ok node ↔ p.refusal? = none ∧ t.walk p.origin p.segments = .ok node := by
  rw [lookUp_eq]
  cases p.refusal? <;> simp

/-- A name leads to what the tree has there. -/
theorem step_name {s : String} (h : Path.IsName s) (names : List String) :
    t.step (.directory names) s =
      if maxNameLength < s.utf8ByteSize then .error .nameTooLong
      else match t.at? (names ++ [s]) with
        | some found => .ok found
        | none => .error .notFound := by
  have hstay : ¬ (s = "" ∨ s = ".") := not_or.mpr ⟨h.ne_empty, h.ne_current⟩
  exact (if_neg hstay).trans (if_neg h.ne_parent)

/-- A step that leads somewhere does not look at the tree and stays among directories, or leads to
what the tree has there. -/
theorem step_cases {node next : Node} {s : String} (h : t.step node s = .ok next) :
    (∀ t' : FileTree, t'.step node s = .ok next) ∧ (∀ names content, next ≠ .file names content)
      ∨ ∃ names, t.at? (names ++ [s]) = some next
        ∧ ∀ t' : FileTree, t'.step node s = match t'.at? (names ++ [s]) with
          | some found => .ok found
          | none => .error .notFound := by
  cases node with
  | file names content => cases h
  | outside =>
    left
    by_cases hstay : s = "" ∨ s = "." ∨ s = ".."
    · simp only [step, if_pos hstay] at h ⊢
      cases h
      exact ⟨fun _ => rfl, by simp⟩
    · simp only [step, if_neg hstay] at h
      split at h <;> cases h
  | directory names =>
    by_cases hstay : s = "" ∨ s = "."
    · left
      simp only [step, if_pos hstay] at h ⊢
      cases h
      exact ⟨fun _ => rfl, by simp⟩
    by_cases hup : s = ".."
    · left
      simp only [step, if_neg hstay, if_pos hup] at h ⊢
      refine ⟨fun _ => h, ?_⟩
      split at h <;> cases h <;> simp
    by_cases hlong : maxNameLength < s.utf8ByteSize
    · simp only [step, if_neg hstay, if_neg hup, if_pos hlong] at h
      cases h
    · right
      simp only [step, if_neg hstay, if_neg hup, if_neg hlong] at h ⊢
      refine ⟨names, ?_, fun _ => rfl⟩
      cases hfound : t.at? (names ++ [s]) with
      | none =>
        rw [hfound] at h
        cases h
      | some found =>
        rw [hfound] at h
        cases h
        rfl

/-- An empty segment stays where it is. -/
theorem eq_of_step_empty {node next : Node} (h : t.step node "" = .ok next) : next = node := by
  cases node with
  | file names content => cases h
  | directory names =>
    cases h
    rfl
  | outside =>
    cases h
    rfl

/-- A path put together from a directory and an entry is followed from the directory. -/
theorem lookUp_join {p : Path} {own : List String} (h : t.lookUp p = .ok (.directory own))
    {e : String} (he : Text.startsWith "/" e = false) :
    t.lookUp (p.join e) = match (p.join e).refusal? with
      | some fault => .error fault
      | none => t.walk (.directory own) (Path.segments ⟨e⟩) := by
  obtain ⟨hrefusal, hwalk⟩ := lookUp_eq_ok_iff.mp h
  have hp := Path.ne_empty_of_refusal? hrefusal
  have horigin : (p.join e).origin = p.origin := by
    rw [Path.origin, Path.isAbsolute_join hp he, Path.origin]
  rw [lookUp_eq, horigin]
  suffices hsame : t.walk p.origin (p.join e).segments
      = t.walk (.directory own) (Path.segments ⟨e⟩) by rw [hsame]
  rcases Path.segments_join hp he with hsegments | ⟨front, hfront, hsegments⟩
  · rw [hsegments, walk_append, hwalk]
    rfl
  · -- The slash at the end of the directory's path stays where the front of it leads.
    rw [hfront, walk_append] at hwalk
    obtain ⟨node, hnode, hlast⟩ := except_bind_eq_ok_iff.mp hwalk
    rw [walk_cons] at hlast
    obtain ⟨next, hstep, hend⟩ := except_bind_eq_ok_iff.mp hlast
    cases hend
    rw [hsegments, walk_append, hnode, ← eq_of_step_empty hstep]
    rfl

/-! ## What names lead to -/

theorem at?_of_find? {names : List String} {f : List String × FileContent}
    (h : t.files.find? (fun f => f.1 == names) = some f) :
    t.at? names = some (.file names f.2) := by
  rw [at?, h]

theorem at?_of_not_file {names : List String}
    (h : t.files.find? (fun f => f.1 == names) = none) :
    t.at? names = if names.isEmpty || t.directories.contains names
      then some (.directory names) else none := by
  rw [at?, h]

theorem find?_eq_none_of_at? {names own : List String} (h : t.at? names = some (.directory own)) :
    t.files.find? (fun f => f.1 == names) = none ∧ own = names := by
  cases hfind : t.files.find? (fun f => f.1 == names) with
  | some f =>
    rw [at?_of_find? hfind] at h
    cases h
  | none =>
    rw [at?_of_not_file hfind] at h
    split at h
    · cases h
      exact ⟨rfl, rfl⟩
    · cases h

theorem file_of_at? {names own : List String} {content : FileContent}
    (h : t.at? names = some (.file own content)) : own = names := by
  unfold at? at h
  split at h
  · cases h
    rfl
  · split at h <;> cases h

theorem mem_files_of_at? {names own : List String} {content : FileContent}
    (h : t.at? names = some (.file own content)) : ∃ f ∈ t.files, f.1 = own := by
  cases hfind : t.files.find? (fun f => f.1 == names) with
  | some f =>
    rw [file_of_at? h]
    exact ⟨f, List.mem_of_find?_eq_some hfind, by simpa using List.find?_some hfind⟩
  | none =>
    rw [at?_of_not_file hfind] at h
    split at h <;> cases h

theorem at?_ne_outside (names : List String) : t.at? names ≠ some .outside := by
  unfold at?
  split
  · simp
  · split <;> simp

theorem walk_file {names : List String} {content : FileContent} {segments : List String}
    {node : Node} (h : t.walk (.file names content) segments = .ok node) :
    segments = [] ∧ node = .file names content := by
  cases segments with
  | nil =>
    cases h
    exact ⟨rfl, rfl⟩
  | cons s segments => cases h

theorem mem_files_of_walk {node : Node} {segments names : List String} {content : FileContent}
    (h : t.walk node segments = .ok (.file names content))
    (hnode : ∀ names content, node ≠ .file names content) : ∃ f ∈ t.files, f.1 = names := by
  induction segments generalizing node with
  | nil =>
    cases h
    exact absurd rfl (hnode _ _)
  | cons s segments ih =>
    rw [walk_cons] at h
    obtain ⟨next, hstep, hrest⟩ := except_bind_eq_ok_iff.mp h
    rcases step_cases hstep with ⟨-, hnot⟩ | ⟨front, hfound, -⟩
    · exact ih hrest hnot
    · by_cases hfile : ∃ own content, next = .file own content
      · obtain ⟨own, content', rfl⟩ := hfile
        obtain ⟨-, hlast⟩ := walk_file hrest
        cases hlast
        exact mem_files_of_at? hfound
      · exact ih hrest fun own content heq => hfile ⟨own, content, heq⟩

/-- A path that leads to a file leads to one of the tree. -/
theorem mem_files_of_lookUp {p : Path} {names : List String} {content : FileContent}
    (h : t.lookUp p = .ok (.file names content)) : ∃ f ∈ t.files, f.1 = names :=
  mem_files_of_walk (lookUp_eq_ok_iff.mp h).2 p.origin_ne_file

/-! ## Changing files -/

/-- The tree with the content of every file changed, or the file removed. -/
def edit (t : FileTree) (change : List String → FileContent → Option FileContent) : FileTree :=
  { t with files := t.files.filterMap fun f => (change f.1 f.2).map (f.1, ·) }

theorem edit_directories (t : FileTree)
    (change : List String → FileContent → Option FileContent) :
    (t.edit change).directories = t.directories :=
  rfl

section

variable {change : List String → FileContent → Option FileContent} {g : FileContent → FileContent}

theorem mem_edit {names : List String} {content : FileContent} :
    (names, content) ∈ (t.edit change).files ↔
      ∃ old, (names, old) ∈ t.files ∧ change names old = some content := by
  simp only [edit, List.mem_filterMap, Option.map_eq_some_iff, Prod.mk.injEq, Prod.exists]
  constructor
  · rintro ⟨_, old, hf, _, hchange, rfl, rfl⟩
    exact ⟨old, hf, hchange⟩
  · rintro ⟨old, hf, hchange⟩
    exact ⟨names, old, hf, content, hchange, rfl, rfl⟩

theorem edit_find? {names : List String} (h : ∀ content, change names content = some (g content)) :
    (t.edit change).files.find? (fun f => f.1 == names)
      = (t.files.find? fun f => f.1 == names).map fun f => (f.1, g f.2) := by
  show (t.files.filterMap _).find? _ = _
  induction t.files with
  | nil => rfl
  | cons f files ih =>
    obtain ⟨own, content⟩ := f
    by_cases hown : own = names
    · subst hown
      simp [h]
    · have hkey : (own == names) = false := by simpa using hown
      rw [List.find?_cons, hkey, ← ih]
      cases hchange : change own content with
      | none => simp [hchange]
      | some changed => simp [hchange, hkey]

theorem edit_find?_eq_none {names : List String}
    (h : t.files.find? (fun f => f.1 == names) = none) :
    (t.edit change).files.find? (fun f => f.1 == names) = none := by
  rw [List.find?_eq_none] at h ⊢
  intro f hf
  obtain ⟨old, hold, hchange⟩ := List.mem_filterMap.mp hf
  obtain ⟨content, -, rfl⟩ := Option.map_eq_some_iff.mp hchange
  exact h old hold

theorem at?_edit {names : List String} (h : ∀ content, change names content = some (g content)) :
    (t.edit change).at? names = (t.at? names).map (·.mapContent g) := by
  have hfind := edit_find? (t := t) h
  cases hold : t.files.find? (fun f => f.1 == names) with
  | some f =>
    rw [hold] at hfind
    rw [at?_of_find? hold, at?_of_find? hfind]
    rfl
  | none =>
    rw [hold] at hfind
    rw [at?_of_not_file hold, at?_of_not_file hfind]
    show (if names.isEmpty || t.directories.contains names then _ else _) = _
    split <;> rfl

theorem at?_edit_of_kept {names : List String}
    (h : ∀ content, change names content = some content) :
    (t.edit change).at? names = t.at? names := by
  rw [at?_edit (g := id) h]
  simp only [Node.mapContent_id, Option.map_id']

theorem at?_edit_of_not_file {names : List String}
    (h : t.files.find? (fun f => f.1 == names) = none) :
    (t.edit change).at? names = t.at? names := by
  rw [at?_of_not_file h, at?_of_not_file (edit_find?_eq_none h)]
  rfl

/-- A segment leads where it did, unless it leads to a file that was removed. -/
theorem step_edit {node next : Node} {s : String} (h : t.step node s = .ok next)
    (hkept : ∀ names content, next = .file names content →
      ∀ content, change names content = some (g content)) :
    (t.edit change).step node s = .ok (next.mapContent g) := by
  rcases step_cases h with ⟨hsame, hnot⟩ | ⟨names, hfound, hstep⟩
  · rw [hsame (t.edit change), Node.mapContent_of_not_file hnot]
  · rw [hstep (t.edit change)]
    cases next with
    | file own content =>
      rw [at?_edit (hkept _ _ (by rw [file_of_at? hfound])), hfound]
      rfl
    | directory own =>
      rw [at?_edit_of_not_file (find?_eq_none_of_at? hfound).1, hfound]
      rfl
    | outside => exact absurd hfound (at?_ne_outside _)

/-- Only what the last segment leads to can be a file, so a path leads where it did unless that
file was removed. -/
theorem walk_edit {node last : Node} {segments : List String} (h : t.walk node segments = .ok last)
    (hnode : ∀ names content, node ≠ .file names content)
    (hkept : ∀ names content, last = .file names content →
      ∀ content, change names content = some (g content)) :
    (t.edit change).walk node segments = .ok (last.mapContent g) := by
  induction segments generalizing node with
  | nil =>
    cases h
    rw [Node.mapContent_of_not_file hnode]
    rfl
  | cons s segments ih =>
    rw [walk_cons] at h
    obtain ⟨next, hstep, hrest⟩ := except_bind_eq_ok_iff.mp h
    by_cases hfile : ∃ names content, next = .file names content
    · obtain ⟨names, content, rfl⟩ := hfile
      obtain ⟨rfl, rfl⟩ := walk_file hrest
      rw [walk_cons, step_edit hstep hkept]
      rfl
    · have hnext : ∀ names content, next ≠ .file names content :=
        fun names content heq => hfile ⟨names, content, heq⟩
      have hstep' : (t.edit change).step node s = .ok (next.mapContent g) :=
        step_edit hstep fun names content heq => absurd heq (hnext names content)
      rw [walk_cons, hstep', Node.mapContent_of_not_file hnext]
      exact ih hrest hnext

theorem lookUp_edit {p : Path} {node : Node} (h : t.lookUp p = .ok node)
    (hkept : ∀ names content, node = .file names content →
      ∀ content, change names content = some (g content)) :
    (t.edit change).lookUp p = .ok (node.mapContent g) := by
  obtain ⟨hrefusal, hwalk⟩ := lookUp_eq_ok_iff.mp h
  exact lookUp_eq_ok_iff.mpr ⟨hrefusal, walk_edit hwalk p.origin_ne_file hkept⟩

theorem lookUp_edit_of_not_file {p : Path} {node : Node} (h : t.lookUp p = .ok node)
    (hnot : ∀ names content, node ≠ .file names content) :
    (t.edit change).lookUp p = .ok node := by
  have hsame : (t.edit change).lookUp p = .ok (node.mapContent id) :=
    lookUp_edit h fun names content heq => absurd heq (hnot names content)
  rwa [Node.mapContent_id] at hsame

/-! ## Files by their names -/

/-- What holds of the files of a tree that was made by changes. -/
structure WellFormed (t : FileTree) : Prop where
  /-- No file is the working directory. -/
  ne_root : ∀ f ∈ t.files, f.1 ≠ []
  /-- Files are reached by names. -/
  names : ∀ f ∈ t.files, ∀ s ∈ f.1, Path.IsName s
  /-- No file is used as a directory. -/
  apart : ∀ f ∈ t.files, ∀ f' ∈ t.files, f.1 <+: f'.1 → f.1 = f'.1

/-- Names lead down alike in trees that have the same on the way. -/
theorem walk_congr {t t' : FileTree} {own rest : List String} (hnames : ∀ s ∈ rest, Path.IsName s)
    (h : ∀ front, front ≠ [] → front <+: rest → t'.at? (own ++ front) = t.at? (own ++ front)) :
    t'.walk (.directory own) rest = t.walk (.directory own) rest := by
  induction rest generalizing own with
  | nil => rfl
  | cons s rest ih =>
    rw [List.forall_mem_cons] at hnames
    rw [walk_cons, walk_cons, step_name hnames.1, step_name hnames.1]
    have hhere : t'.at? (own ++ [s]) = t.at? (own ++ [s]) := h [s] (by simp) (by simp)
    rw [hhere]
    split
    · rfl
    · cases hfound : t.at? (own ++ [s]) with
      | none => rfl
      | some next =>
        show t'.walk next rest = t.walk next rest
        cases next with
        | file names content =>
          cases rest with
          | nil => rfl
          | cons s' rest => rfl
        | outside => exact absurd hfound (at?_ne_outside _)
        | directory names =>
          rw [(find?_eq_none_of_at? hfound).2]
          refine ih hnames.2 fun front hne hfront => ?_
          have hon := h (s :: front) (by simp) (by simpa using hfront)
          rwa [List.append_cons] at hon

/-- The path of an entry leads where it did if the file of the entry is kept. -/
theorem WellFormed.lookUp_entry_edit (ht : t.WellFormed) {p : Path} {own rest : List String}
    (hp : t.lookUp p = .ok (.directory own)) {f : List String × FileContent} (hf : f ∈ t.files)
    (hrest : f.1 = own ++ rest) (hkept : ∀ content, change f.1 content = some content) :
    (t.edit change).lookUp (p.join (Artifact.entryOf rest))
      = t.lookUp (p.join (Artifact.entryOf rest)) := by
  have hnames : ∀ s ∈ rest, Path.IsName s := fun s hs =>
    ht.names f hf s (by rw [hrest]; exact List.mem_append_right _ hs)
  have hplain := Path.not_startsWith_entryOf hnames
  have hp' : (t.edit change).lookUp p = .ok (.directory own) :=
    lookUp_edit_of_not_file hp (by simp)
  rw [lookUp_join hp hplain, lookUp_join hp' hplain]
  suffices hwalk : (t.edit change).walk (.directory own) (Path.segments ⟨Artifact.entryOf rest⟩)
      = t.walk (.directory own) (Path.segments ⟨Artifact.entryOf rest⟩) by rw [hwalk]
  by_cases hne : rest = []
  · subst hne
    rfl
  rw [Path.segments_entryOf hne fun s hs => (hnames s hs).plain]
  refine walk_congr hnames fun front _ hfront => ?_
  cases hfile : t.files.find? (fun f => f.1 == own ++ front) with
  | none => exact at?_edit_of_not_file hfile
  | some f' =>
    -- A file on the way can only be the one the names lead to.
    have hmem := List.mem_of_find?_eq_some hfile
    have hf' : f'.1 = own ++ front := by simpa using List.find?_some hfile
    have hsame : f'.1 = f.1 := by
      refine ht.apart f' hmem f hf ?_
      rw [hf', hrest]
      exact (List.prefix_append_right_inj own).mpr hfront
    rw [← hf', hsame]
    exact at?_edit_of_kept hkept

theorem mem_filesBelow {names rest : List String} {content : FileContent} :
    (rest, content) ∈ t.filesBelow names ↔ (names ++ rest, content) ∈ t.files := by
  simp only [filesBelow, List.mem_filterMap, Option.ite_none_right_eq_some, Option.some.injEq,
    Prod.mk.injEq, List.isPrefixOf_iff_prefix, Prod.exists]
  constructor
  · rintro ⟨_, _, hf, ⟨rest', rfl⟩, hdrop, rfl⟩
    rw [List.drop_left] at hdrop
    rwa [hdrop] at hf
  · intro hf
    exact ⟨_, _, hf, List.prefix_append names rest, List.drop_left, rfl⟩

theorem filesBelow_edit {names : List String} (h : ∀ f ∈ t.files, names <+: f.1 →
    ∀ content, change f.1 content = some content) :
    (t.edit change).filesBelow names = t.filesBelow names := by
  show (t.files.filterMap _).filterMap _ = _
  rw [List.filterMap_filterMap]
  refine List.filterMap_congr fun f hf => ?_
  by_cases hbelow : names <+: f.1
  · rw [h f hf hbelow]
    rfl
  · cases change f.1 f.2 <;> simp [hbelow]

end

/-! ## Trees that were made -/

/-- Trees that changes make, beginning with nothing. -/
inductive Made : FileTree → Prop where
  | empty : Made .empty
  | makeDirectory {t : FileTree} (h : Made t) (p : Path) : Made (t.makeDirectory p)
  | write {t : FileTree} (h : Made t) (p : Path) (content : FileContent) : Made (t.write p content)
  | remove {t : FileTree} (h : Made t) (p : Path) : Made (t.remove p)

theorem wellFormed_empty : empty.WellFormed :=
  ⟨by simp [empty], by simp [empty], by simp [empty]⟩

theorem WellFormed.of_subset {t' : FileTree} (h : t.WellFormed) (hsub : t'.files ⊆ t.files) :
    t'.WellFormed where
  ne_root f hf := h.ne_root f (hsub hf)
  names f hf := h.names f (hsub hf)
  apart f hf f' hf' := h.apart f (hsub hf) f' (hsub hf')

/-- Making directories on the way changes no file, and leads along names past all files. -/
theorem follow_spec {t' : FileTree} {names names' : List String} {cs : List Component}
    (h : t.follow names cs = some (t', names')) (hcs : ∀ s, .name s ∈ cs → Path.IsName s)
    (hnames : ∀ s ∈ names, Path.IsName s) (hfree : ∀ f ∈ t.files, ¬ f.1 <+: names) :
    t'.files = t.files ∧ (∀ s ∈ names', Path.IsName s) ∧ ∀ f ∈ t.files, ¬ f.1 <+: names' := by
  induction cs generalizing t names with
  | nil =>
    cases h
    exact ⟨rfl, hnames, hfree⟩
  | cons c cs ih =>
    have hrest : ∀ s, .name s ∈ cs → Path.IsName s := fun s hs => hcs s (List.mem_cons_of_mem _ hs)
    cases c with
    | root => cases h
    | current => exact ih h hrest hnames hfree
    | parent =>
      unfold follow at h
      split at h
      · cases h
      · refine ih h hrest (fun s hs => hnames s ((List.dropLast_prefix names).subset hs))
          fun f hf hfront => ?_
        exact hfree f hf (hfront.trans (List.dropLast_prefix names))
    | name s =>
      have hnames' : ∀ s' ∈ names ++ [s], Path.IsName s' := by
        intro s' hs'
        rcases List.mem_append.mp hs' with hs' | hs'
        · exact hnames s' hs'
        · rw [List.mem_singleton.mp hs']
          exact hcs s List.mem_cons_self
      have hfree' : t.files.find? (fun f => f.1 == names ++ [s]) = none →
          ∀ f ∈ t.files, ¬ f.1 <+: names ++ [s] := by
        intro hnone f hf hfront
        rcases List.prefix_concat_iff.mp hfront with heq | hfront
        · exact List.find?_eq_none.mp hnone f hf (by simpa using heq)
        · exact hfree f hf hfront
      unfold follow at h
      dsimp only at h
      split at h
      · next hfound => exact ih h hrest hnames' (hfree' (find?_eq_none_of_at? hfound).1)
      · cases h
      · next hfound =>
        have hnone : t.files.find? (fun f => f.1 == names ++ [s]) = none := by
          cases hfind : t.files.find? (fun f => f.1 == names ++ [s]) with
          | none => rfl
          | some f =>
            rw [at?_of_find? hfind] at hfound
            cases hfound
        exact ih (t := { t with directories := t.directories ++ [names ++ [s]] }) h hrest hnames'
          (hfree' hnone)

theorem WellFormed.follow {t' : FileTree} {names : List String} {cs : List Component}
    (ht : t.WellFormed) (hcs : ∀ s, .name s ∈ cs → Path.IsName s)
    (h : t.follow [] cs = some (t', names)) :
    t'.WellFormed ∧ (∀ s ∈ names, Path.IsName s) ∧ ∀ f ∈ t'.files, ¬ f.1 <+: names := by
  have hfree : ∀ f ∈ t.files, ¬ f.1 <+: [] := fun f hf hroot =>
    ht.ne_root f hf (List.prefix_nil.mp hroot)
  obtain ⟨hfiles, hnames, hfree'⟩ := follow_spec h hcs (by simp) hfree
  refine ⟨ht.of_subset (by rw [hfiles]; exact List.Subset.refl _), hnames, ?_⟩
  rw [hfiles]
  exact hfree'

/-- Putting a file where no file is on the way, in place of all that was there. -/
theorem WellFormed.put (ht : t.WellFormed) {names : List String} {s : String}
    (hs : Path.IsName s) (hnames : ∀ s ∈ names, Path.IsName s)
    (hfree : ∀ f ∈ t.files, ¬ f.1 <+: names) (content : FileContent) :
    WellFormed { t.erase (names ++ [s]) with
      files := (t.erase (names ++ [s])).files ++ [(names ++ [s], content)] } := by
  have hkept : ∀ f ∈ (t.erase (names ++ [s])).files, f ∈ t.files ∧ ¬ names ++ [s] <+: f.1 := by
    intro f hf
    obtain ⟨hmem, hnot⟩ := List.mem_filter.mp hf
    rw [Bool.not_eq_true', Bool.eq_false_iff, ne_eq, List.isPrefixOf_iff_prefix] at hnot
    exact ⟨hmem, hnot⟩
  have hmem : ∀ f ∈ (t.erase (names ++ [s])).files ++ [(names ++ [s], content)],
      (f ∈ t.files ∧ ¬ names ++ [s] <+: f.1) ∨ f.1 = names ++ [s] := by
    intro f hf
    rcases List.mem_append.mp hf with hf | hf
    · exact .inl (hkept f hf)
    · rw [List.mem_singleton.mp hf]
      exact .inr rfl
  constructor
  · intro f hf
    rcases hmem f hf with ⟨hold, -⟩ | hnew
    · exact ht.ne_root f hold
    · simp [hnew]
  · intro f hf s' hs'
    rcases hmem f hf with ⟨hold, -⟩ | hnew
    · exact ht.names f hold s' hs'
    · rw [hnew] at hs'
      rcases List.mem_append.mp hs' with hs' | hs'
      · exact hnames s' hs'
      · rwa [List.mem_singleton.mp hs']
  · intro f hf f' hf' hfront
    rcases hmem f hf with ⟨hold, hnot⟩ | hnew <;> rcases hmem f' hf' with ⟨hold', hnot'⟩ | hnew'
    · exact ht.apart f hold f' hold' hfront
    · rw [hnew'] at hfront ⊢
      rcases List.prefix_concat_iff.mp hfront with heq | hfront
      · exact heq
      · exact absurd hfront (hfree f hold)
    · exact absurd (hnew ▸ hfront) hnot'
    · rw [hnew, hnew']

theorem Made.wellFormed (h : Made t) : t.WellFormed := by
  induction h with
  | empty => exact wellFormed_empty
  | @makeDirectory t _ p ih =>
    unfold FileTree.makeDirectory
    split
    · next hmade => exact (ih.follow (fun s => Path.isName_of_mem_components) hmade).1
    · exact ih
  | @write t _ p content ih =>
    unfold FileTree.write
    split
    · next s hlast =>
      have hs : Path.IsName s :=
        Path.isName_of_mem_components (List.mem_of_getLast? hlast)
      split
      · next made names hmade =>
        obtain ⟨hwf, hnames, hfree⟩ := ih.follow
          (fun s hs => Path.isName_of_mem_components ((List.dropLast_prefix _).subset hs)) hmade
        exact hwf.put hs hnames hfree content
      · exact ih
    · exact ih
  | @remove t _ p ih =>
    unfold FileTree.remove
    split
    · exact ih.of_subset (List.filter_subset_self _)
    · split
      · exact ih.of_subset (List.filter_subset_self _)
      · exact ih.of_subset (List.filter_subset_self _)
    · exact ih

end FileTree

end Linkage
