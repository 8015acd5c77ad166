import Linkage.Proofs.Storage.Trees

/-!
# Files are reached by their paths

In a tree that was made by changes, everything that leads to a file is a directory, and no two files
have the same names.  So a path that names the file, below a directory that another path leads to,
leads to the file, unless it is longer than paths can be.

* `Grounded`, `Made.grounded`: what holds of every tree that was made.
* `Made.lookUp_entry`: the path of a file below a directory leads to the file.
-/

namespace Linkage

/-- What is found by a key that no two members share. -/
theorem find?_of_nodup_key {α κ : Type} [BEq κ] [LawfulBEq κ] {key : α → κ} {xs : List α}
    (h : (xs.map key).Nodup) {x : α} (hx : x ∈ xs) :
    xs.find? (fun y => key y == key x) = some x := by
  induction xs with
  | nil => cases hx
  | cons y xs ih =>
    rw [List.map_cons, List.nodup_cons] at h
    rcases List.mem_cons.mp hx with rfl | hx
    · rw [List.find?_cons, beq_self_eq_true]
    · have hne : (key y == key x) = false := by
        rw [beq_eq_false_iff_ne]
        intro heq
        exact h.1 (heq ▸ List.mem_map_of_mem hx)
      rw [List.find?_cons, hne]
      exact ih h.2 hx

namespace FileTree

variable {t t' : FileTree} {names own rest : List String} {content : FileContent}

/-- Following the names one passes directories only, the last one included. -/
def LeadsDown (t : FileTree) (names : List String) : Prop :=
  ∀ d, d ≠ [] → d <+: names → d ∈ t.directories

/-- What holds of files and directories in a tree that was made by changes. -/
structure Grounded (t : FileTree) : Prop where
  /-- No two files have the same names. -/
  unique : (t.files.map Prod.fst).Nodup
  /-- Every file is in a directory. -/
  parents : ∀ f ∈ t.files, t.LeadsDown f.1.dropLast

/-! ## What changes keep -/

theorem LeadsDown.of_prefix {front : List String} (h : t.LeadsDown names)
    (hfront : front <+: names) : t.LeadsDown front :=
  fun d hne hd => h d hne (hd.trans hfront)

theorem leadsDown_concat {s : String} (h : t.LeadsDown names)
    (hlast : names ++ [s] ∈ t.directories) : t.LeadsDown (names ++ [s]) := by
  intro d hne hd
  rcases List.prefix_concat_iff.mp hd with rfl | hd
  · exact hlast
  · exact h d hne hd

theorem grounded_empty : empty.Grounded :=
  ⟨by simp [empty], by simp [empty]⟩

/-- It is enough to keep what leads to the files that are kept. -/
theorem Grounded.of_kept (h : t.Grounded) (hfiles : t'.files.Sublist t.files)
    (hdirectories : ∀ f ∈ t'.files, ∀ d ∈ t.directories, d <+: f.1 → d ∈ t'.directories) :
    t'.Grounded where
  unique := (hfiles.map Prod.fst).nodup h.unique
  parents f hf d hne hd :=
    hdirectories f hf d (h.parents f (hfiles.subset hf) d hne hd)
      (hd.trans (List.dropLast_prefix _))

theorem Grounded.erase (h : t.Grounded) (names : List String) : (t.erase names).Grounded := by
  refine h.of_kept List.filter_sublist fun f hf d hd hfront => ?_
  obtain ⟨-, hkept⟩ := List.mem_filter.mp hf
  refine List.mem_filter.mpr ⟨hd, ?_⟩
  simp only [Bool.not_eq_true', Bool.eq_false_iff, ne_eq, List.isPrefixOf_iff_prefix] at hkept ⊢
  exact fun hbelow => hkept (hbelow.trans hfront)

theorem Grounded.clear (h : t.Grounded) (names : List String) : (t.clear names).Grounded := by
  refine h.of_kept List.filter_sublist fun f hf d hd hfront => ?_
  obtain ⟨-, hkept⟩ := List.mem_filter.mp hf
  refine List.mem_filter.mpr ⟨hd, ?_⟩
  simp only [Bool.not_eq_true', Bool.eq_false_iff, ne_eq, List.isPrefixOf_iff_prefix,
    Bool.or_eq_true] at hkept ⊢
  exact .inl fun hbelow => hkept (hbelow.trans hfront)

/-- Making directories on the way, one comes to a directory. -/
theorem leadsDown_of_follow {names' : List String} {cs : List Component}
    (h : t.follow names cs = some (t', names')) (hnames : t.LeadsDown names) :
    t'.LeadsDown names' ∧ t.directories ⊆ t'.directories ∧ t'.files = t.files := by
  induction cs generalizing t names with
  | nil =>
    cases h
    exact ⟨hnames, List.Subset.refl _, rfl⟩
  | cons c cs ih =>
    cases c with
    | root => cases h
    | current => exact ih h hnames
    | parent =>
      unfold follow at h
      split at h
      · cases h
      · exact ih h (hnames.of_prefix (List.dropLast_prefix names))
    | name s =>
      unfold follow at h
      dsimp only at h
      split at h
      · next found hfound =>
        rw [at?_of_not_file (find?_eq_none_of_at? hfound).1] at hfound
        have hthere : names ++ [s] ∈ t.directories ∧ names ++ [s] = found := by simpa using hfound
        exact ih h (leadsDown_concat hnames hthere.1)
      · cases h
      · have hmade : LeadsDown { t with directories := t.directories ++ [names ++ [s]] }
            (names ++ [s]) :=
          leadsDown_concat (fun d hne hd => List.mem_append_left _ (hnames d hne hd)) (by simp)
        obtain ⟨hdown, hkept, hfiles⟩ := ih h hmade
        exact ⟨hdown, fun d hd => hkept (List.mem_append_left _ hd), hfiles⟩

theorem Grounded.follow {cs : List Component} (ht : t.Grounded)
    (h : t.follow [] cs = some (t', names)) : t'.Grounded ∧ t'.LeadsDown names := by
  have hroot : t.LeadsDown [] := fun d hne hd => absurd (List.prefix_nil.mp hd) hne
  obtain ⟨hdown, hkept, hfiles⟩ := leadsDown_of_follow h hroot
  refine ⟨ht.of_kept (by rw [hfiles]) fun f _ d hd _ => hkept hd, hdown⟩

theorem Grounded.put {s : String} (ht : t.Grounded) (hnames : t.LeadsDown names)
    (content : FileContent) :
    Grounded { t.erase (names ++ [s]) with
      files := (t.erase (names ++ [s])).files ++ [(names ++ [s], content)] } where
  unique := by
    rw [List.map_append, List.map_singleton, List.nodup_append]
    refine ⟨(ht.erase _).unique, by simp, ?_⟩
    rintro _ ha _ hb rfl
    obtain ⟨f, hf, hnames⟩ := List.mem_map.mp ha
    obtain ⟨-, hkept⟩ := List.mem_filter.mp hf
    simp only [Bool.not_eq_true', Bool.eq_false_iff, ne_eq, List.isPrefixOf_iff_prefix] at hkept
    rw [hnames, List.mem_singleton.mp hb] at hkept
    exact hkept List.prefix_rfl
  parents := by
    intro f hf
    rcases List.mem_append.mp hf with hf | hf
    · exact (ht.erase _).parents f hf
    · rw [List.mem_singleton.mp hf]
      intro d hne hd
      rw [List.dropLast_concat] at hd
      refine List.mem_filter.mpr ⟨hnames d hne hd, ?_⟩
      -- What leads to the new file is shorter than its names.
      simp only [Bool.not_eq_true', Bool.eq_false_iff, ne_eq, List.isPrefixOf_iff_prefix]
      intro hbelow
      have hle := (hbelow.trans hd).length_le
      rw [List.length_append, List.length_singleton] at hle
      omega

theorem Made.grounded (h : Made t) : t.Grounded := by
  induction h with
  | empty => exact grounded_empty
  | @makeDirectory t _ p ih =>
    unfold FileTree.makeDirectory
    split
    · next hmade => exact (ih.follow hmade).1
    · exact ih
  | @write t _ p content ih =>
    unfold FileTree.write
    split
    · split
      · next hmade =>
        obtain ⟨hgrounded, hdown⟩ := ih.follow hmade
        exact hgrounded.put hdown content
      · exact ih
    · exact ih
  | @remove t _ p ih =>
    unfold FileTree.remove
    split
    · exact ih.erase _
    · split
      · exact ih.clear _
      · exact ih.erase _
    · exact ih

/-! ## Where names lead -/

theorem Grounded.at?_file (h : t.Grounded) (hf : (names, content) ∈ t.files) :
    t.at? names = some (.file names content) :=
  at?_of_find? (find?_of_nodup_key h.unique hf)

/-- What leads to a file is a directory and no file. -/
theorem Made.at?_directory (h : t.Made) {s : String} (hne : names ≠ [])
    (hf : (names ++ s :: rest, content) ∈ t.files) : t.at? names = some (.directory names) := by
  have hnone : t.files.find? (fun f => f.1 == names) = none := by
    rw [List.find?_eq_none]
    intro f hmem hfound
    have hnames : f.1 = names := by simpa using hfound
    have hsame := h.wellFormed.apart f hmem _ hf (by rw [hnames]; exact List.prefix_append _ _)
    rw [hnames] at hsame
    simp at hsame
  have hdirectory : names ∈ t.directories := by
    refine h.grounded.parents _ hf names hne ?_
    rw [List.dropLast_append_of_ne_nil (by simp)]
    exact List.prefix_append _ _
  rw [at?_of_not_file hnone]
  simp [hdirectory]

/-- From a directory names lead to the file they name.  The induction is on the names. -/
theorem Made.walk_file (h : t.Made) (hf : (own ++ rest, content) ∈ t.files) (hne : rest ≠ [])
    (hshort : ∀ s ∈ rest, s.utf8ByteSize ≤ maxNameLength) :
    t.walk (.directory own) rest = .ok (.file (own ++ rest) content) := by
  induction rest generalizing own with
  | nil => exact absurd rfl hne
  | cons s rest ih =>
    rw [List.forall_mem_cons] at hshort
    have hname : Path.IsName s := h.wellFormed.names _ hf s (by simp)
    rw [walk_cons, step_name hname, if_neg (by omega)]
    have hf' : (own ++ [s] ++ rest, content) ∈ t.files := by rwa [← List.append_cons]
    cases rest with
    | nil =>
      rw [h.grounded.at?_file hf]
      rfl
    | cons s' rest =>
      have hrest := ih hf' (by simp) hshort.2
      rw [← List.append_cons] at hrest
      rw [h.at?_directory (by simp) hf']
      exact hrest

/-- The path of a file below a directory leads to the file. -/
theorem Made.lookUp_entry (h : t.Made) {p : Path} (hp : t.lookUp p = .ok (.directory own))
    (hf : (own ++ rest, content) ∈ t.files) (hne : rest ≠ [])
    (hshort : ∀ s ∈ rest, s.utf8ByteSize ≤ maxNameLength)
    (hpath : (p.join (Artifact.entryOf rest)).refusal? = none) :
    t.lookUp (p.join (Artifact.entryOf rest)) = .ok (.file (own ++ rest) content) := by
  have hnames : ∀ s ∈ rest, Path.IsName s := fun s hs =>
    h.wellFormed.names _ hf s (List.mem_append_right _ hs)
  rw [lookUp_join hp (Path.not_startsWith_entryOf hnames), hpath]
  dsimp only
  rw [Path.segments_entryOf hne fun s hs => (hnames s hs).plain]
  exact h.walk_file hf hne hshort

end FileTree

end Linkage
