import Mathlib.Data.Finset.Card
import Linkage.Proofs.Artifacts
import Linkage.Proofs.ClassPath.Building

/-!
# The first definition wins

What an index answers, said by the artifacts and their entries alone.  `Defines` tells whether the
artifact at a path has an entry for a class; everything an index knows of a name is settled by the
first path, platform images first, at which the name is defined, and by the least of the entries
it has there.  Indexing succeeds exactly if there is a class path and all artifacts open and list,
and otherwise blames the first that does not.

* `FirstMatch`: what an index has to answer.
* `build_firstMatch`: every index that is built answers so.
-/

namespace Linkage

/-! ## What is at fault -/

/-- The class path itself is at fault: it is empty, or an artifact of it is missing or cannot be
read. -/
def Failure.BlamesClassPath : Failure → Prop
  | .emptyClassPath => True
  | .cannotRead _ _ => True
  | .artifact (.missing _ _) => True
  | _ => False

/-- How every message about a class path begins. -/
def Failure.classPathHeading : String := "Invalid classpath: "

theorem Failure.blamesClassPath_ofIndexing (p : Path) (cause : ArtifactFailure) :
    (Failure.ofIndexing p cause).BlamesClassPath := by
  cases cause <;> trivial

theorem Failure.BlamesClassPath.message {failure : Failure} (h : failure.BlamesClassPath) :
    ∃ rest, failure.message = classPathHeading ++ rest := by
  unfold classPathHeading
  match failure, h with
  | .emptyClassPath, _ =>
    refine ⟨"no artifacts given", ?_⟩
    show "Invalid classpath: no artifacts given" = _
    decide
  | .cannotRead path cause, _ =>
    have hstart : "Invalid classpath: cannot read " = "Invalid classpath: " ++ "cannot read " := by
      decide
    refine ⟨"cannot read " ++ (path.text ++ ": " ++ cause.message), ?_⟩
    show "Invalid classpath: cannot read " ++ path.text ++ ": " ++ cause.message = _
    rw [hstart]
    simp only [String.append_assoc]
  | .artifact (.missing path fault), _ =>
    refine ⟨path.text ++ ": " ++ fault.message, ?_⟩
    show "Invalid classpath: " ++ path.text ++ ": " ++ fault.message = _
    simp only [String.append_assoc]

/-! ## What an artifact defines -/

namespace ClassIndex

/-- The artifact at a path opens, and its entries can be listed. -/
def Lists (t : FileTree) (p : Path) : Prop :=
  ∃ a all, Artifact.open t p = .ok a ∧ a.allEntries t = .ok all

/-- The artifact at a path opens as `a` and holds the entry `e`, which the dialect lists. -/
def Offers (t : FileTree) (dialect : ClassFile.Dialect) (p : Path) (a : Artifact) (e : String) :
    Prop :=
  Artifact.open t p = .ok a ∧ a.Holds t dialect e

/-- The artifact at a path has an entry for a class. -/
def Defines (t : FileTree) (dialect : ClassFile.Dialect) (p : Path) (name : ClassName) : Prop :=
  ∃ a e, Offers t dialect p a e ∧ ClassName.ofEntry e = name

/-- The least entry the artifact at a path has for a class. -/
structure LeastEntry (t : FileTree) (dialect : ClassFile.Dialect) (p : Path) (name : ClassName)
    (a : Artifact) (e : String) : Prop where
  /-- It is an entry of the artifact. -/
  offered : Offers t dialect p a e
  /-- It is one for the class. -/
  named : ClassName.ofEntry e = name
  /-- No other comes before it. -/
  least : ∀ e', Offers t dialect p a e' → ClassName.ofEntry e' = name → e ≤ e'

section

variable {t : FileTree} {dialect : ClassFile.Dialect} {p : Path}

theorem ofPath_eq_ok_iff {l : Listing} : Listing.ofPath t dialect p = .ok l ↔
    Artifact.open t p = .ok l.artifact ∧ l.artifact.entries t dialect = .ok l.entries := by
  unfold Listing.ofPath
  simp only [except_bind_eq_ok_iff]
  constructor
  · rintro ⟨a, ha, entries, hentries, hl⟩
    cases hl
    exact ⟨ha, hentries⟩
  · rintro ⟨ha, hentries⟩
    exact ⟨_, ha, _, hentries, rfl⟩

theorem lists_iff : Lists t p ↔ ∃ l, Listing.ofPath t dialect p = .ok l := by
  constructor
  · rintro ⟨a, all, ha, hall⟩
    obtain ⟨es, hes⟩ := Artifact.exists_entries_iff.mpr ⟨all, hall⟩
    exact ⟨⟨a, es⟩, ofPath_eq_ok_iff.mpr ⟨ha, hes⟩⟩
  · rintro ⟨l, hl⟩
    obtain ⟨ha, hes⟩ := ofPath_eq_ok_iff.mp hl
    obtain ⟨all, hall⟩ := Artifact.exists_entries_iff.mp ⟨_, hes⟩
    exact ⟨l.artifact, all, ha, hall⟩

theorem path_of_ofPath {l : Listing} (h : Listing.ofPath t dialect p = .ok l) :
    l.artifact.path = p :=
  Artifact.path_of_open (ofPath_eq_ok_iff.mp h).1

theorem offers_iff {l : Listing} (h : Listing.ofPath t dialect p = .ok l) {a : Artifact}
    {e : String} : Offers t dialect p a e ↔ a = l.artifact ∧ e ∈ l.entries := by
  obtain ⟨hopen, hentries⟩ := ofPath_eq_ok_iff.mp h
  rw [Offers, hopen, Except.ok.injEq, Artifact.mem_entries_iff hentries]
  constructor
  · rintro ⟨rfl, he⟩
    exact ⟨rfl, he⟩
  · rintro ⟨rfl, he⟩
    exact ⟨rfl, he⟩

theorem defines_iff {l : Listing} (h : Listing.ofPath t dialect p = .ok l) {name : ClassName} :
    Defines t dialect p name ↔ ∃ e ∈ l.entries, ClassName.ofEntry e = name := by
  simp only [Defines, offers_iff h]
  constructor
  · rintro ⟨_, e, ⟨-, he⟩, hname⟩
    exact ⟨e, he, hname⟩
  · rintro ⟨e, he, hname⟩
    exact ⟨_, e, ⟨rfl, he⟩, hname⟩

theorem place?_isSome_iff {l : Listing} (h : Listing.ofPath t dialect p = .ok l)
    {name : ClassName} : (l.place? name).isSome = true ↔ Defines t dialect p name := by
  rw [defines_iff h, Listing.place?, Option.isSome_map, List.find?_isSome]
  simp

/-- A definition in a listing is made by the least entry for the class. -/
theorem leastEntry_of_place? {l : Listing} (h : Listing.ofPath t dialect p = .ok l)
    {name : ClassName} {place : ClassPlace} (hplace : l.place? name = some place) :
    LeastEntry t dialect p name place.artifact place.entry := by
  obtain ⟨e, he, rfl⟩ := Option.map_eq_some_iff.mp hplace
  have hsorted := Artifact.pairwise_entries (ofPath_eq_ok_iff.mp h).2
  have hleast : ∀ e' ∈ l.entries, ClassName.ofEntry e' = name → e ≤ e' := by
    intro e' he' hname
    have hle := (find?_least totalOrder_textLe hsorted he).2 e' ⟨he', by simpa using hname⟩
    simpa [textLe] using hle
  refine ⟨(offers_iff h).mpr ⟨rfl, List.mem_of_find?_eq_some he⟩, ?_, ?_⟩
  · simpa using List.find?_some he
  · intro e' hoffers hname
    exact hleast e' ((offers_iff h).mp hoffers).2 hname

end

/-- The entries of an artifact can be looked through. -/
instance (t : FileTree) (dialect : ClassFile.Dialect) (p : Path) (name : ClassName) :
    Decidable (Defines t dialect p name) :=
  match h : Listing.ofPath t dialect p with
  | .ok l => decidable_of_iff _ (defines_iff h).symm
  | .error _ => .isFalse (by
      rintro ⟨a, e, ⟨ha, all, hall, -⟩, -⟩
      obtain ⟨l, hl⟩ := lists_iff.mp ⟨a, all, ha, hall⟩
      rw [h] at hl
      cases hl)

/-- The first path of a list at which a class is defined. -/
def firstDefining? (t : FileTree) (dialect : ClassFile.Dialect) (paths : List Path)
    (name : ClassName) : Option Path :=
  paths.find? fun p => Defines t dialect p name

/-! ## What an index has to answer -/

/-- The index answers by the first definition on the images of the platform and the class path.
Files may have changed when a class is loaded (`t'`). -/
structure FirstMatch (t : FileTree) (platform : Platform) (paths : List Path)
    (dialect : ClassFile.Dialect) (limit : Nat) (i : ClassIndex) : Prop where
  /-- The artifact of a class is the first that defines it. -/
  definer : ∀ name, i.definer? name = firstDefining? t dialect (platform.images ++ paths) name
  /-- Its class is read from the least entry of that artifact. -/
  loads : ∀ name p, firstDefining? t dialect (platform.images ++ paths) name = some p →
    ∃ a e, LeastEntry t dialect p name a e
      ∧ ∀ t', i.load t' name = (a.view t' dialect limit e).mapError .artifact
  /-- It is not found exactly if no artifact defines it. -/
  notFound : ∀ t' name, i.load t' name = .error (.classNotFound name) ↔
    firstDefining? t dialect (platform.images ++ paths) name = none
  /-- The names of the index are those an artifact defines. -/
  contains : ∀ name, i.contains name = true ↔
    ∃ p ∈ platform.images ++ paths, Defines t dialect p name
  /-- A class is assumed exactly if none does and its name has an assumed beginning. -/
  assumes : ∀ name, i.assumes name = true ↔
    (∀ p ∈ platform.images ++ paths, ¬ Defines t dialect p name)
      ∧ ∃ start ∈ platform.assumed, start.toList <+: name.toList
  /-- Every name counts once. -/
  size : ∃ names : Finset ClassName, i.size = names.card ∧
    ∀ name, name ∈ names ↔ ∃ p ∈ platform.images ++ paths, Defines t dialect p name
  /-- All classes of an artifact of the class path are known, used or not, whatever the images
  define. -/
  names : ∀ q p, paths.find? (fun p => p.sameAs q) = some p →
    ∃ names, i.namesIn? q = some names ∧ StrictlyAscending textLe names
      ∧ ∀ name, name ∈ names ↔ Defines t dialect p name
  /-- No others are. -/
  unlisted : ∀ q, i.namesIn? q = none ↔ paths.find? (fun p => p.sameAs q) = none

/-! ## What the listings of a class path say -/

/-- The listings of the artifacts at some paths, in order. -/
structure Listed (t : FileTree) (dialect : ClassFile.Dialect) (paths : List Path)
    (listings : List Listing) : Prop where
  /-- One for each path. -/
  paths_eq : listings.map (fun l => l.artifact.path) = paths
  /-- Each is what opening and listing gives. -/
  ofPath : ∀ l ∈ listings, Listing.ofPath t dialect l.artifact.path = .ok l

section

variable {t : FileTree} {dialect : ClassFile.Dialect} {paths : List Path}
  {listings : List Listing}

theorem listed_eq_ok_iff {p : Path} {l : Listing} :
    listed t dialect p = .ok l ↔ Listing.ofPath t dialect p = .ok l := by
  unfold listed
  exact mapError_eq_ok_iff

theorem exists_listed_iff {p : Path} : (∃ l, listed t dialect p = .ok l) ↔ Lists t p := by
  simp only [listed_eq_ok_iff]
  exact lists_iff.symm

theorem listed_eq_error_iff {p : Path} {failure : Failure} :
    listed t dialect p = .error failure ↔
      ∃ cause, Listing.ofPath t dialect p = .error cause ∧ failure = .ofIndexing p cause := by
  unfold listed
  simp only [mapError_eq_error_iff, eq_comm (a := failure)]

theorem listed_of_mapM (h : paths.mapM (listed t dialect) = .ok listings) :
    Listed t dialect paths listings := by
  have hall := mapM_eq_ok_iff.mp h
  induction hall with
  | nil => exact ⟨rfl, by simp⟩
  | cons hfirst hrest ih =>
    obtain ⟨hpaths, hofPath⟩ := ih (mapM_eq_ok_iff.mpr hrest)
    have hl := listed_eq_ok_iff.mp hfirst
    have hpath := path_of_ofPath hl
    refine ⟨by rw [List.map_cons, hpath, hpaths], fun l hmem => ?_⟩
    rcases List.mem_cons.mp hmem with rfl | hmem
    · rwa [hpath]
    · exact hofPath l hmem

/-- The first listing with a definition is the one of the first path that has it. -/
theorem Listed.firstDefining? (h : Listed t dialect paths listings) (name : ClassName) :
    (listings.findSome? fun l => l.place? name).map (fun place => place.artifact.path)
      = firstDefining? t dialect paths name := by
  obtain ⟨rfl, hofPath⟩ := h
  unfold ClassIndex.firstDefining?
  induction listings with
  | nil => rfl
  | cons l listings ih =>
    have hl := hofPath l List.mem_cons_self
    have hdefines : (l.place? name).isSome = true ↔ Defines t dialect l.artifact.path name :=
      place?_isSome_iff hl
    rw [List.findSome?_cons, List.map_cons, List.find?_cons]
    cases hplace : l.place? name with
    | some place =>
      rw [hplace] at hdefines
      have hpath := Artifact.path_of_open (leastEntry_of_place? hl hplace).offered.1
      simp [hdefines.mp rfl, hpath]
    | none =>
      rw [hplace] at hdefines
      have hnot : ¬ Defines t dialect l.artifact.path name := fun hd => by
        simpa using hdefines.mpr hd
      simp only [hnot, decide_false]
      exact ih fun l' hl' => hofPath l' (List.mem_cons_of_mem _ hl')

/-- The listing that defines a class, with the place it gives it. -/
theorem Listed.leastEntry (h : Listed t dialect paths listings) {name : ClassName}
    {place : ClassPlace} (hplace : (listings.findSome? fun l => l.place? name) = some place) :
    LeastEntry t dialect place.artifact.path name place.artifact place.entry := by
  obtain ⟨l, hmem, hl⟩ := List.exists_of_findSome?_eq_some hplace
  have hleast := leastEntry_of_place? (h.ofPath l hmem) hl
  rwa [Artifact.path_of_open hleast.offered.1]

theorem Listed.drop (h : Listed t dialect paths listings) (n : Nat) :
    Listed t dialect (paths.drop n) (listings.drop n) where
  paths_eq := by rw [← h.paths_eq, List.map_drop]
  ofPath l hl := h.ofPath l (List.mem_of_mem_drop hl)

theorem Listed.find? (h : Listed t dialect paths listings) (q : Path) :
    (listings.find? fun l => l.artifact.path.sameAs q).map (fun l => l.artifact.path)
      = paths.find? fun p => p.sameAs q := by
  rw [← h.paths_eq, List.find?_map]
  rfl

theorem mem_names {l : Listing} {name : ClassName} :
    name ∈ l.names ↔ ∃ e ∈ l.entries, ClassName.ofEntry e = name := by
  rw [Listing.names, mem_ascending, List.mem_map]

end

/-! ## The index of listings answers by the first definition -/

section

variable {t : FileTree} {i : ClassIndex} {name : ClassName}

theorem load_of_place {place : ClassPlace} (h : i.places[name]? = some place) :
    i.load t name = (place.artifact.view t i.dialect i.limit place.entry).mapError .artifact := by
  unfold load view?
  simp only [h]
  cases place.artifact.view t i.dialect i.limit place.entry <;> rfl

theorem load_of_no_place (h : i.places[name]? = none) :
    i.load t name = .error (.classNotFound name) := by
  unfold load view?
  rw [h]

theorem contains_eq_isSome_definer? : i.contains name = (i.definer? name).isSome := by
  simp [contains, definer?]

end

theorem firstMatch_ofListings {t : FileTree} {platform : Platform} {paths : List Path}
    {dialect : ClassFile.Dialect} {listings : List Listing} (limit : Nat)
    (h : Listed t dialect (platform.images ++ paths) listings) :
    FirstMatch t platform paths dialect limit (ofListings platform dialect limit listings) := by
  have hplaces := ofListings_places dialect platform limit listings
  have hdefiner : ∀ name, (ofListings platform dialect limit listings).definer? name
      = firstDefining? t dialect (platform.images ++ paths) name := by
    intro name
    rw [definer?, hplaces, h.firstDefining?]
  have hcontains : ∀ name, (ofListings platform dialect limit listings).contains name = true ↔
      ∃ p ∈ platform.images ++ paths, Defines t dialect p name := by
    intro name
    rw [contains_eq_isSome_definer?, hdefiner, firstDefining?, List.find?_isSome]
    simp
  have hartifacts : Listed t dialect paths (listings.drop platform.images.length) := by
    have hdrop := h.drop platform.images.length
    rwa [List.drop_left] at hdrop
  constructor
  · exact hdefiner
  · intro name p hp
    rw [← h.firstDefining?] at hp
    obtain ⟨place, hplace, rfl⟩ := Option.map_eq_some_iff.mp hp
    exact ⟨_, _, h.leastEntry hplace, fun t' => load_of_place ((hplaces name).trans hplace)⟩
  · intro t' name
    rw [← h.firstDefining?, Option.map_eq_none_iff, ← hplaces]
    cases hplace : (ofListings platform dialect limit listings).places[name]? with
    | none => simp [load_of_no_place hplace]
    | some place =>
      rw [load_of_place hplace]
      cases place.artifact.view t' _ _ place.entry <;> simp [Except.mapError]
  · exact hcontains
  · intro name
    rw [assumes, Bool.and_eq_true, Bool.not_eq_true', Bool.eq_false_iff, ne_eq, hcontains]
    refine and_congr (by simp) ?_
    show platform.assumed.any _ = true ↔ _
    simp [Text.startsWith]
  · refine ⟨(ofListings platform dialect limit listings).places.keys.toFinset, ?_, ?_⟩
    · rw [List.toFinset_card_of_nodup Std.HashMap.nodup_keys, Std.HashMap.length_keys]
      rfl
    · intro name
      rw [List.mem_toFinset, Std.HashMap.mem_keys, ← hcontains]
      exact Std.HashMap.mem_iff_contains
  · intro q p hp
    rw [← hartifacts.find?] at hp
    obtain ⟨l, hl, rfl⟩ := Option.map_eq_some_iff.mp hp
    refine ⟨l.names, ?_, strictlyAscending_ascending totalOrder_textLe _, fun name => ?_⟩
    · show (List.find? _ _).map Listing.names = _
      exact congrArg (Option.map Listing.names) hl
    · rw [mem_names, defines_iff (hartifacts.ofPath l (List.mem_of_find?_eq_some hl))]
  · intro q
    rw [← hartifacts.find?, Option.map_eq_none_iff]
    exact Option.map_eq_none_iff

section

variable {t : FileTree} {platform : Platform} {paths : List Path} {dialect : ClassFile.Dialect}
  {limit : Nat} {log : Array Event}

theorem build_eq_ok_iff {i : ClassIndex} :
    ((build t paths platform dialect limit).run.run log).1 = .ok i ↔
      paths ≠ [] ∧ ∃ listings, (platform.images ++ paths).mapM (listed t dialect) = .ok listings
        ∧ ofListings platform dialect limit listings = i := by
  rw [answers_build]
  split
  · next hempty => simp [hempty]
  · next hpaths =>
    rw [except_bind_eq_ok_iff]
    constructor
    · rintro ⟨listings, hlistings, hi⟩
      cases hi
      exact ⟨hpaths, listings, hlistings, rfl⟩
    · rintro ⟨-, listings, hlistings, rfl⟩
      exact ⟨listings, hlistings, rfl⟩

theorem build_eq_error_iff {failure : Failure} :
    ((build t paths platform dialect limit).run.run log).1 = .error failure ↔
      (paths = [] ∧ failure = .emptyClassPath)
        ∨ (paths ≠ [] ∧ FirstFailure (listed t dialect) (platform.images ++ paths) failure) := by
  rw [answers_build]
  split
  · next hempty => simp [hempty, eq_comm]
  · next hpaths =>
    rw [except_bind_eq_error_iff, mapM_eq_error_iff]
    simp only [hpaths, false_and, false_or, not_false_eq_true, ne_eq, true_and]
    refine or_iff_left ?_
    rintro ⟨listings, -, h⟩
    cases h

end

/-- Indexing the images of a platform and a class path succeeds exactly if there is a class path
and every artifact opens and lists.  Otherwise the class path is blamed, for the first artifact
that does not if there is a class path at all.  An index answers by the first definition. -/
theorem build_firstMatch (t : FileTree) (platform : Platform) (paths : List Path)
    (dialect : ClassFile.Dialect) (limit : Nat) (log : Array Event) :
    let result := ((build t paths platform dialect limit).run.run log).1
    ((∃ i, result = .ok i) ↔ paths ≠ [] ∧ ∀ p ∈ platform.images ++ paths, Lists t p)
      ∧ (∀ failure, result = .error failure ↔
        (paths = [] ∧ failure = .emptyClassPath)
          ∨ (paths ≠ [] ∧ ∃ before p after cause, platform.images ++ paths = before ++ p :: after
            ∧ (∀ p' ∈ before, Lists t p') ∧ Listing.ofPath t dialect p = .error cause
            ∧ failure = .ofIndexing p cause))
      ∧ (∀ failure, result = .error failure → failure.BlamesClassPath
        ∧ ∃ rest, failure.message = "Invalid classpath: " ++ rest)
      ∧ ∀ i, result = .ok i → FirstMatch t platform paths dialect limit i := by
  intro result
  have hfirst : ∀ failure, FirstFailure (listed t dialect) (platform.images ++ paths) failure ↔
      ∃ before p after cause, platform.images ++ paths = before ++ p :: after
        ∧ (∀ p' ∈ before, Lists t p') ∧ Listing.ofPath t dialect p = .error cause
        ∧ failure = .ofIndexing p cause := by
    intro failure
    simp only [FirstFailure, exists_listed_iff, listed_eq_error_iff, exists_and_left]
  refine ⟨?_, fun failure => ?_, fun failure hfailure => ?_, fun i hi => ?_⟩
  · have hlists : (∃ listings, (platform.images ++ paths).mapM (listed t dialect) = .ok listings)
        ↔ ∀ p ∈ platform.images ++ paths, Lists t p := by
      rw [exists_mapM_eq_ok_iff]
      simp only [exists_listed_iff]
    rw [← hlists]
    constructor
    · rintro ⟨i, hi⟩
      obtain ⟨hpaths, listings, hlistings, -⟩ := build_eq_ok_iff.mp hi
      exact ⟨hpaths, listings, hlistings⟩
    · rintro ⟨hpaths, listings, hlistings⟩
      exact ⟨_, build_eq_ok_iff.mpr ⟨hpaths, listings, hlistings, rfl⟩⟩
  · rw [build_eq_error_iff, hfirst]
  · have hblames : failure.BlamesClassPath := by
      rcases build_eq_error_iff.mp hfailure with ⟨-, rfl⟩ | ⟨-, h⟩
      · trivial
      · obtain ⟨_, p, _, cause, -, -, -, rfl⟩ := (hfirst failure).mp h
        exact Failure.blamesClassPath_ofIndexing p cause
    exact ⟨hblames, hblames.message⟩
  · obtain ⟨-, listings, hlistings, rfl⟩ := build_eq_ok_iff.mp hi
    exact firstMatch_ofListings limit (listed_of_mapM hlistings)

end ClassIndex

end Linkage
