import Linkage.ClassPath.Index
import Linkage.Proofs.Operations

/-!
# How an index is built

Indexing opens and lists one artifact after another and enters each definition unless its name is
taken.  What it reports on the way aside, this is the same as listing all artifacts first and then
making an index of the listings, whose definition of a name is the first one any listing has.

* `answers_build`: indexing in two steps.
* `ofListings_places`: the definitions of an index.
-/

namespace Linkage

/-- The first definition of a name in a listing. -/
def Listing.place? (l : Listing) (name : ClassName) : Option ClassPlace :=
  (l.entries.find? fun e => ClassName.ofEntry e == name).map fun e => ⟨l.artifact, e⟩

namespace ClassIndex

/-! ## Indexing without reports -/

/-- Opens and lists the artifact at a path, or says why the class path is at fault. -/
def listed (t : FileTree) (dialect : ClassFile.Dialect) (p : Path) : Except Failure Listing :=
  (Listing.ofPath t dialect p).mapError (.ofIndexing p)

/-- Enters the definition an entry makes, unless there is one already. -/
def enter (artifact : Artifact) (places : Places) (entry : String) : Places :=
  match places[ClassName.ofEntry entry]? with
  | some _ => places
  | none => places.insert (ClassName.ofEntry entry) ⟨artifact, entry⟩

/-- Enters all definitions of a listing. -/
def enterAll (places : Places) (l : Listing) : Places :=
  l.entries.foldl (enter l.artifact) places

/-- An index from its listings, platform images first, and its definitions. -/
def assemble (platform : Platform) (dialect : ClassFile.Dialect) (limit : Nat)
    (listings : List Listing) (places : Places) : ClassIndex :=
  { images := listings.take platform.images.length,
    artifacts := listings.drop platform.images.length, places, platform, dialect, limit }

/-- The index of artifacts that have been listed. -/
def ofListings (platform : Platform) (dialect : ClassFile.Dialect) (limit : Nat)
    (listings : List Listing) : ClassIndex :=
  assemble platform dialect limit listings (listings.foldl enterAll ∅)

variable (t : FileTree) (dialect : ClassFile.Dialect)

theorem answers_addEntry (artifact : Artifact) (places : Places) (entry : String) :
    Answers (addEntry artifact places entry) (.ok (enter artifact places entry)) := by
  intro log
  unfold addEntry enter
  simp only
  cases places[ClassName.ofEntry entry]? with
  | some winner => rfl
  | none => rfl

theorem answers_addArtifact (sofar : List Listing × Places) (p : Path) :
    Answers (addArtifact t dialect sofar p)
      (do let l ← listed t dialect p; return (sofar.1 ++ [l], enterAll sofar.2 l)) := by
  unfold addArtifact listed
  cases Listing.ofPath t dialect p with
  | error cause => exact answers_throw _
  | ok l =>
    have hentries : l.entries.foldlM (m := Except Failure)
        (fun places e => .ok (enter l.artifact places e)) sofar.2 = .ok (enterAll sofar.2 l) :=
      List.foldlM_pure
    have hplaces := Answers.foldlM (answers_addEntry l.artifact) l.entries sofar.2
    rw [hentries] at hplaces
    exact hplaces.bind fun places => answers_pure (sofar.1 ++ [l], places)

/-- Entering listings on the way keeps them all, in order. -/
theorem foldl_collect (listings done : List Listing) (places : Places) :
    listings.foldl (fun s l => (s.1 ++ [l], enterAll s.2 l)) (done, places)
      = (done ++ listings, listings.foldl enterAll places) := by
  induction listings generalizing done places with
  | nil => simp
  | cons l listings ih =>
    rw [List.foldl_cons, ih, List.foldl_cons, List.append_assoc]
    rfl

/-- Indexing lists all artifacts and makes an index of the listings. -/
theorem answers_build (paths : List Path) (platform : Platform) (limit : Nat) :
    Answers (build t paths platform dialect limit)
      (if paths = [] then .error .emptyClassPath
        else do
          let listings ← (platform.images ++ paths).mapM (listed t dialect)
          return ofListings platform dialect limit listings) := by
  unfold build
  cases paths with
  | nil => exact answers_throw _
  | cons first rest =>
    have hall := Answers.foldlM (answers_addArtifact t dialect)
      (platform.images ++ first :: rest) ([], ∅)
    rw [foldlM_eq_mapM_foldl fun s l => (s.1 ++ [l], enterAll s.2 l)] at hall
    intro log
    rw [if_neg (List.cons_ne_nil first rest)]
    refine (hall.bind (g := fun s => .ok (assemble platform dialect limit s.1 s.2))
      (fun _ _ => rfl) log).trans ?_
    cases (platform.images ++ first :: rest).mapM (listed t dialect) with
    | error failure => rfl
    | ok listings =>
      show Except.ok _ = Except.ok _
      rw [foldl_collect]
      rfl

/-! ## The definitions of an index -/

theorem enter_getElem? (artifact : Artifact) (places : Places) (entry : String)
    (name : ClassName) :
    (enter artifact places entry)[name]? = places[name]?.or
      (if ClassName.ofEntry entry == name then some ⟨artifact, entry⟩ else none) := by
  unfold enter
  by_cases hname : ClassName.ofEntry entry = name
  · subst hname
    cases hplace : places[ClassName.ofEntry entry]? with
    | some winner => simp [hplace]
    | none => simp
  · have hkey : (ClassName.ofEntry entry == name) = false := by simpa using hname
    rw [hkey]
    cases places[ClassName.ofEntry entry]? with
    | some winner => simp
    | none => simp [Std.HashMap.getElem?_insert, hname]

theorem enterAll_getElem? (places : Places) (l : Listing) (name : ClassName) :
    (enterAll places l)[name]? = places[name]?.or (l.place? name) := by
  unfold enterAll Listing.place?
  induction l.entries generalizing places with
  | nil => simp
  | cons entry entries ih =>
    rw [List.foldl_cons, ih, enter_getElem?, Option.or_assoc, List.find?_cons]
    cases ClassName.ofEntry entry == name with
    | true => simp
    | false => simp

theorem foldl_enterAll_getElem? (listings : List Listing) (places : Places) (name : ClassName) :
    (listings.foldl enterAll places)[name]?
      = places[name]?.or (listings.findSome? fun l => l.place? name) := by
  induction listings generalizing places with
  | nil => simp
  | cons l listings ih =>
    rw [List.foldl_cons, ih, enterAll_getElem?, Option.or_assoc, List.findSome?_cons]
    cases l.place? name with
    | some place => simp
    | none => simp

/-- A name is defined where the first listing that has it defines it. -/
theorem ofListings_places (platform : Platform) (limit : Nat) (listings : List Listing)
    (name : ClassName) :
    (ofListings platform dialect limit listings).places[name]?
      = listings.findSome? fun l => l.place? name := by
  show (listings.foldl enterAll ∅)[name]? = _
  rw [foldl_enterAll_getElem?]
  simp

end ClassIndex

end Linkage
