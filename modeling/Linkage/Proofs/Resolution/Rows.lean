import Linkage.Proofs.Artifacts
import Linkage.Proofs.Resolution.Walk

/-!
# Indexes made of given classes

Concrete hierarchies are written as rows: the classes, each with the archive that holds it.  The
index of the rows keeps every class in its archive, under an entry that is called like the class,
and reads the class back from there.  What the index answers is read off the rows alone.

* `ofRows`: the index.
* `classOf?`: the first class of a name among the rows.
* `view?_ofRows`, `definer?_ofRows`, `assumes_ofRows`, `size_ofRows`: what the index answers.
-/

namespace Linkage

/-- A class and the archive that holds it. -/
structure Row where
  /-- The archive. -/
  archive : Path
  /-- The class. -/
  view : ClassView

namespace Row

/-- Is this the class of the name? -/
def isCalled (name : ClassName) (r : Row) : Bool := r.view.name == name

/-- The entry that holds the class. -/
def entry (r : Row) : String := r.view.name ++ ClassName.entrySuffix

/-- What the archive holds.  As many bytes stand for a class as there are rows before it. -/
def stored (rows : List Row) (r : Row) : ArchiveEntry :=
  ⟨r.entry, .replicate (rows.findIdx (isCalled r.view.name)) 0, false⟩

/-- The rows of an archive, as it holds them. -/
def storedAt (rows : List Row) (archive : Path) : List ArchiveEntry :=
  (rows.filter fun r => r.archive = archive).map (stored rows)

/-- The archive of a row, with all it holds. -/
def artifact (rows : List Row) (r : Row) : Artifact :=
  ⟨r.archive, some (storedAt rows r.archive)⟩

/-- Reads the class some bytes stand for. -/
def read (rows : List Row) (bytes : Bytes) : Except ClassFile.Fault ClassView :=
  (rows[bytes.length]?).elim (.error .unexpectedEnd) fun r => .ok r.view

/-- The dialect of the rows. -/
def dialect (rows : List Row) : ClassFile.Dialect :=
  ⟨ClassFile.Dialect.acceptsClassFile, read rows⟩

/-- Where the rows define their classes; of rows with one name the first wins. -/
def places (place : Row → ClassPlace) (rows : List Row) : Places :=
  rows.foldr (fun r places => places.insert r.view.name (place r)) ∅

/-- The class of a name. -/
def classOf? (rows : List Row) (name : ClassName) : Option ClassView :=
  (rows.find? (isCalled name)).map view

variable {rows : List Row} {name : ClassName} {r : Row}

theorem isCalled_iff : r.isCalled name = true ↔ r.view.name = name := beq_iff_eq

theorem name_of_find? (h : rows.find? (isCalled name) = some r) : r.view.name = name :=
  isCalled_iff.mp (List.find?_some h)

theorem getElem?_places (place : Row → ClassPlace) (rows : List Row) (name : ClassName) :
    (places place rows)[name]? = (rows.find? (isCalled name)).map place := by
  induction rows with
  | nil => simp [places]
  | cons r rows ih =>
    simp only [places, List.foldr_cons, Std.HashMap.getElem?_insert, List.find?_cons, isCalled]
    cases r.view.name == name with
    | true => rfl
    | false => exact ih

theorem size_places (place : Row → ClassPlace) (rows : List Row)
    (hnames : (rows.map fun r => r.view.name).Nodup) :
    (places place rows).size = rows.length := by
  induction rows with
  | nil => simp [places]
  | cons r rows ih =>
    obtain ⟨hfirst, hrest⟩ := List.nodup_cons.mp hnames
    have hnew : r.view.name ∉ places place rows := by
      rw [Std.HashMap.mem_iff_isSome_getElem?, getElem?_places, Option.isSome_map,
        Bool.not_eq_true, Option.isSome_eq_false_iff, Option.isNone_iff_eq_none,
        List.find?_eq_none]
      intro s hs hcalled
      exact hfirst (List.mem_map.mpr ⟨s, hs, isCalled_iff.mp hcalled⟩)
    rw [places, List.foldr_cons, Std.HashMap.size_insert]
    exact (if_neg hnew).trans (congrArg (· + 1) (ih hrest))

/-- The archive of the first row of a name finds this row under its entry. -/
theorem find?_storedAt (h : rows.find? (isCalled name) = some r) :
    (storedAt rows r.archive).find? (fun e => e.name == r.entry) = some (stored rows r) := by
  obtain ⟨hcalled, before, after, hrows, hbefore⟩ := List.find?_eq_some_iff_append.mp h
  have hentry : ∀ s : Row, (s.entry == r.entry) = s.isCalled name := by
    intro s
    rw [Bool.eq_iff_iff, beq_iff_eq, isCalled_iff, entry, entry, String.append_left_inj,
      name_of_find? h]
  have hfind : rows.find? (fun s => decide (decide (s.archive = r.archive) = true
      ∧ ((fun e : ArchiveEntry => e.name == r.entry) ∘ stored rows) s = true)) = some r := by
    rw [List.find?_eq_some_iff_append]
    refine ⟨?_, before, after, hrows, fun s hs => ?_⟩
    · simp [stored]
    · have hother := hbefore s hs
      simp only [Bool.not_eq_eq_eq_not, Bool.not_true] at hother
      simp [stored, hentry, hother]
  rw [storedAt, List.find?_map, List.find?_filter, hfind]
  rfl

theorem view_artifact (t : FileTree) (h : rows.find? (isCalled name) = some r) :
    (artifact rows r).view t (dialect rows) rows.length r.entry = .ok r.view := by
  have hread : read rows (stored rows r).bytes = .ok r.view := by
    have hat : rows[rows.findIdx (isCalled r.view.name)]? = some r := by
      rw [← List.find?_eq_getElem?_findIdx, name_of_find? h, h]
    rw [read, stored, List.length_replicate, hat]
    rfl
  have hsize : (stored rows r).bytes.length ≤ rows.length := by
    rw [stored, List.length_replicate]
    exact List.findIdx_le_length
  exact Artifact.view_of_find? (find?_storedAt h) hsize rfl hread

end Row

namespace ClassIndex

open Row

/-- The index of the rows, without a platform image. -/
def ofRows (rows : List Row) : ClassIndex where
  images := []
  artifacts := (rows.map Row.archive).dedup.map fun p =>
    ⟨⟨p, some (storedAt rows p)⟩, ((storedAt rows p).map ArchiveEntry.name).mergeSort textLe⟩
  places := Row.places (fun r => ⟨artifact rows r, r.entry⟩) rows
  platform := {}
  dialect := Row.dialect rows
  limit := rows.length

variable {rows : List Row} {name : ClassName}

theorem view?_ofRows (t : FileTree) (rows : List Row) (name : ClassName) :
    (ofRows rows).view? t name = .ok (classOf? rows name) := by
  have hplace := getElem?_places (fun r => ⟨artifact rows r, r.entry⟩) rows name
  rw [view?, ofRows, hplace, classOf?]
  cases hrow : rows.find? (isCalled name) with
  | none => rfl
  | some r =>
    show Except.map some ((artifact rows r).view t (Row.dialect rows) rows.length r.entry) = _
    rw [view_artifact t hrow]
    rfl

theorem loads_ofRows (t : FileTree) {c : ClassView} (h : classOf? rows name = some c) :
    (ofRows rows).Loads t name c :=
  (view?_ofRows t rows name).trans (congrArg Except.ok h)

theorem answer_ofRows (t : FileTree) (rows : List Row) :
    (ofRows rows).answer t = fun name => .ok (classOf? rows name) :=
  funext fun name => answer_of_view?_ok (view?_ofRows t rows name)

theorem carriesNames_ofRows (t : FileTree) (rows : List Row) : (ofRows rows).CarriesNames t := by
  intro name c h
  have hclass : classOf? rows name = some c := by
    rw [Loads, view?_ofRows] at h
    exact Except.ok.inj h
  obtain ⟨r, hrow, rfl⟩ := Option.map_eq_some_iff.mp hclass
  exact name_of_find? hrow

theorem definer?_ofRows (rows : List Row) (name : ClassName) :
    (ofRows rows).definer? name = (rows.find? (isCalled name)).map Row.archive := by
  rw [definer?, ofRows, getElem?_places, Option.map_map]
  rfl

theorem size_ofRows (rows : List Row) (hnames : (rows.map fun r => r.view.name).Nodup) :
    (ofRows rows).size = rows.length :=
  size_places _ rows hnames

theorem contains_ofRows (rows : List Row) (name : ClassName) :
    (ofRows rows).contains name = (classOf? rows name).isSome := by
  cases hclass : classOf? rows name with
  | none => exact view?_eq_ok_none_iff.mp (hclass ▸ view?_ofRows ⟨[], []⟩ rows name)
  | some c => exact (loads_ofRows ⟨[], []⟩ hclass).contains

theorem assumes_ofRows (rows : List Row) : (ofRows rows).assumes = fun name =>
    (classOf? rows name).isNone && ({} : Platform).assumes name := by
  funext name
  rw [assumes, contains_ofRows, Option.not_isSome]
  rfl

end ClassIndex

end Linkage
