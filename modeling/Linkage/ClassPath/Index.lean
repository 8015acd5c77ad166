import Std.Data.HashMap
import Linkage.ClassPath.Platform
import Linkage.Event

/-!
# The index of a class path

Which artifact defines a class.  Artifacts are searched in order, platform images first, and the
first that defines a name wins; within one artifact the least entry wins.  All artifacts are opened
and listed when the index is built, and stay open.
-/

namespace Linkage

/-- Where a class is defined. -/
structure ClassPlace where
  /-- The artifact. -/
  artifact : Artifact
  /-- The entry in it. -/
  entry : String
  deriving DecidableEq, Repr

/-- An artifact with its class entries at the time of indexing, ascending. -/
structure Listing where
  /-- The artifact. -/
  artifact : Artifact
  /-- Its class entries. -/
  entries : List String
  deriving DecidableEq, Repr

/-- The definition of every class name. -/
abbrev Places := Std.HashMap ClassName ClassPlace

/-- A class path that has been indexed. -/
structure ClassIndex where
  /-- Platform images in order. -/
  images : List Listing
  /-- Artifacts of the class path in order. -/
  artifacts : List Listing
  /-- The definition of every name. -/
  places : Places
  /-- What is assumed to be supplied. -/
  platform : Platform
  /-- How classes are found and read. -/
  dialect : ClassFile.Dialect
  /-- Largest class file that is read. -/
  limit : Nat

namespace Listing

/-- Opens and lists the artifact at a path. -/
def ofPath (t : FileTree) (dialect : ClassFile.Dialect) (p : Path) :
    Except ArtifactFailure Listing := do
  let artifact ← Artifact.open t p
  let entries ← artifact.entries t dialect
  return ⟨artifact, entries⟩

/-- The class names the artifact defines, ascending, each once. -/
def names (l : Listing) : List ClassName :=
  ascending textLe (l.entries.map ClassName.ofEntry)

end Listing

namespace ClassIndex

/-! ## Building -/

/-- Adds the definition an entry makes, unless there is one already. -/
def addEntry (artifact : Artifact) (places : Places) (entry : String) : Logged Places := do
  let name := ClassName.ofEntry entry
  match places[name]? with
  | some winner =>
    Logged.note (.shadowed name artifact.path winner.artifact.path)
    return places
  | none => return places.insert name ⟨artifact, entry⟩

/-- Opens the artifact at a path and adds its definitions. -/
def addArtifact (t : FileTree) (dialect : ClassFile.Dialect) (sofar : List Listing × Places)
    (p : Path) : Logged (List Listing × Places) := do
  match Listing.ofPath t dialect p with
  | .error cause => throw (.ofIndexing p cause)
  | .ok listing =>
    let places ← listing.entries.foldlM (addEntry listing.artifact) sofar.2
    return (sofar.1 ++ [listing], places)

/-- Indexes the images of a platform and then a class path. -/
def build (t : FileTree) (paths : List Path) (platform : Platform) (dialect : ClassFile.Dialect)
    (limit : Nat) : Logged ClassIndex := do
  if paths.isEmpty then throw .emptyClassPath
  let all := platform.images ++ paths
  let (listings, places) ← all.foldlM (addArtifact t dialect) ([], ∅)
  let images := platform.images.length
  Logged.note (.indexed places.size all.length images)
  return { images := listings.take images, artifacts := listings.drop images, places, platform,
           dialect, limit }

/-! ## Asking -/

/-- How many names are defined. -/
def size (i : ClassIndex) : Nat := i.places.size

/-- Is no name defined? -/
def isEmpty (i : ClassIndex) : Bool := i.size == 0

/-- Is the name defined? -/
def contains (i : ClassIndex) (name : ClassName) : Bool := i.places.contains name

/-- The artifact that defines a name. -/
def definer? (i : ClassIndex) (name : ClassName) : Option Path :=
  i.places[name]?.map fun place => place.artifact.path

/-- The class that defines a name, if one does. -/
def view? (t : FileTree) (i : ClassIndex) (name : ClassName) :
    Except ArtifactFailure (Option ClassView) :=
  match i.places[name]? with
  | none => .ok none
  | some place => (place.artifact.view t i.dialect i.limit place.entry).map some

/-- The class that defines a name. -/
def load (t : FileTree) (i : ClassIndex) (name : ClassName) : Except Failure ClassView :=
  match i.view? t name with
  | .error cause => .error (.artifact cause)
  | .ok none => .error (.classNotFound name)
  | .ok (some c) => .ok c

/-- Is the name undefined and taken to be supplied by the platform? -/
def assumes (i : ClassIndex) (name : ClassName) : Bool :=
  !i.contains name && i.platform.assumes name

/-- The artifacts of the class path in order. -/
def paths (i : ClassIndex) : List Path :=
  i.artifacts.map fun l => l.artifact.path

/-- The platform images in order. -/
def imagePaths (i : ClassIndex) : List Path :=
  i.images.map fun l => l.artifact.path

/-- The first artifact of the class path at a path. -/
def artifact? (i : ClassIndex) (p : Path) : Option Listing :=
  i.artifacts.find? fun l => l.artifact.path.sameAs p

/-- Its position on the class path. -/
def position? (i : ClassIndex) (p : Path) : Option Nat :=
  i.artifacts.findIdx? fun l => l.artifact.path.sameAs p

/-- The names an artifact of the class path defines, used or not. -/
def namesIn? (i : ClassIndex) (p : Path) : Option (List ClassName) :=
  (i.artifact? p).map Listing.names

/-- All classes of an artifact, as it is now. -/
def viewsOf (t : FileTree) (i : ClassIndex) (l : Listing) :
    Except ArtifactFailure (List ClassView) :=
  l.artifact.views t i.dialect i.limit

end ClassIndex

end Linkage
