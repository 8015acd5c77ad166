import Linkage.Ascending
import Linkage.ClassFile.Dialect
import Linkage.Storage.FileTree
import Linkage.Text.Escaped

/-!
# Artifacts

An artifact is an archive or a directory of class files.  Opening an archive keeps its content for
as long as it is open; a directory is looked at anew each time.  Entries are listed in ascending
order of their names.  An entry is read in this order: find it, compare its size with the limit,
read its bytes, decode them.

The size of an entry is the number of its bytes: an archive that declares another size is not
modelled, nor is anything else of its format but entries whose checksum is wrong.  A directory that
is read as an entry has the size `directorySize`, the 4096 bytes usual for small directories, which
decides between a directory that is too large and one that cannot be read.
-/

namespace Linkage

/-- How an artifact keeps its classes. -/
inductive ArtifactForm where
  /-- In an archive. -/
  | archive
  /-- In a directory. -/
  | directory
  deriving DecidableEq, Repr, Inhabited

/-- Why bytes could not be read. -/
inductive ReadFault where
  /-- The path does not lead to them. -/
  | path (fault : PathFault)
  /-- The directory could not be listed. -/
  | listing (directory : Path) (fault : PathFault)
  /-- They do not have the checksum that was stored. -/
  | checksum
  deriving DecidableEq, Repr

/-- What is wrong with an archive. -/
inductive ArchiveFault where
  /-- The file is no archive. -/
  | notAnArchive
  /-- There is no entry with this name. -/
  | noSuchEntry
  deriving DecidableEq, Repr

/-- Why an artifact, or a class in it, could not be read. -/
inductive ArtifactFailure where
  /-- There is no such artifact. -/
  | missing (path : Path) (fault : PathFault)
  /-- A file could not be read. -/
  | unreadable (path : Path) (fault : ReadFault)
  /-- The archive is at fault. -/
  | badArchive (path : Path) (fault : ArchiveFault)
  /-- The entry is no class file. -/
  | badClass (path : Path) (entry : String) (fault : ClassFile.Fault)
  /-- The entry has more bytes than the limit allows. -/
  | tooLarge (path : Path) (entry : String) (size limit : Nat)
  deriving DecidableEq, Repr

/-- An artifact that has been opened. -/
structure Artifact where
  /-- Where it is. -/
  path : Path
  /-- The entries of an archive; nothing for a directory. -/
  archive : Option (List ArchiveEntry)
  deriving DecidableEq, Repr

namespace ArtifactForm

/-- The form as a word. -/
def word : ArtifactForm → String
  | .archive => "Archive"
  | .directory => "Directory"

/-- The form as a word. -/
def toJson (f : ArtifactForm) : Json := .string f.word

/-- Reads the word. -/
def decoder {ε : Type} : Json.Decoder ε ArtifactForm :=
  .variant fun
    | "Archive" => some (.word .archive)
    | "Directory" => some (.word .directory)
    | _ => none

/-- The form of what a path leads to: everything but a directory is taken for an archive. -/
def ofNode : Node → ArtifactForm
  | .file _ _ => .archive
  | _ => .directory

/-- The form of the artifact at a path. -/
def ofPath (t : FileTree) (p : Path) : Except ArtifactFailure ArtifactForm :=
  match t.lookUp p with
  | .ok node => .ok (ofNode node)
  | .error fault => .error (.missing p fault)

end ArtifactForm

namespace ReadFault

/-- The fault in words. -/
def message : ReadFault → String
  | .path fault => fault.message
  | .listing directory fault =>
    "IO error for operation on " ++ directory.text ++ ": " ++ fault.message
  | .checksum => "Invalid checksum"

end ReadFault

namespace ArchiveFault

/-- The fault in words. -/
def message : ArchiveFault → String
  | .notAnArchive => "invalid Zip archive: Could not find EOCD"
  | .noSuchEntry => "specified file not found in archive"

end ArchiveFault

namespace ArtifactFailure

/-- The failure in words. -/
def message : ArtifactFailure → String
  | .missing path fault => "Invalid classpath: " ++ path.text ++ ": " ++ fault.message
  | .unreadable path fault => "I/O error reading " ++ path.text ++ ": " ++ fault.message
  | .badArchive path fault => "Archive error reading " ++ path.text ++ ": " ++ fault.message
  | .badClass path entry fault =>
    "Invalid class file " ++ entry ++ " in " ++ path.text ++ ": " ++ fault.message
  | .tooLarge path entry size limit =>
    let path := path.text
    s!"Class file {entry} in {path} is {size} bytes (limit {limit})"

end ArtifactFailure

namespace Artifact

/-- Opens the artifact at a path. -/
def «open» (t : FileTree) (p : Path) : Except ArtifactFailure Artifact :=
  match t.lookUp p with
  | .error fault => .error (.missing p fault)
  | .ok (.file _ (.archive entries)) => .ok ⟨p, some entries⟩
  | .ok (.file _ (.plain _)) => .error (.badArchive p .notAnArchive)
  | .ok _ => .ok ⟨p, none⟩

/-- How the artifact keeps its classes. -/
def form (a : Artifact) : ArtifactForm :=
  if a.archive.isSome then .archive else .directory

/-- Names from a directory to a file, as an entry. -/
def entryOf (names : List String) : String :=
  String.intercalate "/" names

/-- The directories below a directory artifact, ascending, by their own paths. -/
def directoryPaths (t : FileTree) (a : Artifact) (names : List String) : List Path :=
  ((t.directoriesBelow names).map entryOf).mergeSort textLe |>.map a.path.join

/-- The entries below what the path of an artifact leads to.  Every directory is opened by its
own path, which must not be too long.  A file that has taken the place of the directory is its
own entry, without a name. -/
def entriesBelow (t : FileTree) (a : Artifact) : Node → Except ArtifactFailure (List String)
  | .directory names =>
    match (a.directoryPaths t names).find? fun p =>
        FileTree.maxPathLength < p.text.utf8ByteSize with
    | some p => .error (.unreadable a.path (.listing p .nameTooLong))
    | none => .ok ((t.filesBelow names).map fun f => entryOf f.1)
  | .file _ _ => .ok [""]
  | .outside => .ok []

/-- All names an artifact holds. -/
def allEntries (t : FileTree) (a : Artifact) : Except ArtifactFailure (List String) :=
  match a.archive with
  | some entries => .ok (entries.map ArchiveEntry.name)
  | none =>
    match t.lookUp a.path with
    | .ok node => a.entriesBelow t node
    | .error fault => .error (.unreadable a.path (.listing a.path fault))

/-- The entries that hold classes, ascending. -/
def entries (t : FileTree) (dialect : ClassFile.Dialect) (a : Artifact) :
    Except ArtifactFailure (List String) := do
  let entries ← a.allEntries t
  return (entries.filter dialect.lists).mergeSort textLe

/-- Fails when an entry has more bytes than the limit allows. -/
def checkSize (a : Artifact) (entry : String) (size limit : Nat) :
    Except ArtifactFailure Unit :=
  if limit < size then .error (.tooLarge a.path entry size limit) else .ok ()

/-- The size of a directory as a file. -/
def directorySize : Nat := 4096

/-- The bytes of an entry of an archive. -/
def readArchived (a : Artifact) (entries : List ArchiveEntry) (entry : String) (limit : Nat) :
    Except ArtifactFailure Bytes := do
  match entries.find? fun e => e.name == entry with
  | none => throw (.badArchive a.path .noSuchEntry)
  | some e =>
    a.checkSize entry e.bytes.length limit
    if e.isCorrupt then throw (.unreadable a.path .checksum)
    return e.bytes

/-- The bytes of a file in a directory. -/
def readFile (t : FileTree) (a : Artifact) (entry : String) (limit : Nat) :
    Except ArtifactFailure Bytes := do
  let path := a.path.join entry
  match t.lookUp path with
  | .error fault => throw (.unreadable path (.path fault))
  | .ok (.file _ content) =>
    a.checkSize entry content.size limit
    return content.bytes
  | .ok _ =>
    a.checkSize entry directorySize limit
    throw (.unreadable path (.path .isDirectory))

/-- The class an entry holds. -/
def view (t : FileTree) (dialect : ClassFile.Dialect) (limit : Nat) (a : Artifact)
    (entry : String) : Except ArtifactFailure ClassView := do
  let bytes ← match a.archive with
    | some entries => a.readArchived entries entry limit
    | none => a.readFile t entry limit
  match dialect.read bytes with
  | .ok c => return c
  | .error fault => throw (.badClass a.path entry fault)

/-- All classes of the artifact, in the order of their entries. -/
def views (t : FileTree) (dialect : ClassFile.Dialect) (limit : Nat) (a : Artifact) :
    Except ArtifactFailure (List ClassView) := do
  let entries ← a.entries t dialect
  entries.mapM (a.view t dialect limit)

/-- The open artifact in words. -/
def text (a : Artifact) : String :=
  "OpenArtifact \x7b path: ArtifactPath(" ++ Text.escaped a.path.text ++ "), kind: "
    ++ a.form.word ++ " \x7d"

end Artifact

end Linkage
