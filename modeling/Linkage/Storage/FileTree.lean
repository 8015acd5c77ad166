import Linkage.Bytes
import Linkage.Storage.Path

/-!
# A tree of files

The files below a working directory, as values.  The tree is flat: a list of directories and a list
of files, each with the names that lead to it.  Nothing outside the working directory can be seen.
Looking a path up follows its segments one by one, and a path that does not lead to anything fails
for the first segment that does not.

The model stops at the working directory.  An absolute path, or one with more double dots than names
before them, leads outside: the root and the directories above can be reached, and nothing has a
name there, not even the working directory itself.  There are no symbolic links and no permissions,
so a name leads to one place and everything that is found can be read.
-/

namespace Linkage

/-- An entry of an archive. -/
structure ArchiveEntry where
  /-- Its name, any text. -/
  name : String
  /-- Its content. -/
  bytes : Bytes
  /-- Does the stored checksum differ from that of the content? -/
  isCorrupt : Bool
  deriving DecidableEq, Repr

/-- What a regular file holds. -/
inductive FileContent where
  /-- Any bytes but an archive. -/
  | plain (bytes : Bytes)
  /-- An archive with entries of different names. -/
  | archive (entries : List ArchiveEntry)
  deriving DecidableEq, Repr

namespace FileContent

/-- Puts an entry into an archive, in place of the one with the same name. -/
def insertEntry (entries : List ArchiveEntry) (e : ArchiveEntry) : List ArchiveEntry :=
  if entries.any fun old => old.name == e.name then
    entries.map fun old => if old.name == e.name then e else old
  else entries ++ [e]

/-- The archive made by putting entries into an empty one. -/
def ofEntries (entries : List ArchiveEntry) : FileContent :=
  .archive (entries.foldl insertEntry [])

/-- What a file begins with.  Of an archive nothing but its signature is ever looked at. -/
def bytes : FileContent → Bytes
  | .plain bytes => bytes
  | .archive [] => [0x50, 0x4B, 0x05, 0x06]
  | .archive (_ :: _) => [0x50, 0x4B, 0x03, 0x04]

/-- The bytes an entry takes in an archive: a header of 30 bytes with the name, the content as it
is, and a row of 46 bytes in the directory at the end, with the name again. -/
def entrySize (e : ArchiveEntry) : Nat :=
  30 + e.name.utf8ByteSize + e.bytes.length + (46 + e.name.utf8ByteSize)

/-- The size of the record that ends every archive. -/
def trailerSize : Nat := 22

/-- The size of a file in bytes. -/
def size : FileContent → Nat
  | .plain bytes => bytes.length
  | .archive entries => entries.foldr (fun e n => entrySize e + n) trailerSize

end FileContent

/-- Why a path does not lead to anything, or cannot be read. -/
inductive PathFault where
  /-- Nothing has this name. -/
  | notFound
  /-- A regular file is used as a directory. -/
  | notDirectory
  /-- A directory is used as a regular file. -/
  | isDirectory
  /-- A name is longer than names can be. -/
  | nameTooLong
  /-- The path holds a NUL character. -/
  | holdsNul
  deriving DecidableEq, Repr

/-- The fault in the words of the operating system. -/
def PathFault.message : PathFault → String
  | .notFound => "No such file or directory (os error 2)"
  | .notDirectory => "Not a directory (os error 20)"
  | .isDirectory => "Is a directory (os error 21)"
  | .nameTooLong => "File name too long (os error 36)"
  | .holdsNul => "file name contained an unexpected NUL byte"

/-- Files and directories by the names that lead to them. -/
structure FileTree where
  /-- Directories below the working directory. -/
  directories : List (List String)
  /-- Regular files. -/
  files : List (List String × FileContent)
  deriving Repr

/-- Where a path leads. -/
inductive Node where
  /-- A regular file below the working directory. -/
  | file (names : List String) (content : FileContent)
  /-- A directory below the working directory, or that directory itself. -/
  | directory (names : List String)
  /-- A directory outside the working directory. -/
  | outside
  deriving DecidableEq, Repr

namespace FileTree

/-- Nothing but the working directory. -/
def empty : FileTree := ⟨[], []⟩

/-- What the names lead to, if anything. -/
def at? (t : FileTree) (names : List String) : Option Node :=
  match t.files.find? fun f => f.1 == names with
  | some f => some (.file names f.2)
  | none => if names.isEmpty || t.directories.contains names then some (.directory names) else none

/-- Longest name in bytes. -/
def maxNameLength : Nat := 255

/-- Longest path in bytes. -/
def maxPathLength : Nat := 4095

/-- One step from a directory to what a segment names in it. -/
def step (t : FileTree) (node : Node) (segment : String) : Except PathFault Node :=
  match node with
  | .file _ _ => .error .notDirectory
  | .directory names =>
    if segment = "" ∨ segment = "." then .ok node
    else if segment = ".." then
      if names.isEmpty then .ok .outside else .ok (.directory names.dropLast)
    else if maxNameLength < segment.utf8ByteSize then .error .nameTooLong
    else match t.at? (names ++ [segment]) with
      | some found => .ok found
      | none => .error .notFound
  | .outside =>
    if segment = "" ∨ segment = "." ∨ segment = ".." then .ok .outside
    else if maxNameLength < segment.utf8ByteSize then .error .nameTooLong
    else .error .notFound

/-- What a path leads to. -/
def lookUp (t : FileTree) (p : Path) : Except PathFault Node :=
  if p.text.toList.contains '\x00' then .error .holdsNul
  else if p.text.isEmpty then .error .notFound
  else if maxPathLength < p.text.utf8ByteSize then .error .nameTooLong
  else p.segments.foldlM t.step (if p.isAbsolute then .outside else .directory [])

/-- Files below a directory, with the names that lead from it to them. -/
def filesBelow (t : FileTree) (names : List String) : List (List String × FileContent) :=
  t.files.filterMap fun (path, content) =>
    if names.isPrefixOf path then some (path.drop names.length, content) else none

/-- Directories below a directory, by the names that lead from it to them. -/
def directoriesBelow (t : FileTree) (names : List String) : List (List String) :=
  t.directories.filterMap fun path =>
    if names.isPrefixOf path && path != names then some (path.drop names.length) else none

/-! ## Changing the tree

A change that cannot be made, because a regular file stands where a directory is needed or
because the path leads outside, leaves the tree as it is. -/

/-- Removes what the names lead to and all that is below it. -/
def erase (t : FileTree) (names : List String) : FileTree :=
  ⟨t.directories.filter fun d => !names.isPrefixOf d,
    t.files.filter fun f => !names.isPrefixOf f.1⟩

/-- Removes all that is below a directory. -/
def clear (t : FileTree) (names : List String) : FileTree :=
  ⟨t.directories.filter fun d => !names.isPrefixOf d || d == names,
    t.files.filter fun f => !names.isPrefixOf f.1⟩

/-- Follows components from a directory and makes those that are missing on the way.  The result
is where they lead. -/
def follow (t : FileTree) (names : List String) : List Component → Option (FileTree × List String)
  | [] => some (t, names)
  | .root :: _ => none
  | .current :: cs => t.follow names cs
  | .parent :: cs => if names.isEmpty then none else t.follow names.dropLast cs
  | .name s :: cs =>
    let next := names ++ [s]
    match t.at? next with
    | some (.directory _) => t.follow next cs
    | some _ => none
    | none => FileTree.follow { t with directories := t.directories ++ [next] } next cs

/-- Makes a directory, and those that lead to it. -/
def makeDirectory (t : FileTree) (p : Path) : FileTree :=
  match t.follow [] p.components with
  | some (made, _) => made
  | none => t

/-- Puts a regular file in place of what was there, and makes the directories that lead to it. -/
def write (t : FileTree) (p : Path) (content : FileContent) : FileTree :=
  match p.components.getLast? with
  | some (.name s) =>
    match t.follow [] p.components.dropLast with
    | some (made, names) =>
      let file := names ++ [s]
      let rest := made.erase file
      { rest with files := rest.files ++ [(file, content)] }
    | none => t
  | _ => t

/-- Removes a file, or a directory with all that is below it.  A directory that is reached by
dots at the end of the path can only be cleared. -/
def remove (t : FileTree) (p : Path) : FileTree :=
  match t.lookUp p with
  | .ok (.file names _) => t.erase names
  | .ok (.directory names) => if p.endsInDots then t.clear names else t.erase names
  | _ => t

end FileTree

end Linkage
