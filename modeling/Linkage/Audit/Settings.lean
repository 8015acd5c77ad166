import Linkage.ClassPath.Platform

/-!
# Settings of a check

The configuration of a checker: which artifacts to check and how.  A setting that is not given has
its default.
-/

namespace Linkage

/-- How a class path is checked. -/
structure Settings where
  /-- May artifacts be checked at the same time? -/
  parallel : Bool := false
  /-- Largest class file that is read, in bytes. -/
  maxClassSize : Nat := 10485760
  /-- The artifacts to check; all of the class path if absent. -/
  entryArtifacts : Option (List Path) := none
  /-- Where platform classes come from. -/
  platform : Platform := {}
  deriving DecidableEq, Repr, Inhabited

namespace Settings

/-- Sizes are below this bound. -/
def sizeBound : Nat := Nat.pow 2 64

/-- The settings by name. -/
def toJson (s : Settings) : Json :=
  .object [("parallel", .bool s.parallel), ("max_class_file_size", .number s.maxClassSize),
    ("entry_artifacts", .ofOption (Json.ofList Path.toJson) s.entryArtifacts),
    ("platform", s.platform.toJson)]

/-- Settings that are being read; each is absent until it is. -/
structure Draft where
  parallel : Option Bool := none
  maxClassSize : Option Nat := none
  entryArtifacts : Option (Option (List Path)) := none
  platform : Option Platform := none

/-- Reads settings; what is not given has its default. -/
def decoder {ε : Type} : Json.Decoder ε Settings :=
  .record .some
    [.of "parallel" Draft.parallel (fun d v => { d with parallel := some v }) .bool,
     .of "max_class_file_size" Draft.maxClassSize (fun d v => { d with maxClassSize := some v })
      (.natural sizeBound),
     .of "entry_artifacts" Draft.entryArtifacts
      (fun d v => { d with entryArtifacts := some v }) (.option (.list Path.decoder)),
     .of "platform" Draft.platform (fun d v => { d with platform := some v }) Platform.decoder]
    {}
    fun d =>
      let plain : Settings := {}
      some ⟨d.parallel.getD plain.parallel, d.maxClassSize.getD plain.maxClassSize,
        d.entryArtifacts.getD plain.entryArtifacts, d.platform.getD plain.platform⟩

end Settings

end Linkage
