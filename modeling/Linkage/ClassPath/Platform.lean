import Linkage.ClassName
import Linkage.Storage.Path

/-!
# Classes the platform supplies

Images of platform classes are searched before the class path.  A class no artifact defines still
counts as present when its name starts with one of the assumed beginnings.
-/

namespace Linkage

/-- Where platform classes come from. -/
structure Platform where
  /-- Images searched before the class path. -/
  images : List Path := []
  /-- Beginnings of names that are assumed to be defined. -/
  assumed : List String := ["java."]
  deriving DecidableEq, Repr, Inhabited

namespace Platform

/-- No platform: every class has to be on the class path. -/
def absent : Platform := ⟨[], []⟩

/-- Is the class assumed to be defined? -/
def assumes (p : Platform) (name : ClassName) : Bool :=
  p.assumed.any fun start => Text.startsWith start name

/-- Images and assumed beginnings by name. -/
def toJson (p : Platform) : Json :=
  .object [("artifacts", .ofList Path.toJson p.images),
    ("assumed_prefixes", .ofList .string p.assumed)]

/-- A platform that is being read. -/
structure Draft where
  /-- The images, once read. -/
  images : Option (List Path) := none
  /-- The assumed beginnings, once read. -/
  assumed : Option (List String) := none

/-- Reads a platform; what is not given has its default. -/
def decoder {ε : Type} : Json.Decoder ε Platform :=
  .record .some
    [.of "artifacts" Draft.images (fun d v => { d with images := some v })
      (.list Path.decoder),
     .of "assumed_prefixes" Draft.assumed (fun d v => { d with assumed := some v })
      (.list .string)]
    {}
    fun d =>
      let plain : Platform := {}
      some ⟨d.images.getD plain.images, d.assumed.getD plain.assumed⟩

end Platform

end Linkage
