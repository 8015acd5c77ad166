import Linkage.ClassPath.Index
import Linkage.Resolution.Hierarchy

/-!
# When a reference resolves

A reference to a class resolves if the class is defined or assumed.  A reference to a member
resolves if its target class is there and visible, the member is found in it or its supertypes,
and the source may use it.  The place of a broken reference is the artifact of its target, also
when the member is declared elsewhere.
-/

namespace Linkage.ClassIndex

/-- May a class use a member? -/
def mayUse (i : ClassIndex) (source : ClassName) (f : Found) : Inquiry Bool :=
  match f.member.access.visibility with
  | .everyone => return true
  | .subclasses => do
    if source.samePackage f.declaring then return true
    descendsFrom i.size source f.declaring
  | .package => return source.samePackage f.declaring
  | .nest => return source.topLevel == f.declaring.topLevel

/-- The outcome of a reference to a member whose target class is defined at `location`. -/
def definedOutcome (i : ClassIndex) (location : Path) (source target : ClassName) (q : Query) :
    Inquiry Outcome := do
  match ← Inquiry.view target with
  | none => return .broken .classNotFound
  | some c =>
    if !c.isPublic && !source.samePackage target then
      return .broken (.inaccessible location)
    match ← memberOf q i.assumes i.size c with
    | none => return .broken (.symbolNotFound location)
    | some f =>
      if ← i.mayUse source f then return .resolved
      else return .broken (.inaccessible location)

/-- The outcome of a reference to a member. -/
def memberOutcome (i : ClassIndex) (source target : ClassName) (q : Query) : Inquiry Outcome :=
  match i.definer? target with
  | some location => i.definedOutcome location source target q
  | none => return if i.assumes target then .resolved else .broken .classNotFound

/-- The outcome of a reference to a class. -/
def classOutcome (i : ClassIndex) (target : ClassName) : Outcome :=
  if i.contains target || i.assumes target then .resolved else .broken .classNotFound

/-- The outcome of a reference. -/
def outcome (i : ClassIndex) : Reference → Inquiry Outcome
  | .toClass r => return i.classOutcome r.target
  | .toMethod r => i.memberOutcome r.source r.target (.method r.method r.descriptor)
  | .toField r => i.memberOutcome r.source r.target (.field r.field)

end Linkage.ClassIndex
