import Linkage.Json.Basic
import Linkage.Json.Reading

/-!
# Decoding values of the model

A decoder turns a `Reading` into a value of the model, or says why not.  It walks the reading in
the order of the text, so the first fault of the text decides.  The number of levels it may still
enter is bounded: a list or object costs one level, and values that are skipped cost none.

* `record` — objects with known names: names that are not known are skipped, a known name may
  stand once; the same record may also be written as a list of its fields in order.
* `variant` — one of several alternatives: a bare word, or an object with one member.
* `tagged` — alternatives told apart by a member of the object itself.
-/

namespace Linkage.Json

/-- Why a text is not accepted. -/
inductive DecodeError (ε : Type) where
  /-- It is not JSON, or not of the expected shape. -/
  | malformed
  /-- It has the expected shape, and its content is refused. -/
  | refused (cause : ε)
  deriving DecidableEq, Repr

/-- Given how many levels may be entered, reads a value. -/
abbrev Decoder (ε α : Type) := Nat → Reading → Except (DecodeError ε) α

namespace Decoder

variable {ε α β σ : Type}

/-- How many lists and objects may be nested. -/
def levelLimit : Nat := 127

/-! ## Scalars -/

/-- A text. -/
def string : Decoder ε String
  | _, .string (some s) => .ok s
  | _, _ => .error .malformed

/-- A truth value. -/
def bool : Decoder ε Bool
  | _, .bool b => .ok b
  | _, _ => .error .malformed

/-- A natural number below `bound`. -/
def natural (bound : Nat) : Decoder ε Nat
  | _, .number n =>
    match n.natural? with
    | some k => if k < bound then .ok k else .error .malformed
    | none => .error .malformed
  | _, _ => .error .malformed

/-- The image of what a decoder reads. -/
def map (f : α → β) (d : Decoder ε α) : Decoder ε β :=
  fun levels r => (d levels r).map f

/-- A value or `null`. -/
def option (d : Decoder ε α) : Decoder ε (Option α)
  | _, .null => .ok none
  | levels, r => (d levels r).map some

/-! ## Lists -/

/-- Fails unless the list or object is closed. -/
def whole (closed : Bool) (a : α) : Except (DecodeError ε) α :=
  if closed then .ok a else .error .malformed

/-- A list of values. -/
def list (d : Decoder ε α) : Decoder ε (List α)
  | levels + 1, .array items closed => do
    let vs ← items.mapM (d levels)
    whole closed vs
  | _, _ => .error .malformed

/-! ## Records -/

/-- A field of a record that is being filled in. -/
structure Field (ε σ : Type) where
  /-- Its name in the text. -/
  name : String
  /-- Has it been read? -/
  isFilled : σ → Bool
  /-- Reads it. -/
  read : Decoder ε (σ → σ)

/-- The field with the given name, place in the draft and decoder. -/
def Field.of (name : String) (get : σ → Option α) (set : σ → α → σ) (d : Decoder ε α) :
    Field ε σ :=
  ⟨name, fun s => (get s).isSome, d.map fun a s => set s a⟩

/-- Which lists of fields stand for a record: all of them, or any first few. -/
inductive Presence where
  /-- Every field has to be given. -/
  | all
  /-- Fields that are not given keep their default. -/
  | some
  deriving DecidableEq, Repr

/-- Reads one member of an object into the draft. -/
def readMember (fields : List (Field ε σ)) (levels : Nat) (s : σ)
    (m : Option String × Reading) : Except (DecodeError ε) σ :=
  match m.1 with
  | none => .error .malformed
  | some name =>
    match fields.find? (·.name = name) with
    | none => whole m.2.isWhole s
    | some f => if f.isFilled s then .error .malformed else (f.read levels m.2).map (· s)

/-- Reads the items of a list into the fields, in order. -/
def readItems (presence : Presence) (levels : Nat) :
    List (Field ε σ) → List Reading → σ → Except (DecodeError ε) σ
  | [], [], s => .ok s
  | [], _ :: _, _ => .error .malformed
  | _ :: _, [], s => if presence = .some then .ok s else .error .malformed
  | f :: fs, r :: rs, s => do
    let set ← f.read levels r
    readItems presence levels fs rs (set s)

/-- A record with the given fields.  `finish` says what the filled draft stands for; a draft
that lacks something stands for nothing. -/
def record (presence : Presence) (fields : List (Field ε σ)) (blank : σ)
    (finish : σ → Option α) : Decoder ε α
  | levels + 1, .object members closed => do
    let s ← members.foldlM (readMember fields levels) blank
    let s ← whole closed s
    match finish s with
    | some a => .ok a
    | none => .error .malformed
  | levels + 1, .array items closed => do
    let s ← readItems presence levels fields items blank
    let s ← whole closed s
    match finish s with
    | some a => .ok a
    | none => .error .malformed
  | _, _ => .error .malformed

/-! ## Alternatives -/

/-- One alternative of a type. -/
inductive Case (ε α : Type) where
  /-- A bare word. -/
  | word (a : α)
  /-- A word with a value. -/
  | carries (d : Decoder ε α)

/-- One of several alternatives: `"Word"`, or `{"Word": value}` where the value of a bare word
is `null`. -/
def variant (caseOf : String → Option (Case ε α)) : Decoder ε α
  | _, .string (some w) =>
    match caseOf w with
    | some (.word a) => .ok a
    | _ => .error .malformed
  | levels + 1, .object ((some w, r) :: more) closed => do
    let a ← match caseOf w, r with
      | some (.word a), .null => .ok a
      | some (.carries d), r => d levels r
      | _, _ => .error .malformed
    whole (closed && more.isEmpty) a
  | _, _ => .error .malformed

/-- Can a value be put aside before it is known what it is for?  Then it counts its levels, its
texts must denote something and its numbers must fit a double. -/
def isHeld : Nat → Reading → Bool
  | _, .null => true
  | _, .bool _ => true
  | _, .number n => n.isFinite
  | _, .string s => s.isSome
  | levels + 1, .array items closed => closed && items.all (isHeld levels)
  | levels + 1, .object members closed =>
    closed && members.all fun m => m.1.isSome && isHeld levels m.2
  | _, _ => false

/-- Alternatives told apart by the member `tag`, which may stand anywhere in the object and only
once.  All other members are held until the alternative is known.  As a list, the tag comes
first. -/
def tagged (tag : String) (caseOf : String → Option (Decoder ε α)) : Decoder ε α
  | levels + 1, .object members closed => do
    let others := members.filter fun m => m.1 != some tag
    match members.filter fun m => m.1 == some tag with
    | [(_, .string (some w))] =>
      match caseOf w with
      | some d =>
        if closed && others.all fun m => m.1.isSome && isHeld levels m.2 then
          d (levels + 1) (.object others true)
        else .error .malformed
      | none => .error .malformed
    | _ => .error .malformed
  | levels + 1, .array (.string (some w) :: items) closed =>
    match caseOf w with
    | some d =>
      if closed && items.all (isHeld levels) then d (levels + 1) (.array items true)
      else .error .malformed
    | none => .error .malformed
  | _, _ => .error .malformed

/-! ## Texts -/

/-- Decodes a value and makes sure that nothing follows it. -/
def decode (d : Decoder ε α) (doc : Document) : Except (DecodeError ε) α := do
  let a ← d levelLimit doc.root
  whole doc.ended a

/-- Decodes a text. -/
def decodeText (d : Decoder ε α) (s : String) : Except (DecodeError ε) α :=
  decode d (.ofText s)

end Decoder

end Linkage.Json
