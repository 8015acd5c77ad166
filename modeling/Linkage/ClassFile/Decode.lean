import Linkage.ClassFile.Pool
import Linkage.ClassFile.View

/-!
# Reading class files

The class file parser.  A class file is read from front to back: magic number, versions, constant
pool, header, interfaces, fields, methods, attributes.  An index is followed as soon as it is read,
so the first fault in this order is the one reported; the mentions of the pool are collected at the
very end.  Of the attributes only the nested class table is looked into, the last one if there are
several.  What follows a class file is ignored.
-/

namespace Linkage.ClassFile

/-- A reading step: from the bytes that are left, a value and the bytes after it. -/
abbrev Scan := StateT Bytes (Except Fault)

namespace Scan

/-- The next byte. -/
def byte : Scan UInt8 := fun s =>
  match s with
  | b :: s => .ok (b, s)
  | _ => .error .unexpectedEnd

/-- The next 16-bit word. -/
def word : Scan UInt16 := fun s =>
  match s with
  | a :: b :: s => .ok (Bytes.toWord a b, s)
  | _ => .error .unexpectedEnd

/-- The next 32-bit word. -/
def doubleWord : Scan UInt32 := fun s =>
  match s with
  | a :: b :: c :: d :: s => .ok (Bytes.toDoubleWord a b c d, s)
  | _ => .error .unexpectedEnd

/-- The next `n` bytes. -/
def slice (n : Nat) : Scan Bytes := fun s =>
  match Bytes.splitExactly n s with
  | some (taken, rest) => .ok (taken, rest)
  | none => .error .unexpectedEnd

/-- Passes over `n` bytes. -/
def skip (n : Nat) : Scan Unit := fun s =>
  match Bytes.dropExactly n s with
  | some rest => .ok ((), rest)
  | none => .error .unexpectedEnd

/-- The same step `n` times. -/
def times {α : Type} (step : Scan α) : Nat → Scan (List α)
  | 0 => pure []
  | n + 1 => do
    let a ← step
    let as ← times step n
    return a :: as

/-- A 16-bit count, then as many times the same step. -/
def counted {α : Type} (step : Scan α) : Scan (List α) := do
  let n ← word
  times step n.toNat

end Scan

open Scan

/-! ## The pool -/

/-- Does a constant with this tag take two slots? -/
def isWide (tag : UInt8) : Bool :=
  tag = 5 || tag = 6

/-- Reads a constant of one slot, its tag already read. -/
def constant (tag : UInt8) : Scan Constant := do
  match tag.toNat with
  | 1 =>
    let length ← word
    let bytes ← slice length.toNat
    return .utf8 (Text.decodeLossy bytes)
  | 3 | 4 => skip 4; return .other
  | 7 => return .classInfo (← word)
  | 8 | 16 | 19 | 20 => skip 2; return .other
  | 9 => return .fieldRef (← word) (← word)
  | 10 => return .methodRef false (← word) (← word)
  | 11 => return .methodRef true (← word) (← word)
  | 12 => return .nameAndType (← word) (← word)
  | 15 => skip 3; return .other
  | 17 | 18 => skip 4; return .other
  | _ => throw (.unknownTag tag)

/-- Fills `n` slots starting with slot `index`.  A constant of two slots has to find both. -/
def constants : (n index : Nat) → Scan (List Constant)
  | 0, _ => pure []
  | n + 1, index => do
    let tag ← byte
    if isWide tag then
      match n with
      | 0 => throw (.badIndex (UInt16.ofNat index))
      | m + 1 =>
        skip 8
        let cs ← constants m (index + 2)
        return .other :: .unusable :: cs
    else
      let c ← constant tag
      let cs ← constants n (index + 1)
      return c :: cs

/-- Reads the pool: its count is one more than the last index. -/
def pool : Scan Pool := do
  let count ← word
  let cs ← constants (count.toNat - 1) 1
  return ⟨(.unusable :: cs).toArray⟩

/-! ## The class -/

/-- Reads a word and the class it is the index of. -/
def classAt (p : Pool) : Scan ClassName := do
  let index ← word
  p.className index

/-- The class at an index that may be zero for none. -/
def optionalClass (p : Pool) (index : UInt16) : Except Fault (Option ClassName) :=
  if index = 0 then .ok none else (p.className index).map some

/-- Passes over an attribute without looking at its name. -/
def skipAttribute : Scan Unit := do
  let _ ← word
  let length ← doubleWord
  skip length.toNat

/-- Reads a field or method. -/
def member (p : Pool) : Scan Member := do
  let access ← word
  let nameIndex ← word
  let name ← p.utf8 nameIndex
  let descriptorIndex ← word
  let descriptor ← p.utf8 descriptorIndex
  let _ ← counted skipAttribute
  return ⟨name, descriptor, ⟨access⟩⟩

/-- Reads a row of the nested class table.  The declaring class is followed first. -/
def nestedRow (p : Pool) : Scan NestedClass := do
  let inner ← word
  let outer ← word
  let _ ← word
  let _ ← word
  let outerName ← optionalClass p outer
  let innerName ← p.className inner
  return ⟨innerName, outerName⟩

/-- The attribute that holds the nested class table. -/
def nestedTableName : String := "InnerClasses"

/-- Reads an attribute of the class: the table if it is one. -/
def classAttribute (p : Pool) : Scan (Option (List NestedClass)) := do
  let nameIndex ← word
  let length ← doubleWord
  let name ← p.utf8 nameIndex
  if name = nestedTableName then
    let body ← slice length.toNat
    let (rows, _) ← (counted (nestedRow p)).run body
    return some rows
  else
    skip length.toNat
    return none

/-- The last table among the attributes. -/
def lastTable (found : List (Option (List NestedClass))) : List NestedClass :=
  (found.filterMap id).getLastD []

/-- The first four bytes of every class file. -/
def magic : UInt32 := 0xCAFEBABE

/-- Reads a class file. -/
def classFile : Scan ClassView := do
  let head ← doubleWord
  if head ≠ magic then throw .badMagic
  let _ ← word
  let _ ← word
  let p ← pool
  let access ← word
  let thisIndex ← word
  let superIndex ← word
  let name ← p.className thisIndex
  let superclass ← optionalClass p superIndex
  let interfaces ← counted (classAt p)
  let fields ← counted (member p)
  let methods ← counted (member p)
  let tables ← counted (classAttribute p)
  let mentions ← p.mentions
  return {
    name, superclass, interfaces, fields, methods
    access := ⟨access⟩
    nested := lastTable tables
    classRefs := mentions.filterMap fun | .ofClass n => some n | _ => none
    methodRefs := mentions.filterMap fun | .ofMethod o n d => some ⟨o, n, d⟩ | _ => none
    fieldRefs := mentions.filterMap fun | .ofField o n d => some ⟨o, n, d⟩ | _ => none }

/-- The class some bytes begin with. -/
def decode (s : Bytes) : Except Fault ClassView :=
  (classFile.run s).map Prod.fst

end Linkage.ClassFile
