import Linkage.Resolution.Rules

/-!
# Linkers

A linker is a linkage resolver: it resolves references and remembers the classes it has loaded and
the names it has found undefined.  A class that fails to load is tried again.  What it remembers
never changes an outcome as long as the files stay the same.
-/

namespace Linkage

/-- What a linker remembers: classes by name, or that a name is not defined. -/
abbrev Memory := Std.HashMap ClassName (Option ClassView)

/-- A linker at work. -/
structure Linker where
  /-- What it remembers. -/
  memory : Memory := ∅
  /-- What it has reported. -/
  log : Array Event := #[]

/-- An operation of a linker.  What it remembers and reports outlives a failure. -/
abbrev Linking := ExceptT Failure (StateM Linker)

namespace Linker

/-- Reports an event. -/
def note (e : Event) : Linking Unit :=
  modify fun l => { l with log := l.log.push e }

/-- Remembers the answer for a name. -/
def remember (name : ClassName) (answer : Option ClassView) : Linking Unit :=
  modify fun l => { l with memory := l.memory.insert name answer }

/-- The class with a name, from memory if possible. -/
def view (t : FileTree) (i : ClassIndex) (name : ClassName) : Linking (Option ClassView) := do
  match (← get).memory[name]? with
  | some answer => return answer
  | none =>
    match i.view? t name with
    | .error cause => throw (.artifact cause)
    | .ok answer =>
      if answer.isNone then note (.skipped name)
      remember name answer
      return answer

/-- Reports that the target of a reference to a member is assumed, if it is. -/
def noteAssumed (i : ClassIndex) : Reference → Linking Unit
  | .toClass _ => return
  | r => if i.assumes r.target then note (.assumed r.target) else return

/-- Resolves a reference and reports the decision. -/
def resolve (t : FileTree) (i : ClassIndex) (r : Reference) : Linking Outcome := do
  noteAssumed i r
  let outcome ← (i.outcome r).run (view t i)
  note (.decided r outcome)
  return outcome

/-- Does a class extend another, by one or more steps? -/
def descendsFrom (t : FileTree) (i : ClassIndex) (name ancestor : ClassName) : Linking Bool :=
  (Linkage.descendsFrom i.size name ancestor).run (view t i)

end Linker

end Linkage
