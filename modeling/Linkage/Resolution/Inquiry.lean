import Linkage.ClassFile.View

/-!
# Questions about classes

A computation that may ask for classes by name.  It does not say where the answers come from: the
same inquiry is run with a memory or without, and whatever is proved of every way to answer holds
of both.
-/

namespace Linkage

/-- A result, or a question with what is done next for each answer.  No class is an answer
too. -/
inductive Inquiry (α : Type) where
  /-- The result. -/
  | done (a : α)
  /-- Asks for a class. -/
  | ask (name : ClassName) (next : Option ClassView → Inquiry α)

namespace Inquiry

variable {α β : Type}

/-- One inquiry after another. -/
protected def bind : Inquiry α → (α → Inquiry β) → Inquiry β
  | .done a, f => f a
  | .ask name next, f => .ask name fun answer => (next answer).bind f

instance : Monad Inquiry where
  pure := .done
  bind := Inquiry.bind

/-- Asks for a class. -/
def view (name : ClassName) : Inquiry (Option ClassView) :=
  .ask name .done

/-- Answers the questions of an inquiry by `lookUp`. -/
def run {m : Type → Type} [Monad m] (lookUp : ClassName → m (Option ClassView)) :
    Inquiry α → m α
  | .done a => pure a
  | .ask name next => do
    let answer ← lookUp name
    run lookUp (next answer)

end Inquiry

end Linkage
