import Linkage.Resolution.Inquiry

/-!
# Walking the class hierarchy

A member is looked for in a class, then up its superclasses, then breadth first through the
interfaces of all classes met on the way.  Hierarchies may be cyclic or incomplete: no class is
visited twice, and classes that are not defined are passed over.  Only the methods of the root of
the hierarchy are known without its class.

Every walk has a budget, the number of classes it may look into.  A budget of all defined names is
never used up, so running out is a result that does not occur then.
-/

namespace Linkage

/-- A member to look for. -/
inductive Query where
  /-- A method by name and descriptor. -/
  | method (name descriptor : String)
  /-- A field by name. -/
  | field (name : String)
  deriving DecidableEq, Repr

/-- A member and the class that declares it. -/
structure Found where
  /-- The declaring class, by its own name. -/
  declaring : ClassName
  /-- The member. -/
  member : Member
  deriving DecidableEq, Repr

/-- The result of a search. -/
inductive Search where
  /-- The member. -/
  | found (f : Found)
  /-- There is none. -/
  | absent
  /-- The budget was used up. -/
  | exhausted
  deriving DecidableEq, Repr

namespace Query

/-- The member among those a class declares. -/
def findIn? (q : Query) (c : ClassView) : Option Member :=
  match q with
  | .method name descriptor => c.findMethod? name descriptor
  | .field name => c.findField? name

/-- The class at the root of the hierarchy. -/
def rootClass : ClassName := "java.lang.Object"

/-- The methods every class inherits from the root. -/
def rootMethods : List Member :=
  let publicFinal : AccessFlags := ⟨AccessFlags.publicBit ||| AccessFlags.finalBit⟩
  let public_ : AccessFlags := ⟨AccessFlags.publicBit⟩
  let protected_ : AccessFlags := ⟨AccessFlags.protectedBit⟩
  [⟨"getClass", "()Ljava/lang/Class;", publicFinal⟩,
   ⟨"hashCode", "()I", public_⟩,
   ⟨"equals", "(Ljava/lang/Object;)Z", public_⟩,
   ⟨"clone", "()Ljava/lang/Object;", protected_⟩,
   ⟨"toString", "()Ljava/lang/String;", public_⟩,
   ⟨"notify", "()V", publicFinal⟩,
   ⟨"notifyAll", "()V", publicFinal⟩,
   ⟨"wait", "()V", publicFinal⟩,
   ⟨"wait", "(J)V", publicFinal⟩,
   ⟨"wait", "(JI)V", publicFinal⟩,
   ⟨"finalize", "()V", protected_⟩]

/-- The member among those known of a class that is not defined. -/
def findKnown? (q : Query) (name : ClassName) : Option Member :=
  match q with
  | .method m d =>
    if name = rootClass then rootMethods.find? fun k => k.name == m && k.descriptor == d
    else none
  | .field _ => none

end Query

/-- How a walk up the superclasses ends. -/
inductive ChainEnd where
  /-- With the member. -/
  | found (f : Found)
  /-- Without it: the interfaces met in order, and the classes visited. -/
  | ended (interfaces visited : List ClassName)
  /-- With the budget used up. -/
  | exhausted
  deriving DecidableEq, Repr

/-- Looks for a member in a class and up its superclasses. -/
def searchChain (q : Query) (assumes : ClassName → Bool) :
    Nat → ClassView → (interfaces visited : List ClassName) → Inquiry ChainEnd
  | 0, _, _, _ => .done .exhausted
  | budget + 1, c, interfaces, visited =>
    if visited.contains c.name then .done (.ended interfaces visited)
    else
      match q.findIn? c with
      | some m => .done (.found ⟨c.name, m⟩)
      | none =>
        let interfaces := interfaces ++ c.interfaces
        let visited := c.name :: visited
        match c.superclass with
        | none => .done (.ended interfaces visited)
        | some s => .ask s fun
          | some above => searchChain q assumes budget above interfaces visited
          | none =>
            match if assumes s then q.findKnown? s else none with
            | some m => .done (.found ⟨s, m⟩)
            | none => .done (.ended interfaces visited)

/-- Takes names off the queue up to the first that is defined and not visited.  If it does not
declare the member, `more` goes on with its own interfaces behind the queue. -/
def drain (q : Query) (more : (queue visited : List ClassName) → Inquiry Search) :
    (queue visited : List ClassName) → Inquiry Search
  | [], _ => .done .absent
  | name :: queue, visited =>
    if visited.contains name then drain q more queue visited
    else .ask name fun
      | none => drain q more queue (name :: visited)
      | some c =>
        match q.findIn? c with
        | some m => .done (.found ⟨c.name, m⟩)
        | none => more (queue ++ c.interfaces) (name :: visited)

/-- Looks for a member breadth first through interfaces. -/
def searchInterfaces (q : Query) : Nat → (queue visited : List ClassName) → Inquiry Search
  | 0 => drain q fun _ _ => .done .exhausted
  | budget + 1 => drain q (searchInterfaces q budget)

/-- Looks for a member in a class and all its supertypes. -/
def searchMember (q : Query) (assumes : ClassName → Bool) (budget : Nat) (c : ClassView) :
    Inquiry Search := do
  match ← searchChain q assumes (budget + 1) c [] [] with
  | .found f => return .found f
  | .ended interfaces visited => searchInterfaces q budget interfaces visited
  | .exhausted => return .exhausted

/-- The member of a class or its supertypes. -/
def memberOf (q : Query) (assumes : ClassName → Bool) (budget : Nat) (c : ClassView) :
    Inquiry (Option Found) := do
  match ← searchMember q assumes budget c with
  | .found f => return some f
  | _ => return none

/-- The answer of a walk that looks for an ancestor. -/
inductive Descent where
  /-- The ancestor is above. -/
  | yes
  /-- It is not. -/
  | no
  /-- The budget was used up. -/
  | exhausted
  deriving DecidableEq, Repr

/-- Looks for an ancestor above a class. -/
def searchAncestor (ancestor : ClassName) :
    Nat → ClassView → (visited : List ClassName) → Inquiry Descent
  | 0, _, _ => .done .exhausted
  | budget + 1, c, visited =>
    if visited.contains c.name then .done .no
    else
      match c.superclass with
      | none => .done .no
      | some s =>
        if s = ancestor then .done .yes
        else .ask s fun
          | none => .done .no
          | some above => searchAncestor ancestor budget above (c.name :: visited)

/-- Does a class extend another, by one or more steps? -/
def descendsFrom (budget : Nat) (name ancestor : ClassName) : Inquiry Bool := do
  match ← Inquiry.view name with
  | none => return false
  | some c =>
    let descent ← searchAncestor ancestor (budget + 1) c []
    return descent = .yes

end Linkage
