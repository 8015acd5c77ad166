import Linkage.Proofs.Resolution.Ancestry

/-!
# Walks through the hierarchy end

A walk is given a budget, the number of classes it may look into.  The budget is no part of what
the walk does: one that is enough may be replaced by any larger one, and nothing changes.  So the
walk without a budget ends exactly if some budget is enough.  Here one that depends only on how many
names are defined is enough for each of the three walks, whatever state it starts from: superclasses
may form a cycle, interfaces may extend themselves or each other, a class may be met as superclass
and as interface, and classes may be called other than they are defined.

* `Inquiry.Prolongs`: an inquiry that goes on where another has run out.
* `EndsWithin`: a walk for which a budget is enough.
* `hierarchyWalks_end`: all walks end.
-/

namespace Linkage

/-! ## Larger budgets -/

namespace Inquiry

variable {α β ε : Type} {lookUp : ClassName → Except ε (Option ClassView)}

/-- Does what the first does, and may go on where the first has run out. -/
inductive Prolongs (out : α) : Inquiry α → Inquiry α → Prop where
  /-- The first has run out. -/
  | out (y : Inquiry α) : Prolongs out (.done out) y
  /-- Both end. -/
  | done (a : α) : Prolongs out (.done a) (.done a)
  /-- Both ask the same question. -/
  | ask {name : ClassName} {next next' : Option ClassView → Inquiry α}
    (h : ∀ answer, Prolongs out (next answer) (next' answer)) :
    Prolongs out (.ask name next) (.ask name next')

theorem Prolongs.bind {out : α} {out' : β} {x y : Inquiry α} {f g : α → Inquiry β}
    (h : Prolongs out x y) (hout : f out = .done out') (hf : ∀ a, Prolongs out' (f a) (g a)) :
    Prolongs out' (x >>= f) (y >>= g) := by
  induction h with
  | out y =>
    show Prolongs out' (f out) (y >>= g)
    rw [hout]
    exact .out _
  | done a => exact hf a
  | ask _ ih => exact .ask ih

/-- If the first does not run out, both end alike. -/
theorem Prolongs.run {out : α} {x y : Inquiry α} (h : Prolongs out x y)
    (hx : x.run lookUp ≠ .ok out) : y.run lookUp = x.run lookUp := by
  induction h with
  | out y => exact absurd rfl hx
  | done a => rfl
  | @ask name next next' _ ih =>
    have hrun : ∀ f : Option ClassView → Inquiry α, (Inquiry.ask name f).run lookUp
        = lookUp name >>= fun answer => (f answer).run lookUp := fun _ => rfl
    rw [hrun] at hx
    rw [hrun, hrun]
    cases hanswer : lookUp name with
    | error failure => rfl
    | ok answer =>
      rw [hanswer] at hx
      exact ih answer hx

/-- Once a budget is enough, larger ones change nothing. -/
theorem run_eq_of_le {walk : Nat → Inquiry α} {out : α} {enough budget : Nat}
    (hwalk : ∀ n, Prolongs out (walk n) (walk (n + 1)))
    (henough : (walk enough).run lookUp ≠ .ok out) (hle : enough ≤ budget) :
    (walk budget).run lookUp = (walk enough).run lookUp := by
  induction budget, hle using Nat.le_induction with
  | base => rfl
  | succ budget _ ih =>
    have hlasts : (walk budget).run lookUp ≠ .ok out := by
      rw [ih]
      exact henough
    rw [(hwalk budget).run hlasts, ih]

end Inquiry

open Inquiry (Prolongs)

section

variable {q : Query} {assumes : ClassName → Bool} {ancestor : ClassName}

theorem searchChain_prolongs (budget : Nat) (c : ClassView) (interfaces visited : List ClassName) :
    Prolongs .exhausted (searchChain q assumes budget c interfaces visited)
      (searchChain q assumes (budget + 1) c interfaces visited) := by
  induction budget generalizing c interfaces visited with
  | zero => exact .out _
  | succ budget ih =>
    unfold searchChain
    split
    · exact .done _
    split
    · exact .done _
    dsimp only
    split
    · exact .done _
    · refine .ask fun answer => ?_
      cases answer with
      | some above => exact ih above _ _
      | none =>
        dsimp only
        split <;> exact .done _

theorem drain_prolongs {more more' : List ClassName → List ClassName → Inquiry Search}
    (hmore : ∀ queue visited, Prolongs .exhausted (more queue visited) (more' queue visited))
    (queue visited : List ClassName) :
    Prolongs .exhausted (drain q more queue visited) (drain q more' queue visited) := by
  induction queue generalizing visited with
  | nil => exact .done _
  | cons name queue ih =>
    unfold drain
    split
    · exact ih visited
    · refine .ask fun answer => ?_
      cases answer with
      | none => exact ih _
      | some c =>
        dsimp only
        split
        · exact .done _
        · exact hmore _ _

theorem searchInterfaces_prolongs (budget : Nat) (queue visited : List ClassName) :
    Prolongs .exhausted (searchInterfaces q budget queue visited)
      (searchInterfaces q (budget + 1) queue visited) := by
  induction budget generalizing queue visited with
  | zero => exact drain_prolongs (fun _ _ => .out _) queue visited
  | succ budget ih => exact drain_prolongs ih queue visited

theorem searchMember_prolongs (budget : Nat) (c : ClassView) :
    Prolongs .exhausted (searchMember q assumes budget c)
      (searchMember q assumes (budget + 1) c) := by
  refine (searchChain_prolongs (budget + 1) c [] []).bind rfl fun chain => ?_
  cases chain with
  | found f => exact .done _
  | ended interfaces visited => exact searchInterfaces_prolongs budget interfaces visited
  | exhausted => exact .out _

theorem searchAncestor_prolongs (budget : Nat) (c : ClassView) (visited : List ClassName) :
    Prolongs .exhausted (searchAncestor ancestor budget c visited)
      (searchAncestor ancestor (budget + 1) c visited) := by
  induction budget generalizing c visited with
  | zero => exact .out _
  | succ budget ih =>
    unfold searchAncestor
    split
    · exact .done _
    split
    · exact .done _
    split
    · exact .done _
    · refine .ask fun answer => ?_
      cases answer with
      | none => exact .done _
      | some above => exact ih above _

end

/-! ## Walks that end -/

variable {α : Type} {t : FileTree} {i : ClassIndex} {q : Query} {assumes : ClassName → Bool}
  {ancestor : ClassName}

/-- What an inquiry ends with when a linker makes it that has served requests before. -/
def Linker.asked (t : FileTree) (i : ClassIndex) (rs : List Request) (x : Inquiry α) :
    Except Failure α :=
  ((x.run (Linker.view t i)).on (Linker.serve t i rs {}).2).1

theorem Linker.asked_eq (rs : List Request) (x : Inquiry α) :
    Linker.asked t i rs x = x.run (i.answer t) :=
  (transparent_run x _ ((Linker.faithful_fresh t i).serve rs).2).1

/-- Whatever a linker was asked before, the walk has one outcome for every budget from `enough` on,
and that is not to have run out. -/
def EndsWithin (t : FileTree) (i : ClassIndex) (walk : Nat → Inquiry α) (out : α)
    (enough : Nat) : Prop :=
  ∃ outcome : Except Failure α, outcome ≠ .ok out ∧
    ∀ budget, enough ≤ budget → ∀ rs, Linker.asked t i rs (walk budget) = outcome

theorem endsWithin_of_prolongs {walk : Nat → Inquiry α} {out : α} {enough : Nat}
    (hwalk : ∀ n, Prolongs out (walk n) (walk (n + 1)))
    (henough : (walk enough).run (i.answer t) ≠ .ok out) : EndsWithin t i walk out enough := by
  refine ⟨(walk enough).run (i.answer t), henough, ?_⟩
  intro budget hbudget rs
  rw [Linker.asked_eq]
  exact Inquiry.run_eq_of_le hwalk henough hbudget

theorem EndsWithin.run_eq {walk : Nat → Inquiry α} {out : α} {enough budget : Nat}
    (h : EndsWithin t i walk out enough) (hbudget : enough ≤ budget) :
    (walk budget).run (i.answer t) = (walk enough).run (i.answer t) := by
  obtain ⟨outcome, -, hsame⟩ := h
  rw [← Linker.asked_eq [], ← Linker.asked_eq [], hsame budget hbudget, hsame enough le_rfl]

/-- The class a walk starts from need not be one of the index; all others are. -/
theorem searchChain_endsWithin (c : ClassView) (interfaces visited : List ClassName) :
    EndsWithin t i (fun budget => searchChain q assumes budget c interfaces visited) .exhausted
      (i.size + 2) := by
  apply endsWithin_of_prolongs fun n => searchChain_prolongs n c interfaces visited
  intro h
  cases chainStep_of_run h with
  | climbs hname hm hsuper habove hrest =>
    exact searchChain_ne_exhausted ⟨_, ClassIndex.answer_eq_some_iff.mp habove⟩
      (Nat.lt_succ_of_le ClassIndex.unseen_le_size) hrest rfl

theorem searchAncestor_endsWithin (c : ClassView) (visited : List ClassName) :
    EndsWithin t i (fun budget => searchAncestor ancestor budget c visited) .exhausted
      (i.size + 2) := by
  apply endsWithin_of_prolongs fun n => searchAncestor_prolongs n c visited
  intro h
  cases ancestorStep_of_run h with
  | climbs hname hsuper hother habove hrest =>
    exact searchAncestor_ne_exhausted ⟨_, ClassIndex.answer_eq_some_iff.mp habove⟩
      (Nat.lt_succ_of_le ClassIndex.unseen_le_size) hrest rfl

/-! ## Walks of a linker -/

namespace ClassIndex

variable {name : ClassName} {c : ClassView}

theorem Loads.searchMember_endsWithin (hc : i.Loads t name c) (q : Query)
    (assumes : ClassName → Bool) :
    EndsWithin t i (fun budget => searchMember q assumes budget c) .exhausted i.size := by
  apply endsWithin_of_prolongs fun n => searchMember_prolongs n c
  intro h
  exact searchMember_ne_exhausted ⟨name, hc⟩ h rfl

theorem Loads.searchAncestor_endsWithin (hc : i.Loads t name c) (ancestor : ClassName) :
    EndsWithin t i (fun budget => searchAncestor ancestor (budget + 1) c []) .exhausted i.size := by
  apply endsWithin_of_prolongs fun n => searchAncestor_prolongs (n + 1) c []
  intro h
  exact searchAncestor_ne_exhausted ⟨name, hc⟩ (Nat.lt_succ_of_le unseen_le_size) h rfl

theorem Loads.run_memberOf (hc : i.Loads t name c) (q : Query) (assumes : ClassName → Bool)
    {budget : Nat} (hbudget : i.size ≤ budget) :
    (memberOf q assumes budget c).run (i.answer t)
      = (memberOf q assumes i.size c).run (i.answer t) := by
  rw [memberOf, memberOf, Inquiry.run_bind, Inquiry.run_bind,
    (hc.searchMember_endsWithin q assumes).run_eq hbudget]

theorem run_descendsFrom (name ancestor : ClassName) {budget : Nat} (hbudget : i.size ≤ budget) :
    (descendsFrom budget name ancestor).run (i.answer t)
      = (descendsFrom i.size name ancestor).run (i.answer t) := by
  rw [descendsFrom, descendsFrom, Inquiry.run_bind, Inquiry.run_bind, Inquiry.run_view]
  cases hanswer : i.answer t name with
  | error failure => rfl
  | ok answer =>
    cases answer with
    | none => rfl
    | some c =>
      have hc := answer_eq_some_iff.mp hanswer
      show Inquiry.run (i.answer t) (_ >>= _) = Inquiry.run (i.answer t) (_ >>= _)
      rw [Inquiry.run_bind, Inquiry.run_bind,
        (hc.searchAncestor_endsWithin ancestor).run_eq hbudget]

/-- On every index each of the three loops ends, from whatever state it starts.  For a member of a
class that loads, and for an ancestor of a class of any name, as many rounds as there are defined
names are enough: a linker gives its walks that many, and none of its answers depends on it. -/
theorem hierarchyWalks_end (t : FileTree) (i : ClassIndex) :
    (∀ (q : Query) (c : ClassView) (interfaces visited : List ClassName),
        EndsWithin t i (fun budget => searchChain q i.assumes budget c interfaces visited)
          .exhausted (i.size + 2))
      ∧ (∀ (q : Query) (queue visited : List ClassName),
        EndsWithin t i (fun budget => searchInterfaces q budget queue visited) .exhausted i.size)
      ∧ (∀ (ancestor : ClassName) (c : ClassView) (visited : List ClassName),
        EndsWithin t i (fun budget => searchAncestor ancestor budget c visited)
          .exhausted (i.size + 2))
      ∧ (∀ (name : ClassName) (c : ClassView), i.Loads t name c →
        (∀ q : Query,
          EndsWithin t i (fun budget => searchMember q i.assumes budget c) .exhausted i.size)
        ∧ ∀ ancestor : ClassName,
          EndsWithin t i (fun budget => searchAncestor ancestor (budget + 1) c [])
            .exhausted i.size)
      ∧ ∀ budget, i.size ≤ budget → ∀ rs : List Request,
        (∀ (name : ClassName) (c : ClassView), i.Loads t name c → ∀ q : Query,
          Linker.asked t i rs (memberOf q i.assumes budget c)
            = Linker.asked t i rs (memberOf q i.assumes i.size c))
        ∧ ∀ name ancestor : ClassName, Linker.asked t i rs (descendsFrom budget name ancestor)
          = Linker.asked t i rs (descendsFrom i.size name ancestor) := by
  refine ⟨fun q c interfaces visited => searchChain_endsWithin c interfaces visited,
    fun q queue visited => ?_, fun ancestor c visited => searchAncestor_endsWithin c visited,
    fun name c hc => ⟨fun q => hc.searchMember_endsWithin q i.assumes,
      fun ancestor => hc.searchAncestor_endsWithin ancestor⟩,
    fun budget hbudget rs => ⟨fun name c hc q => ?_, fun name ancestor => ?_⟩⟩
  · apply endsWithin_of_prolongs fun n => searchInterfaces_prolongs n queue visited
    intro h
    exact searchInterfaces_ne_exhausted unseen_le_size h rfl
  · rw [Linker.asked_eq, Linker.asked_eq]
    exact hc.run_memberOf q i.assumes hbudget
  · rw [Linker.asked_eq, Linker.asked_eq]
    exact run_descendsFrom name ancestor hbudget

/-- A field that no class of the tangled hierarchy declares is looked for in all of them, through
both cycles, and with any larger budget to the same end. -/
theorem hierarchyWalks_end_tangled :
    let t : FileTree := ⟨[], []⟩
    let c := tangledView "A" (some "B") ["Missing", "I"] []
    tangled.Loads t "A" c
      ∧ EndsWithin t tangled (fun budget => searchMember (.field "y") tangled.assumes budget c)
        .exhausted tangled.size
      ∧ tangled.size ≤ 1000
      ∧ Linker.asked t tangled [.descendsFrom "B" "I"]
        (memberOf (.field "y") tangled.assumes 1000 c) = .ok none := by
  intro t c
  have hload : tangled.Loads t "A" c := loads_ofRows t rfl
  have hsize : tangled.size ≤ 1000 := by
    rw [tangled_size]
    decide
  obtain ⟨-, -, -, hends, hsame⟩ := hierarchyWalks_end t tangled
  refine ⟨hload, (hends "A" c hload).1 _, hsize, ?_⟩
  rw [(hsame 1000 hsize _).1 "A" c hload, Linker.asked_eq, tangled_size, tangled,
    answer_ofRows]
  rfl

end ClassIndex

end Linkage
