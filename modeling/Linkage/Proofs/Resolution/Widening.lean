import Linkage.Proofs.Audit.Comparison
import Linkage.Proofs.Resolution.Classification

/-!
# Widening access never breaks a link

Two indexes find every name in the same artifact, and their classes differ in flags only: what is
public stays public, and every member is seen at least from where it was seen before.  Then every
reference that resolves with the first resolves with the second.

Looking for a member never looks at flags, so both searches ask the same questions and end at the
same member.  The rules of access are nested: who shares the outermost class shares the package, and
who shares the package need not descend from the class.

* `Member.Widened`, `ClassView.Widened`, `ClassIndex.Widened`: the two runs.
* `Inquiry.InStep`: inquiries that ask the same questions as long as the answers differ in flags
  only.
* `mayUse_of_widened`: the rules of access are nested.
* `resolve_of_widened`: a reference that resolves still resolves.
-/

namespace Linkage

/-! ## Wider access -/

/-- The same member, seen at least from where it was seen before. -/
structure Member.Widened (m m' : Member) : Prop where
  /-- It has the same name. -/
  name : m'.name = m.name
  /-- It has the same type. -/
  descriptor : m'.descriptor = m.descriptor
  /-- It is at least as visible. -/
  visibility : m.access.visibility.rank ≤ m'.access.visibility.rank

/-- The same class with other flags: it stays public if it was, and no member is hidden from
anyone. -/
structure ClassView.Widened (c c' : ClassView) : Prop where
  /-- It has the same name. -/
  name : c'.name = c.name
  /-- It extends the same class. -/
  superclass : c'.superclass = c.superclass
  /-- It has the same interfaces. -/
  interfaces : c'.interfaces = c.interfaces
  /-- It stays public. -/
  isPublic : c.isPublic = true → c'.isPublic = true
  /-- It declares the same fields. -/
  fields : List.Forall₂ Member.Widened c.fields c'.fields
  /-- It declares the same methods. -/
  methods : List.Forall₂ Member.Widened c.methods c'.methods
  /-- It has the same nested classes. -/
  nested : c'.nested = c.nested
  /-- It mentions the same classes. -/
  classRefs : c'.classRefs = c.classRefs
  /-- It mentions the same methods. -/
  methodRefs : c'.methodRefs = c.methodRefs
  /-- It mentions the same fields. -/
  fieldRefs : c'.fieldRefs = c.fieldRefs

theorem ClassView.Widened.refl (c : ClassView) : c.Widened c where
  name := rfl
  superclass := rfl
  interfaces := rfl
  isPublic := id
  fields := List.forall₂_same.mpr fun _ _ => ⟨rfl, rfl, le_rfl⟩
  methods := List.forall₂_same.mpr fun _ _ => ⟨rfl, rfl, le_rfl⟩
  nested := rfl
  classRefs := rfl
  methodRefs := rfl
  fieldRefs := rfl

/-- Rows of one archive, the second with wider access. -/
structure Row.Widened (r r' : Row) : Prop where
  /-- They are in the same archive. -/
  archive : r'.archive = r.archive
  /-- The class has wider access. -/
  view : r.view.Widened r'.view

/-- Both succeed, with results that are related, or both fail alike. -/
inductive Alike {ε α β : Type} (R : α → β → Prop) : Except ε α → Except ε β → Prop where
  | ok {a : α} {b : β} (h : R a b) : Alike R (.ok a) (.ok b)
  | error (e : ε) : Alike R (.error e) (.error e)

theorem Alike.exists_of_some {ε α β : Type} {R : α → β → Prop} {a : α}
    {y : Except ε (Option β)} (h : Alike (Option.Rel R) (.ok (some a)) y) :
    ∃ b, R a b ∧ y = .ok (some b) := by
  cases h with
  | ok hab =>
    cases hab with
    | some hab => exact ⟨_, hab, rfl⟩

/-- Over their own files, the indexes find every name in the same artifact, and the class it loads
with the second has wider access. -/
structure ClassIndex.Widened (t : FileTree) (i : ClassIndex) (t' : FileTree) (i' : ClassIndex) :
    Prop where
  /-- They assume the same classes. -/
  assumed : i'.platform.assumed = i.platform.assumed
  /-- Every name is found in the same artifact. -/
  definer : ∀ name, i'.definer? name = i.definer? name
  /-- It loads with wider access, or fails alike. -/
  load : ∀ name, Alike ClassView.Widened (i.load t name) (i'.load t' name)

theorem ClassIndex.Widened.answer {t t' : FileTree} {i i' : ClassIndex}
    (h : ClassIndex.Widened t i t' i') (name : ClassName) :
    Alike (Option.Rel ClassView.Widened) (i.answer t name) (i'.answer t' name) := by
  have hload := h.load name
  unfold ClassIndex.answer
  generalize i.load t name = loaded at hload
  generalize i'.load t' name = loaded' at hload
  cases hload with
  | ok hc => exact .ok (.some hc)
  | error failure =>
    cases failure with
    | classNotFound _ => exact .ok .none
    | _ => exact .error _

/-! ## Inquiries in step -/

namespace Inquiry

/-- Two inquiries that ask the same questions and come to related results, as long as the second is
answered by classes with wider access. -/
inductive InStep {α β : Type} (R : α → β → Prop) : Inquiry α → Inquiry β → Prop where
  | done {a : α} {b : β} (h : R a b) : InStep R (.done a) (.done b)
  | ask {name : ClassName} {next : Option ClassView → Inquiry α}
    {next' : Option ClassView → Inquiry β}
    (h : ∀ answer answer', Option.Rel ClassView.Widened answer answer' →
      InStep R (next answer) (next' answer')) : InStep R (.ask name next) (.ask name next')

variable {α α' β β' : Type} {R : α → α' → Prop} {S : β → β' → Prop}

theorem InStep.bind {x : Inquiry α} {x' : Inquiry α'} {f : α → Inquiry β} {f' : α' → Inquiry β'}
    (hx : InStep R x x') (hf : ∀ a a', R a a' → InStep S (f a) (f' a')) :
    InStep S (x >>= f) (x' >>= f') := by
  induction hx with
  | done h => exact hf _ _ h
  | ask _ ih => exact .ask ih

/-- Inquiries in step, answered alike but for wider access, end alike. -/
theorem InStep.run {ε : Type} {lookUp lookUp' : ClassName → Except ε (Option ClassView)}
    (hlookUp : ∀ name, Alike (Option.Rel ClassView.Widened) (lookUp name) (lookUp' name))
    {x : Inquiry α} {x' : Inquiry α'} (h : InStep R x x') :
    Alike R (x.run lookUp) (x'.run lookUp') := by
  induction h with
  | done h => exact .ok h
  | @ask name next next' _ ih =>
    show Alike R (lookUp name >>= fun answer => (next answer).run lookUp)
      (lookUp' name >>= fun answer => (next' answer).run lookUp')
    have hanswer := hlookUp name
    generalize lookUp name = answer at hanswer
    generalize lookUp' name = answer' at hanswer
    cases hanswer with
    | ok hanswer => exact ih _ _ hanswer
    | error failure => exact .error failure

end Inquiry

/-! ## Looking for a member -/

/-- The first fitting members of lists that are related one by one are related. -/
theorem find?_forall₂ {α β : Type} {R : α → β → Prop} {p : α → Bool} {p' : β → Bool}
    (hp : ∀ x y, R x y → p x = p' y) {xs : List α} {ys : List β} (h : List.Forall₂ R xs ys) :
    Option.Rel R (xs.find? p) (ys.find? p') := by
  induction h with
  | nil => exact .none
  | cons hxy _ ih =>
    rw [List.find?_cons, List.find?_cons, hp _ _ hxy]
    split
    · exact .some hxy
    · exact ih

/-- The same member of the same class, seen at least from where it was seen before. -/
structure Found.Widened (f f' : Found) : Prop where
  /-- The same class declares it. -/
  declaring : f'.declaring = f.declaring
  /-- It is the same member. -/
  member : f.member.Widened f'.member

/-- The walks up the superclasses end alike. -/
inductive ChainEnd.Widened : ChainEnd → ChainEnd → Prop where
  | found {f f' : Found} (h : f.Widened f') : Widened (.found f) (.found f')
  | ended (interfaces visited : List ClassName) :
    Widened (.ended interfaces visited) (.ended interfaces visited)
  | exhausted : Widened .exhausted .exhausted

/-- The searches end alike. -/
inductive Search.Widened : Search → Search → Prop where
  | found {f f' : Found} (h : f.Widened f') : Widened (.found f) (.found f')
  | absent : Widened .absent .absent
  | exhausted : Widened .exhausted .exhausted

section

variable {q : Query} {assumes : ClassName → Bool}

open Inquiry (InStep)

theorem Query.findIn?_widened (q : Query) {c c' : ClassView} (h : c.Widened c') :
    Option.Rel Member.Widened (q.findIn? c) (q.findIn? c') := by
  cases q with
  | method name descriptor =>
    refine find?_forall₂ (fun m m' hm => ?_) h.methods
    rw [hm.name, hm.descriptor]
  | field name =>
    refine find?_forall₂ (fun m m' hm => ?_) h.fields
    rw [hm.name]

theorem searchChain_inStep (budget : Nat) {c c' : ClassView} (h : c.Widened c')
    (interfaces visited : List ClassName) :
    InStep ChainEnd.Widened (searchChain q assumes budget c interfaces visited)
      (searchChain q assumes budget c' interfaces visited) := by
  induction budget generalizing c c' interfaces visited with
  | zero => exact .done .exhausted
  | succ budget ih =>
    unfold searchChain
    rw [h.name, h.superclass, h.interfaces]
    split
    · exact .done (.ended interfaces visited)
    have hfound := q.findIn?_widened h
    generalize q.findIn? c = found at hfound
    generalize q.findIn? c' = found' at hfound
    cases hfound with
    | some hm => exact .done (.found ⟨rfl, hm⟩)
    | none =>
      cases c.superclass with
      | none => exact .done (.ended _ _)
      | some s =>
        refine .ask fun answer answer' hanswer => ?_
        cases hanswer with
        | some habove => exact ih habove _ _
        | none =>
          dsimp only
          split
          · exact .done (.found ⟨rfl, rfl, rfl, le_rfl⟩)
          · exact .done (.ended _ _)

theorem drain_inStep {more : (queue visited : List ClassName) → Inquiry Search}
    (hmore : ∀ queue visited, InStep Search.Widened (more queue visited) (more queue visited))
    (queue visited : List ClassName) :
    InStep Search.Widened (drain q more queue visited) (drain q more queue visited) := by
  induction queue generalizing visited with
  | nil => exact .done .absent
  | cons name queue ih =>
    unfold drain
    split
    · exact ih visited
    · refine .ask fun answer answer' hanswer => ?_
      cases hanswer with
      | none => exact ih _
      | @some c c' h =>
        dsimp only
        rw [h.name, h.interfaces]
        have hfound := q.findIn?_widened h
        generalize q.findIn? c = found at hfound
        generalize q.findIn? c' = found' at hfound
        cases hfound with
        | some hm => exact .done (.found ⟨rfl, hm⟩)
        | none => exact hmore _ _

theorem searchInterfaces_inStep (budget : Nat) (queue visited : List ClassName) :
    InStep Search.Widened (searchInterfaces q budget queue visited)
      (searchInterfaces q budget queue visited) := by
  induction budget generalizing queue visited with
  | zero => exact drain_inStep (fun _ _ => .done .exhausted) queue visited
  | succ budget ih => exact drain_inStep ih queue visited

/-- Both searches end at the same member, or at none. -/
theorem memberOf_inStep (q : Query) (assumes : ClassName → Bool) (budget : Nat)
    {c c' : ClassView} (h : c.Widened c') :
    InStep (Option.Rel Found.Widened) (memberOf q assumes budget c)
      (memberOf q assumes budget c') := by
  have hsearch : InStep Search.Widened (searchMember q assumes budget c)
      (searchMember q assumes budget c') := by
    refine (searchChain_inStep (budget + 1) h [] []).bind fun _ _ hend => ?_
    cases hend with
    | found hf => exact .done (.found hf)
    | ended interfaces visited => exact searchInterfaces_inStep budget interfaces visited
    | exhausted => exact .done .exhausted
  refine hsearch.bind fun _ _ hend => ?_
  cases hend with
  | found hf => exact .done (.some hf)
  | absent => exact .done .none
  | exhausted => exact .done .none

/-- Who extends whom does not depend on flags. -/
theorem searchAncestor_inStep (ancestor : ClassName) (budget : Nat) {c c' : ClassView}
    (h : c.Widened c') (visited : List ClassName) :
    InStep Eq (searchAncestor ancestor budget c visited)
      (searchAncestor ancestor budget c' visited) := by
  induction budget generalizing c c' visited with
  | zero => exact .done rfl
  | succ budget ih =>
    unfold searchAncestor
    rw [h.name, h.superclass]
    split
    · exact .done rfl
    cases c.superclass with
    | none => exact .done rfl
    | some s =>
      dsimp only
      split
      · exact .done rfl
      · refine .ask fun answer answer' hanswer => ?_
        cases hanswer with
        | none => exact .done rfl
        | some habove => exact ih habove _

theorem descendsFrom_inStep (budget : Nat) (name ancestor : ClassName) :
    InStep Eq (descendsFrom budget name ancestor) (descendsFrom budget name ancestor) := by
  refine .ask fun answer answer' hanswer => ?_
  cases hanswer with
  | none => exact .done rfl
  | some h =>
    refine (searchAncestor_inStep ancestor (budget + 1) h []).bind fun descent _ hsame => ?_
    subst hsame
    exact .done rfl

end

/-! ## The rules of access -/

/-- Who shares the outermost class shares the package. -/
theorem ClassName.samePackage_of_topLevel {a b : ClassName} (h : a.topLevel = b.topLevel) :
    a.samePackage b = true := by
  rw [samePackage, package, package, h, beq_self_eq_true]

namespace ClassIndex

variable {t t' : FileTree} {i i' : ClassIndex}
  {lookUp lookUp' : ClassName → Except Failure (Option ClassView)}

/-- When a class may use a member. -/
theorem run_mayUse_eq_true_iff {source : ClassName} {f : Found} :
    (i.mayUse source f).run lookUp = .ok true ↔
      f.member.access.visibility = .everyone
        ∨ f.member.access.visibility = .subclasses ∧ (source.samePackage f.declaring = true
          ∨ (descendsFrom i.size source f.declaring).run lookUp = .ok true)
        ∨ f.member.access.visibility = .package ∧ source.samePackage f.declaring = true
        ∨ f.member.access.visibility = .nest ∧ source.topLevel = f.declaring.topLevel := by
  have hpure : ∀ b : Bool, (pure b : Inquiry Bool).run lookUp = .ok b := fun _ => rfl
  unfold mayUse
  cases f.member.access.visibility with
  | everyone => simp [hpure]
  | subclasses =>
    cases hshared : source.samePackage f.declaring with
    | true => simp [hpure]
    | false => simp
  | package => simp [hpure]
  | nest => simp [hpure]

/-- The rules of access are nested: who may use a member may still use it once it is seen from
further away. -/
theorem mayUse_of_widened
    (hlookUp : ∀ name, Alike (Option.Rel ClassView.Widened) (lookUp name) (lookUp' name))
    {source : ClassName} {f f' : Found} (hf : f.Widened f')
    (h : (i.mayUse source f).run lookUp = .ok true) :
    (i.mayUse source f').run lookUp' = .ok true := by
  have hrank := hf.member.visibility
  have hdescends := (descendsFrom_inStep i.size source f.declaring).run hlookUp
  rw [run_mayUse_eq_true_iff] at h ⊢
  rw [hf.declaring]
  generalize f.member.access.visibility = v at h hrank
  generalize f'.member.access.visibility = v' at hrank ⊢
  rcases h with rfl | ⟨rfl, hshared | hancestor⟩ | ⟨rfl, hshared⟩ | ⟨rfl, hnest⟩
  · cases v' with
    | everyone => exact .inl rfl
    | subclasses | package | nest => exact absurd hrank (by decide)
  · cases v' with
    | everyone => exact .inl rfl
    | subclasses => exact .inr (.inl ⟨rfl, .inl hshared⟩)
    | package | nest => exact absurd hrank (by decide)
  · cases v' with
    | everyone => exact .inl rfl
    | subclasses =>
      -- The ancestors of the source are looked through by the same rule only.
      rw [hancestor] at hdescends
      generalize (descendsFrom i.size source f.declaring).run lookUp' = answer at hdescends ⊢
      cases hdescends with
      | ok hsame => exact .inr (.inl ⟨rfl, .inr (congrArg Except.ok hsame.symm)⟩)
    | package | nest => exact absurd hrank (by decide)
  · cases v' with
    | everyone => exact .inl rfl
    | subclasses => exact .inr (.inl ⟨rfl, .inl hshared⟩)
    | package => exact .inr (.inr (.inl ⟨rfl, hshared⟩))
    | nest => exact absurd hrank (by decide)
  · have hshared := ClassName.samePackage_of_topLevel hnest
    cases v' with
    | everyone => exact .inl rfl
    | subclasses => exact .inr (.inl ⟨rfl, .inl hshared⟩)
    | package => exact .inr (.inr (.inl ⟨rfl, hshared⟩))
    | nest => exact .inr (.inr (.inr ⟨rfl, hnest⟩))

/-! ## References -/

/-- When a reference to a member of a class that is defined resolves. -/
theorem run_definedOutcome_eq_resolved_iff {location : Path} {source target : ClassName}
    {q : Query} : (i.definedOutcome location source target q).run lookUp = .ok .resolved ↔
      ∃ c f, lookUp target = .ok (some c)
        ∧ (c.isPublic = true ∨ source.samePackage target = true)
        ∧ (memberOf q i.assumes i.size c).run lookUp = .ok (some f)
        ∧ (i.mayUse source f).run lookUp = .ok true := by
  unfold definedOutcome
  rw [Inquiry.run_view_bind_eq_ok_iff]
  constructor
  · rintro ⟨answer, hanswer, h⟩
    cases answer with
    | none => cases h
    | some c =>
      dsimp only at h
      split at h
      · cases h
      · next hopen =>
        obtain ⟨found, hfound, h⟩ := Inquiry.run_bind_eq_ok_iff.mp h
        cases found with
        | none => cases h
        | some f =>
          obtain ⟨b, hb, h⟩ := Inquiry.run_bind_eq_ok_iff.mp h
          cases b with
          | false => cases h
          | true =>
            refine ⟨c, f, hanswer, ?_, hfound, hb⟩
            cases hpublic : c.isPublic with
            | true => exact .inl rfl
            | false => exact .inr (by simpa [hpublic] using hopen)
  · rintro ⟨c, f, hanswer, hopen, hfound, huse⟩
    refine ⟨some c, hanswer, ?_⟩
    have hnot : ¬ (!c.isPublic && !source.samePackage target) = true := by
      rcases hopen with h | h <;> simp [h]
    dsimp only
    rw [if_neg hnot]
    exact Inquiry.run_bind_eq_ok_iff.mpr
      ⟨some f, hfound, Inquiry.run_bind_eq_ok_iff.mpr ⟨true, huse, rfl⟩⟩

theorem outcome_of_widened
    (hlookUp : ∀ name, Alike (Option.Rel ClassView.Widened) (lookUp name) (lookUp' name))
    {r : Reference} (h : (i.outcome r).run lookUp = .ok .resolved) :
    (i.outcome r).run lookUp' = .ok .resolved := by
  have hmember : ∀ {source target : ClassName} {q : Query},
      (i.memberOutcome source target q).run lookUp = .ok .resolved →
        (i.memberOutcome source target q).run lookUp' = .ok .resolved := by
    intro source target q h
    unfold memberOutcome at h ⊢
    cases hdefiner : i.definer? target with
    | none =>
      rw [hdefiner] at h
      exact h
    | some location =>
      rw [hdefiner] at h
      obtain ⟨c, f, htarget, hopen, hfound, huse⟩ := run_definedOutcome_eq_resolved_iff.mp h
      -- The second run loads the same class with wider access, and finds the same member.
      have htarget' := hlookUp target
      rw [htarget] at htarget'
      obtain ⟨c', hc, htarget'⟩ := htarget'.exists_of_some
      have hfound' := (memberOf_inStep q i.assumes i.size hc).run hlookUp
      rw [hfound] at hfound'
      obtain ⟨f', hf, hfound'⟩ := hfound'.exists_of_some
      exact run_definedOutcome_eq_resolved_iff.mpr
        ⟨c', f', htarget', hopen.imp_left hc.isPublic, hfound', mayUse_of_widened hlookUp hf huse⟩
  cases r with
  | toClass r => exact h
  | toMethod r => exact hmember h
  | toField r => exact hmember h

/-- With wider access to classes and members, every reference that resolves still resolves, whatever
the two linkers have served before. -/
theorem resolve_of_widened {t t' : FileTree} {i i' : ClassIndex}
    (h : ClassIndex.Widened t i t' i') (rs rs' : List Request) {r : Reference}
    (hr : ((Linker.resolve t i r).on (Linker.serve t i rs {}).2).1 = .ok .resolved) :
    ((Linker.resolve t' i' r).on (Linker.serve t' i' rs' {}).2).1 = .ok .resolved := by
  have hfaithful := ((Linker.faithful_fresh t i).serve rs).2
  have hfaithful' := ((Linker.faithful_fresh t' i').serve rs').2
  rw [(transparent_resolve r _ hfaithful).1] at hr
  rw [(transparent_resolve r _ hfaithful').1, outcome_congr h.assumed h.definer]
  exact outcome_of_widened h.answer hr

theorem find?_widened {rows rows' : List Row} (h : List.Forall₂ Row.Widened rows rows')
    (name : ClassName) :
    (rows.find? (Row.isCalled name) = none ∧ rows'.find? (Row.isCalled name) = none)
      ∨ ∃ r r', rows.find? (Row.isCalled name) = some r
        ∧ rows'.find? (Row.isCalled name) = some r' ∧ r.Widened r' := by
  induction h with
  | nil => exact .inl ⟨rfl, rfl⟩
  | @cons r r' _ _ hrow _ ih =>
    have hcalled : r'.isCalled name = r.isCalled name := by
      rw [Row.isCalled, Row.isCalled, hrow.view.name]
    rw [List.find?_cons, List.find?_cons, hcalled]
    cases r.isCalled name with
    | true => exact .inr ⟨r, r', rfl, rfl, hrow⟩
    | false => exact ih

theorem widened_ofRows (t : FileTree) {rows rows' : List Row}
    (h : List.Forall₂ Row.Widened rows rows') :
    ClassIndex.Widened t (ofRows rows) t (ofRows rows') where
  assumed := rfl
  definer name := by
    rw [definer?_ofRows, definer?_ofRows]
    obtain ⟨hrow, hrow'⟩ | ⟨r, r', hrow, hrow', hwider⟩ := find?_widened h name
    · rw [hrow, hrow']
    · rw [hrow, hrow']
      exact congrArg some hwider.archive
  load name := by
    rw [load, load, view?_ofRows, view?_ofRows, Row.classOf?, Row.classOf?]
    obtain ⟨hrow, hrow'⟩ | ⟨r, r', hrow, hrow', hwider⟩ := find?_widened h name
    · rw [hrow, hrow']
      exact .error _
    · rw [hrow, hrow']
      exact .ok hwider.view

/-! The two archives of `inherited` once more, but the source extends the class that declares the
field.  That class and the field have the same flags. -/

/-- The classes of both archives. -/
def heirRows (flags : AccessFlags) : List Row :=
  [⟨⟨"a.jar"⟩, tangledView "p.T" (some "q.B") [] []⟩,
    ⟨⟨"a.jar"⟩, tangledView "r.S" (some "q.B") [] []⟩,
    ⟨⟨"b.jar"⟩, { tangledView "q.B" none [] [⟨"x", "I", flags⟩] with access := flags }⟩]

/-- The index of both. -/
def heir (flags : AccessFlags) : ClassIndex := ofRows (heirRows flags)

theorem heir_widened (t : FileTree) : ClassIndex.Widened t (heir ⟨4⟩) t (heir ⟨1⟩) := by
  have hbase : ClassView.Widened
      { tangledView "q.B" none [] [⟨"x", "I", ⟨4⟩⟩] with access := ⟨4⟩ }
      { tangledView "q.B" none [] [⟨"x", "I", ⟨1⟩⟩] with access := ⟨1⟩ } :=
    ⟨rfl, rfl, rfl, fun _ => rfl, .cons ⟨rfl, rfl, by decide⟩ .nil, .nil, rfl, rfl, rfl, rfl⟩
  exact widened_ofRows t (.cons ⟨rfl, .refl _⟩ (.cons ⟨rfl, .refl _⟩ (.cons ⟨rfl, hbase⟩ .nil)))

theorem heir_run (t : FileTree) :
    ((heir ⟨4⟩).memberOutcome "r.S" "p.T" (.field "x")).run ((heir ⟨4⟩).answer t)
      = .ok .resolved := by
  rw [memberOutcome, heir, definer?_ofRows, answer_ofRows]
  show (definedOutcome _ _ _ _ _).run _ = _
  unfold definedOutcome mayUse
  rw [size_ofRows (heirRows ⟨4⟩) (by decide)]
  rfl

/-- A protected field that the source inherits is made public, and so is the class that declares
it. -/
theorem resolve_of_widened_heir :
    let t : FileTree := ⟨[], []⟩
    let r : Reference := .toField ⟨"r.S", "p.T", "x"⟩
    ClassIndex.Widened t (heir ⟨4⟩) t (heir ⟨1⟩)
      ∧ ((Linker.resolve t (heir ⟨4⟩) r).on {}).1 = .ok .resolved
      ∧ ((Linker.resolve t (heir ⟨1⟩) r).on {}).1 = .ok .resolved := by
  intro t r
  have hr : ((Linker.resolve t (heir ⟨4⟩) r).on {}).1 = .ok .resolved := by
    rw [(transparent_resolve r _ (Linker.faithful_fresh t _)).1]
    exact heir_run t
  exact ⟨heir_widened t, hr, resolve_of_widened (heir_widened t) [] [] hr⟩

end ClassIndex

end Linkage
