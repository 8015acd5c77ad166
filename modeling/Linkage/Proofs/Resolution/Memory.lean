import Linkage.Proofs.Operations
import Linkage.Resolution.Linker

/-!
# What a linker remembers never shows

A linker keeps the classes it has loaded and the names it has found undefined.  As long as the
files stay the same, its memory agrees with the index, whatever it was asked before and wherever a
failure ended a walk; so every answer is the one a linker without memory gives.

* `Linker.Faithful`: memory that agrees with the index.
* `Transparent`: an operation whose answer does not depend on a faithful memory, and keeps it so.
* `serve_answers`: any sequence of requests is answered one by one as by a fresh linker, and as by
  loading every class anew.
-/

namespace Linkage

/-! ## Answers without memory -/

/-- The class with a name, loaded anew.  A name that is not found has no class; every other
failure is passed on. -/
def ClassIndex.answer (t : FileTree) (i : ClassIndex) (name : ClassName) :
    Except Failure (Option ClassView) :=
  match i.load t name with
  | .ok c => .ok (some c)
  | .error (.classNotFound _) => .ok none
  | .error failure => .error failure

theorem ClassIndex.answer_of_view?_ok {t : FileTree} {i : ClassIndex} {name : ClassName}
    {answer : Option ClassView} (h : i.view? t name = .ok answer) :
    i.answer t name = .ok answer := by
  cases answer <;> simp [ClassIndex.answer, ClassIndex.load, h]

theorem ClassIndex.answer_of_view?_error {t : FileTree} {i : ClassIndex} {name : ClassName}
    {cause : ArtifactFailure} (h : i.view? t name = .error cause) :
    i.answer t name = .error (.artifact cause) := by
  simp [ClassIndex.answer, ClassIndex.load, h]

/-! ## Memory that agrees with the index -/

/-- What an operation answers, and the linker it leaves behind. -/
def Linking.on {α : Type} (x : Linking α) (l : Linker) : Except Failure α × Linker :=
  (ExceptT.run x).run l

/-- Everything the linker remembers is what loading would give. -/
def Linker.Faithful (t : FileTree) (i : ClassIndex) (l : Linker) : Prop :=
  ∀ name answer, l.memory[name]? = some answer → i.answer t name = .ok answer

theorem Linker.faithful_fresh (t : FileTree) (i : ClassIndex) : Linker.Faithful t i {} := by
  intro name answer h
  simp at h

theorem Linker.Faithful.remember {t : FileTree} {i : ClassIndex} {l : Linker}
    (hl : l.Faithful t i) {name : ClassName} {answer : Option ClassView}
    (h : i.answer t name = .ok answer) (log : Array Event) :
    Linker.Faithful t i ⟨l.memory.insert name answer, log⟩ := by
  intro other found hfound
  by_cases hname : name = other
  · subst hname
    rw [Std.HashMap.getElem?_insert_self] at hfound
    rw [h, Option.some.inj hfound]
  · have hkey : (name == other) = false := by simpa using hname
    rw [Std.HashMap.getElem?_insert, hkey] at hfound
    exact hl other found hfound

/-- On every faithful linker the operation answers `a` and leaves a faithful linker. -/
def Transparent {α : Type} (t : FileTree) (i : ClassIndex) (x : Linking α)
    (a : Except Failure α) : Prop :=
  ∀ l : Linker, l.Faithful t i → (x.on l).1 = a ∧ (x.on l).2.Faithful t i

section

variable {α β : Type} {t : FileTree} {i : ClassIndex}

theorem transparent_pure (a : α) : Transparent t i (pure a) (.ok a) :=
  fun _ hl => ⟨rfl, hl⟩

theorem transparent_note (e : Event) : Transparent t i (Linker.note e) (.ok ()) :=
  fun _ hl => ⟨rfl, hl⟩

/-- A failure ends the operation with the linker as it is then; otherwise the rest starts from the
linker the first part left. -/
theorem Linking.on_bind (x : Linking α) (f : α → Linking β) (l : Linker) :
    (x >>= f).on l = match (x.on l).1 with
      | .ok a => (f a).on (x.on l).2
      | .error failure => (.error failure, (x.on l).2) := by
  unfold Linking.on
  rw [run_bind]
  cases (StateT.run (ExceptT.run x) l).1 <;> rfl

theorem Transparent.bind {x : Linking α} {f : α → Linking β} {a : Except Failure α}
    {g : α → Except Failure β} (hx : Transparent t i x a) (hf : ∀ v, Transparent t i (f v) (g v)) :
    Transparent t i (x >>= f) (a >>= g) := by
  intro l hl
  obtain ⟨hanswer, hafter⟩ := hx l hl
  rw [Linking.on_bind, hanswer]
  cases a with
  | ok v => exact hf v _ hafter
  | error failure => exact ⟨rfl, hafter⟩

/-- What looking a class up does: a name that is remembered changes nothing, one that is not is
remembered unless its class fails to load. -/
theorem Linker.view_on (t : FileTree) (i : ClassIndex) (name : ClassName) (l : Linker) :
    (Linker.view t i name).on l = match l.memory[name]? with
      | some answer => (.ok answer, l)
      | none => match i.view? t name with
        | .error cause => (.error (.artifact cause), l)
        | .ok answer => (.ok answer, ⟨l.memory.insert name answer,
            if answer.isNone then l.log.push (.skipped name) else l.log⟩) := by
  unfold Linker.view
  rw [Linking.on_bind]
  show Linking.on (match l.memory[name]? with | some answer => _ | none => _) l = _
  cases l.memory[name]? with
  | some answer => rfl
  | none =>
    cases i.view? t name with
    | error cause => rfl
    | ok answer => cases answer <;> rfl

/-- A class looked up in memory first is the class loaded anew. -/
theorem transparent_view (name : ClassName) :
    Transparent t i (Linker.view t i name) (i.answer t name) := by
  intro l hl
  rw [Linker.view_on]
  cases hmemory : l.memory[name]? with
  | some answer => exact ⟨(hl name answer hmemory).symm, hl⟩
  | none =>
    cases hview : i.view? t name with
    | error cause => exact ⟨(ClassIndex.answer_of_view?_error hview).symm, hl⟩
    | ok answer =>
      have hanswer := ClassIndex.answer_of_view?_ok hview
      exact ⟨hanswer.symm, hl.remember hanswer _⟩

/-- A walk through the hierarchy asks the same questions and gets the same answers, with memory or
without.  The induction is on the tree of questions. -/
theorem transparent_run (q : Inquiry α) :
    Transparent t i (q.run (Linker.view t i)) (q.run (i.answer t)) := by
  induction q with
  | done a => exact transparent_pure a
  | ask name next ih => exact (transparent_view name).bind ih

theorem transparent_noteAssumed (r : Reference) :
    Transparent t i (Linker.noteAssumed i r) (.ok ()) := by
  unfold Linker.noteAssumed
  split
  · exact transparent_pure ()
  · split
    · exact transparent_note _
    · exact transparent_pure ()

theorem transparent_resolve (r : Reference) :
    Transparent t i (Linker.resolve t i r) ((i.outcome r).run (i.answer t)) := by
  have hafter : ∀ o, Transparent t i
      (do Linker.note (.decided r o); return o) (.ok o) :=
    fun o => (transparent_note _).bind fun _ => transparent_pure o
  have hall := (transparent_noteAssumed r).bind fun _ => (transparent_run (i.outcome r)).bind hafter
  have hsame : (do let _ ← Except.ok (); let o ← (i.outcome r).run (i.answer t); Except.ok o)
      = (i.outcome r).run (i.answer t) := by
    show ((i.outcome r).run (i.answer t) >>= pure) = _
    rw [bind_pure]
  rw [hsame] at hall
  exact hall

theorem transparent_descendsFrom (name ancestor : ClassName) :
    Transparent t i (Linker.descendsFrom t i name ancestor)
      ((descendsFrom i.size name ancestor).run (i.answer t)) :=
  transparent_run _

end

/-! ## Sequences of requests -/

/-- What a linker can be asked to do. -/
inductive Request where
  /-- To resolve a reference of any kind. -/
  | resolve (r : Reference)
  /-- To resolve a reference to a class. -/
  | resolveClass (r : ClassReference)
  /-- To resolve a reference to a method. -/
  | resolveMethod (r : MethodReference)
  /-- To resolve a reference to a field. -/
  | resolveField (r : FieldReference)
  /-- To tell whether a class extends another. -/
  | descendsFrom (name ancestor : ClassName)
  deriving DecidableEq, Repr

/-- The answer to a request. -/
inductive Answer where
  /-- To one about a reference. -/
  | outcome (o : Outcome)
  /-- To one about two classes. -/
  | verdict (b : Bool)
  deriving DecidableEq, Repr

namespace Request

/-- The request carried out by a linker. -/
def perform (t : FileTree) (i : ClassIndex) : Request → Linking Answer
  | .resolve r => return .outcome (← Linker.resolve t i r)
  | .resolveClass r => return .outcome (← Linker.resolve t i (.toClass r))
  | .resolveMethod r => return .outcome (← Linker.resolve t i (.toMethod r))
  | .resolveField r => return .outcome (← Linker.resolve t i (.toField r))
  | .descendsFrom name ancestor => return .verdict (← Linker.descendsFrom t i name ancestor)

/-- The request answered without a linker: every class that is asked for is loaded anew. -/
def direct (t : FileTree) (i : ClassIndex) : Request → Except Failure Answer
  | .resolve r => return .outcome (← (i.outcome r).run (i.answer t))
  | .resolveClass r => return .outcome (← (i.outcome (.toClass r)).run (i.answer t))
  | .resolveMethod r => return .outcome (← (i.outcome (.toMethod r)).run (i.answer t))
  | .resolveField r => return .outcome (← (i.outcome (.toField r)).run (i.answer t))
  | .descendsFrom name ancestor =>
    return .verdict (← (Linkage.descendsFrom i.size name ancestor).run (i.answer t))

theorem transparent_perform (t : FileTree) (i : ClassIndex) (r : Request) :
    Transparent t i (r.perform t i) (r.direct t i) := by
  cases r with
  | resolve r => exact (transparent_resolve r).bind fun _ => transparent_pure _
  | resolveClass r => exact (transparent_resolve _).bind fun _ => transparent_pure _
  | resolveMethod r => exact (transparent_resolve _).bind fun _ => transparent_pure _
  | resolveField r => exact (transparent_resolve _).bind fun _ => transparent_pure _
  | descendsFrom name ancestor =>
    exact (transparent_descendsFrom name ancestor).bind fun _ => transparent_pure _

end Request

namespace Linker

/-- Carries out requests one after another: the answer to each, and the linker at the end.  A
request that fails does not stop the next. -/
def serve (t : FileTree) (i : ClassIndex) : List Request → Linker →
    List (Except Failure Answer) × Linker
  | [], l => ([], l)
  | r :: rs, l =>
    let (answer, l) := (r.perform t i).on l
    let (answers, l) := serve t i rs l
    (answer :: answers, l)

/-- A faithful linker answers every request of a sequence as if it had no memory, and is faithful
after the last. -/
theorem Faithful.serve {t : FileTree} {i : ClassIndex} {l : Linker} (hl : l.Faithful t i)
    (rs : List Request) :
    (Linker.serve t i rs l).1 = rs.map (Request.direct t i)
      ∧ (Linker.serve t i rs l).2.Faithful t i := by
  induction rs generalizing l with
  | nil => exact ⟨rfl, hl⟩
  | cons r rs ih =>
    obtain ⟨hanswer, hafter⟩ := r.transparent_perform t i l hl
    obtain ⟨hanswers, hlast⟩ := ih hafter
    refine ⟨?_, hlast⟩
    show ((r.perform t i).on l).1 :: (Linker.serve t i rs ((r.perform t i).on l).2).1 = _
    rw [hanswer, hanswers, List.map_cons]

/-- Whatever requests a linker serves, in whatever order and however often, failures included, it
answers each as a fresh linker does, and as one that loads every class anew. -/
theorem serve_answers (t : FileTree) (i : ClassIndex) (rs : List Request) :
    (serve t i rs {}).1 = rs.map (fun r => ((r.perform t i).on {}).1)
      ∧ (serve t i rs {}).1 = rs.map (Request.direct t i) := by
  obtain ⟨hanswers, -⟩ := (faithful_fresh t i).serve rs
  refine ⟨?_, hanswers⟩
  rw [hanswers]
  refine List.map_congr_left fun r _ => ?_
  exact (r.transparent_perform t i {} (faithful_fresh t i)).1.symm

end Linker

end Linkage
