import Mathlib.Data.Finset.Card
import Linkage.Proofs.Resolution.Memory
import Linkage.Resolution.Hierarchy

/-!
# Walks through the hierarchy and their budget

What one step of a walk can do, and why a budget of all defined names is enough.  A walk never
looks into two classes of one name, and whatever it looks into was loaded for a defined name; so
with every class it looks into, fewer names are left that could lead it further.  This holds of
every index, also when a class is not called what it is defined as.

* `unseen`: how many names are left.
* `ChainStep`, `DrainStep`: one step of the walk up the superclasses and of the one through the
  interfaces.
* `searchMember_ne_exhausted`: the budget is never used up.
-/

namespace Linkage

/-! ## Classes that load -/

namespace ClassIndex

/-- The name is defined and its class can be loaded. -/
def Loads (t : FileTree) (i : ClassIndex) (name : ClassName) (c : ClassView) : Prop :=
  i.view? t name = .ok (some c)

/-- Every class that loads is called what it is defined as. -/
def CarriesNames (t : FileTree) (i : ClassIndex) : Prop :=
  ∀ name c, i.Loads t name c → c.name = name

variable {t : FileTree} {i : ClassIndex} {name : ClassName} {c d : ClassView}

theorem Loads.unique (hc : i.Loads t name c) (hd : i.Loads t name d) : c = d := by
  have heq : Except.ok (some c) = Except.ok (ε := ArtifactFailure) (some d) := hc.symm.trans hd
  injection heq with heq
  exact Option.some.inj heq

theorem view?_eq_ok_none_iff : i.view? t name = .ok none ↔ i.contains name = false := by
  unfold view? contains
  cases hplace : i.places[name]? with
  | none =>
    have hnot : name ∉ i.places := by simpa using hplace
    simp [hnot]
  | some place =>
    have hmem : name ∈ i.places := by
      rw [Std.HashMap.mem_iff_isSome_getElem?, hplace]
      rfl
    cases hview : place.artifact.view t i.dialect i.limit place.entry with
    | error cause => simp [hmem, hview, Except.map]
    | ok c => simp [hmem, hview, Except.map]

theorem Loads.contains (h : i.Loads t name c) : i.contains name = true := by
  cases hcontains : i.contains name with
  | true => rfl
  | false =>
    have hnone : i.view? t name = .ok none := view?_eq_ok_none_iff.mpr hcontains
    rw [Loads, hnone] at h
    simp at h

theorem answer_eq_some_iff : i.answer t name = .ok (some c) ↔ i.Loads t name c := by
  unfold Loads
  cases hview : i.view? t name with
  | error cause => simp [answer_of_view?_error hview]
  | ok answer => simp [answer_of_view?_ok hview]

theorem answer_eq_none_iff : i.answer t name = .ok none ↔ i.contains name = false := by
  rw [← view?_eq_ok_none_iff (t := t)]
  cases hview : i.view? t name with
  | error cause => simp [answer_of_view?_error hview]
  | ok answer => simp [answer_of_view?_ok hview]

theorem answer_eq_error_iff {failure : Failure} : i.answer t name = .error failure ↔
    i.contains name = true ∧ i.load t name = .error failure := by
  cases hview : i.view? t name with
  | error cause =>
    have hdefined : i.contains name = true := by
      by_contra hcontains
      rw [view?_eq_ok_none_iff.mpr (Bool.not_eq_true _ ▸ hcontains)] at hview
      cases hview
    simp [answer_of_view?_error hview, load, hview, hdefined]
  | ok answer =>
    cases answer with
    | none => simp [answer_of_view?_ok hview, view?_eq_ok_none_iff.mp hview]
    | some c => simp [answer_of_view?_ok hview, load, hview]

/-! ## Names still to be seen -/

/-- What the class of a name is called itself. -/
def ownName (t : FileTree) (i : ClassIndex) (name : ClassName) : ClassName :=
  match i.view? t name with
  | .ok (some c) => c.name
  | _ => name

theorem Loads.ownName (h : i.Loads t name c) : i.ownName t name = c.name := by
  rw [Loads] at h
  rw [ClassIndex.ownName, h]

/-- How many defined names are unseen by a walk that marks each name as it visits it. -/
def unseen (i : ClassIndex) (mark : ClassName → ClassName) (visited : List ClassName) : Nat :=
  (i.places.keys.toFinset.filter fun n => mark n ∉ visited).card

variable {mark : ClassName → ClassName} {visited : List ClassName}

theorem unseen_le_size : i.unseen mark visited ≤ i.size := by
  calc i.unseen mark visited
      ≤ i.places.keys.toFinset.card := Finset.card_filter_le _ _
    _ ≤ i.places.keys.length := List.toFinset_card_le _
    _ = i.size := Std.HashMap.length_keys

theorem filter_unseen_subset (names : Finset ClassName) (m : ClassName) :
    (names.filter fun n => mark n ∉ m :: visited) ⊆ names.filter fun n => mark n ∉ visited := by
  intro n hn
  obtain ⟨hmem, hunseen⟩ := Finset.mem_filter.mp hn
  exact Finset.mem_filter.mpr ⟨hmem, fun hseen => hunseen (List.mem_cons_of_mem m hseen)⟩

theorem unseen_cons_le (m : ClassName) : i.unseen mark (m :: visited) ≤ i.unseen mark visited :=
  Finset.card_le_card (filter_unseen_subset _ m)

theorem unseen_cons_lt (hname : i.contains name = true) (hmark : mark name ∉ visited) :
    i.unseen mark (mark name :: visited) < i.unseen mark visited := by
  have hkey : name ∈ i.places.keys.toFinset :=
    List.mem_toFinset.mpr (Std.HashMap.mem_keys.mpr (Std.HashMap.mem_iff_contains.mpr hname))
  apply Finset.card_lt_card
  refine (Finset.ssubset_iff_of_subset (filter_unseen_subset _ _)).mpr ⟨name, ?_, ?_⟩
  · exact Finset.mem_filter.mpr ⟨hkey, hmark⟩
  · intro hleft
    exact (Finset.mem_filter.mp hleft).2 List.mem_cons_self

/-- Looking into a class that was loaded leaves fewer classes to look into. -/
theorem Loads.unseen_lt (h : i.Loads t name c) (hname : c.name ∉ visited) :
    i.unseen (i.ownName t) (c.name :: visited) < i.unseen (i.ownName t) visited := by
  rw [← h.ownName] at hname ⊢
  exact unseen_cons_lt h.contains hname

end ClassIndex

/-! ## Running an inquiry -/

section

variable {α β ε : Type} {lookUp : ClassName → Except ε (Option ClassView)}

theorem Inquiry.run_ask_eq_ok_iff {name : ClassName} {next : Option ClassView → Inquiry α}
    {a : α} : (Inquiry.ask name next).run lookUp = .ok a ↔
      ∃ answer, lookUp name = .ok answer ∧ (next answer).run lookUp = .ok a :=
  except_bind_eq_ok_iff

theorem Inquiry.run_bind (x : Inquiry α) (f : α → Inquiry β) :
    (x >>= f).run lookUp = x.run lookUp >>= fun a => (f a).run lookUp := by
  induction x with
  | done a => rfl
  | ask name next ih =>
    show (lookUp name >>= fun answer => (next answer >>= f).run lookUp)
      = (lookUp name >>= fun answer => (next answer).run lookUp) >>= fun a => (f a).run lookUp
    cases lookUp name with
    | error failure => rfl
    | ok answer => exact ih answer

theorem Inquiry.run_bind_eq_ok_iff {x : Inquiry α} {f : α → Inquiry β} {b : β} :
    (x >>= f).run lookUp = .ok b ↔ ∃ a, x.run lookUp = .ok a ∧ (f a).run lookUp = .ok b := by
  rw [run_bind]
  exact except_bind_eq_ok_iff

theorem Inquiry.run_view (name : ClassName) : (Inquiry.view name).run lookUp = lookUp name := by
  show (lookUp name >>= fun answer => .ok answer) = lookUp name
  cases lookUp name <;> rfl

theorem Inquiry.run_view_bind_eq_ok_iff {name : ClassName} {f : Option ClassView → Inquiry α}
    {a : α} : (Inquiry.view name >>= f).run lookUp = .ok a ↔
      ∃ answer, lookUp name = .ok answer ∧ (f answer).run lookUp = .ok a :=
  run_ask_eq_ok_iff

end

/-! ## One step -/

section

variable {ε : Type} {lookUp : ClassName → Except ε (Option ClassView)} {q : Query}
  {assumes : ClassName → Bool} {budget : Nat}

/-- What looking into one class on the way up can lead to. -/
inductive ChainStep (lookUp : ClassName → Except ε (Option ClassView)) (q : Query)
    (assumes : ClassName → Bool) (budget : Nat) (c : ClassView)
    (interfaces visited : List ClassName) : ChainEnd → Prop where
  /-- A class of this name has been visited. -/
  | repeated (hname : c.name ∈ visited) :
    ChainStep lookUp q assumes budget c interfaces visited (.ended interfaces visited)
  /-- The class declares the member. -/
  | declared (hname : c.name ∉ visited) {m : Member} (hm : q.findIn? c = some m) :
    ChainStep lookUp q assumes budget c interfaces visited (.found ⟨c.name, m⟩)
  /-- There is no superclass. -/
  | topmost (hname : c.name ∉ visited) (hm : q.findIn? c = none) (hsuper : c.superclass = none) :
    ChainStep lookUp q assumes budget c interfaces visited
      (.ended (interfaces ++ c.interfaces) (c.name :: visited))
  /-- The walk goes on with the superclass. -/
  | climbs (hname : c.name ∉ visited) (hm : q.findIn? c = none) {s : ClassName} {above : ClassView}
      {result : ChainEnd} (hsuper : c.superclass = some s) (habove : lookUp s = .ok (some above))
      (hrest : (searchChain q assumes budget above (interfaces ++ c.interfaces)
        (c.name :: visited)).run lookUp = .ok result) :
    ChainStep lookUp q assumes budget c interfaces visited result
  /-- The superclass is not defined, but the member is known. -/
  | known (hname : c.name ∉ visited) (hm : q.findIn? c = none) {s : ClassName} {m : Member}
      (hsuper : c.superclass = some s) (habove : lookUp s = .ok none) (hassumes : assumes s = true)
      (hknown : q.findKnown? s = some m) :
    ChainStep lookUp q assumes budget c interfaces visited (.found ⟨s, m⟩)
  /-- The superclass is not defined, and the member not known. -/
  | missing (hname : c.name ∉ visited) (hm : q.findIn? c = none) {s : ClassName}
      (hsuper : c.superclass = some s) (habove : lookUp s = .ok none)
      (hknown : assumes s = true → q.findKnown? s = none) :
    ChainStep lookUp q assumes budget c interfaces visited
      (.ended (interfaces ++ c.interfaces) (c.name :: visited))

theorem chainStep_of_run {c : ClassView} {interfaces visited : List ClassName} {result : ChainEnd}
    (h : (searchChain q assumes (budget + 1) c interfaces visited).run lookUp = .ok result) :
    ChainStep lookUp q assumes budget c interfaces visited result := by
  rw [searchChain] at h
  by_cases hname : c.name ∈ visited
  · rw [if_pos (by simpa using hname)] at h
    injection h with h
    exact h ▸ .repeated hname
  rw [if_neg (by simpa using hname)] at h
  cases hm : q.findIn? c with
  | some m =>
    rw [hm] at h
    injection h with h
    exact h ▸ .declared hname hm
  | none =>
    simp only [hm] at h
    cases hsuper : c.superclass with
    | none =>
      simp only [hsuper] at h
      injection h with h
      exact h ▸ .topmost hname hm hsuper
    | some s =>
      simp only [hsuper, Inquiry.run_ask_eq_ok_iff] at h
      obtain ⟨answer, habove, h⟩ := h
      cases answer with
      | some above => exact .climbs hname hm hsuper habove h
      | none =>
        simp only at h
        split at h
        · next m hknown =>
          injection h with h
          split at hknown
          · next hassumes => exact h ▸ .known hname hm hsuper habove hassumes hknown
          · simp at hknown
        · next hknown =>
          injection h with h
          refine h ▸ .missing hname hm hsuper habove fun hassumes => ?_
          rwa [if_pos hassumes] at hknown

/-- What taking one name off the queue can lead to. -/
inductive DrainStep (lookUp : ClassName → Except ε (Option ClassView)) (q : Query)
    (more : List ClassName → List ClassName → Inquiry Search) (name : ClassName)
    (queue visited : List ClassName) : Search → Prop where
  /-- The name has been visited. -/
  | seen (hname : name ∈ visited) {result : Search}
      (hrest : (drain q more queue visited).run lookUp = .ok result) :
    DrainStep lookUp q more name queue visited result
  /-- The name is not defined. -/
  | passed (hname : name ∉ visited) (hclass : lookUp name = .ok none) {result : Search}
      (hrest : (drain q more queue (name :: visited)).run lookUp = .ok result) :
    DrainStep lookUp q more name queue visited result
  /-- The interface declares the member. -/
  | declared (hname : name ∉ visited) {c : ClassView} (hclass : lookUp name = .ok (some c))
      {m : Member} (hm : q.findIn? c = some m) :
    DrainStep lookUp q more name queue visited (.found ⟨c.name, m⟩)
  /-- The interface does not declare it, and its own interfaces are put behind the queue. -/
  | widens (hname : name ∉ visited) {c : ClassView} (hclass : lookUp name = .ok (some c))
      (hm : q.findIn? c = none) {result : Search}
      (hrest : (more (queue ++ c.interfaces) (name :: visited)).run lookUp = .ok result) :
    DrainStep lookUp q more name queue visited result

theorem drainStep_of_run {more : List ClassName → List ClassName → Inquiry Search}
    {name : ClassName} {queue visited : List ClassName} {result : Search}
    (h : (drain q more (name :: queue) visited).run lookUp = .ok result) :
    DrainStep lookUp q more name queue visited result := by
  rw [drain] at h
  by_cases hname : name ∈ visited
  · rw [if_pos (by simpa using hname)] at h
    exact .seen hname h
  rw [if_neg (by simpa using hname), Inquiry.run_ask_eq_ok_iff] at h
  obtain ⟨answer, hclass, h⟩ := h
  cases answer with
  | none => exact .passed hname hclass h
  | some c =>
    cases hm : q.findIn? c with
    | none =>
      simp only [hm] at h
      exact .widens hname hclass hm h
    | some m =>
      simp only [hm] at h
      injection h with h
      exact h ▸ .declared hname hclass hm

end

/-! ## The budget lasts -/

section

variable {t : FileTree} {i : ClassIndex} {q : Query} {assumes : ClassName → Bool}

theorem searchChain_ne_exhausted {budget : Nat} {c : ClassView}
    {interfaces visited : List ClassName} {result : ChainEnd} (hc : ∃ n, i.Loads t n c)
    (hbudget : i.unseen (i.ownName t) visited < budget)
    (h : (searchChain q assumes budget c interfaces visited).run (i.answer t) = .ok result) :
    result ≠ .exhausted := by
  induction budget generalizing c interfaces visited with
  | zero => exact absurd hbudget (Nat.not_lt_zero _)
  | succ budget ih =>
    cases chainStep_of_run h with
    | repeated => simp
    | declared => simp
    | topmost => simp
    | known => simp
    | missing => simp
    | climbs hname hm hsuper habove hrest =>
      obtain ⟨_, hload⟩ := hc
      have hfewer := hload.unseen_lt hname
      exact ih ⟨_, ClassIndex.answer_eq_some_iff.mp habove⟩ (by omega) hrest

/-- Taking names off the queue does not use up the budget if what comes after does not. -/
theorem drain_ne_exhausted {more : List ClassName → List ClassName → Inquiry Search}
    {queue visited : List ClassName} {result : Search} {bound : Nat}
    (hbound : i.unseen id visited ≤ bound)
    (hmore : ∀ {queue visited result}, i.unseen id visited < bound →
      (more queue visited).run (i.answer t) = .ok result → result ≠ .exhausted)
    (h : (drain q more queue visited).run (i.answer t) = .ok result) : result ≠ .exhausted := by
  induction queue generalizing visited with
  | nil =>
    rw [drain] at h
    injection h with h
    simp [← h]
  | cons name queue ih =>
    cases drainStep_of_run h with
    | seen hname hrest => exact ih hbound hrest
    | passed hname hclass hrest => exact ih ((ClassIndex.unseen_cons_le name).trans hbound) hrest
    | declared => simp
    | widens hname hclass hm hrest =>
      have hdefined := (ClassIndex.answer_eq_some_iff.mp hclass).contains
      have hfewer : i.unseen id (name :: visited) < i.unseen id visited :=
        ClassIndex.unseen_cons_lt hdefined hname
      exact hmore (hfewer.trans_le hbound) hrest

theorem searchInterfaces_ne_exhausted {budget : Nat} {queue visited : List ClassName}
    {result : Search} (hbudget : i.unseen id visited ≤ budget)
    (h : (searchInterfaces q budget queue visited).run (i.answer t) = .ok result) :
    result ≠ .exhausted := by
  induction budget generalizing queue visited result with
  | zero => exact drain_ne_exhausted hbudget (fun hnone => absurd hnone (Nat.not_lt_zero _)) h
  | succ budget ih => exact drain_ne_exhausted hbudget (fun hfewer => ih (by omega)) h

/-- A search that starts from a class of the index and may look into as many classes as there are
names never uses up its budget. -/
theorem searchMember_ne_exhausted {c : ClassView} {result : Search} (hc : ∃ n, i.Loads t n c)
    (h : (searchMember q assumes i.size c).run (i.answer t) = .ok result) :
    result ≠ .exhausted := by
  obtain ⟨chain, hchain, hrest⟩ := Inquiry.run_bind_eq_ok_iff.mp h
  have hlasts : chain ≠ .exhausted :=
    searchChain_ne_exhausted hc (Nat.lt_succ_of_le ClassIndex.unseen_le_size) hchain
  cases chain with
  | found f =>
    injection hrest with hrest
    simp [← hrest]
  | exhausted => exact absurd rfl hlasts
  | ended interfaces visited =>
    exact searchInterfaces_ne_exhausted ClassIndex.unseen_le_size hrest

end

end Linkage
