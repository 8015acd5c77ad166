import Linkage.Proofs.Resolution.Rows

/-!
# Where a member is found

The rule of member lookup, said without queues and visited names.  `Climb` is the chain of
superclasses above a class, `InterfaceAt` the interfaces at a number of steps from the classes of
the chain, and `LookedUp` says which member a lookup has to give: one of the nearest class of the
chain, else one every class inherits from an assumed root, else one of an interface at the least
distance, else none.

The walk keeps to this rule on every index whose classes are called what they are defined as.  The
invariant of the walk through the interfaces is `Frontier`: the queue is the rest of one level
followed by the part of the next level found so far, and everything nearer has been visited.
-/

namespace Linkage

namespace ClassIndex

/-- The superclass chain of `c` leads through the classes of `path`, the last one first, to a
further class. -/
inductive Climb (t : FileTree) (i : ClassIndex) (c : ClassView) :
    List ClassView → ClassView → Prop where
  /-- The chain starts with the class itself. -/
  | start : Climb t i c [] c
  /-- It goes on with a superclass that loads. -/
  | up {path : List ClassView} {d e : ClassView} {s : ClassName} (h : Climb t i c path d)
      (hsuper : d.superclass = some s) (hload : i.Loads t s e) : Climb t i c (d :: path) e

/-- The interface is so many steps away from the interfaces listed in the chain of `c`. -/
inductive InterfaceAt (t : FileTree) (i : ClassIndex) (c : ClassView) :
    Nat → ClassName → Prop where
  /-- A class of the chain lists it. -/
  | listed {path : List ClassView} {d : ClassView} {name : ClassName} (h : Climb t i c path d)
      (hname : name ∈ d.interfaces) : InterfaceAt t i c 0 name
  /-- An interface that loads extends it. -/
  | extended {k : Nat} {parent name : ClassName} {d : ClassView} (h : InterfaceAt t i c k parent)
      (hload : i.Loads t parent d) (hname : name ∈ d.interfaces) : InterfaceAt t i c (k + 1) name

/-- The chain of `c` ends below a root that is not defined but assumed, and the member is one that
every class inherits from it. -/
def RootKnows (t : FileTree) (i : ClassIndex) (q : Query) (c : ClassView) (m : Member) : Prop :=
  (∃ path d, Climb t i c path d ∧ d.superclass = some Query.rootClass)
    ∧ i.assumes Query.rootClass = true ∧ m ∈ Query.rootMethods ∧ q = .method m.name m.descriptor

/-- No class of the chain declares the member. -/
def ChainLacks (t : FileTree) (i : ClassIndex) (q : Query) (c : ClassView) : Prop :=
  ∀ path d, Climb t i c path d → q.findIn? d = none

/-- No interface nearer than `k` declares the member. -/
def InterfacesLack (t : FileTree) (i : ClassIndex) (q : Query) (c : ClassView) (k : Nat) : Prop :=
  ∀ j < k, ∀ name d, InterfaceAt t i c j name → i.Loads t name d → q.findIn? d = none

/-- What looking a member up in a class has to give. -/
inductive LookedUp (t : FileTree) (i : ClassIndex) (q : Query) (c : ClassView) :
    Option Found → Prop where
  /-- The member of the nearest class of the chain that declares it. -/
  | inherited {path : List ClassView} {d : ClassView} {m : Member} (hclimb : Climb t i c path d)
      (hnearer : ∀ e ∈ path, q.findIn? e = none) (hm : q.findIn? d = some m) :
    LookedUp t i q c (some ⟨d.name, m⟩)
  /-- Else a member of the assumed root. -/
  | assumed {m : Member} (hchain : ChainLacks t i q c) (hroot : RootKnows t i q c m) :
    LookedUp t i q c (some ⟨Query.rootClass, m⟩)
  /-- Else a member of an interface at the least distance. -/
  | offered {k : Nat} {name : ClassName} {d : ClassView} {m : Member}
      (hchain : ChainLacks t i q c) (hroot : ∀ m, ¬ RootKnows t i q c m)
      (hat : InterfaceAt t i c k name) (hload : i.Loads t name d) (hm : q.findIn? d = some m)
      (hnearer : InterfacesLack t i q c k) : LookedUp t i q c (some ⟨name, m⟩)
  /-- Else nothing. -/
  | absent (hchain : ChainLacks t i q c) (hroot : ∀ m, ¬ RootKnows t i q c m)
      (hinterfaces : ∀ k, InterfacesLack t i q c k) : LookedUp t i q c none

/-- Neither the chain nor the assumed root nor any interface has the member. -/
def Undeclared (t : FileTree) (i : ClassIndex) (q : Query) (c : ClassView) : Prop :=
  ChainLacks t i q c ∧ (∀ m, ¬ RootKnows t i q c m) ∧ ∀ k, InterfacesLack t i q c k

variable {t : FileTree} {i : ClassIndex} {q : Query} {c : ClassView}

theorem LookedUp.eq_none_iff {r : Option Found} (h : LookedUp t i q c r) :
    r = none ↔ Undeclared t i q c := by
  cases h with
  | inherited hclimb hnearer hm =>
    refine ⟨by simp, fun hnone => ?_⟩
    rw [hnone.1 _ _ hclimb] at hm
    cases hm
  | assumed hchain hroot => exact ⟨by simp, fun hnone => absurd hroot (hnone.2.1 _)⟩
  | offered hchain hroot hat hload hm hnearer =>
    refine ⟨by simp, fun hnone => ?_⟩
    rw [hnone.2.2 _ _ (Nat.lt_succ_self _) _ _ hat hload] at hm
    cases hm
  | absent hchain hroot hinterfaces => exact ⟨fun _ => ⟨hchain, hroot, hinterfaces⟩, fun _ => rfl⟩

/-! ## The chain -/

variable {path : List ClassView} {d : ClassView}

/-- Every class of the chain loads under its own name. -/
theorem Climb.loads (hnamed : i.CarriesNames t) (hc : i.Loads t c.name c)
    (h : Climb t i c path d) : i.Loads t d.name d := by
  cases h with
  | start => exact hc
  | up h hsuper hload =>
    rw [hnamed _ _ hload]
    exact hload

theorem Climb.of_mem (h : Climb t i c path d) {e : ClassView} (he : e ∈ path) :
    ∃ path', Climb t i c path' e := by
  induction h with
  | start => simp at he
  | up h hsuper hload ih =>
    rcases List.mem_cons.mp he with rfl | he
    · exact ⟨_, h⟩
    · exact ih he

theorem Climb.start_mem (h : Climb t i c path d) : c ∈ d :: path := by
  induction h with
  | start => exact List.mem_cons_self
  | up h hsuper hload ih => exact List.mem_cons_of_mem _ ih

/-- What comes after a class of the path is on the path or its end. -/
theorem Climb.next_of_mem (h : Climb t i c path d) {e : ClassView} (he : e ∈ path) :
    ∃ s f, e.superclass = some s ∧ i.Loads t s f ∧ f ∈ d :: path := by
  induction h with
  | start => simp at he
  | up h hsuper hload ih =>
    rcases List.mem_cons.mp he with rfl | he
    · exact ⟨_, _, hsuper, hload, List.mem_cons_self⟩
    · obtain ⟨s, f, hs, hf, hmem⟩ := ih he
      exact ⟨s, f, hs, hf, List.mem_cons_of_mem _ hmem⟩

theorem Climb.mem_next (h : Climb t i c path d) {e f : ClassView} {s : ClassName} (he : e ∈ path)
    (hs : e.superclass = some s) (hf : i.Loads t s f) : f ∈ d :: path := by
  obtain ⟨s', f', hs', hf', hmem⟩ := h.next_of_mem he
  obtain rfl : s = s' := Option.some.inj (hs.symm.trans hs')
  exact hf.unique hf' ▸ hmem

/-- Classes that hold the start and with each class the next hold the whole chain. -/
theorem Climb.mem_of_closed {all : List ClassView} (hstart : c ∈ all)
    (hclosed : ∀ e ∈ all, ∀ s f, e.superclass = some s → i.Loads t s f → f ∈ all)
    (h : Climb t i c path d) : d ∈ all := by
  induction h with
  | start => exact hstart
  | up h hsuper hload ih => exact hclosed _ ih _ _ hsuper hload

/-- If no superclass of the last class loads, the path and this class are the whole chain. -/
theorem Climb.mem_of_top (h : Climb t i c path d)
    (htop : ∀ s e, d.superclass = some s → ¬ i.Loads t s e) {path' : List ClassView}
    {e : ClassView} (he : Climb t i c path' e) : e ∈ d :: path := by
  refine he.mem_of_closed h.start_mem fun f hf s g hs hg => ?_
  rcases List.mem_cons.mp hf with rfl | hf
  · exact absurd hg (htop s g hs)
  · exact h.mem_next hf hs hg

/-- If the last class is on the path, the chain is a cycle and the path is all of it. -/
theorem Climb.mem_of_cycle (h : Climb t i c path d) (hcycle : d ∈ path) {path' : List ClassView}
    {e : ClassView} (he : Climb t i c path' e) : e ∈ path := by
  have hend : ∀ f ∈ d :: path, f ∈ path := by
    intro f hf
    rcases List.mem_cons.mp hf with rfl | hf
    · exact hcycle
    · exact hf
  refine he.mem_of_closed (hend c h.start_mem) fun f hf s g hs hg => ?_
  exact hend g (h.mem_next hf hs hg)

/-- If a class of the path has the name of the last class, it is this class. -/
theorem Climb.mem_of_name (hnamed : i.CarriesNames t) (hc : i.Loads t c.name c)
    (h : Climb t i c path d) (hname : d.name ∈ path.map ClassView.name) : d ∈ path := by
  obtain ⟨e, he, hsame⟩ := List.mem_map.mp hname
  obtain ⟨path', he'⟩ := h.of_mem he
  have hload := he'.loads hnamed hc
  rw [hsame] at hload
  rwa [(h.loads hnamed hc).unique hload]

/-! ## The walk up the chain -/

/-- The interfaces the classes of a path list, in the order of the walk. -/
def listedBy (path : List ClassView) : List ClassName :=
  path.reverse.flatMap ClassView.interfaces

theorem listedBy_cons (d : ClassView) (path : List ClassView) :
    listedBy (d :: path) = listedBy path ++ d.interfaces := by
  simp [listedBy]

theorem mem_listedBy {path : List ClassView} {name : ClassName} :
    name ∈ listedBy path ↔ ∃ d ∈ path, name ∈ d.interfaces := by
  simp [listedBy]

/-- The path is the whole chain, and neither it nor the assumed root has the member. -/
structure Settled (t : FileTree) (i : ClassIndex) (q : Query) (c : ClassView)
    (path : List ClassView) : Prop where
  /-- Every class of the chain is on the path. -/
  complete : ∀ path' d, Climb t i c path' d → d ∈ path
  /-- Every class of the path is on the chain. -/
  sound : ∀ d ∈ path, ∃ path', Climb t i c path' d
  /-- None declares the member. -/
  lacks : ∀ d ∈ path, q.findIn? d = none
  /-- The assumed root does not have it. -/
  root : ∀ m, ¬ RootKnows t i q c m

theorem Settled.chainLacks (h : Settled t i q c path) : ChainLacks t i q c :=
  fun path' d hd => h.lacks d (h.complete path' d hd)

/-- How the walk up the chain may end. -/
inductive ChainOutcome (t : FileTree) (i : ClassIndex) (q : Query) (c : ClassView) :
    ChainEnd → Prop where
  /-- With the member a lookup has to give. -/
  | found {f : Found} (h : LookedUp t i q c (some f)) : ChainOutcome t i q c (.found f)
  /-- With the whole chain visited. -/
  | ended {path : List ClassView} (h : Settled t i q c path) :
    ChainOutcome t i q c (.ended (listedBy path) (path.map ClassView.name))
  /-- With the budget used up. -/
  | exhausted : ChainOutcome t i q c .exhausted

theorem not_loads_of_undefined {name : ClassName} (h : i.contains name = false) (d : ClassView) :
    ¬ i.Loads t name d := by
  intro hload
  rw [hload.contains] at h
  cases h

theorem not_loads_of_assumes {name : ClassName} (h : i.assumes name = true) (d : ClassView) :
    ¬ i.Loads t name d := by
  refine not_loads_of_undefined ?_ d
  rw [assumes, Bool.and_eq_true, Bool.not_eq_true'] at h
  exact h.1

/-- If the chain goes on above a class, the superclass of this class is no assumed root. -/
theorem not_assumes_root_of_mem (h : Climb t i c path d) {e : ClassView} (he : e ∈ path)
    (hsuper : e.superclass = some Query.rootClass) : i.assumes Query.rootClass ≠ true := by
  intro hassumes
  obtain ⟨s, f, hs, hf, -⟩ := h.next_of_mem he
  obtain rfl : Query.rootClass = s := Option.some.inj (hsuper.symm.trans hs)
  exact not_loads_of_assumes hassumes f hf

theorem findKnown?_eq_some {name : ClassName} {m : Member} (h : q.findKnown? name = some m) :
    name = Query.rootClass ∧ m ∈ Query.rootMethods ∧ q = .method m.name m.descriptor := by
  cases q with
  | field f => simp [Query.findKnown?] at h
  | method n d =>
    simp only [Query.findKnown?] at h
    split at h
    · next hroot =>
      have hfits := List.find?_some h
      simp only [Bool.and_eq_true, beq_iff_eq] at hfits
      exact ⟨hroot, List.mem_of_find?_eq_some h, by rw [hfits.1, hfits.2]⟩
    · simp at h

theorem findKnown?_root_ne_none {m : Member} (hm : m ∈ Query.rootMethods)
    (hq : q = .method m.name m.descriptor) : q.findKnown? Query.rootClass ≠ none := by
  intro hnone
  rw [hq, Query.findKnown?, if_pos rfl, List.find?_eq_none] at hnone
  exact hnone m hm (by simp)

/-- The walk up the chain, from any class on it. -/
theorem searchChain_outcome (hnamed : i.CarriesNames t) (hc : i.Loads t c.name c) {budget : Nat}
    {result : ChainEnd} (hclimb : Climb t i c path d) (hpath : ∀ e ∈ path, q.findIn? e = none)
    (h : (searchChain q i.assumes budget d (listedBy path) (path.map ClassView.name)).run
      (i.answer t) = .ok result) : ChainOutcome t i q c result := by
  induction budget generalizing d path with
  | zero =>
    injection h with h
    exact h ▸ .exhausted
  | succ budget ih =>
    have hlacks : q.findIn? d = none → ∀ e ∈ d :: path, q.findIn? e = none := by
      intro hm e he
      rcases List.mem_cons.mp he with rfl | he
      · exact hm
      · exact hpath e he
    have hsound : ∀ e ∈ d :: path, ∃ path', Climb t i c path' e := by
      intro e he
      rcases List.mem_cons.mp he with rfl | he
      · exact ⟨path, hclimb⟩
      · exact hclimb.of_mem he
    cases chainStep_of_run h with
    | repeated hname =>
      -- a class of this name was loaded before, so it is this class and the chain is a cycle
      have he := hclimb.mem_of_name hnamed hc hname
      refine .ended ⟨fun _ _ => hclimb.mem_of_cycle he, fun _ => hclimb.of_mem, hpath, ?_⟩
      rintro m ⟨⟨path', f, hf, hsuper⟩, hassumes, -⟩
      exact not_assumes_root_of_mem hclimb (hclimb.mem_of_cycle he hf) hsuper hassumes
    | declared hname hm => exact .found (.inherited hclimb hpath hm)
    | topmost hname hm hsuper =>
      rw [← listedBy_cons, ← List.map_cons]
      have hall := fun path' e (he : Climb t i c path' e) =>
        hclimb.mem_of_top (by simp [hsuper]) he
      refine .ended ⟨hall, hsound, hlacks hm, ?_⟩
      rintro m ⟨⟨path', f, hf, hroot⟩, hassumes, -⟩
      rcases List.mem_cons.mp (hall _ _ hf) with rfl | hmem
      · rw [hsuper] at hroot
        cases hroot
      · exact not_assumes_root_of_mem hclimb hmem hroot hassumes
    | climbs hname hm hsuper habove hrest =>
      rw [← listedBy_cons, ← List.map_cons] at hrest
      exact ih (hclimb.up hsuper (answer_eq_some_iff.mp habove)) (hlacks hm) hrest
    | known hname hm hsuper habove hassumes hknown =>
      obtain ⟨rfl, hmem, hq⟩ := findKnown?_eq_some hknown
      refine .found (.assumed (fun path' e he => hlacks hm e (hclimb.mem_of_top ?_ he))
        ⟨⟨path, d, hclimb, hsuper⟩, hassumes, hmem, hq⟩)
      intro s e hs
      obtain rfl : Query.rootClass = s := Option.some.inj (hsuper.symm.trans hs)
      exact not_loads_of_assumes hassumes e
    | missing hname hm hsuper habove hknown =>
      rw [← listedBy_cons, ← List.map_cons]
      have htop : ∀ s e, d.superclass = some s → ¬ i.Loads t s e := by
        intro s e hs
        obtain rfl := Option.some.inj (hsuper.symm.trans hs)
        exact not_loads_of_undefined (answer_eq_none_iff.mp habove) e
      have hall := fun path' e (he : Climb t i c path' e) => hclimb.mem_of_top htop he
      refine .ended ⟨hall, hsound, hlacks hm, ?_⟩
      rintro m ⟨⟨path', f, hf, hroot⟩, hassumes, hmem, hq⟩
      rcases List.mem_cons.mp (hall _ _ hf) with rfl | hf
      · obtain rfl := Option.some.inj (hsuper.symm.trans hroot)
        exact findKnown?_root_ne_none hmem hq (hknown hassumes)
      · exact not_assumes_root_of_mem hclimb hf hroot hassumes

/-! ## The walk through the interfaces -/

/-- The state of the walk at level `k`: `here` is what is left of this level, `next` what has been
found of the next. -/
structure Frontier (t : FileTree) (i : ClassIndex) (q : Query) (c : ClassView) (k : Nat)
    (here next visited : List ClassName) : Prop where
  /-- What is left of this level is at this level. -/
  here_at : ∀ n ∈ here, InterfaceAt t i c k n
  /-- What has been found of the next level is at the next level. -/
  next_at : ∀ n ∈ next, InterfaceAt t i c (k + 1) n
  /-- All nearer levels have been visited. -/
  nearer : ∀ j < k, ∀ n, InterfaceAt t i c j n → n ∈ visited
  /-- All of this level has been visited or is left. -/
  level : ∀ n, InterfaceAt t i c k n → n ∈ visited ∨ n ∈ here
  /-- No visited class declares the member. -/
  lacks : ∀ n ∈ visited, ∀ d, i.Loads t n d → q.findIn? d = none
  /-- What a visited class extends has been visited or is in the queue. -/
  closed : ∀ n ∈ visited, ∀ d, i.Loads t n d → ∀ m ∈ d.interfaces,
    m ∈ visited ∨ m ∈ here ∨ m ∈ next

namespace Frontier

variable {k : Nat} {here next visited : List ClassName} {name : ClassName}

/-- After the chain, the queue is the whole first level. -/
theorem start (hnamed : i.CarriesNames t) (hc : i.Loads t c.name c) (h : Settled t i q c path) :
    Frontier t i q c 0 (listedBy path) [] (path.map ClassView.name) := by
  have hvisited : ∀ n ∈ path.map ClassView.name, ∀ d, i.Loads t n d → d ∈ path := by
    intro n hn d hd
    obtain ⟨e, he, rfl⟩ := List.mem_map.mp hn
    obtain ⟨path', hclimb⟩ := h.sound e he
    rw [hd.unique (hclimb.loads hnamed hc)]
    exact he
  constructor
  · intro n hn
    obtain ⟨d, hd, hlisted⟩ := mem_listedBy.mp hn
    obtain ⟨path', hclimb⟩ := h.sound d hd
    exact .listed hclimb hlisted
  · simp
  · simp
  · intro n hn
    cases hn with
    | listed hclimb hlisted =>
      exact .inr (mem_listedBy.mpr ⟨_, h.complete _ _ hclimb, hlisted⟩)
  · intro n hn d hd
    exact h.lacks d (hvisited n hn d hd)
  · intro n hn d hd m hm
    exact .inr (.inl (mem_listedBy.mpr ⟨d, hvisited n hn d hd, hm⟩))

/-- When a level is done, the next one begins. -/
theorem shift (h : Frontier t i q c k [] next visited) :
    Frontier t i q c (k + 1) next [] visited := by
  have hlevel : ∀ n, InterfaceAt t i c k n → n ∈ visited := by
    intro n hn
    rcases h.level n hn with hn | hn
    · exact hn
    · simp at hn
  constructor
  · exact h.next_at
  · simp
  · intro j hj n hn
    rcases Nat.lt_succ_iff_lt_or_eq.mp hj with hj | rfl
    · exact h.nearer j hj n hn
    · exact hlevel n hn
  · intro n hn
    cases hn with
    | extended hparent hload hname =>
      rcases h.closed _ (hlevel _ hparent) _ hload n hname with hn | hn | hn
      · exact .inl hn
      · simp at hn
      · exact .inr hn
  · exact h.lacks
  · intro n hn d hd m hm
    rcases h.closed n hn d hd m hm with hm | hm | hm
    · exact .inl hm
    · simp at hm
    · exact .inr (.inl hm)

/-- The name at the head of the queue is at some level. -/
theorem exists_head {queue : List ClassName} (h : Frontier t i q c k here next visited)
    (hqueue : here ++ next = name :: queue) :
    ∃ k' here' next', Frontier t i q c k' (name :: here') next' visited
      ∧ queue = here' ++ next' := by
  cases here with
  | cons first rest =>
    obtain ⟨rfl, rfl⟩ := List.cons.inj hqueue
    exact ⟨k, rest, next, h, rfl⟩
  | nil =>
    rw [List.nil_append] at hqueue
    subst hqueue
    exact ⟨k + 1, queue, [], h.shift, by simp⟩

/-- A name that has been visited is dropped. -/
theorem skip (h : Frontier t i q c k (name :: here) next visited) (hname : name ∈ visited) :
    Frontier t i q c k here next visited := by
  constructor
  · exact fun n hn => h.here_at n (List.mem_cons_of_mem _ hn)
  · exact h.next_at
  · exact h.nearer
  · intro n hn
    rcases h.level n hn with hn | hn
    · exact .inl hn
    · rcases List.mem_cons.mp hn with rfl | hn
      · exact .inl hname
      · exact .inr hn
  · exact h.lacks
  · intro n hn d hd m hm
    rcases h.closed n hn d hd m hm with hm | hm | hm
    · exact .inl hm
    · rcases List.mem_cons.mp hm with rfl | hm
      · exact .inl hname
      · exact .inr (.inl hm)
    · exact .inr (.inr hm)

/-- A name is visited: if it has a class, this does not declare the member and what it extends is
put behind the queue. -/
theorem visit (h : Frontier t i q c k (name :: here) next visited) (found : List ClassName)
    (hlacks : ∀ d, i.Loads t name d → q.findIn? d = none)
    (hfound : ∀ d, i.Loads t name d → ∀ m ∈ d.interfaces, m ∈ found)
    (hat : ∀ m ∈ found, InterfaceAt t i c (k + 1) m) :
    Frontier t i q c k here (next ++ found) (name :: visited) := by
  constructor
  · exact fun n hn => h.here_at n (List.mem_cons_of_mem _ hn)
  · intro n hn
    rcases List.mem_append.mp hn with hn | hn
    · exact h.next_at n hn
    · exact hat n hn
  · exact fun j hj n hn => List.mem_cons_of_mem _ (h.nearer j hj n hn)
  · intro n hn
    rcases h.level n hn with hn | hn
    · exact .inl (List.mem_cons_of_mem _ hn)
    · rcases List.mem_cons.mp hn with rfl | hn
      · exact .inl List.mem_cons_self
      · exact .inr hn
  · intro n hn d hd
    rcases List.mem_cons.mp hn with rfl | hn
    · exact hlacks d hd
    · exact h.lacks n hn d hd
  · intro n hn d hd m hm
    rcases List.mem_cons.mp hn with rfl | hn
    · exact .inr (.inr (List.mem_append_right _ (hfound d hd m hm)))
    · rcases h.closed n hn d hd m hm with hm | hm | hm
      · exact .inl (List.mem_cons_of_mem _ hm)
      · rcases List.mem_cons.mp hm with rfl | hm
        · exact .inl List.mem_cons_self
        · exact .inr (.inl hm)
      · exact .inr (.inr (List.mem_append_left _ hm))

theorem interfacesLack (h : Frontier t i q c k here next visited) : InterfacesLack t i q c k :=
  fun j hj n d hn hd => h.lacks n (h.nearer j hj n hn) d hd

/-- With an empty queue every interface has been visited. -/
theorem visited_of_empty (h : Frontier t i q c k [] [] visited) {j : Nat} {n : ClassName}
    (hn : InterfaceAt t i c j n) : n ∈ visited := by
  induction hn with
  | listed hclimb hname =>
    rcases Nat.eq_zero_or_pos k with rfl | hk
    · rcases h.level _ (.listed hclimb hname) with hn | hn
      · exact hn
      · simp at hn
    · exact h.nearer 0 hk _ (.listed hclimb hname)
  | extended hparent hload hname ih =>
    rcases h.closed _ ih _ hload _ hname with hn | hn | hn
    · exact hn
    · simp at hn
    · simp at hn

end Frontier

/-- What the walk through the interfaces gives, after a chain without the member. -/
def InterfaceOutcome (t : FileTree) (i : ClassIndex) (q : Query) (c : ClassView) :
    Search → Prop
  | .found f => ∃ k name d, InterfaceAt t i c k name ∧ i.Loads t name d
      ∧ q.findIn? d = some f.member ∧ f.declaring = name ∧ InterfacesLack t i q c k
  | .absent => ∀ k, InterfacesLack t i q c k
  | .exhausted => True

theorem drain_outcome (hnamed : i.CarriesNames t)
    {more : List ClassName → List ClassName → Inquiry Search} {queue : List ClassName}
    {k : Nat} {here next visited : List ClassName} {result : Search}
    (hmore : ∀ {k here next visited}, Frontier t i q c k here next visited →
      (more (here ++ next) visited).run (i.answer t) = .ok result → InterfaceOutcome t i q c result)
    (hfrontier : Frontier t i q c k here next visited) (hqueue : here ++ next = queue)
    (h : (drain q more queue visited).run (i.answer t) = .ok result) :
    InterfaceOutcome t i q c result := by
  induction queue generalizing k here next visited with
  | nil =>
    obtain ⟨rfl, rfl⟩ := List.append_eq_nil_iff.mp hqueue
    rw [drain] at h
    injection h with h
    subst h
    exact fun k j _ n d hn hd => hfrontier.lacks n (hfrontier.visited_of_empty hn) d hd
  | cons name queue ih =>
    obtain ⟨k', here', next', hhead, rfl⟩ := hfrontier.exists_head hqueue
    have hat := hhead.here_at name List.mem_cons_self
    cases drainStep_of_run h with
    | seen hname hrest => exact ih (hhead.skip hname) rfl hrest
    | passed hname hclass hrest =>
      have hnone : ∀ d, ¬ i.Loads t name d :=
        not_loads_of_undefined (answer_eq_none_iff.mp hclass)
      have hvisit := hhead.visit [] (fun d hd => absurd hd (hnone d))
        (fun d hd => absurd hd (hnone d)) (by simp)
      rw [List.append_nil] at hvisit
      exact ih hvisit rfl hrest
    | declared hname hclass hm =>
      have hload := answer_eq_some_iff.mp hclass
      exact ⟨k', name, _, hat, hload, hm, hnamed _ _ hload, hhead.interfacesLack⟩
    | widens hname hclass hm hrest =>
      have hload := answer_eq_some_iff.mp hclass
      have hvisit := hhead.visit _ (fun d hd => hd.unique hload ▸ hm)
        (fun d hd m hm => hd.unique hload ▸ hm) (fun m hm => .extended hat hload hm)
      rw [List.append_assoc] at hrest
      exact hmore hvisit hrest

theorem searchInterfaces_outcome (hnamed : i.CarriesNames t) {budget k : Nat}
    {here next visited : List ClassName} {result : Search}
    (hfrontier : Frontier t i q c k here next visited)
    (h : (searchInterfaces q budget (here ++ next) visited).run (i.answer t) = .ok result) :
    InterfaceOutcome t i q c result := by
  induction budget generalizing k here next visited with
  | zero =>
    refine drain_outcome hnamed (fun _ hrest => ?_) hfrontier rfl h
    injection hrest with hrest
    subst hrest
    trivial
  | succ budget ih => exact drain_outcome hnamed ih hfrontier rfl h

/-! ## Lookup -/

/-- A lookup that loads every class anew gives what it has to. -/
theorem memberOf_lookedUp (hnamed : i.CarriesNames t) (hc : i.Loads t c.name c) {r : Option Found}
    (h : (memberOf q i.assumes i.size c).run (i.answer t) = .ok r) : LookedUp t i q c r := by
  obtain ⟨search, hsearch, hr⟩ := Inquiry.run_bind_eq_ok_iff.mp h
  have hlasts := searchMember_ne_exhausted ⟨_, hc⟩ hsearch
  obtain ⟨chain, hchain, hrest⟩ := Inquiry.run_bind_eq_ok_iff.mp hsearch
  have houtcome : ChainOutcome t i q c chain :=
    searchChain_outcome hnamed hc .start (by simp) hchain
  cases houtcome with
  | found hf =>
    injection hrest with hrest
    subst hrest
    injection hr with hr
    exact hr ▸ hf
  | exhausted =>
    injection hrest with hrest
    exact absurd hrest.symm hlasts
  | ended hsettled =>
    have hstart := Frontier.start hnamed hc hsettled
    rw [← List.append_nil (listedBy _)] at hrest
    have hinterfaces := searchInterfaces_outcome hnamed hstart hrest
    cases search with
    | exhausted => exact absurd rfl hlasts
    | absent =>
      injection hr with hr
      exact hr ▸ .absent hsettled.chainLacks hsettled.root hinterfaces
    | found f =>
      obtain ⟨k, name, d, hat, hload, hm, rfl, hnearer⟩ := hinterfaces
      injection hr with hr
      exact hr ▸ .offered hsettled.chainLacks hsettled.root hat hload hm hnearer

/-- Whatever a linker has served before, a lookup in a class of the index that does not fail gives
the member it has to, and none exactly if there is none. -/
theorem lookedUp_of_memberOf (t : FileTree) (i : ClassIndex) (hnamed : i.CarriesNames t)
    (rs : List Request) (target : ClassName) (c : ClassView) (hc : i.Loads t target c) (q : Query)
    (r : Option Found)
    (h : (((memberOf q i.assumes i.size c).run (Linker.view t i)).on
      (Linker.serve t i rs {}).2).1 = .ok r) :
    LookedUp t i q c r ∧ (r = none ↔ Undeclared t i q c) := by
  have hfaithful := ((Linker.faithful_fresh t i).serve rs).2
  rw [(transparent_run _ _ hfaithful).1] at h
  rw [← hnamed target c hc] at hc
  have hlookedUp := memberOf_lookedUp hnamed hc h
  exact ⟨hlookedUp, hlookedUp.eq_none_iff⟩

/-! A tangled hierarchy: two classes that extend each other, an interface that is not defined, one
that extends itself, and one more that declares a field. -/

/-- A class of the hierarchy. -/
def tangledView (name : ClassName) (superclass : Option ClassName) (interfaces : List ClassName)
    (fields : List Member) : ClassView :=
  ⟨name, superclass, interfaces, ⟨1⟩, fields, [], [], [], [], []⟩

/-- The classes of the hierarchy. -/
def tangledRows : List Row :=
  [⟨⟨"t.jar"⟩, tangledView "A" (some "B") ["Missing", "I"] []⟩,
    ⟨⟨"t.jar"⟩, tangledView "B" (some "A") [] []⟩,
    ⟨⟨"t.jar"⟩, tangledView "I" none ["I", "J"] []⟩,
    ⟨⟨"t.jar"⟩, tangledView "J" none [] [⟨"x", "I", ⟨1⟩⟩]⟩]

/-- The index of the hierarchy. -/
def tangled : ClassIndex := ofRows tangledRows

theorem tangled_size : tangled.size = 4 := size_ofRows tangledRows (by decide)

/-- The field is found two steps away, whatever cycles are met before, by a linker that has been
asked about the cycle. -/
theorem lookedUp_of_memberOf_tangled :
    let t : FileTree := ⟨[], []⟩
    let c := tangledView "A" (some "B") ["Missing", "I"] []
    let found : Option Found := some ⟨"J", ⟨"x", "I", ⟨1⟩⟩⟩
    tangled.CarriesNames t ∧ tangled.Loads t "A" c
      ∧ (((memberOf (.field "x") tangled.assumes tangled.size c).run (Linker.view t tangled)).on
        (Linker.serve t tangled [.descendsFrom "B" "I"] {}).2).1 = .ok found
      ∧ LookedUp t tangled (.field "x") c found
      ∧ (found = none ↔ Undeclared t tangled (.field "x") c) := by
  intro t c found
  have hnamed : tangled.CarriesNames t := carriesNames_ofRows t tangledRows
  have hload : tangled.Loads t "A" c := loads_ofRows t rfl
  have hrun : (((memberOf (.field "x") tangled.assumes tangled.size c).run
      (Linker.view t tangled)).on (Linker.serve t tangled [.descendsFrom "B" "I"] {}).2).1
        = .ok found := by
    have hfaithful := ((Linker.faithful_fresh t tangled).serve [.descendsFrom "B" "I"]).2
    rw [(transparent_run _ _ hfaithful).1, tangled_size, tangled, answer_ofRows]
    rfl
  exact ⟨hnamed, hload, hrun, lookedUp_of_memberOf t tangled hnamed [.descendsFrom "B" "I"] "A" c
    hload (.field "x") found hrun⟩

end ClassIndex

end Linkage
