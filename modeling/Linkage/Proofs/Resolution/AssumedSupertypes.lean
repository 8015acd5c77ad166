import Linkage.Proofs.Resolution.Classification

/-!
# Members of supertypes that are assumed

Of the classes that are assumed and not defined only the root of the hierarchy has members that are
known.  A reference to one of its methods is found as soon as the walk up the superclasses comes to
it; every other assumed supertype is passed over like a class that is just not there.

All of this holds of every index, also when classes are not called what they are defined as.  The
walk goes by the names classes give themselves: it ends at the first class whose name it has met,
and does not look for interfaces under a name that it met on the way up.

* `Visits`, `InterfaceReached`: what the walk looks into, said without queue and visited names.
* `Unheld`: nothing it looks into has the member.
* `memberOf_eq_none_iff`: the lookup gives no member exactly then.
* `outcome_reassuming`: which other classes are assumed makes no difference.
* `resolve_assumedSupertypes`: what becomes of a reference then.
-/

namespace Linkage

/-- A method that every class inherits from the root. -/
def Query.IsRootMethod (q : Query) : Prop :=
  ∃ m ∈ Query.rootMethods, q = .method m.name m.descriptor

namespace ClassIndex

/-- The walk up the superclasses of `c` looks into `d` after the classes of `path`, the last one
first: no two of them have one name. -/
structure Visits (t : FileTree) (i : ClassIndex) (c : ClassView) (path : List ClassView)
    (d : ClassView) : Prop where
  /-- The superclass chain leads there. -/
  climb : Climb t i c path d
  /-- No name is met twice. -/
  names : ((d :: path).map ClassView.name).Nodup

/-- A class the walk looks into on the way up has this name. -/
def NameMet (t : FileTree) (i : ClassIndex) (c : ClassView) (name : ClassName) : Prop :=
  ∃ path d, Visits t i c path d ∧ d.name = name

/-- An interface of a class the walk looks into on the way up, or of an interface reached before,
unless its name was met on the way up. -/
inductive InterfaceReached (t : FileTree) (i : ClassIndex) (c : ClassView) : ClassName → Prop where
  /-- A class lists it. -/
  | listed {path : List ClassView} {d : ClassView} {name : ClassName} (h : Visits t i c path d)
      (hname : name ∈ d.interfaces) (hnew : ¬ NameMet t i c name) : InterfaceReached t i c name
  /-- An interface that loads extends it. -/
  | extended {parent name : ClassName} {d : ClassView} (h : InterfaceReached t i c parent)
      (hload : i.Loads t parent d) (hname : name ∈ d.interfaces)
      (hnew : ¬ NameMet t i c name) : InterfaceReached t i c name

/-- The walk comes to the root of the hierarchy, which is assumed and not defined. -/
def AssumesRoot (t : FileTree) (i : ClassIndex) (c : ClassView) : Prop :=
  i.assumes Query.rootClass = true
    ∧ ∃ path d, Visits t i c path d ∧ d.superclass = some Query.rootClass

/-- Nothing the walk looks into has the member. -/
structure Unheld (t : FileTree) (i : ClassIndex) (q : Query) (c : ClassView) : Prop where
  /-- No class on the way up declares it. -/
  chain : ∀ path d, Visits t i c path d → q.findIn? d = none
  /-- It is not known of the assumed root. -/
  root : AssumesRoot t i c → ¬ q.IsRootMethod
  /-- No interface declares it. -/
  interfaces : ∀ name d, InterfaceReached t i c name → i.Loads t name d → q.findIn? d = none

variable {t : FileTree} {i : ClassIndex} {q : Query} {c d : ClassView} {path : List ClassView}

theorem findKnown?_eq_none_iff : q.findKnown? Query.rootClass = none ↔ ¬ q.IsRootMethod := by
  constructor
  · rintro hnone ⟨m, hm, hq⟩
    exact findKnown?_root_ne_none hm hq hnone
  · intro h
    cases hknown : q.findKnown? Query.rootClass with
    | none => rfl
    | some m =>
      obtain ⟨-, hm, hq⟩ := findKnown?_eq_some hknown
      exact absurd ⟨m, hm, hq⟩ h

/-! ## One chain -/

theorem Climb.start_suffix (h : Climb t i c path d) : [c] <:+ d :: path := by
  induction h with
  | start => exact List.suffix_rfl
  | up h hsuper hload ih => exact ih.trans (List.suffix_cons _ _)

/-- A chain that goes on above a class goes on with the class of its superclass. -/
theorem Climb.next_suffix (h : Climb t i c path d) {e : ClassView} {rest : List ClassView}
    (he : e :: rest <:+ d :: path) : e :: rest = d :: path
      ∨ ∀ s f, e.superclass = some s → i.Loads t s f → f :: e :: rest <:+ d :: path := by
  induction h with
  | start =>
    refine .inl ((List.suffix_cons_iff.mp he).resolve_right fun hnil => ?_)
    simp at hnil
  | up h hsuper hload ih =>
    rcases List.suffix_cons_iff.mp he with heq | he
    · exact .inl heq
    refine .inr fun s f hs hf => ?_
    rcases ih he with heq | hnext
    · obtain ⟨rfl, rfl⟩ := List.cons.inj heq
      obtain rfl := Option.some.inj (hsuper.symm.trans hs)
      rw [hf.unique hload]
    · exact (hnext s f hs hf).trans (List.suffix_cons _ _)

/-- Of two ways up from a class one is the beginning of the other. -/
theorem Climb.suffix_total (h : Climb t i c path d) {path' : List ClassView} {d' : ClassView}
    (h' : Climb t i c path' d') :
    d :: path <:+ d' :: path' ∨ d' :: path' <:+ d :: path := by
  induction h with
  | start => exact .inl h'.start_suffix
  | up h hsuper hload ih =>
    rcases ih with hle | hle
    · rcases h'.next_suffix hle with heq | hnext
      · exact .inr (heq ▸ List.suffix_cons _ _)
      · exact .inl (hnext _ _ hsuper hload)
    · exact .inr (hle.trans (List.suffix_cons _ _))

theorem Climb.visits_of_mem (h : Climb t i c path d) (hnames : (path.map ClassView.name).Nodup)
    {e : ClassView} (he : e ∈ path) : ∃ path', Visits t i c path' e := by
  induction h with
  | start => simp at he
  | up h hsuper hload ih =>
    rcases List.mem_cons.mp he with rfl | he
    · exact ⟨_, h, hnames⟩
    · exact ih (List.nodup_cons.mp hnames).2 he

/-- If the last class has a name that was met, the walk ends before it. -/
theorem Climb.mem_of_repeated (h : Climb t i c path d) (hname : d.name ∈ path.map ClassView.name)
    {path' : List ClassView} {e : ClassView} (he : Visits t i c path' e) : e ∈ path := by
  have hrepeated : ¬ d :: path <:+ e :: path' := by
    intro hle
    have hnodup := he.names.sublist (hle.sublist.map ClassView.name)
    exact (List.nodup_cons.mp hnodup).1 hname
  rcases h.suffix_total he.climb with hle | hle
  · exact absurd hle hrepeated
  · rcases List.suffix_cons_iff.mp hle with heq | hle
    · exact absurd (heq ▸ List.suffix_rfl) hrepeated
    · exact hle.subset List.mem_cons_self

/-! ## The way up -/

/-- The path is all the walk looks into on the way up, and neither it nor the assumed root has the
member. -/
structure WalkedUp (t : FileTree) (i : ClassIndex) (q : Query) (c : ClassView)
    (path : List ClassView) : Prop where
  /-- Every class the walk looks into is on the path. -/
  complete : ∀ path' d, Visits t i c path' d → d ∈ path
  /-- The walk looks into every class of the path. -/
  sound : ∀ d ∈ path, ∃ path', Visits t i c path' d
  /-- None declares the member. -/
  lacks : ∀ d ∈ path, q.findIn? d = none
  /-- It is not known of the assumed root. -/
  root : AssumesRoot t i c → ¬ q.IsRootMethod

/-- How the way up may end. -/
inductive UpwardEnd (t : FileTree) (i : ClassIndex) (q : Query) (c : ClassView) :
    ChainEnd → Prop where
  /-- With a member, so there is one. -/
  | found {f : Found} (h : ¬ Unheld t i q c) : UpwardEnd t i q c (.found f)
  /-- At its end. -/
  | ended {path : List ClassView} (h : WalkedUp t i q c path) :
    UpwardEnd t i q c (.ended (listedBy path) (path.map ClassView.name))
  /-- With the budget used up. -/
  | exhausted : UpwardEnd t i q c .exhausted

/-- The walk ends at a class above which nothing loads. -/
theorem walkedUp_of_top (h : Visits t i c path d) (hlacks : ∀ e ∈ d :: path, q.findIn? e = none)
    (htop : ∀ s e, d.superclass = some s → ¬ i.Loads t s e)
    (hroot : d.superclass = some Query.rootClass → i.assumes Query.rootClass = true →
      ¬ q.IsRootMethod) : WalkedUp t i q c (d :: path) where
  complete := fun _ _ he => h.climb.mem_of_top htop he.climb
  sound := by
    intro e he
    rcases List.mem_cons.mp he with rfl | he
    · exact ⟨path, h⟩
    · exact h.climb.visits_of_mem (List.nodup_cons.mp h.names).2 he
  lacks := hlacks
  root := by
    rintro ⟨hassumes, path', e, he, hsuper⟩
    rcases List.mem_cons.mp (h.climb.mem_of_top htop he.climb) with rfl | hmem
    · exact hroot hsuper hassumes
    · exact absurd hassumes (not_assumes_root_of_mem h.climb hmem hsuper)

/-- The way up, from any class on it.  The induction is on the budget: the names of the path are all
different, and none of its classes declares the member. -/
theorem searchChain_upwardEnd {budget : Nat} {result : ChainEnd} (hclimb : Climb t i c path d)
    (hnames : (path.map ClassView.name).Nodup) (hpath : ∀ e ∈ path, q.findIn? e = none)
    (h : (searchChain q i.assumes budget d (listedBy path) (path.map ClassView.name)).run
      (i.answer t) = .ok result) : UpwardEnd t i q c result := by
  induction budget generalizing d path with
  | zero =>
    injection h with h
    exact h ▸ .exhausted
  | succ budget ih =>
    have hvisits : d.name ∉ path.map ClassView.name → Visits t i c path d := fun hname =>
      ⟨hclimb, List.nodup_cons.mpr ⟨hname, hnames⟩⟩
    have hlacks : q.findIn? d = none → ∀ e ∈ d :: path, q.findIn? e = none := fun hm =>
      List.forall_mem_cons.mpr ⟨hm, hpath⟩
    cases chainStep_of_run h with
    | repeated hname =>
      refine .ended ⟨fun _ _ he => hclimb.mem_of_repeated hname he,
        fun _ he => hclimb.visits_of_mem hnames he, hpath, ?_⟩
      rintro ⟨hassumes, path', e, he, hsuper⟩
      have hmem := hclimb.mem_of_repeated hname he
      exact absurd hassumes (not_assumes_root_of_mem hclimb hmem hsuper)
    | declared hname hm =>
      refine .found fun hnone => ?_
      rw [hnone.chain path d (hvisits hname)] at hm
      cases hm
    | topmost hname hm hsuper =>
      rw [← listedBy_cons, ← List.map_cons]
      exact .ended (walkedUp_of_top (hvisits hname) (hlacks hm) (by simp [hsuper])
        (by simp [hsuper]))
    | climbs hname hm hsuper habove hrest =>
      rw [← listedBy_cons, ← List.map_cons] at hrest
      exact ih (hclimb.up hsuper (answer_eq_some_iff.mp habove)) (hvisits hname).names (hlacks hm)
        hrest
    | known hname hm hsuper habove hassumes hknown =>
      obtain ⟨rfl, hmem, hq⟩ := findKnown?_eq_some hknown
      exact .found fun hnone =>
        hnone.root ⟨hassumes, path, d, hvisits hname, hsuper⟩ ⟨_, hmem, hq⟩
    | missing hname hm hsuper habove hknown =>
      rw [← listedBy_cons, ← List.map_cons]
      refine .ended (walkedUp_of_top (hvisits hname) (hlacks hm) ?_ ?_)
      · intro s e hs
        obtain rfl := Option.some.inj (hsuper.symm.trans hs)
        exact not_loads_of_undefined (answer_eq_none_iff.mp habove) e
      · intro hroot hassumes
        obtain rfl := Option.some.inj (hsuper.symm.trans hroot)
        exact findKnown?_eq_none_iff.mp (hknown hassumes)

/-! ## The interfaces -/

theorem InterfaceReached.not_nameMet {name : ClassName} (h : InterfaceReached t i c name) :
    ¬ NameMet t i c name := by
  cases h with
  | listed _ _ hnew => exact hnew
  | extended _ _ _ hnew => exact hnew

/-- The state of the walk through the interfaces. -/
structure Swept (t : FileTree) (i : ClassIndex) (q : Query) (c : ClassView)
    (queue visited : List ClassName) : Prop where
  /-- Names met on the way up have been visited. -/
  met : ∀ n, NameMet t i c n → n ∈ visited
  /-- Other names in the queue are interfaces that are reached. -/
  reached : ∀ n ∈ queue, NameMet t i c n ∨ InterfaceReached t i c n
  /-- What the classes on the way up list has been visited or is in the queue. -/
  listed : ∀ path d, Visits t i c path d → ∀ n ∈ d.interfaces, n ∈ visited ∨ n ∈ queue
  /-- So is what a visited interface extends. -/
  closed : ∀ n ∈ visited, InterfaceReached t i c n → ∀ d, i.Loads t n d →
    ∀ m ∈ d.interfaces, m ∈ visited ∨ m ∈ queue
  /-- No visited interface declares the member. -/
  lacks : ∀ n ∈ visited, InterfaceReached t i c n → ∀ d, i.Loads t n d → q.findIn? d = none

namespace Swept

variable {name : ClassName} {queue visited : List ClassName}

theorem start (h : WalkedUp t i q c path) :
    Swept t i q c (listedBy path) (path.map ClassView.name) := by
  have hmet : ∀ n ∈ path.map ClassView.name, NameMet t i c n := by
    intro n hn
    obtain ⟨d, hd, rfl⟩ := List.mem_map.mp hn
    obtain ⟨path', hvisits⟩ := h.sound d hd
    exact ⟨path', d, hvisits, rfl⟩
  constructor
  · rintro n ⟨path', d, hd, rfl⟩
    exact List.mem_map_of_mem (h.complete path' d hd)
  · intro n hn
    obtain ⟨d, hd, hlisted⟩ := mem_listedBy.mp hn
    obtain ⟨path', hvisits⟩ := h.sound d hd
    by_cases hold : NameMet t i c n
    · exact .inl hold
    · exact .inr (.listed hvisits hlisted hold)
  · exact fun path' d hd n hn => .inr (mem_listedBy.mpr ⟨d, h.complete path' d hd, hn⟩)
  · exact fun n hn hreached => absurd (hmet n hn) hreached.not_nameMet
  · exact fun n hn hreached => absurd (hmet n hn) hreached.not_nameMet

/-- A name that has been visited is dropped. -/
theorem skip (h : Swept t i q c (name :: queue) visited) (hname : name ∈ visited) :
    Swept t i q c queue visited := by
  have hdrop : ∀ n, n ∈ visited ∨ n ∈ name :: queue → n ∈ visited ∨ n ∈ queue := by
    rintro n (hn | hn)
    · exact .inl hn
    · rcases List.mem_cons.mp hn with rfl | hn
      · exact .inl hname
      · exact .inr hn
  constructor
  · exact h.met
  · exact fun n hn => h.reached n (List.mem_cons_of_mem _ hn)
  · exact fun path d hd n hn => hdrop n (h.listed path d hd n hn)
  · exact fun n hn hreached d hd m hm => hdrop m (h.closed n hn hreached d hd m hm)
  · exact h.lacks

/-- A name is visited: if it has a class, this does not declare the member and what it extends is
put behind the queue. -/
theorem visit (h : Swept t i q c (name :: queue) visited) (found : List ClassName)
    (hlacks : ∀ d, i.Loads t name d → q.findIn? d = none)
    (hfound : ∀ d, i.Loads t name d → d.interfaces = found)
    (hreached : ∀ m ∈ found, NameMet t i c m ∨ InterfaceReached t i c m) :
    Swept t i q c (queue ++ found) (name :: visited) := by
  have hkeep : ∀ n, n ∈ visited ∨ n ∈ name :: queue → n ∈ name :: visited ∨ n ∈ queue ++ found := by
    rintro n (hn | hn)
    · exact .inl (List.mem_cons_of_mem _ hn)
    · rcases List.mem_cons.mp hn with rfl | hn
      · exact .inl List.mem_cons_self
      · exact .inr (List.mem_append_left _ hn)
  constructor
  · exact fun n hn => List.mem_cons_of_mem _ (h.met n hn)
  · intro n hn
    rcases List.mem_append.mp hn with hn | hn
    · exact h.reached n (List.mem_cons_of_mem _ hn)
    · exact hreached n hn
  · exact fun path d hd n hn => hkeep n (h.listed path d hd n hn)
  · intro n hn hn' d hd m hm
    rcases List.mem_cons.mp hn with rfl | hn
    · exact .inr (List.mem_append_right _ (hfound d hd ▸ hm))
    · exact hkeep m (h.closed n hn hn' d hd m hm)
  · intro n hn hn' d hd
    rcases List.mem_cons.mp hn with rfl | hn
    · exact hlacks d hd
    · exact h.lacks n hn hn' d hd

/-- With an empty queue every interface that is reached has been visited. -/
theorem visited_of_empty (h : Swept t i q c [] visited) (hname : InterfaceReached t i c name) :
    name ∈ visited := by
  induction hname with
  | listed hvisits hlisted hnew => simpa using h.listed _ _ hvisits _ hlisted
  | extended hparent hload hextends hnew ih => simpa using h.closed _ ih hparent _ hload _ hextends

end Swept

/-- What the walk through the interfaces tells of them. -/
def SweepEnd (t : FileTree) (i : ClassIndex) (q : Query) (c : ClassView) : Search → Prop
  | .found _ => ∃ n d, InterfaceReached t i c n ∧ i.Loads t n d ∧ q.findIn? d ≠ none
  | .absent => ∀ n d, InterfaceReached t i c n → i.Loads t n d → q.findIn? d = none
  | .exhausted => True

theorem drain_sweepEnd {more : List ClassName → List ClassName → Inquiry Search}
    {queue visited : List ClassName} {result : Search}
    (hmore : ∀ {queue visited}, Swept t i q c queue visited →
      (more queue visited).run (i.answer t) = .ok result → SweepEnd t i q c result)
    (hswept : Swept t i q c queue visited)
    (h : (drain q more queue visited).run (i.answer t) = .ok result) : SweepEnd t i q c result := by
  induction queue generalizing visited with
  | nil =>
    rw [drain] at h
    injection h with h
    subst h
    exact fun n d hn hd => hswept.lacks n (hswept.visited_of_empty hn) hn d hd
  | cons name queue ih =>
    -- a name that has not been visited was not met on the way up
    have hreached : name ∉ visited → InterfaceReached t i c name := fun hname =>
      (hswept.reached name List.mem_cons_self).resolve_left fun hmet => hname (hswept.met _ hmet)
    cases drainStep_of_run h with
    | seen hname hrest => exact ih (hswept.skip hname) hrest
    | passed hname hclass hrest =>
      have hnone : ∀ d, ¬ i.Loads t name d :=
        not_loads_of_undefined (answer_eq_none_iff.mp hclass)
      have hvisit := hswept.visit [] (fun d hd => absurd hd (hnone d))
        (fun d hd => absurd hd (hnone d)) (by simp)
      rw [List.append_nil] at hvisit
      exact ih hvisit hrest
    | declared hname hclass hm =>
      exact ⟨name, _, hreached hname, answer_eq_some_iff.mp hclass, by simp [hm]⟩
    | @widens _ d hclass hm _ hrest =>
      have hload := answer_eq_some_iff.mp hclass
      refine hmore (hswept.visit d.interfaces (fun e he => he.unique hload ▸ hm)
        (fun e he => he.unique hload ▸ rfl) fun m hmem => ?_) hrest
      by_cases hmet : NameMet t i c m
      · exact .inl hmet
      · exact .inr (.extended (hreached ‹_›) hload hmem hmet)

theorem searchInterfaces_sweepEnd {budget : Nat} {queue visited : List ClassName} {result : Search}
    (hswept : Swept t i q c queue visited)
    (h : (searchInterfaces q budget queue visited).run (i.answer t) = .ok result) :
    SweepEnd t i q c result := by
  induction budget generalizing queue visited with
  | zero =>
    refine drain_sweepEnd (fun _ hrest => ?_) hswept h
    injection hrest with hrest
    subst hrest
    trivial
  | succ budget ih => exact drain_sweepEnd ih hswept h

/-! ## Lookup -/

/-- A lookup that does not fail gives no member exactly if nothing it looks into has it. -/
theorem memberOf_eq_none_iff (hc : ∃ n, i.Loads t n c) {r : Option Found}
    (h : (memberOf q i.assumes i.size c).run (i.answer t) = .ok r) :
    r = none ↔ Unheld t i q c := by
  obtain ⟨search, hsearch, hr⟩ := Inquiry.run_bind_eq_ok_iff.mp h
  have hlasts := searchMember_ne_exhausted hc hsearch
  obtain ⟨chain, hchain, hrest⟩ := Inquiry.run_bind_eq_ok_iff.mp hsearch
  have hend : UpwardEnd t i q c chain :=
    searchChain_upwardEnd .start List.nodup_nil (by simp) hchain
  cases hend with
  | found hheld =>
    injection hrest with hrest
    subst hrest
    injection hr with hr
    subst hr
    simp [hheld]
  | exhausted =>
    injection hrest with hrest
    exact absurd hrest.symm hlasts
  | ended hup =>
    have hsweep := searchInterfaces_sweepEnd (Swept.start hup) hrest
    cases search with
    | exhausted => exact absurd rfl hlasts
    | absent =>
      injection hr with hr
      subst hr
      exact ⟨fun _ => ⟨fun path d hd => hup.lacks d (hup.complete path d hd), hup.root, hsweep⟩,
        fun _ => rfl⟩
    | found f =>
      injection hr with hr
      subst hr
      obtain ⟨n, d, hn, hload, hm⟩ := hsweep
      exact ⟨by simp, fun hnone => absurd (hnone.interfaces n d hn hload) hm⟩

/-! ## Outcomes -/

variable {source target : ClassName} {o : Outcome} {l : Path}

theorem definedOutcome_eq_symbolNotFound_iff {location : Path}
    (hdefined : DefinedBy t i target location c)
    (h : (i.definedOutcome location source target q).run (i.answer t) = .ok o) :
    o = .broken (.symbolNotFound l) ↔
      location = l ∧ ¬ ClosedTo source target c ∧ Unheld t i q c := by
  obtain ⟨answer, hanswer, h⟩ := Inquiry.run_view_bind_eq_ok_iff.mp h
  rw [answer_eq_some_iff.mpr hdefined.loads] at hanswer
  cases hanswer
  simp only at h
  by_cases hclosed : ClosedTo source target c
  · rw [if_pos (by simp [hclosed.1, hclosed.2])] at h
    injection h with h
    simp [← h, hclosed]
  rw [if_neg (by simpa [ClosedTo] using hclosed)] at h
  obtain ⟨r, hr, h⟩ := Inquiry.run_bind_eq_ok_iff.mp h
  have hlookup := memberOf_eq_none_iff ⟨target, hdefined.loads⟩ hr
  cases r with
  | none =>
    injection h with h
    simp [← h, hclosed, hlookup.mp rfl]
  | some f =>
    have hheld : ¬ Unheld t i q c := by simpa using hlookup
    obtain ⟨b, -, h⟩ := Inquiry.run_bind_eq_ok_iff.mp h
    cases b <;> injection h with h <;> simp [← h, hheld]

/-- A reference is broken for want of a member exactly if the source may see the target and nothing
the walk looks into has the member. -/
theorem memberOutcome_eq_symbolNotFound_iff
    (h : (i.memberOutcome source target q).run (i.answer t) = .ok o) :
    o = .broken (.symbolNotFound l) ↔
      ∃ c, DefinedBy t i target l c ∧ ¬ ClosedTo source target c ∧ Unheld t i q c := by
  unfold memberOutcome at h
  cases hdefiner : i.definer? target with
  | none =>
    rw [hdefiner] at h
    injection h with h
    have hnone : ∀ c, ¬ DefinedBy t i target l c := fun c hc => by
      rw [hc.definer] at hdefiner
      cases hdefiner
    cases hassumed : i.assumes target <;> simp [← h, hassumed, hnone]
  | some location =>
    rw [hdefiner] at h
    obtain ⟨answer, hanswer, -⟩ := Inquiry.run_view_bind_eq_ok_iff.mp h
    cases answer with
    | none =>
      rw [definer?_eq_none_iff.mpr (answer_eq_none_iff.mp hanswer)] at hdefiner
      cases hdefiner
    | some c =>
      have hdefined : DefinedBy t i target location c := ⟨hdefiner, answer_eq_some_iff.mp hanswer⟩
      rw [definedOutcome_eq_symbolNotFound_iff hdefined h]
      constructor
      · rintro ⟨rfl, hrest⟩
        exact ⟨c, hdefined, hrest⟩
      · rintro ⟨c', hdefined', hrest⟩
        obtain ⟨rfl, rfl⟩ := hdefined.unique hdefined'
        exact ⟨rfl, hrest⟩

/-! ## Other assumptions -/

/-- The same classes with other beginnings of names assumed. -/
def reassuming (i : ClassIndex) (assumed : List String) : ClassIndex :=
  { i with platform := { i.platform with assumed := assumed } }

/-- The way up asks only what is known of assumed classes. -/
theorem searchChain_congr {assumes assumes' : ClassName → Bool}
    (h : ∀ s, (if assumes' s then q.findKnown? s else none)
      = if assumes s then q.findKnown? s else none)
    (budget : Nat) (c : ClassView) (interfaces visited : List ClassName) :
    searchChain q assumes' budget c interfaces visited
      = searchChain q assumes budget c interfaces visited := by
  induction budget generalizing c interfaces visited with
  | zero => rfl
  | succ budget ih => simp only [searchChain, h, ih]

/-- Which classes are assumed makes a difference only through the root, and only to a reference to
one of its methods. -/
theorem outcome_reassuming {r : Reference} (hq : r.query? = some q) {assumed : List String}
    (htarget : i.contains r.target = true)
    (hroot : q.IsRootMethod →
      (i.reassuming assumed).assumes Query.rootClass = i.assumes Query.rootClass) :
    (i.reassuming assumed).outcome r = i.outcome r := by
  have hknown : ∀ s, (if (i.reassuming assumed).assumes s then q.findKnown? s else none)
      = if i.assumes s then q.findKnown? s else none := by
    intro s
    cases hs : q.findKnown? s with
    | none => simp
    | some m =>
      obtain ⟨rfl, hm, hmethod⟩ := findKnown?_eq_some hs
      rw [hroot ⟨m, hm, hmethod⟩]
  have hmember : ∀ budget c, memberOf q (i.reassuming assumed).assumes budget c
      = memberOf q i.assumes budget c := by
    intro budget c
    simp only [memberOf, searchMember, searchChain_congr hknown]
  obtain ⟨location, hlocation⟩ : ∃ location, i.definer? r.target = some location :=
    Option.ne_none_iff_exists'.mp fun hnone => by
      rw [definer?_eq_none_iff.mp hnone] at htarget
      cases htarget
  have hlocation' : (i.reassuming assumed).definer? r.target = some location := hlocation
  rw [outcome_eq_memberOutcome hq, outcome_eq_memberOutcome hq, memberOutcome, memberOutcome,
    hlocation, hlocation']
  simp only [definedOutcome, hmember]
  rfl

/-! ## Linkers -/

/-- The outcome a linker gives after it has served some requests. -/
def outcomeAfter (t : FileTree) (i : ClassIndex) (rs : List Request) (r : Reference) :
    Except Failure Outcome :=
  ((Linker.resolve t i r).on (Linker.serve t i rs {}).2).1

theorem outcomeAfter_eq (t : FileTree) (i : ClassIndex) (rs : List Request) (r : Reference) :
    outcomeAfter t i rs r = (i.outcome r).run (i.answer t) :=
  (transparent_resolve r _ ((Linker.faithful_fresh t i).serve rs).2).1

/-- Whatever a linker has served before, a reference to a member is never broken for want of it if
the walk from its target comes to the assumed root and the member is one of the methods of the root.
Else it is broken so exactly if its source may see the target and nothing the walk looks into has
the member: which classes are assumed apart from the root makes no difference to a target that is
defined, nor does the root if the member is none of its methods. -/
theorem resolve_assumedSupertypes (t : FileTree) (i : ClassIndex) (rs : List Request)
    (r : Reference) (q : Query) (hq : r.query? = some q) :
    (∀ c, i.Loads t r.target c → AssumesRoot t i c → q.IsRootMethod →
        ∀ l, outcomeAfter t i rs r ≠ .ok (.broken (.symbolNotFound l)))
      ∧ (∀ o l, outcomeAfter t i rs r = .ok o →
        (o = .broken (.symbolNotFound l) ↔ ∃ c, DefinedBy t i r.target l c
          ∧ ¬ ClosedTo r.source r.target c ∧ Unheld t i q c))
      ∧ ∀ assumed, i.contains r.target = true →
        (q.IsRootMethod →
          (i.reassuming assumed).assumes Query.rootClass = i.assumes Query.rootClass) →
        outcomeAfter t (i.reassuming assumed) rs r = outcomeAfter t i rs r := by
  have hiff : ∀ o l, outcomeAfter t i rs r = .ok o →
      (o = .broken (.symbolNotFound l) ↔ ∃ c, DefinedBy t i r.target l c
        ∧ ¬ ClosedTo r.source r.target c ∧ Unheld t i q c) := by
    intro o l h
    rw [outcomeAfter_eq, outcome_eq_memberOutcome hq] at h
    exact memberOutcome_eq_symbolNotFound_iff h
  refine ⟨?_, hiff, ?_⟩
  · intro c hc hroot hmethod l h
    obtain ⟨c', hdefined, -, hunheld⟩ := (hiff _ l h).mp rfl
    rw [hc.unique hdefined.loads] at hroot
    exact hunheld.root hroot hmethod
  · intro assumed htarget hroot
    rw [outcomeAfter_eq, outcomeAfter_eq, outcome_reassuming hq htarget hroot]
    rfl

/-! A class that extends a platform class and implements a platform interface, and a class that
extends the root, with no platform images: every class they rest on is assumed. -/

/-- The classes of the archive. -/
def platformedRows : List Row :=
  [⟨⟨"lib.jar"⟩, tangledView "lib.Child" (some "java.util.ArrayList") ["java.util.List"] []⟩,
    ⟨⟨"lib.jar"⟩, tangledView "lib.Plain" (some "java.lang.Object") [] []⟩]

/-- The index of the archive. -/
def platformed : ClassIndex := ofRows platformedRows

theorem definedBy_ofRows (t : FileTree) {rows : List Row} {name : ClassName} {l : Path}
    {c : ClassView} (hdefiner : (rows.find? (Row.isCalled name)).map Row.archive = some l)
    (hclass : Row.classOf? rows name = some c) : DefinedBy t (ofRows rows) name l c where
  definer := (definer?_ofRows rows name).trans hdefiner
  loads := loads_ofRows t hclass

theorem platformed_outcomes (t : FileTree) (rs : List Request) :
    outcomeAfter t platformed rs (.toMethod ⟨"app.Main", "lib.Child", "size", "()I"⟩)
        = .ok (.broken (.symbolNotFound ⟨"lib.jar"⟩))
      ∧ outcomeAfter t platformed rs (.toMethod ⟨"app.Main", "lib.Plain", "toString", "()V"⟩)
        = .ok (.broken (.symbolNotFound ⟨"lib.jar"⟩)) := by
  simp only [outcomeAfter_eq, outcome, memberOutcome, platformed, answer_ofRows, definer?_ofRows]
  show (definedOutcome _ _ _ _ _).run _ = _ ∧ (definedOutcome _ _ _ _ _).run _ = _
  unfold definedOutcome mayUse
  rw [size_ofRows platformedRows (by decide), assumes_ofRows]
  exact ⟨rfl, rfl⟩

/-- A class is defined whose superclass and interface are assumed and not defined, and a reference
to a method of both is broken for want of it; so is, below the assumed root, one to a method that is
not known of the root. -/
theorem symbolNotFound_below_assumed :
    let t : FileTree := ⟨[], []⟩
    (∃ c, DefinedBy t platformed "lib.Child" ⟨"lib.jar"⟩ c
        ∧ c.superclass = some "java.util.ArrayList" ∧ c.interfaces = ["java.util.List"])
      ∧ platformed.assumes "java.util.ArrayList" = true
      ∧ platformed.assumes "java.util.List" = true
      ∧ outcomeAfter t platformed [] (.toMethod ⟨"app.Main", "lib.Child", "size", "()I"⟩)
        = .ok (.broken (.symbolNotFound ⟨"lib.jar"⟩))
      ∧ (∃ c, DefinedBy t platformed "lib.Plain" ⟨"lib.jar"⟩ c
        ∧ c.superclass = some Query.rootClass)
      ∧ platformed.assumes Query.rootClass = true
      ∧ outcomeAfter t platformed [] (.toMethod ⟨"app.Main", "lib.Plain", "toString", "()V"⟩)
        = .ok (.broken (.symbolNotFound ⟨"lib.jar"⟩)) := by
  intro t
  obtain ⟨hsize, htext⟩ := platformed_outcomes t []
  have hassumes := assumes_ofRows platformedRows
  exact ⟨⟨_, definedBy_ofRows t rfl rfl, rfl, rfl⟩, congrFun hassumes _, congrFun hassumes _, hsize,
    ⟨_, definedBy_ofRows t rfl rfl, rfl⟩, congrFun hassumes _, htext⟩

/-- Below the assumed root one of its methods is found; below an assumed list nothing has a method
of lists. -/
theorem resolve_assumedSupertypes_platformed :
    let t : FileTree := ⟨[], []⟩
    let text : Query := .method "toString" "()Ljava/lang/String;"
    let plain := tangledView "lib.Plain" (some "java.lang.Object") [] []
    let child := tangledView "lib.Child" (some "java.util.ArrayList") ["java.util.List"] []
    platformed.Loads t "lib.Plain" plain ∧ AssumesRoot t platformed plain ∧ text.IsRootMethod
      ∧ (∀ l, outcomeAfter t platformed []
          (.toMethod ⟨"app.Main", "lib.Plain", "toString", "()Ljava/lang/String;"⟩)
        ≠ .ok (.broken (.symbolNotFound l)))
      ∧ ¬ ClosedTo "app.Main" "lib.Child" child
      ∧ Unheld t platformed (.method "size" "()I") child := by
  intro t text plain child
  have hplain : DefinedBy t platformed "lib.Plain" ⟨"lib.jar"⟩ plain := definedBy_ofRows t rfl rfl
  have hchild : DefinedBy t platformed "lib.Child" ⟨"lib.jar"⟩ child := definedBy_ofRows t rfl rfl
  have hroot : AssumesRoot t platformed plain :=
    ⟨congrFun (assumes_ofRows platformedRows) _, [], plain, ⟨.start, by simp⟩, rfl⟩
  have hmethod : text.IsRootMethod :=
    ⟨⟨"toString", "()Ljava/lang/String;", ⟨AccessFlags.publicBit⟩⟩, by decide, rfl⟩
  have hfound := (resolve_assumedSupertypes t platformed []
    (.toMethod ⟨"app.Main", "lib.Plain", "toString", "()Ljava/lang/String;"⟩) text rfl).1
  have hlost := (resolve_assumedSupertypes t platformed []
    (.toMethod ⟨"app.Main", "lib.Child", "size", "()I"⟩) (.method "size" "()I") rfl).2.1
  obtain ⟨c, hdefined, hopen, hunheld⟩ := (hlost _ _ (platformed_outcomes t []).1).mp rfl
  obtain ⟨-, rfl⟩ := hchild.unique hdefined
  exact ⟨hplain.loads, hroot, hmethod, hfound plain hplain.loads hroot hmethod, hopen, hunheld⟩

end ClassIndex

end Linkage
