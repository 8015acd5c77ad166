import Linkage.Proofs.Audit.Comparison
import Linkage.Proofs.Storage.Deletion
import Mathlib.Data.List.Find

/-!
# Shadowed definitions are invisible

An entry of an artifact is shadowed if its class is defined by an artifact that is searched before,
or by a smaller entry of the same artifact.  Nothing an index answers depends on such entries: two
runs, one with them and one after they have been deleted, find every name in the same artifact, load
the same classes, resolve every reference alike and report the same for every other artifact.

* `Shadowed`: entries that are shadowed by what is not deleted.
* `sameAnswers_without`: the index of the tree after the deletion answers alike.
* `shadowed_invisible`: so do resolution and audits.
-/

namespace Linkage.ClassIndex

/-- Every hidden entry of the artifact at `b` is for a class that an artifact searched before
defines, or a smaller entry that is not hidden. -/
def Shadowed (t : FileTree) (dialect : ClassFile.Dialect) (searched : List Path) (b : Path)
    (hidden : String → Bool) : Prop :=
  ∀ a e, Offers t dialect b a e → hidden e = true →
    (∃ p ∈ searched, Defines t dialect p (ClassName.ofEntry e))
      ∨ ∃ e', Offers t dialect b a e' ∧ hidden e' = false ∧ e' < e
        ∧ ClassName.ofEntry e' = ClassName.ofEntry e

/-! ## Which artifact defines a class -/

section

variable {t : FileTree} {dialect : ClassFile.Dialect} {b p : Path} {hidden : String → Bool}
  {l : Listing} {name : ClassName}

theorem lists_without (ht : t.WellFormed) (h : p = b ∨ t.Apart b p) (hp : Lists t p) :
    Lists (t.without b hidden) p := by
  obtain ⟨l, hl⟩ : ∃ l, Listing.ofPath t .standard p = .ok l := lists_iff.mp hp
  rcases h with rfl | h
  · obtain ⟨l', hl', -⟩ := exists_ofPath_without ht hidden hl
    exact lists_iff.mpr ⟨l', hl'⟩
  · exact lists_iff.mpr ⟨l, (ofPath_without_of_apart ht hidden h hl).1⟩

theorem defines_without_of_apart (ht : t.WellFormed) (h : t.Apart b p) (hp : Lists t p) :
    Defines (t.without b hidden) dialect p name ↔ Defines t dialect p name := by
  obtain ⟨l, hl⟩ := lists_iff.mp hp
  rw [defines_iff hl, defines_iff (ofPath_without_of_apart ht hidden h hl).1]

/-- What an artifact defines after shadowed entries have been deleted, if it is searched for what no
artifact before it defines. -/
theorem defines_without (ht : t.WellFormed) {searched : List Path}
    (h : Shadowed t dialect searched b hidden) (hb : Lists t b)
    (hbefore : ∀ p ∈ searched, ¬ Defines t dialect p name) :
    Defines (t.without b hidden) dialect b name ↔ Defines t dialect b name := by
  obtain ⟨l, hl⟩ := lists_iff.mp hb
  obtain ⟨l', hl', hentries, -⟩ := exists_ofPath_without ht hidden hl
  rw [defines_iff hl, defines_iff hl']
  constructor
  · rintro ⟨e, he, hname⟩
    exact ⟨e, ((hentries e).mp he).1, hname⟩
  · rintro ⟨e, he, rfl⟩
    cases hhidden : hidden e with
    | false => exact ⟨e, (hentries e).mpr ⟨he, hhidden⟩, rfl⟩
    | true =>
      rcases h l.artifact e ((offers_iff hl).mpr ⟨rfl, he⟩) hhidden with
        ⟨p, hp, hdefines⟩ | ⟨e', hoffers, hkept, -, hname⟩
      · exact absurd hdefines (hbefore p hp)
      · exact ⟨e', (hentries e').mpr ⟨((offers_iff hl).mp hoffers).2, hkept⟩, hname⟩

theorem LeastEntry.unique {a a' : Artifact} {e e' : String} (h : LeastEntry t dialect p name a e)
    (h' : LeastEntry t dialect p name a' e') : a' = a ∧ e' = e := by
  have ha : a' = a := by
    have hopen := h'.offered.1
    rw [h.offered.1] at hopen
    cases hopen
    rfl
  subst ha
  exact ⟨rfl, String.le_antisymm (h'.least e h.offered h.named) (h.least e' h'.offered h'.named)⟩

end

/-! ## Two runs -/

/-- What is asked of a deletion: every artifact is there, none but the one at `b` has files of it,
and only shadowed entries are deleted. -/
structure Deletable (t : FileTree) (dialect : ClassFile.Dialect) (searched : List Path) (b : Path)
    (after : List Path) (hidden : String → Bool) : Prop where
  /-- Files have names. -/
  wellFormed : t.WellFormed
  /-- Every artifact opens and lists. -/
  lists : ∀ p ∈ searched ++ b :: after, Lists t p
  /-- No other artifact has a file of the one at `b`. -/
  apart : ∀ p ∈ searched ++ after, t.Apart b p
  /-- What is deleted is shadowed. -/
  shadowed : Shadowed t dialect searched b hidden

namespace Deletable

variable {t : FileTree} {dialect : ClassFile.Dialect} {searched after : List Path} {b : Path}
  {hidden : String → Bool}

theorem lists_without (h : Deletable t dialect searched b after hidden) {p : Path}
    (hp : p ∈ searched ++ b :: after) : Lists (t.without b hidden) p := by
  refine ClassIndex.lists_without h.wellFormed ?_ (h.lists p hp)
  simp only [List.mem_append, List.mem_cons] at hp
  rcases hp with hp | rfl | hp
  · exact .inr (h.apart p (List.mem_append_left _ hp))
  · exact .inl rfl
  · exact .inr (h.apart p (List.mem_append_right _ hp))

theorem lists_other (h : Deletable t dialect searched b after hidden) {p : Path}
    (hp : p ∈ searched ++ after) : Lists t p := by
  refine h.lists p ?_
  simp only [List.mem_append, List.mem_cons] at hp ⊢
  tauto

theorem defines_iff (h : Deletable t dialect searched b after hidden) {p : Path}
    (hp : p ∈ searched ++ after) (name : ClassName) :
    Defines (t.without b hidden) dialect p name ↔ Defines t dialect p name :=
  defines_without_of_apart h.wellFormed (h.apart p hp) (h.lists_other hp)

/-- Every name is defined where it was. -/
theorem firstDefining? (h : Deletable t dialect searched b after hidden) (name : ClassName) :
    ClassIndex.firstDefining? (t.without b hidden) dialect (searched ++ b :: after) name
      = ClassIndex.firstDefining? t dialect (searched ++ b :: after) name := by
  have hsearched : searched.find? (fun p => Defines (t.without b hidden) dialect p name)
      = searched.find? fun p => Defines t dialect p name :=
    List.find?_congr fun p hp => decide_eq_decide.mpr (h.defines_iff (List.mem_append_left _ hp) _)
  have hafter : after.find? (fun p => Defines (t.without b hidden) dialect p name)
      = after.find? fun p => Defines t dialect p name :=
    List.find?_congr fun p hp => decide_eq_decide.mpr (h.defines_iff (List.mem_append_right _ hp) _)
  unfold ClassIndex.firstDefining?
  rw [List.find?_append, List.find?_append, List.find?_cons, List.find?_cons, hsearched, hafter]
  cases hfirst : searched.find? fun p => Defines t dialect p name with
  | some p => rfl
  | none =>
    have hbefore : ∀ p ∈ searched, ¬ Defines t dialect p name := by
      intro p hp
      simpa using List.find?_eq_none.mp hfirst p hp
    have hb := defines_without h.wellFormed h.shadowed (h.lists b (by simp)) hbefore
    simp only [hb]

theorem exists_ofPath (h : Deletable t dialect searched b after hidden) {p : Path}
    (hp : p ∈ searched ++ after) :
    ∃ l, Listing.ofPath t dialect p = .ok l
      ∧ Listing.ofPath (t.without b hidden) dialect p = .ok l
      ∧ ∀ e ∈ l.entries, ∀ limit, l.artifact.view (t.without b hidden) dialect limit e
        = l.artifact.view t dialect limit e := by
  obtain ⟨l, hl⟩ := lists_iff.mp (h.lists_other hp)
  exact ⟨l, hl, ofPath_without_of_apart h.wellFormed hidden (h.apart p hp) hl⟩

/-! ## Which class is loaded -/

/-- The least entry of an artifact that shares no file, and its class, are what they were. -/
theorem view_of_apart (h : Deletable t dialect searched b after hidden) {p : Path}
    (hp : p ∈ searched ++ after) {name : ClassName} {a a' : Artifact} {e e' : String}
    (he : LeastEntry t dialect p name a e)
    (he' : LeastEntry (t.without b hidden) dialect p name a' e') (limit : Nat) :
    a'.view (t.without b hidden) dialect limit e' = a.view t dialect limit e := by
  obtain ⟨l, hl, hl', hviews⟩ := h.exists_ofPath hp
  have hoffers : ∀ a e, Offers (t.without b hidden) dialect p a e ↔ Offers t dialect p a e := by
    intro a e
    rw [offers_iff hl, offers_iff hl']
  have hsame : LeastEntry t dialect p name a' e' :=
    ⟨(hoffers a' e').mp he'.offered, he'.named,
      fun e'' hoffered => he'.least e'' ((hoffers a' e'').mpr hoffered)⟩
  obtain ⟨rfl, rfl⟩ := he.unique hsame
  obtain ⟨rfl, hmem⟩ := (offers_iff hl).mp he.offered
  exact hviews e' hmem limit

/-- The least entry of the changed artifact for a class that is not defined before, and its class,
are what they were. -/
theorem view_of_first (h : Deletable t dialect searched b after hidden) {name : ClassName}
    (hbefore : ∀ p ∈ searched, ¬ Defines t dialect p name) {a a' : Artifact} {e e' : String}
    (he : LeastEntry t dialect b name a e)
    (he' : LeastEntry (t.without b hidden) dialect b name a' e') (limit : Nat) :
    a'.view (t.without b hidden) dialect limit e' = a.view t dialect limit e := by
  obtain ⟨l, hl⟩ := lists_iff.mp (h.lists b (by simp))
  obtain ⟨l', hl', hentries, hviews⟩ := exists_ofPath_without h.wellFormed hidden hl
  obtain ⟨rfl, hmem⟩ := (offers_iff hl).mp he.offered
  obtain ⟨rfl, hmem'⟩ := (offers_iff hl').mp he'.offered
  -- The least entry is not shadowed by an artifact, nor by an entry before it.
  have hkept : hidden e = false := by
    by_contra hhidden
    rw [Bool.not_eq_false] at hhidden
    rcases h.shadowed _ e he.offered hhidden with ⟨p, hp, hdefines⟩ | ⟨e'', hoffers, -, hlt, hname⟩
    · exact hbefore p hp (he.named ▸ hdefines)
    · exact String.not_lt.mpr (he.least e'' hoffers (hname.trans he.named)) hlt
  have hle : e' ≤ e :=
    he'.least e ((offers_iff hl').mpr ⟨rfl, (hentries e).mpr ⟨hmem, hkept⟩⟩) he.named
  have hge : e ≤ e' :=
    he.least e' ((offers_iff hl).mpr ⟨rfl, ((hentries e').mp hmem').1⟩) he'.named
  obtain rfl := String.le_antisymm hle hge
  exact hviews e' hmem' limit

theorem view_of_firstDefining? (h : Deletable t dialect searched b after hidden)
    {name : ClassName} {p : Path}
    (hp : ClassIndex.firstDefining? t dialect (searched ++ b :: after) name = some p)
    {a a' : Artifact} {e e' : String} (he : LeastEntry t dialect p name a e)
    (he' : LeastEntry (t.without b hidden) dialect p name a' e') (limit : Nat) :
    a'.view (t.without b hidden) dialect limit e' = a.view t dialect limit e := by
  unfold ClassIndex.firstDefining? at hp
  rw [List.find?_append] at hp
  cases hfirst : searched.find? fun p => Defines t dialect p name with
  | some p' =>
    rw [hfirst] at hp
    cases hp
    exact h.view_of_apart (List.mem_append_left _ (List.mem_of_find?_eq_some hfirst)) he he' limit
  | none =>
    rw [hfirst, Option.none_or, List.find?_cons] at hp
    split at hp
    · cases hp
      refine h.view_of_first (fun p hp => ?_) he he' limit
      simpa using List.find?_eq_none.mp hfirst p hp
    · exact h.view_of_apart (List.mem_append_right _ (List.mem_of_find?_eq_some hp)) he he' limit

end Deletable

/-! ## Indexes before and after the deletion -/

section

variable {t : FileTree} {platform : Platform} {before after : List Path} {b : Path}
  {dialect : ClassFile.Dialect} {hidden : String → Bool}
  {listings listings' : List Listing}

theorem sameAnswers_without (limit : Nat)
    (h : Deletable t dialect (platform.images ++ before) b after hidden)
    (hl : Listed t dialect (platform.images ++ (before ++ b :: after)) listings)
    (hl' : Listed (t.without b hidden) dialect (platform.images ++ (before ++ b :: after))
      listings') :
    SameAnswers t (ofListings platform dialect limit listings) (t.without b hidden)
      (ofListings platform dialect limit listings') := by
  have hmatch := firstMatch_ofListings limit hl
  have hmatch' := firstMatch_ofListings limit hl'
  have hfirst := h.firstDefining?
  have hview := @h.view_of_firstDefining?
  rw [List.append_assoc] at hfirst hview
  refine ⟨rfl, fun name => ?_, fun name => ?_⟩
  · rw [hmatch.definer, hmatch'.definer, hfirst]
  · cases hdefiner : firstDefining? t dialect (platform.images ++ (before ++ b :: after)) name with
    | none =>
      rw [(hmatch.notFound t name).mpr hdefiner,
        (hmatch'.notFound _ name).mpr ((hfirst name).trans hdefiner)]
    | some p =>
      obtain ⟨a, e, he, hload⟩ := hmatch.loads name p hdefiner
      obtain ⟨a', e', he', hload'⟩ := hmatch'.loads name p ((hfirst name).trans hdefiner)
      rw [hload, hload', hview hdefiner he he' limit]

theorem artifact?_of_listed {paths : List Path} {i : ClassIndex}
    (h : Listed t dialect paths i.artifacts) (q : Path) :
    i.artifact? q
      = (paths.find? fun p => p.sameAs q).bind fun p => (Listing.ofPath t dialect p).toOption := by
  have hpath := h.find? q
  show i.artifacts.find? _ = _
  cases hfind : i.artifacts.find? fun l => l.artifact.path.sameAs q with
  | none =>
    rw [hfind] at hpath
    rw [← hpath]
    rfl
  | some l =>
    rw [hfind] at hpath
    rw [← hpath]
    show some l = (Listing.ofPath t dialect l.artifact.path).toOption
    rw [h.ofPath l (List.mem_of_find?_eq_some hfind)]
    rfl

theorem listed_artifacts {limit : Nat} {paths : List Path}
    (h : Listed t dialect (platform.images ++ paths) listings) :
    Listed t dialect paths (ofListings platform dialect limit listings).artifacts := by
  have hdrop := h.drop platform.images.length
  rwa [List.drop_left] at hdrop

/-- All classes of an artifact that shares no file are read as before. -/
theorem Deletable.views (h : Deletable t dialect (platform.images ++ before) b after hidden)
    (limit : Nat) {p : Path} (hp : p ∈ before ++ after) :
    ∃ l, Listing.ofPath t dialect p = .ok l
      ∧ Listing.ofPath (t.without b hidden) dialect p = .ok l
      ∧ l.artifact.views (t.without b hidden) dialect limit
        = l.artifact.views t dialect limit := by
  have hmem : p ∈ platform.images ++ before ++ after := by
    rw [List.append_assoc]
    exact List.mem_append_right _ hp
  obtain ⟨l, hl, hl', hviews⟩ := h.exists_ofPath hmem
  refine ⟨l, hl, hl', ?_⟩
  unfold Artifact.views
  rw [(ofPath_eq_ok_iff.mp hl).2, (ofPath_eq_ok_iff.mp hl').2]
  exact mapM_congr fun e he => hviews e he limit

/-- The audit of any other artifact reads and resolves what it did. -/
theorem inspection_without (h : Deletable t dialect (platform.images ++ before) b after hidden)
    (hl : Listed t dialect (platform.images ++ (before ++ b :: after)) listings)
    (hl' : Listed (t.without b hidden) dialect (platform.images ++ (before ++ b :: after))
      listings') (limit : Nat) (settings : Settings) (tally : Tally) {q : Path}
    (hq : b.sameAs q = false) :
    Audit.inspection (t.without b hidden)
        ⟨ofListings platform dialect limit listings', settings, tally⟩ q
      = Audit.inspection t ⟨ofListings platform dialect limit listings, settings, tally⟩ q := by
  have hsame := sameAnswers_without limit h hl hl'
  unfold Audit.inspection
  dsimp only
  rw [artifact?_of_listed (listed_artifacts hl), artifact?_of_listed (listed_artifacts hl')]
  cases hfind : (before ++ b :: after).find? fun p => p.sameAs q with
  | none => rfl
  | some p =>
    have hp : p ∈ before ++ after := by
      have hmem := List.mem_of_find?_eq_some hfind
      have hsameAs : p.sameAs q = true := by simpa using List.find?_some hfind
      simp only [List.mem_append, List.mem_cons] at hmem ⊢
      rcases hmem with hmem | rfl | hmem
      · exact .inl hmem
      · rw [hq] at hsameAs
        cases hsameAs
      · exact .inr hmem
    obtain ⟨l, hofPath, hofPath', hviews⟩ := h.views limit hp
    rw [Option.bind_some, Option.bind_some, hofPath, hofPath']
    exact hsame.inspected hviews

end

/-- Deleting entries of an artifact of the class path, each shadowed by an artifact searched before
or by a smaller entry that is kept, does not show if no other artifact has its files: the class path
is still indexed, every name is found in the same artifact and loads the same class, every sequence
of requests to a linker is answered alike, and the audit of every other artifact comes to the same.
-/
theorem shadowed_invisible (t : FileTree) (platform : Platform) (before : List Path) (b : Path)
    (after : List Path) (dialect : ClassFile.Dialect) (limit : Nat) (hidden : String → Bool)
    (log : Array Event) (i : ClassIndex) (ht : t.WellFormed)
    (hapart : ∀ p ∈ platform.images ++ (before ++ after), t.Apart b p)
    (hshadowed : Shadowed t dialect (platform.images ++ before) b hidden)
    (hi : ((build t (before ++ b :: after) platform dialect limit).run.run log).1 = .ok i) :
    (∀ e, (∃ a, Offers (t.without b hidden) dialect b a e)
        ↔ (∃ a, Offers t dialect b a e) ∧ hidden e = false)
      ∧ ∃ i', ((build (t.without b hidden) (before ++ b :: after) platform dialect limit).run.run
          log).1 = .ok i'
        ∧ (∀ name, i'.definer? name = i.definer? name)
        ∧ (∀ name, i'.load (t.without b hidden) name = i.load t name)
        ∧ (∀ rs, (Linker.serve (t.without b hidden) i' rs {}).1 = (Linker.serve t i rs {}).1)
        ∧ ∀ settings tally q, b.sameAs q = false →
          Audit.alone (t.without b hidden) ⟨i', settings, tally⟩ q
            = Audit.alone t ⟨i, settings, tally⟩ q := by
  obtain ⟨hpaths, listings, hlistings, rfl⟩ := build_eq_ok_iff.mp hi
  have hlists : ∀ p ∈ platform.images ++ (before ++ b :: after), Lists t p := fun p hp =>
    exists_listed_iff.mp (exists_mapM_eq_ok_iff.mp ⟨listings, hlistings⟩ p hp)
  have h : Deletable t dialect (platform.images ++ before) b after hidden :=
    ⟨ht, by rwa [List.append_assoc], by rwa [List.append_assoc], hshadowed⟩
  obtain ⟨listings', hlistings'⟩ :
      ∃ ls, (platform.images ++ (before ++ b :: after)).mapM (listed (t.without b hidden) dialect)
        = .ok ls := by
    refine exists_mapM_eq_ok_iff.mpr fun p hp => exists_listed_iff.mpr (h.lists_without ?_)
    rwa [List.append_assoc]
  have hl := listed_of_mapM hlistings
  have hl' := listed_of_mapM hlistings'
  have hsame := sameAnswers_without limit h hl hl'
  refine ⟨fun e => ?_, _, build_eq_ok_iff.mpr ⟨hpaths, listings', hlistings', rfl⟩, hsame.definer,
    hsame.load, hsame.serve, fun settings tally q hq => ?_⟩
  · obtain ⟨l, hb⟩ : ∃ l, Listing.ofPath t dialect b = .ok l := lists_iff.mp (hlists b (by simp))
    obtain ⟨l', hb', hentries, -⟩ := exists_ofPath_without ht hidden hb
    simp only [offers_iff hb, offers_iff hb', exists_eq_left, hentries]
  · rw [Audit.alone_eq, Audit.alone_eq, inspection_without h hl hl' limit settings tally hq]

/-- A directory with two entries for one class, and one for a class that an archive has too. -/
def layered : FileTree where
  directories := [["b"], ["b", "p"]]
  files := [(["a.jar"], .archive [⟨"p/A.class", [1], false⟩]), (["b", "p", "A.class"], .plain [2]),
    (["b", "p", "B.class"], .plain [3]), (["b", "p.B.class"], .plain [4])]

/-- The entries of the directory that are shadowed when the archive is searched first. -/
def layeredHidden (e : String) : Bool := e == "p/A.class" || e == "p/B.class"

theorem layered_made : layered.Made := by
  have harchive := FileTree.Made.empty.write ⟨"a.jar"⟩ (.archive [⟨"p/A.class", [1], false⟩])
  have hfiles := (harchive.write ⟨"b/p/A.class"⟩ (.plain [2])).write ⟨"b/p/B.class"⟩ (.plain [3])
  exact hfiles.write ⟨"b/p.B.class"⟩ (.plain [4])

theorem layered_archive : Listing.ofPath layered .standard ⟨"a.jar"⟩
    = .ok ⟨⟨⟨"a.jar"⟩, some [⟨"p/A.class", [1], false⟩]⟩, ["p/A.class"]⟩ := by
  have hlists : ["p/A.class"].filter ClassFile.Dialect.standard.lists = ["p/A.class"] := by decide
  refine ofPath_eq_ok_iff.mpr ⟨rfl, Artifact.entries_eq_ok_iff.mpr ⟨["p/A.class"], rfl, ?_⟩⟩
  rw [hlists, List.mergeSort_singleton]

theorem layered_directory : Listing.ofPath layered .standard ⟨"b"⟩
    = .ok ⟨⟨⟨"b"⟩, none⟩, ["p.B.class", "p/A.class", "p/B.class"]⟩ := by
  have hnode : layered.lookUp ⟨"b"⟩ = .ok (.directory ["b"]) := by decide
  have hpaths : Artifact.directoryPaths layered ⟨⟨"b"⟩, none⟩ ["b"] = [⟨"b/p"⟩] := by
    unfold Artifact.directoryPaths
    rw [show layered.directoriesBelow ["b"] = [["p"]] by decide, List.map_singleton,
      List.mergeSort_singleton]
    rfl
  have hall : Artifact.allEntries layered ⟨⟨"b"⟩, none⟩
      = .ok ["p/A.class", "p/B.class", "p.B.class"] := by
    rw [Artifact.allEntries, hnode]
    dsimp only
    rw [Artifact.entriesBelow, hpaths]
    rfl
  have hlists : ["p/A.class", "p/B.class", "p.B.class"].filter ClassFile.Dialect.standard.lists
      = ["p/A.class", "p/B.class", "p.B.class"] := by decide
  have hsorted : ["p/A.class", "p/B.class", "p.B.class"].mergeSort textLe
      = ["p.B.class", "p/A.class", "p/B.class"] := by simp [List.mergeSort, textLe]
  refine ofPath_eq_ok_iff.mpr ⟨rfl, Artifact.entries_eq_ok_iff.mpr ⟨_, hall, ?_⟩⟩
  rw [hlists, hsorted]

theorem layered_apart : layered.Apart ⟨"b"⟩ ⟨"a.jar"⟩ := by
  have hb : layered.lookUp ⟨"b"⟩ = .ok (.directory ["b"]) := by decide
  have ha : layered.lookUp ⟨"a.jar"⟩
      = .ok (.file ["a.jar"] (.archive [⟨"p/A.class", [1], false⟩])) := by decide
  intro node node' hnode hnode' f hf
  rw [hb] at hnode
  rw [ha] at hnode'
  cases hnode
  cases hnode'
  rintro ⟨hbelow, howns : f.1 = ["a.jar"]⟩
  rw [howns] at hbelow
  revert hbelow
  show ¬ ["b"] <+: ["a.jar"]
  decide

theorem layered_shadowed : Shadowed layered .standard [⟨"a.jar"⟩] ⟨"b"⟩ layeredHidden := by
  intro a e hoffers hhidden
  obtain ⟨rfl, he⟩ := (offers_iff layered_directory).mp hoffers
  simp only [List.mem_cons, List.not_mem_nil, or_false] at he
  rcases he with rfl | rfl | rfl
  · cases hhidden
  · refine .inl ⟨⟨"a.jar"⟩, List.mem_singleton_self _, ?_⟩
    exact (defines_iff layered_archive).mpr ⟨"p/A.class", List.mem_singleton_self _, rfl⟩
  · have hoffers' := (offers_iff layered_directory).mpr ⟨rfl, List.mem_cons_self⟩
    exact .inr ⟨"p.B.class", hoffers', by decide, by decide, by decide +kernel⟩

/-- The two shadowed classes of the directory can be deleted, and only `p.B.class` is left. -/
theorem shadowed_invisible_layered :
    let t' := layered.without ⟨"b"⟩ layeredHidden
    (∀ e, (∃ a, Offers t' .standard ⟨"b"⟩ a e) ↔ e = "p.B.class")
      ∧ ∃ i i', ((build layered [⟨"a.jar"⟩, ⟨"b"⟩] {} .standard 100).run.run #[]).1 = .ok i
        ∧ ((build t' [⟨"a.jar"⟩, ⟨"b"⟩] {} .standard 100).run.run #[]).1 = .ok i'
        ∧ (∀ name, i'.definer? name = i.definer? name ∧ i'.load t' name = i.load layered name)
        ∧ (∀ rs, (Linker.serve t' i' rs {}).1 = (Linker.serve layered i rs {}).1)
        ∧ Audit.alone t' ⟨i', {}, .zero⟩ ⟨"a.jar"⟩
          = Audit.alone layered ⟨i, {}, .zero⟩ ⟨"a.jar"⟩ := by
  intro t'
  have hlists : ∀ p ∈ [⟨"a.jar"⟩, ⟨"b"⟩], Lists layered p := by
    intro p hp
    simp only [List.mem_cons, List.not_mem_nil, or_false] at hp
    rcases hp with rfl | rfl
    · exact lists_iff.mpr ⟨_, layered_archive⟩
    · exact lists_iff.mpr ⟨_, layered_directory⟩
  obtain ⟨listings, hlistings⟩ : ∃ ls, ([⟨"a.jar"⟩, ⟨"b"⟩] : List Path).mapM
      (listed layered .standard) = .ok ls :=
    exists_mapM_eq_ok_iff.mpr fun p hp => exists_listed_iff.mpr (hlists p hp)
  have hi : ((build layered [⟨"a.jar"⟩, ⟨"b"⟩] {} .standard 100).run.run #[]).1
      = .ok (ofListings {} .standard 100 listings) :=
    build_eq_ok_iff.mpr ⟨by simp, listings, hlistings, rfl⟩
  have hapart : ∀ p ∈ ({} : Platform).images ++ ([⟨"a.jar"⟩] ++ []), layered.Apart ⟨"b"⟩ p := by
    intro p hp
    obtain rfl := List.mem_singleton.mp hp
    exact layered_apart
  obtain ⟨hoffers, i', hi', hdefiner, hload, hserve, halone⟩ :=
    shadowed_invisible layered {} [⟨"a.jar"⟩] ⟨"b"⟩ [] .standard 100 layeredHidden #[] _
      layered_made.wellFormed hapart layered_shadowed hi
  refine ⟨fun e => ?_, _, i', hi, hi', fun name => ⟨hdefiner name, hload name⟩, hserve,
    halone {} .zero ⟨"a.jar"⟩ (by decide)⟩
  rw [hoffers]
  simp only [offers_iff layered_directory, exists_eq_left]
  constructor
  · rintro ⟨he, hkept⟩
    simp only [List.mem_cons, List.not_mem_nil, or_false] at he
    rcases he with rfl | rfl | rfl
    · rfl
    · cases hkept
    · cases hkept
  · rintro rfl
    exact ⟨by simp, by decide⟩

end Linkage.ClassIndex
