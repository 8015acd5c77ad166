import Mathlib.Data.List.Basic
import Linkage.ClassName

/-!
# Packages and nesting of class names

A name taken apart: a package, the name of an outermost class, and the names of the classes nested
in one another inside it.  Every text is such a name, with parts that may be empty, and what the
searches for the first and last delimiters find can be read off the parts.

* `Text.beforeLast?_append` and its neighbours: cutting a text at the last occurrence of a
  character.
* `Anatomy`: a name taken apart.
* `topLevel_name`, `package_name`, `enclosing?_concat`: the functions on names, by parts.
* `outward`: from a nested class through the classes around it.
* `nestingLaws`: how package, outermost class and enclosing classes belong together.
-/

namespace Linkage

/-! ## Cutting at the last occurrence -/

namespace Text

variable {c : Char} {u v cs : List Char}

theorem bne_of_notMem (h : c ∉ cs) : ∀ x ∈ cs, (x != c) = true := by
  intro x hx
  simp only [bne_iff_ne, ne_eq]
  rintro rfl
  exact h hx

/-- Backwards, everything after the last `c` comes first. -/
theorem span_reverse (hv : c ∉ v) :
    (u ++ c :: v).reverse.takeWhile (· != c) = v.reverse
      ∧ (u ++ c :: v).reverse.dropWhile (· != c) = c :: u.reverse := by
  have hother := bne_of_notMem (mt List.mem_reverse.mp hv)
  have hsplit : (u ++ c :: v).reverse = v.reverse ++ c :: u.reverse := by simp
  rw [hsplit, List.takeWhile_append_of_pos hother, List.dropWhile_append_of_pos hother]
  simp

theorem afterLast_append (hv : c ∉ v) : afterLast c (u ++ c :: v) = v := by
  rw [afterLast, (span_reverse hv).1, List.reverse_reverse]

theorem throughLast_append (hv : c ∉ v) : throughLast c (u ++ c :: v) = u ++ [c] := by
  rw [throughLast, (span_reverse hv).2]
  simp

theorem beforeLast?_append (hv : c ∉ v) : beforeLast? c (u ++ c :: v) = some u := by
  rw [beforeLast?, (span_reverse hv).2]
  simp

theorem throughLast_of_notMem (h : c ∉ cs) : throughLast c cs = [] := by
  have hother := bne_of_notMem (mt List.mem_reverse.mp h)
  have hnone : (cs.reverse ++ []).dropWhile (· != c) = [] :=
    List.dropWhile_append_of_pos hother
  rw [List.append_nil] at hnone
  rw [throughLast, hnone, List.reverse_nil]

/-- Without a `c` the whole text comes after it. -/
theorem afterLast_of_notMem (h : c ∉ cs) : afterLast c cs = cs := by
  have hparts := throughLast_append_afterLast c cs
  rwa [throughLast_of_notMem h, List.nil_append] at hparts

theorem beforeLast?_of_notMem (h : c ∉ cs) : beforeLast? c cs = none := by
  have hnone := throughLast_of_notMem h
  rw [throughLast, List.reverse_eq_nil_iff] at hnone
  rw [beforeLast?, hnone]

theorem exists_last (h : c ∈ cs) : ∃ u v, cs = u ++ c :: v ∧ c ∉ v := by
  obtain ⟨v, u, hsplit, hv⟩ := List.eq_append_cons_of_mem (List.mem_reverse.mpr h)
  refine ⟨u.reverse, v.reverse, ?_, by simpa using hv⟩
  rw [← List.reverse_reverse cs, hsplit]
  simp

end Text

namespace ClassName

/-! ## Names taken apart -/

/-- A piece of a name between two delimiters. -/
structure Segment where
  /-- Its characters. -/
  chars : List Char
  /-- No dot is in it. -/
  noDot : '.' ∉ chars
  /-- No dollar is in it. -/
  noDollar : '$' ∉ chars

/-- A name taken apart. -/
structure Anatomy where
  /-- What stands before the last dot, if there is one. -/
  package? : Option (List Char)
  /-- The outermost class, without its package. -/
  outermost : Segment
  /-- The nested classes from the outside in. -/
  nested : List Segment

namespace Anatomy

/-- The package with its dot. -/
def qualifier : Option (List Char) → List Char
  | none => []
  | some p => p ++ ['.']

/-- The nested classes with their dollars. -/
def nesting (ns : List Segment) : List Char :=
  ns.flatMap fun n => '$' :: n.chars

/-- The text after the last dot. -/
def lastSegment (w : Anatomy) : List Char :=
  w.outermost.chars ++ nesting w.nested

/-- The whole name. -/
def name (w : Anatomy) : ClassName :=
  String.ofList (qualifier w.package? ++ w.lastSegment)

theorem noDot_nesting (ns : List Segment) : '.' ∉ nesting ns := by
  intro hmem
  obtain ⟨n, -, hn⟩ := List.mem_flatMap.mp hmem
  rcases List.mem_cons.mp hn with hn | hn
  · cases hn
  · exact n.noDot hn

theorem noDot_lastSegment (w : Anatomy) : '.' ∉ w.lastSegment := by
  rw [lastSegment, List.mem_append]
  rintro (hmem | hmem)
  · exact w.outermost.noDot hmem
  · exact noDot_nesting _ hmem

/-- The last segment has one dollar for every nested class. -/
theorem count_lastSegment (w : Anatomy) : w.lastSegment.count '$' = w.nested.length := by
  have hnesting : ∀ ns : List Segment, (nesting ns).count '$' = ns.length := by
    intro ns
    induction ns with
    | nil => rfl
    | cons n ns ih =>
      have hcons : nesting (n :: ns) = '$' :: (n.chars ++ nesting ns) := by simp [nesting]
      rw [hcons, List.count_cons_self, List.count_append, List.count_eq_zero_of_not_mem n.noDollar,
        ih, List.length_cons]
      omega
  rw [lastSegment, List.count_append, List.count_eq_zero_of_not_mem w.outermost.noDollar, hnesting,
    Nat.zero_add]

/-- A text without dots is cut at its dollars. -/
theorem exists_segments {cs : List Char} (h : '.' ∉ cs) :
    ∃ (o : Segment) (ns : List Segment), cs = o.chars ++ nesting ns := by
  induction cs with
  | nil => exact ⟨⟨[], by simp, by simp⟩, [], rfl⟩
  | cons c cs ih =>
    rw [List.mem_cons, not_or] at h
    obtain ⟨o, ns, rfl⟩ := ih h.2
    by_cases hc : c = '$'
    · refine ⟨⟨[], by simp, by simp⟩, o :: ns, ?_⟩
      simp [nesting, hc]
    · refine ⟨⟨c :: o.chars, ?_, ?_⟩, ns, rfl⟩
      · simp [h.1, o.noDot]
      · simp [Ne.symm hc, o.noDollar]

/-! ## The functions on names, by parts -/

theorem qualifier_cut (p : Option (List Char)) {cs : List Char} (h : '.' ∉ cs) :
    Text.throughLast '.' (qualifier p ++ cs) = qualifier p
      ∧ Text.afterLast '.' (qualifier p ++ cs) = cs
      ∧ Text.beforeLast? '.' (qualifier p ++ cs) = p := by
  cases p with
  | none =>
    rw [qualifier, List.nil_append]
    exact ⟨Text.throughLast_of_notMem h, Text.afterLast_of_notMem h, Text.beforeLast?_of_notMem h⟩
  | some p =>
    rw [qualifier, List.append_assoc, List.singleton_append]
    exact ⟨Text.throughLast_append h, Text.afterLast_append h, Text.beforeLast?_append h⟩

/-- The first dollar of the last segment comes after the outermost class. -/
theorem takeWhile_lastSegment (w : Anatomy) :
    w.lastSegment.takeWhile (· != '$') = w.outermost.chars := by
  rw [lastSegment, List.takeWhile_append_of_pos (Text.bne_of_notMem w.outermost.noDollar)]
  cases w.nested with
  | nil => simp [nesting]
  | cons n ns => simp [nesting]

/-- The outermost class is the name without what is nested. -/
theorem topLevel_name (w : Anatomy) :
    w.name.topLevel = (⟨w.package?, w.outermost, []⟩ : Anatomy).name := by
  obtain ⟨hthrough, hafter, -⟩ := qualifier_cut w.package? w.noDot_lastSegment
  rw [topLevel, name, String.toList_ofList, hthrough, hafter, takeWhile_lastSegment, name,
    lastSegment, nesting, List.flatMap_nil, List.append_nil]

theorem package_name (w : Anatomy) : w.name.package = String.ofList (w.package?.getD []) := by
  obtain ⟨-, -, hbefore⟩ := qualifier_cut w.package?
    (noDot_lastSegment ⟨w.package?, w.outermost, []⟩)
  rw [package, topLevel_name, name, String.toList_ofList, hbefore]

/-- The enclosing class lacks the innermost part. -/
theorem enclosing?_concat (p : Option (List Char)) (o : Segment) (ns : List Segment) (m : Segment) :
    (⟨p, o, ns ++ [m]⟩ : Anatomy).name.enclosing? = some (⟨p, o, ns⟩ : Anatomy).name := by
  have hsplit : qualifier p ++ (⟨p, o, ns ++ [m]⟩ : Anatomy).lastSegment
      = (qualifier p ++ (⟨p, o, ns⟩ : Anatomy).lastSegment) ++ '$' :: m.chars := by
    simp [lastSegment, nesting]
  rw [enclosing?, name, String.toList_ofList, hsplit, Text.beforeLast?_append m.noDollar]
  rfl

/-- Without a dollar in the package, an outermost class has no enclosing one. -/
theorem enclosing?_outermost {p : Option (List Char)} (h : '$' ∉ p.getD []) (o : Segment) :
    (⟨p, o, []⟩ : Anatomy).name.enclosing? = none := by
  have hplain : '$' ∉ qualifier p ++ (⟨p, o, []⟩ : Anatomy).lastSegment := by
    cases p with
    | none => simpa [qualifier, lastSegment, nesting] using o.noDollar
    | some p => simpa [qualifier, lastSegment, nesting, o.noDollar] using h
  rw [enclosing?, name, String.toList_ofList, Text.beforeLast?_of_notMem hplain]
  rfl

theorem enclosing?_eq_none_iff {w : Anatomy} (h : '$' ∉ w.package?.getD []) :
    w.name.enclosing? = none ↔ w.nested = [] := by
  obtain ⟨p, o, ns⟩ := w
  rcases List.eq_nil_or_concat' ns with rfl | ⟨ns, m, rfl⟩
  · exact iff_of_true (enclosing?_outermost h o) rfl
  · rw [enclosing?_concat]
    simp

/-- A name is that of an outermost class if nothing is nested. -/
theorem topLevel_eq_self_iff (w : Anatomy) : w.name.topLevel = w.name ↔ w.nested = [] := by
  rw [topLevel_name]
  constructor
  · intro h
    have hlength := congrArg (fun n : ClassName => n.toList.length) h
    simp only [name, String.toList_ofList, lastSegment, List.length_append] at hlength
    cases hns : w.nested with
    | nil => rfl
    | cons n ns =>
      rw [hns] at hlength
      simp [nesting] at hlength
  · intro h
    rw [← h]

end Anatomy

/-! ## Going outward -/

/-- The class so many steps further out, if there are that many around this one. -/
def outward (n : ClassName) : Nat → Option ClassName
  | 0 => some n
  | k + 1 => (outward n k).bind enclosing?

/-- Every step outward drops the innermost part. -/
theorem Anatomy.outward_name (p : Option (List Char)) (o : Segment) (ns ms : List Segment) :
    (⟨p, o, ns ++ ms⟩ : Anatomy).name.outward ms.length = some (⟨p, o, ns⟩ : Anatomy).name := by
  induction ms generalizing ns with
  | nil => rw [List.append_nil]; rfl
  | cons m ms ih =>
    have hmore := ih (ns ++ [m])
    rw [List.append_assoc, List.singleton_append] at hmore
    rw [List.length_cons, outward, hmore]
    exact Anatomy.enclosing?_concat p o ns m

/-- What is added after a dollar is nested further inside. -/
theorem Anatomy.exists_name_append (w : Anatomy) {s : String} (h : '.' ∉ s.toList) :
    ∃ ms, w.name ++ "$" ++ s = (⟨w.package?, w.outermost, w.nested ++ ms⟩ : Anatomy).name := by
  obtain ⟨m, ms, hsegments⟩ := exists_segments h
  refine ⟨m :: ms, ?_⟩
  rw [← String.toList_inj]
  simp [name, lastSegment, nesting, hsegments]

/-- On the way outward no class leaves its package or its outermost class. -/
theorem Anatomy.outward_keeps (w : Anatomy) {k : Nat} (hk : k ≤ w.nested.length) :
    ∃ m, w.name.outward k = some m ∧ m.package = w.name.package
      ∧ m.topLevel = w.name.topLevel := by
  have hlength : (w.nested.drop (w.nested.length - k)).length = k := by
    rw [List.length_drop]
    omega
  have hstep := outward_name w.package? w.outermost (w.nested.take (w.nested.length - k))
    (w.nested.drop (w.nested.length - k))
  rw [List.take_append_drop, hlength] at hstep
  refine ⟨_, hstep, ?_, ?_⟩
  · rw [package_name, package_name]
  · rw [topLevel_name, topLevel_name]

/-! ## The laws -/

/-- The name has no dot and is all `last`, or `last` is the text after its last dot and `before` the
text before that. -/
inductive CutAtLastDot (n : ClassName) : Option String → String → Prop where
  /-- There is no dot. -/
  | undotted : '.' ∉ n.toList → CutAtLastDot n none n
  /-- There is a dot, and none after it. -/
  | dotted {before last : String} : n = before ++ "." ++ last → '.' ∉ last.toList →
    CutAtLastDot n (some before) last

theorem exists_cutAtLastDot (n : ClassName) : ∃ before last, CutAtLastDot n before last := by
  by_cases hdot : '.' ∈ n.toList
  · obtain ⟨u, v, hsplit, hv⟩ := Text.exists_last hdot
    refine ⟨some (String.ofList u), String.ofList v, .dotted ?_ (by simpa using hv)⟩
    rw [← String.toList_inj]
    simp [hsplit]
  · exact ⟨none, n, .undotted hdot⟩

variable {n : ClassName}

/-- A name that is cut at its last dot is made of parts. -/
theorem CutAtLastDot.exists_anatomy {before : Option String} {last : String}
    (h : CutAtLastDot n before last) :
    ∃ w : Anatomy, w.name = n ∧ w.package? = before.map String.toList
      ∧ w.lastSegment = last.toList := by
  cases h with
  | undotted hlast =>
    obtain ⟨o, ns, hsegments⟩ := Anatomy.exists_segments hlast
    refine ⟨⟨none, o, ns⟩, ?_, rfl, hsegments.symm⟩
    rw [← String.toList_inj, Anatomy.name, String.toList_ofList, hsegments]
    rfl
  | @dotted before last hn hlast =>
    obtain ⟨o, ns, hsegments⟩ := Anatomy.exists_segments hlast
    refine ⟨⟨some before.toList, o, ns⟩, ?_, rfl, hsegments.symm⟩
    rw [← String.toList_inj, Anatomy.name, String.toList_ofList, hn]
    simp [Anatomy.qualifier, Anatomy.lastSegment, hsegments]

/-- The package of a name is the text before its last dot, and the outermost class has the same
package and no other outermost class.  Whatever is nested in a class stays in its package and its
outermost class.  If the package has no dollar, a class is outermost exactly if none encloses it,
and as many steps outward as there are dollars after the last dot lead to the outermost class and
no further, through classes of the same package and the same outermost class. -/
theorem nestingLaws (n : ClassName) :
    (∃ before last, CutAtLastDot n before last)
      ∧ ∀ before last, CutAtLastDot n before last →
        n.package = before.getD ""
          ∧ n.topLevel.topLevel = n.topLevel ∧ n.topLevel.package = n.package
          ∧ (∀ s : String, '.' ∉ s.toList → topLevel (n ++ "$" ++ s) = n.topLevel
            ∧ package (n ++ "$" ++ s) = n.package)
          ∧ ('$' ∉ (before.getD "").toList → (n.enclosing? = none ↔ n.topLevel = n)
            ∧ n.outward (last.toList.count '$') = some n.topLevel ∧ n.topLevel.enclosing? = none
            ∧ ∀ k ≤ last.toList.count '$', ∃ m, n.outward k = some m ∧ m.package = n.package
              ∧ m.topLevel = n.topLevel) := by
  refine ⟨exists_cutAtLastDot n, fun before last h => ?_⟩
  obtain ⟨w, rfl, hpackage, hlast⟩ := h.exists_anatomy
  refine ⟨?_, ?_, ?_, ?_, ?_⟩
  · rw [Anatomy.package_name, hpackage]
    cases before with
    | none => rfl
    | some before => simp
  · rw [Anatomy.topLevel_name, Anatomy.topLevel_name]
  · rw [Anatomy.topLevel_name, Anatomy.package_name, Anatomy.package_name]
  · intro s hs
    obtain ⟨ms, hname⟩ := w.exists_name_append hs
    rw [hname, Anatomy.topLevel_name, Anatomy.topLevel_name, Anatomy.package_name,
      Anatomy.package_name]
    exact ⟨rfl, rfl⟩
  · intro hplain
    have hdollar : '$' ∉ w.package?.getD [] := by
      rw [hpackage]
      cases before with
      | none => simp
      | some before => exact hplain
    rw [← hlast, Anatomy.count_lastSegment]
    refine ⟨?_, ?_, ?_, fun k hk => w.outward_keeps hk⟩
    · rw [Anatomy.topLevel_eq_self_iff, Anatomy.enclosing?_eq_none_iff hdollar]
    · rw [Anatomy.topLevel_name]
      exact Anatomy.outward_name w.package? w.outermost [] w.nested
    · rw [Anatomy.topLevel_name]
      exact Anatomy.enclosing?_outermost hdollar w.outermost

/-- Two dollars in a row stand around a class whose own name is empty. -/
theorem nestingLaws_doubleDollar :
    CutAtLastDot "a.b.C$$D" (some "a.b") "C$$D" ∧ package "a.b.C$$D" = "a.b"
      ∧ topLevel ("a.b.C$$D" ++ "$" ++ "$1") = topLevel "a.b.C$$D"
      ∧ outward "a.b.C$$D" 2 = some (topLevel "a.b.C$$D")
      ∧ ∃ m, outward "a.b.C$$D" 1 = some m ∧ m.package = package "a.b.C$$D"
        ∧ m.topLevel = topLevel "a.b.C$$D" := by
  have hcut : CutAtLastDot "a.b.C$$D" (some "a.b") "C$$D" := .dotted rfl (by decide)
  obtain ⟨hpackage, -, -, hinside, hplain⟩ := (nestingLaws "a.b.C$$D").2 _ _ hcut
  obtain ⟨-, houtermost, -, hkept⟩ := hplain (by decide)
  exact ⟨hcut, hpackage, (hinside "$1" (by decide)).1, houtermost, hkept 1 (by decide)⟩

end ClassName

end Linkage
