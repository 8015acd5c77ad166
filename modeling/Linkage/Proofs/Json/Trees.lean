import Mathlib.Algebra.GroupWithZero.Nat
import Mathlib.Data.List.Nodup
import Linkage.Proofs.Json.Text

/-!
# What the text of a value tells

Different values have different trees, and so different texts in every layout that can be read.
Sorting the members of an object by name loses nothing either, as long as the names are known and
differ.  What a text says at any depth is said by the trees within its tree.

* `reading_injective`, `pretty_injective`: texts tell values apart.
* `sortedObject_inj`: so do objects with sorted members.
* `Reading.subtrees`, `Reading.objectsWith`: the trees within a tree, and how many are objects with
  a member of some name.
-/

namespace Linkage.Json

/-! ## Values are told apart -/

/-- A function that tells the members of a list apart from everything tells the list apart. -/
theorem eq_of_map_eq {α β : Type} {f : α → β} {xs ys : List α}
    (hf : ∀ x ∈ xs, ∀ y, f x = f y → x = y) (h : xs.map f = ys.map f) : xs = ys := by
  induction xs generalizing ys with
  | nil => exact (List.map_eq_nil_iff.mp h.symm).symm
  | cons x xs ih =>
    cases ys with
    | nil => cases h
    | cons y ys =>
      obtain ⟨hx, hxs⟩ := List.forall_mem_cons.mp hf
      obtain ⟨hhead, htail⟩ := List.cons.inj h
      rw [hx y hhead, ih hxs htail]

/-- The induction is on the first value; what the second is, its tree shows. -/
theorem reading_injective : Function.Injective reading := by
  intro v
  induction v using Json.inductionOn with
  | null =>
    intro w h
    cases w <;> cases h
    rfl
  | bool b =>
    intro w h
    cases w <;> cases h
    rfl
  | number n =>
    intro w h
    cases w with
    | number m =>
      have hnumeral := Reading.number.inj h
      have hvalue := congrArg Numeral.natural? hnumeral
      rw [Numeral.natural?_ofNat, Numeral.natural?_ofNat] at hvalue
      rw [Option.some.inj hvalue]
    | _ => cases h
  | string s =>
    intro w h
    cases w <;> cases h
    rfl
  | array items ih =>
    intro w h
    cases w with
    | array items' =>
      have hitems := (Reading.array.inj h).1
      rw [itemReadings_eq, itemReadings_eq] at hitems
      rw [eq_of_map_eq (fun v hv w hw => ih v hv hw) hitems]
    | _ => cases h
  | object members ih =>
    intro w h
    cases w with
    | object members' =>
      have hmembers := (Reading.object.inj h).1
      rw [memberReadings_eq, memberReadings_eq] at hmembers
      refine congrArg Json.object (eq_of_map_eq (fun m hm m' hm' => ?_) hmembers)
      obtain ⟨hname, hvalue⟩ := Prod.mk.inj hm'
      exact Prod.ext (Option.some.inj hname) (ih m hm hvalue)
    | _ => cases h

theorem pretty_injective : Function.Injective pretty := by
  intro v w h
  have hread := congrArg Document.ofText h
  rw [ofText_pretty, ofText_pretty] at hread
  exact reading_injective (Document.mk.inj hread).1

/-- Objects with the same names, sorted, are equal only if they were before. -/
theorem sortedObject_inj {ms ms' : List (String × Json)}
    (hnames : ms.map Prod.fst = ms'.map Prod.fst) (hnodup : (ms'.map Prod.fst).Nodup)
    (h : sortedObject ms = sortedObject ms') : ms = ms' := by
  have hperm : ms.Perm ms' := by
    have hsorted := Json.object.inj h
    exact (List.mergeSort_perm ms _).symm.trans (hsorted ▸ List.mergeSort_perm ms' _)
  have hlength : ms.length = ms'.length := hperm.length_eq
  refine List.ext_getElem hlength fun k hk hk' => ?_
  -- The members at one place have one name, and no two members of a list have.
  have hname : (ms.map Prod.fst)[k]? = (ms'.map Prod.fst)[k]? := by rw [hnames]
  rw [List.getElem?_map, List.getElem?_map, List.getElem?_eq_getElem hk,
    List.getElem?_eq_getElem hk'] at hname
  exact List.inj_on_of_nodup_map hnodup (hperm.mem_iff.mp (List.getElem_mem hk))
    (List.getElem_mem hk') (Option.some.inj hname)

/-- A record is told by its sorted members if it is by its members. -/
theorem sortedObject_injective {α : Type} {members : α → List (String × Json)} (names : List String)
    (hnames : ∀ a, (members a).map Prod.fst = names) (hnodup : names.Nodup)
    (hmembers : Function.Injective members) :
    Function.Injective fun a => sortedObject (members a) := by
  intro a b h
  refine hmembers (sortedObject_inj ?_ ?_ h)
  · rw [hnames, hnames]
  · rw [hnames]
    exact hnodup

theorem ofOption_injective {α : Type} {f : α → Json} (hf : Function.Injective f)
    (hnull : ∀ a, f a ≠ .null) : Function.Injective (ofOption f) := by
  rintro (_ | a) (_ | b) h
  · rfl
  · exact absurd h.symm (hnull b)
  · exact absurd h (hnull a)
  · exact congrArg some (hf h)

theorem ofList_injective {α : Type} {f : α → Json} (hf : Function.Injective f) :
    Function.Injective (ofList f) := by
  intro xs ys h
  exact eq_of_map_eq (fun _ _ _ hxy => hf hxy) (Json.array.inj h)

/-! ## Trees within a tree -/

namespace Reading

mutual

/-- The tree and all trees within it. -/
def subtrees : Reading → List Reading
  | .array rs closed => .array rs closed :: itemSubtrees rs
  | .object ms closed => .object ms closed :: memberSubtrees ms
  | r => [r]

/-- The trees within the items of a list. -/
def itemSubtrees : List Reading → List Reading
  | [] => []
  | r :: rs => r.subtrees ++ itemSubtrees rs

/-- The trees within the members of an object. -/
def memberSubtrees : List (Option String × Reading) → List Reading
  | [] => []
  | (_, r) :: ms => r.subtrees ++ memberSubtrees ms

end

theorem itemSubtrees_eq (rs : List Reading) : itemSubtrees rs = rs.flatMap subtrees := by
  induction rs with
  | nil => rfl
  | cons r rs ih => rw [itemSubtrees, ih, List.flatMap_cons]

theorem memberSubtrees_eq (ms : List (Option String × Reading)) :
    memberSubtrees ms = ms.flatMap fun m => m.2.subtrees := by
  induction ms with
  | nil => rfl
  | cons m ms ih => rw [memberSubtrees, ih, List.flatMap_cons]

/-- The members of an object; other trees have none. -/
def ownMembers : Reading → List (Option String × Reading)
  | .object ms _ => ms
  | _ => []

/-- Is it an object with a member of this name? -/
def has (name : String) (r : Reading) : Bool :=
  r.ownMembers.any fun m => m.1 == some name

/-- How many objects in the tree have a member of this name. -/
def objectsWith (name : String) (r : Reading) : Nat :=
  r.subtrees.countP (has name)

/-- The tree and all trees within it have the property. -/
def Throughout (P : Reading → Prop) (r : Reading) : Prop :=
  ∀ s ∈ r.subtrees, P s

end Reading

section

variable {α : Type} {ms : List (String × Json)} {name : String} {P : Reading → Prop}

/-- Sorting moves the trees within an object and does nothing else to them. -/
theorem subtrees_sortedObject (ms : List (String × Json)) :
    (sortedObject ms).reading.subtrees.Perm
      ((sortedObject ms).reading :: ms.flatMap fun m => m.2.reading.subtrees) := by
  rw [sortedObject, reading, memberReadings_eq, Reading.subtrees, Reading.memberSubtrees_eq,
    List.flatMap_map]
  exact .cons _ ((List.mergeSort_perm ms _).flatMap_right _)

theorem subtrees_ofList (f : α → Json) (xs : List α) :
    (ofList f xs).reading.subtrees
      = (ofList f xs).reading :: xs.flatMap fun x => (f x).reading.subtrees := by
  rw [ofList, reading, itemReadings_eq, Reading.subtrees, Reading.itemSubtrees_eq,
    List.map_map, List.flatMap_map]
  rfl

theorem mem_ownMembers_sortedObject {t : Reading} :
    (some name, t) ∈ (sortedObject ms).reading.ownMembers
      ↔ ∃ v, (name, v) ∈ ms ∧ v.reading = t := by
  rw [sortedObject, reading, memberReadings_eq, Reading.ownMembers, List.mem_map]
  simp [List.mem_mergeSort]

theorem has_sortedObject : (sortedObject ms).reading.has name = true ↔ name ∈ ms.map Prod.fst := by
  rw [Reading.has, List.any_eq_true, List.mem_map]
  constructor
  · rintro ⟨⟨_, t⟩, hm, hname⟩
    obtain rfl := beq_iff_eq.mp hname
    obtain ⟨v, hv, -⟩ := mem_ownMembers_sortedObject.mp hm
    exact ⟨_, hv, rfl⟩
  · rintro ⟨⟨_, v⟩, hv, rfl⟩
    exact ⟨_, mem_ownMembers_sortedObject.mpr ⟨v, hv, rfl⟩, beq_self_eq_true _⟩

/-! ### Counting -/

@[simp]
theorem objectsWith_string (name s : String) : (Json.string s).reading.objectsWith name = 0 := rfl

@[simp]
theorem objectsWith_number (name : String) (n : Nat) :
    (Json.number n).reading.objectsWith name = 0 := rfl

theorem objectsWith_sortedObject (name : String) (ms : List (String × Json)) :
    (sortedObject ms).reading.objectsWith name
      = (ms.map fun m => m.2.reading.objectsWith name).sum
        + if name ∈ ms.map Prod.fst then 1 else 0 := by
  rw [Reading.objectsWith, (subtrees_sortedObject ms).countP_eq, List.countP_cons,
    List.countP_flatMap]
  simp only [has_sortedObject]
  rfl

theorem objectsWith_ofList (name : String) (f : α → Json) (xs : List α) :
    (ofList f xs).reading.objectsWith name
      = (xs.map fun x => (f x).reading.objectsWith name).sum := by
  rw [Reading.objectsWith, subtrees_ofList, List.countP_cons, List.countP_flatMap]
  simp only [ofList, reading, Reading.has, Reading.ownMembers, List.any_nil]
  rfl

/-! ### Properties throughout -/

@[simp]
theorem throughout_string {s : String} :
    (Json.string s).reading.Throughout P ↔ P (Json.string s).reading :=
  List.forall_mem_singleton

@[simp]
theorem throughout_number {n : Nat} :
    (Json.number n).reading.Throughout P ↔ P (Json.number n).reading :=
  List.forall_mem_singleton

@[simp]
theorem throughout_null : Json.null.reading.Throughout P ↔ P Json.null.reading :=
  List.forall_mem_singleton

theorem throughout_sortedObject :
    (sortedObject ms).reading.Throughout P
      ↔ P (sortedObject ms).reading ∧ ∀ m ∈ ms, m.2.reading.Throughout P := by
  simp only [Reading.Throughout, (subtrees_sortedObject ms).mem_iff, List.forall_mem_cons,
    List.forall_mem_flatMap]

theorem throughout_ofList {f : α → Json} {xs : List α} :
    (ofList f xs).reading.Throughout P
      ↔ P (ofList f xs).reading ∧ ∀ x ∈ xs, (f x).reading.Throughout P := by
  simp only [Reading.Throughout, subtrees_ofList, List.forall_mem_cons, List.forall_mem_flatMap]

end

end Linkage.Json
