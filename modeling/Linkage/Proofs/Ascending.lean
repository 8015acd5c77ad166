import Mathlib.Data.Prod.Lex
import Mathlib.Data.String.Basic
import Linkage.Ascending
import Linkage.Proofs.Operations

/-!
# Finite sets as ascending lists

Sorting a list and dropping repetitions gives its members in strictly ascending order, each once.
The comparison has to be a total order; the order of texts is one, and so is every comparison of
records part by part.  What is done for the members one by one fails with the least that fails.
-/

namespace Linkage

variable {α : Type} {le : α → α → Bool}

/-- The comparison is a total order. -/
structure TotalOrder (le : α → α → Bool) : Prop where
  /-- It can be chained. -/
  trans : ∀ a b c, le a b = true → le b c = true → le a c = true
  /-- Any two are comparable. -/
  total : ∀ a b, (le a b || le b a) = true
  /-- Only equals compare both ways. -/
  antisymm : ∀ a b, le a b = true → le b a = true → a = b

/-- Each member comes before all that follow it, and differs from them. -/
def StrictlyAscending (le : α → α → Bool) (xs : List α) : Prop :=
  xs.Pairwise fun a b => le a b = true ∧ a ≠ b

instance [DecidableEq α] (le : α → α → Bool) (xs : List α) : Decidable (StrictlyAscending le xs) :=
  inferInstanceAs (Decidable (xs.Pairwise _))

/-- It has the property, and comes before all that have. -/
def Least (le : α → α → Bool) (p : α → Prop) (x : α) : Prop :=
  p x ∧ ∀ y, p y → le x y = true

theorem least_congr {p q : α → Prop} (h : ∀ x, p x ↔ q x) {x : α} :
    Least le p x ↔ Least le q x := by
  simp only [Least, h]

/-- Comparing by a key that tells the members apart is a total order. -/
theorem TotalOrder.of_key {β : Type} [LinearOrder β] (key : α → β)
    (hinj : ∀ a b, key a = key b → a = b) (hle : ∀ a b, le a b = true ↔ key a ≤ key b) :
    TotalOrder le where
  trans a b c hab hbc := (hle a c).mpr (le_trans ((hle a b).mp hab) ((hle b c).mp hbc))
  total a b := by
    rw [Bool.or_eq_true, hle, hle]
    exact le_total _ _
  antisymm a b hab hba := hinj a b (le_antisymm ((hle a b).mp hab) ((hle b a).mp hba))

theorem totalOrder_textLe : TotalOrder textLe :=
  .of_key id (fun _ _ h => h) fun a b => by simp [textLe]

/-- In whatever order things come, they are sorted into the same. -/
theorem mergeSort_eq_of_perm (hle : TotalOrder le) {xs ys : List α} (h : xs.Perm ys) :
    xs.mergeSort le = ys.mergeSort le := by
  have hsorted : ∀ zs : List α, (zs.mergeSort le).Pairwise fun a b => le a b = true :=
    List.pairwise_mergeSort hle.trans hle.total
  have hperm : (xs.mergeSort le).Perm (ys.mergeSort le) :=
    (List.mergeSort_perm xs le).trans (h.trans (List.mergeSort_perm ys le).symm)
  exact hperm.eq_of_pairwise (fun a b _ _ => hle.antisymm a b) (hsorted xs) (hsorted ys)

/-- Lists that ascend by a key and have the same members are the same list. -/
theorem StrictlyAscending.eq_of_mem_iff_key {β : Type} (hle : TotalOrder le) (key : β → α)
    {xs ys : List β} (hxs : StrictlyAscending le (xs.map key))
    (hys : StrictlyAscending le (ys.map key)) (h : ∀ b, b ∈ xs ↔ b ∈ ys) : xs = ys := by
  have hxs := List.pairwise_map.mp hxs
  have hys := List.pairwise_map.mp hys
  have hne : ∀ b b', le (key b) (key b') = true ∧ key b ≠ key b' → b ≠ b' :=
    fun b b' hlt heq => hlt.2 (congrArg key heq)
  have hperm : xs.Perm ys :=
    (List.perm_ext_iff_of_nodup (hxs.imp (hne _ _)) (hys.imp (hne _ _))).mpr h
  refine hperm.eq_of_pairwise ?_ hxs hys
  intro b b' _ _ hlt hgt
  exact absurd (hle.antisymm _ _ hlt.1 hgt.1) hlt.2

/-- Ascending lists with the same members are the same list. -/
theorem StrictlyAscending.eq_of_mem_iff (hle : TotalOrder le) {xs ys : List α}
    (hxs : StrictlyAscending le xs) (hys : StrictlyAscending le ys)
    (h : ∀ a, a ∈ xs ↔ a ∈ ys) : xs = ys := by
  rw [← List.map_id xs] at hxs
  rw [← List.map_id ys] at hys
  exact eq_of_mem_iff_key hle id hxs hys h

/-! ## Dropping repetitions -/

theorem eraseRepsBy_loop (r : α → α → Bool) (a : α) (xs acc : List α) :
    List.eraseRepsBy.loop r a xs acc = acc.reverse ++ List.eraseRepsBy.loop r a xs [] := by
  induction xs generalizing a acc with
  | nil => simp [List.eraseRepsBy.loop]
  | cons b xs ih =>
    simp only [List.eraseRepsBy.loop]
    cases r a b with
    | true => exact ih a acc
    | false =>
      simp only
      rw [ih b (a :: acc), ih b [a]]
      simp

section

variable [BEq α]

theorem eraseReps_cons_cons (a b : α) (xs : List α) :
    (a :: b :: xs).eraseReps
      = if a == b then (a :: xs).eraseReps else a :: (b :: xs).eraseReps := by
  simp only [List.eraseReps, List.eraseRepsBy, List.eraseRepsBy.loop]
  cases a == b with
  | true => rfl
  | false => exact eraseRepsBy_loop _ b xs [a]

variable [LawfulBEq α]

theorem mem_eraseReps {x : α} {xs : List α} : x ∈ xs.eraseReps ↔ x ∈ xs := by
  induction xs with
  | nil => rfl
  | cons a xs ih =>
    cases xs with
    | nil => rfl
    | cons b xs =>
      rw [eraseReps_cons_cons]
      split
      · next h =>
        obtain rfl := eq_of_beq h
        rw [ih]
        simp
      · rw [List.mem_cons, ih, ← List.mem_cons]

theorem strictlyAscending_eraseReps (hle : TotalOrder le) {xs : List α}
    (h : xs.Pairwise fun a b => le a b = true) : StrictlyAscending le xs.eraseReps := by
  induction xs with
  | nil => exact .nil
  | cons a xs ih =>
    cases xs with
    | nil => exact List.pairwise_singleton _ _
    | cons b xs =>
      rw [eraseReps_cons_cons]
      obtain ⟨ha, hrest⟩ := List.pairwise_cons.mp h
      split
      · next heq =>
        obtain rfl := eq_of_beq heq
        exact ih hrest
      · next hne =>
        refine List.pairwise_cons.mpr ⟨fun c hc => ?_, ih hrest⟩
        have hc := mem_eraseReps.mp hc
        refine ⟨ha c hc, ?_⟩
        rintro rfl
        -- then the neighbour is squeezed between two equals
        rcases List.mem_cons.mp hc with rfl | hmem
        · exact hne (beq_self_eq_true _)
        · have hb := (List.pairwise_cons.mp hrest).1 a hmem
          have hab := hle.antisymm a b (ha b List.mem_cons_self) hb
          exact hne (by simp [hab])

/-! ## Sorting -/

theorem mem_ascending {x : α} {xs : List α} : x ∈ ascending le xs ↔ x ∈ xs := by
  rw [ascending, mem_eraseReps, List.mem_mergeSort]

theorem strictlyAscending_ascending (hle : TotalOrder le) (xs : List α) :
    StrictlyAscending le (ascending le xs) :=
  strictlyAscending_eraseReps hle (List.pairwise_mergeSort hle.trans hle.total xs)

theorem ascending_of_strictlyAscending {xs : List α} (h : StrictlyAscending le xs) :
    ascending le xs = xs := by
  rw [ascending, List.mergeSort_of_pairwise (h.imp And.left)]
  induction xs with
  | nil => rfl
  | cons a xs ih =>
    cases xs with
    | nil => rfl
    | cons b xs =>
      obtain ⟨ha, hrest⟩ := List.pairwise_cons.mp h
      have hne : (a == b) = false := by simpa using (ha b List.mem_cons_self).2
      rw [eraseReps_cons_cons, hne, ih hrest]
      rfl

end

/-- The first fitting member of a sorted list is the least. -/
theorem find?_least (hle : TotalOrder le) {xs : List α}
    (hsorted : xs.Pairwise fun x y => le x y = true) {p : α → Bool} {x : α}
    (h : xs.find? p = some x) : Least le (fun y => y ∈ xs ∧ p y = true) x := by
  obtain ⟨hx, before, after, rfl, hbefore⟩ := List.find?_eq_some_iff_append.mp h
  refine ⟨⟨by simp, hx⟩, ?_⟩
  rintro y ⟨hy, hp⟩
  rcases List.mem_append.mp hy with hy | hy
  · exact absurd hp (by simpa using hbefore y hy)
  · rcases List.mem_cons.mp hy with rfl | hy
    · simpa using hle.total y y
    · exact (List.pairwise_cons.mp (List.pairwise_append.mp hsorted).2.1).1 y hy

/-! ## Failing in order -/

section

variable {β ε κ : Type} {f : α → Except ε β} {e : ε}

/-- In the order of their keys, the first failure is the one with the least key. -/
theorem firstFailure_iff_least_key {le : κ → κ → Bool} (hle : TotalOrder le)
    {R : κ → α → Prop} (hunique : Relator.RightUnique R) {keys : List κ} {xs : List α}
    (hsorted : keys.Pairwise fun k k' => le k k' = true) (hall : List.Forall₂ R keys xs) :
    FirstFailure f xs e ↔ ∃ k x, R k x ∧ f x = .error e ∧
      Least le (fun k => k ∈ keys ∧ ∃ x e', R k x ∧ f x = .error e') k := by
  induction hall with
  | nil =>
    constructor
    · rintro ⟨before, x, after, hsplit, -⟩
      simp at hsplit
    · rintro ⟨k, x, -, -, ⟨hk, -⟩, -⟩
      simp at hk
  | @cons k x keys xs hk _ ih =>
    obtain ⟨hfirst, hrest⟩ := List.pairwise_cons.mp hsorted
    rw [firstFailure_cons_iff, ih hrest]
    cases hx : f x with
    | error e' =>
      have hfails : ∃ x e', R k x ∧ f x = .error e' := ⟨x, e', hk, hx⟩
      have hbefore : ∀ k' ∈ k :: keys, le k k' = true := by
        intro k' hk'
        rcases List.mem_cons.mp hk' with rfl | hk'
        · simpa using hle.total k' k'
        · exact hfirst k' hk'
      constructor
      · rintro (h | ⟨⟨b, h⟩, -⟩)
        · cases h
          exact ⟨k, x, hk, hx, ⟨List.mem_cons_self, hfails⟩, fun k' hk' => hbefore k' hk'.1⟩
        · cases h
      · rintro ⟨k', x', hk', hx', ⟨hmem, -⟩, hleast⟩
        have hkeys := hle.antisymm k' k (hleast k ⟨List.mem_cons_self, hfails⟩) (hbefore k' hmem)
        obtain rfl := hunique (hkeys ▸ hk') hk
        exact .inl (hx.symm.trans hx')
    | ok b =>
      -- the first key is none of those that fail
      have hsame : ∀ k', (k' ∈ k :: keys ∧ ∃ x e', R k' x ∧ f x = .error e')
          ↔ k' ∈ keys ∧ ∃ x e', R k' x ∧ f x = .error e' := by
        intro k'
        refine and_congr_left ?_
        rintro ⟨x', e', hk', hx'⟩
        rw [List.mem_cons]
        refine or_iff_right ?_
        rintro rfl
        rw [hunique hk' hk, hx] at hx'
        cases hx'
      simp only [hsame]
      simp

theorem firstFailure_iff_least (hle : TotalOrder le) {xs : List α}
    (hsorted : xs.Pairwise fun x y => le x y = true) :
    FirstFailure f xs e ↔ ∃ x, f x = .error e ∧
      Least le (fun x => x ∈ xs ∧ ∃ e', f x = .error e') x := by
  have hunique : Relator.RightUnique (Eq : α → α → Prop) := fun _ _ _ h h' => h.symm.trans h'
  rw [firstFailure_iff_least_key hle hunique hsorted (List.forall₂_same.mpr fun _ _ => rfl)]
  simp

end

end Linkage
