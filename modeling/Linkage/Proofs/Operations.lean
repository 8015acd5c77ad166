import Mathlib.Data.List.Forall2

/-!
# Operations that stop at the first fault

An operation over a list succeeds if it does so for every member, and fails with the failure of
the first member it fails for.  Some operations carry a state that never shows in their answer,
such as the events reported so far; they can be looked at as operations that may fail and nothing
else.

* `FirstFailure`, `mapM_eq_error_iff`: which failure an operation over a list ends with.
* `Answers`: the answer of an operation, its state set aside.
* `ExtendedBy`: an operation that succeeds wherever another does, and then does the same.
-/

namespace Linkage

section

variable {ε α β : Type}

/-! ## One after the other -/

theorem except_bind_eq_ok_iff {x : Except ε α} {f : α → Except ε β} {b : β} :
    (x >>= f) = .ok b ↔ ∃ a, x = .ok a ∧ f a = .ok b := by
  cases x <;> simp [bind, Except.bind]

theorem except_bind_eq_error_iff {x : Except ε α} {f : α → Except ε β} {e : ε} :
    (x >>= f) = .error e ↔ x = .error e ∨ ∃ a, x = .ok a ∧ f a = .error e := by
  cases x <;> simp [bind, Except.bind]

theorem except_map_eq_ok_iff {g : α → β} {x : Except ε α} {b : β} :
    x.map g = .ok b ↔ ∃ a, x = .ok a ∧ g a = b := by
  cases x <;> simp [Except.map]

theorem mapError_eq_ok_iff {ε' : Type} {g : ε → ε'} {x : Except ε α} {a : α} :
    x.mapError g = .ok a ↔ x = .ok a := by
  cases x <;> simp [Except.mapError]

theorem mapError_eq_error_iff {ε' : Type} {g : ε → ε'} {x : Except ε α} {e' : ε'} :
    x.mapError g = .error e' ↔ ∃ e, x = .error e ∧ g e = e' := by
  cases x <;> simp [Except.mapError]

/-! ## All of a list -/

variable {f : α → Except ε β}

theorem mapM_eq_ok_iff {xs : List α} {ys : List β} :
    xs.mapM f = .ok ys ↔ List.Forall₂ (fun x y => f x = .ok y) xs ys := by
  induction xs generalizing ys with
  | nil =>
    rw [List.mapM_nil, List.forall₂_nil_left_iff]
    show Except.ok [] = _ ↔ _
    simp [eq_comm]
  | cons x xs ih =>
    rw [List.mapM_cons, List.forall₂_cons_left_iff]
    simp only [except_bind_eq_ok_iff, ih]
    constructor
    · rintro ⟨y, hy, ys, hys, h⟩
      cases h
      exact ⟨y, ys, hy, hys, rfl⟩
    · rintro ⟨y, ys, hy, hys, rfl⟩
      exact ⟨y, hy, ys, hys, rfl⟩

theorem mapM_congr {g : α → Except ε β} {xs : List α} (h : ∀ x ∈ xs, f x = g x) :
    xs.mapM f = xs.mapM g := by
  induction xs with
  | nil => rfl
  | cons x xs ih =>
    rw [List.forall_mem_cons] at h
    rw [List.mapM_cons, List.mapM_cons, h.1, ih h.2]

theorem mapM_mapError {ε' : Type} (g : ε → ε') (xs : List α) :
    (xs.mapM f).mapError g = xs.mapM fun x => (f x).mapError g := by
  induction xs with
  | nil => rfl
  | cons x xs ih =>
    rw [List.mapM_cons, List.mapM_cons, ← ih]
    cases f x with
    | error e => rfl
    | ok y =>
      cases xs.mapM f with
      | error e => rfl
      | ok ys => rfl

theorem exists_right_of_forall₂ {R : α → β → Prop} {xs : List α} {ys : List β}
    (h : List.Forall₂ R xs ys) {x : α} (hx : x ∈ xs) : ∃ y ∈ ys, R x y := by
  induction h with
  | nil => simp at hx
  | cons hxy _ ih =>
    rcases List.mem_cons.mp hx with rfl | hx
    · exact ⟨_, List.mem_cons_self, hxy⟩
    · obtain ⟨y, hy, hxy⟩ := ih hx
      exact ⟨y, List.mem_cons_of_mem _ hy, hxy⟩

theorem exists_left_of_forall₂ {R : α → β → Prop} {xs : List α} {ys : List β}
    (h : List.Forall₂ R xs ys) {y : β} (hy : y ∈ ys) : ∃ x ∈ xs, R x y :=
  exists_right_of_forall₂ (R := flip R) (.flip h) hy

theorem mem_of_mapM_eq_ok {xs : List α} {ys : List β} (h : xs.mapM f = .ok ys) {y : β} :
    y ∈ ys ↔ ∃ x ∈ xs, f x = .ok y := by
  rw [mapM_eq_ok_iff] at h
  constructor
  · exact exists_left_of_forall₂ h
  · rintro ⟨x, hx, hxy⟩
    obtain ⟨y', hy', hxy'⟩ := exists_right_of_forall₂ h hx
    rw [hxy] at hxy'
    cases hxy'
    exact hy'

/-- The operation fails so for a member of the list and for none before it. -/
def FirstFailure (f : α → Except ε β) (xs : List α) (e : ε) : Prop :=
  ∃ before x after, xs = before ++ x :: after ∧ (∀ y ∈ before, ∃ b, f y = .ok b) ∧ f x = .error e

theorem firstFailure_cons_iff {x : α} {xs : List α} {e : ε} :
    FirstFailure f (x :: xs) e ↔
      f x = .error e ∨ (∃ b, f x = .ok b) ∧ FirstFailure f xs e := by
  constructor
  · rintro ⟨before, y, after, hsplit, hbefore, hy⟩
    cases before with
    | nil =>
      obtain ⟨rfl, rfl⟩ := List.cons.inj hsplit
      exact .inl hy
    | cons z before =>
      obtain ⟨rfl, rfl⟩ := List.cons.inj hsplit
      exact .inr ⟨hbefore x List.mem_cons_self, before, y, after, rfl,
        fun w hw => hbefore w (List.mem_cons_of_mem _ hw), hy⟩
  · rintro (hx | ⟨hx, before, y, after, rfl, hbefore, hy⟩)
    · exact ⟨[], x, xs, rfl, by simp, hx⟩
    · refine ⟨x :: before, y, after, rfl, fun z hz => ?_, hy⟩
      rcases List.mem_cons.mp hz with rfl | hz
      · exact hx
      · exact hbefore z hz

theorem mapM_eq_error_iff {xs : List α} {e : ε} :
    xs.mapM f = .error e ↔ FirstFailure f xs e := by
  induction xs with
  | nil =>
    rw [List.mapM_nil]
    constructor
    · intro h
      cases h
    · rintro ⟨before, y, after, hsplit, -⟩
      simp at hsplit
  | cons x xs ih =>
    rw [List.mapM_cons, firstFailure_cons_iff, except_bind_eq_error_iff, ← ih]
    refine or_congr Iff.rfl ⟨?_, ?_⟩
    · rintro ⟨b, hb, hrest⟩
      rcases except_bind_eq_error_iff.mp hrest with hrest | ⟨bs, -, hpure⟩
      · exact ⟨⟨b, hb⟩, hrest⟩
      · cases hpure
    · rintro ⟨⟨b, hb⟩, hrest⟩
      exact ⟨b, hb, except_bind_eq_error_iff.mpr (.inl hrest)⟩

theorem exists_mapM_eq_ok_iff {xs : List α} :
    (∃ ys, xs.mapM f = .ok ys) ↔ ∀ x ∈ xs, ∃ y, f x = .ok y := by
  induction xs with
  | nil => exact ⟨by simp, fun _ => ⟨[], rfl⟩⟩
  | cons x xs ih =>
    simp only [List.mapM_cons, except_bind_eq_ok_iff, List.forall_mem_cons, ← ih]
    constructor
    · rintro ⟨_, y, hy, ys, hys, -⟩
      exact ⟨⟨y, hy⟩, ys, hys⟩
    · rintro ⟨⟨y, hy⟩, ys, hys⟩
      exact ⟨y :: ys, y, hy, ys, hys, rfl⟩

theorem exists_firstFailure_iff {xs : List α} :
    (∃ e, FirstFailure f xs e) ↔ ∃ x ∈ xs, ∃ e, f x = .error e := by
  constructor
  · rintro ⟨e, before, x, after, rfl, -, hx⟩
    exact ⟨x, by simp, e, hx⟩
  · rintro ⟨x, hx, e, he⟩
    cases hall : xs.mapM f with
    | error e' => exact ⟨e', mapM_eq_error_iff.mp hall⟩
    | ok ys =>
      obtain ⟨y, hy⟩ := exists_mapM_eq_ok_iff.mp ⟨ys, hall⟩ x hx
      rw [he] at hy
      cases hy

/-- Doing something for each member and collecting on the way is doing it for all and collecting
afterwards. -/
theorem foldlM_eq_mapM_foldl {σ : Type} (collect : σ → β → σ) (xs : List α) (s : σ) :
    xs.foldlM (fun s x => do return collect s (← f x)) s
      = (do let ys ← xs.mapM f; return ys.foldl collect s) := by
  induction xs generalizing s with
  | nil => rfl
  | cons x xs ih =>
    rw [List.foldlM_cons, List.mapM_cons]
    cases f x with
    | error e => rfl
    | ok y =>
      show xs.foldlM _ (collect s y) = _
      rw [ih]
      cases xs.mapM f with
      | error e => rfl
      | ok ys => rfl

end

/-! ## State set aside -/

section

variable {ε σ α β : Type}

/-- A failure ends an operation with the state as it is then; otherwise the rest starts from the
state the first part left. -/
theorem run_bind (x : ExceptT ε (StateM σ) α) (f : α → ExceptT ε (StateM σ) β) (s : σ) :
    (x >>= f).run.run s = match (x.run.run s).1 with
      | .ok a => (f a).run.run (x.run.run s).2
      | .error e => (.error e, (x.run.run s).2) := by
  rw [ExceptT.run_bind, StateT.run_bind]
  generalize StateT.run (ExceptT.run x) s = after
  obtain ⟨answer, left⟩ := after
  cases answer with
  | ok a => rfl
  | error e => rfl

/-- In whatever state it starts, the operation answers `a`. -/
def Answers (x : ExceptT ε (StateM σ) α) (a : Except ε α) : Prop :=
  ∀ s, (x.run.run s).1 = a

theorem answers_pure (a : α) : Answers (pure a : ExceptT ε (StateM σ) α) (.ok a) :=
  fun _ => rfl

theorem answers_throw (e : ε) : Answers (throw e : ExceptT ε (StateM σ) α) (.error e) :=
  fun _ => rfl

theorem Answers.bind {x : ExceptT ε (StateM σ) α} {f : α → ExceptT ε (StateM σ) β}
    {a : Except ε α} {g : α → Except ε β} (hx : Answers x a) (hf : ∀ v, Answers (f v) (g v)) :
    Answers (x >>= f) (a >>= g) := by
  intro s
  rw [run_bind, hx s]
  cases a with
  | ok v => exact hf v _
  | error e => rfl

theorem Answers.foldlM {γ : Type} {f : γ → α → ExceptT ε (StateM σ) γ} {g : γ → α → Except ε γ}
    (h : ∀ c x, Answers (f c x) (g c x)) (xs : List α) (c : γ) :
    Answers (xs.foldlM f c) (xs.foldlM g c) := by
  induction xs generalizing c with
  | nil => exact answers_pure c
  | cons x xs ih =>
    rw [List.foldlM_cons, List.foldlM_cons]
    exact (h c x).bind ih

/-! ## Alike where one succeeds -/

/-- Wherever the first operation succeeds, the second has the same answer and leaves the same
state. -/
def ExtendedBy (x y : ExceptT ε (StateM σ) α) : Prop :=
  ∀ s a, (x.run.run s).1 = .ok a → y.run.run s = x.run.run s

theorem extendedBy_refl (x : ExceptT ε (StateM σ) α) : ExtendedBy x x :=
  fun _ _ _ => rfl

theorem extendedBy_throw (e : ε) (y : ExceptT ε (StateM σ) α) : ExtendedBy (throw e) y := by
  rintro s a ⟨⟩

theorem ExtendedBy.bind {x y : ExceptT ε (StateM σ) α} {f g : α → ExceptT ε (StateM σ) β}
    (hx : ExtendedBy x y) (hf : ∀ a, ExtendedBy (f a) (g a)) : ExtendedBy (x >>= f) (y >>= g) := by
  intro s b hb
  rw [run_bind] at hb ⊢
  rw [run_bind]
  cases ha : (x.run.run s).1 with
  | error e =>
    rw [ha] at hb
    cases hb
  | ok a =>
    rw [ha] at hb
    rw [hx s a ha, ha]
    exact hf a _ b hb

theorem ExtendedBy.mapM {f g : α → ExceptT ε (StateM σ) β} (h : ∀ x, ExtendedBy (f x) (g x))
    (xs : List α) : ExtendedBy (xs.mapM f) (xs.mapM g) := by
  induction xs with
  | nil => exact extendedBy_refl _
  | cons x xs ih =>
    rw [List.mapM_cons, List.mapM_cons]
    exact (h x).bind fun y => ih.bind fun ys => extendedBy_refl (pure (y :: ys))

end

end Linkage
