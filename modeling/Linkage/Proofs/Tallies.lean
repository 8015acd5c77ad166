import Linkage.Audit.Tally
import Linkage.Proofs.Operations

/-!
# Adding up tallies

A tally is known by how much of everything it counts, and adding two is adding these amounts, if
each sum fits.  Nothing here depends on the widths of the words: what a counter holds and where it
ends is given once, by `amount` and `bound`.

* `ext_amount`: a tally is its amounts.
* `add_eq_ok_iff`: when two tallies have a sum, and which.
-/

namespace Linkage.Tally

/-- What a tally counts. -/
inductive Counter where
  /-- Artifacts checked. -/
  | artifacts
  /-- Classes read. -/
  | classes
  /-- Distinct references resolved. -/
  | references
  /-- References that are broken. -/
  | errors
  /-- Time spent. -/
  | time

/-- What a counter holds stays below this. -/
def Counter.bound : Counter → Nat
  | .time => counterBound * second
  | _ => counterBound

/-- How much has been counted. -/
def amount (m : Tally) : Counter → Nat
  | .artifacts => m.artifacts.toNat
  | .classes => m.classes.toNat
  | .references => m.references.toNat
  | .errors => m.errors.toNat
  | .time => m.time

theorem ext_amount {a b : Tally} (h : ∀ c, a.amount c = b.amount c) : a = b := by
  have hartifacts : a.artifacts = b.artifacts := UInt64.toNat_inj.mp (h .artifacts)
  have hclasses : a.classes = b.classes := UInt64.toNat_inj.mp (h .classes)
  have hreferences : a.references = b.references := UInt64.toNat_inj.mp (h .references)
  have herrors : a.errors = b.errors := UInt64.toNat_inj.mp (h .errors)
  have htime : a.time = b.time := h .time
  cases a
  cases b
  simp_all

theorem addCounter_eq_ok_iff {a b c : UInt64} : addCounter a b = .ok c ↔
    a.toNat + b.toNat < counterBound ∧ c.toNat = a.toNat + b.toNat := by
  unfold addCounter
  split
  · next hfits =>
    have hsum : (a + b).toNat = a.toNat + b.toNat := by
      rw [UInt64.toNat_add]
      exact Nat.mod_eq_of_lt hfits
    rw [Except.ok.injEq, ← UInt64.toNat_inj, hsum]
    exact ⟨fun h => ⟨hfits, h.symm⟩, fun h => h.2.symm⟩
  · next hover => simp [hover]

theorem addTime_eq_ok_iff {a b c : Nat} : addTime a b = .ok c ↔
    a + b < counterBound * second ∧ c = a + b := by
  unfold addTime
  split
  · next hfits => simp [hfits, eq_comm]
  · next hover => simp [hover]

/-- Two tallies have a sum if every amount fits, and it has the sums of their amounts. -/
theorem add_eq_ok_iff {a b c : Tally} : a.add b = .ok c ↔
    ∀ k, a.amount k + b.amount k < k.bound ∧ c.amount k = a.amount k + b.amount k := by
  unfold add
  simp only [except_bind_eq_ok_iff, addCounter_eq_ok_iff, addTime_eq_ok_iff]
  constructor
  · rintro ⟨_, hartifacts, _, hclasses, _, hreferences, _, herrors, _, htime, h⟩ k
    cases h
    cases k with
    | artifacts => exact hartifacts
    | classes => exact hclasses
    | references => exact hreferences
    | errors => exact herrors
    | time => exact htime
  · intro h
    exact ⟨c.artifacts, h .artifacts, c.classes, h .classes, c.references, h .references,
      c.errors, h .errors, c.time, h .time, rfl⟩

theorem exists_add_eq_ok_iff {a b : Tally} :
    (∃ c, a.add b = .ok c) ↔ ∀ k, a.amount k + b.amount k < k.bound := by
  constructor
  · rintro ⟨c, hc⟩ k
    exact (add_eq_ok_iff.mp hc k).1
  · intro h
    have hartifacts : a.artifacts.toNat + b.artifacts.toNat < counterBound := h .artifacts
    have hclasses : a.classes.toNat + b.classes.toNat < counterBound := h .classes
    have hreferences : a.references.toNat + b.references.toNat < counterBound := h .references
    have herrors : a.errors.toNat + b.errors.toNat < counterBound := h .errors
    have htime : a.time + b.time < counterBound * second := h .time
    unfold add addCounter addTime
    rw [if_pos hartifacts, if_pos hclasses, if_pos hreferences, if_pos herrors, if_pos htime]
    exact ⟨_, rfl⟩

/-- A tally whose time fits can be added to nothing. -/
theorem zero_add {m : Tally} (h : m.time < counterBound * second) : zero.add m = .ok m := by
  rw [add_eq_ok_iff]
  intro k
  have hzero : zero.amount k = 0 := by cases k <;> rfl
  have hfits : m.amount k < k.bound := by
    cases k with
    | time => exact h
    | _ => exact UInt64.toNat_lt _
  rw [hzero, Nat.zero_add]
  exact ⟨hfits, rfl⟩

/-- If two tallies have no sum, some amount does not fit. -/
theorem exists_bound_le_of_add {a b : Tally} {o : Overflow} (h : a.add b = .error o) :
    ∃ k : Counter, k.bound ≤ a.amount k + b.amount k := by
  by_contra hfits
  simp only [not_exists, Nat.not_le] at hfits
  obtain ⟨c, hc⟩ := exists_add_eq_ok_iff.mpr hfits
  rw [h] at hc
  cases hc

end Linkage.Tally
