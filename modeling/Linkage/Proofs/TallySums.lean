import Linkage.Proofs.Tallies
import Mathlib.Algebra.BigOperators.Group.List.Basic
import Mathlib.Algebra.GroupWithZero.Nat

/-!
# Adding up any number of tallies

Each addition of two tallies looks whether their sums fit.  Amounts only grow, so a sum on the way
that does not fit leaves a total that does not either: adding tallies one after the other is the
same as looking once at the totals of all of them.  Totals do not depend on the order, so neither
does what comes of the additions.

The time has to fit for this.  If neither it nor some other amount does, the order decides which of
them is met first.

* `ofAmounts`: the tally with given amounts, each looked at once.
* `add_eq_ofAmounts`: one addition.
* `foldlM_add_eq_ofAmounts`: any number of them.
* `foldlM_add_exact`: when tallies have a sum, which it is, and that the order does not matter.
-/

namespace Linkage.Tally

/-! ## Amounts that fit their words -/

/-- What is counted by a word: everything but the time. -/
def words : List Counter := [.artifacts, .classes, .references, .errors]

theorem mem_words_or_eq_time (k : Counter) : k ∈ words ∨ k = .time := by
  cases k <;> simp [words]

theorem bound_of_mem_words {k : Counter} (h : k ∈ words) : k.bound = counterBound := by
  cases k with
  | time => simp [words] at h
  | _ => rfl

/-- The tally with given amounts, if the words hold them. -/
def ofAmounts (n : Counter → Nat) : Except Overflow Tally :=
  if ∀ k ∈ words, n k < counterBound then
    .ok ⟨.ofNat (n .artifacts), .ofNat (n .classes), .ofNat (n .references), .ofNat (n .errors),
      n .time⟩
  else .error .counter

section

variable {n : Counter → Nat}

theorem ofAmounts_of_over {k : Counter} (hk : k ∈ words) (hover : counterBound ≤ n k) :
    ofAmounts n = .error .counter :=
  if_neg fun hfits => Nat.not_lt.mpr hover (hfits k hk)

theorem exists_ofAmounts_of_fits (h : ∀ k ∈ words, n k < counterBound) :
    ∃ m, ofAmounts n = .ok m ∧ ∀ k, m.amount k = n k := by
  have hword : ∀ k ∈ words, (UInt64.ofNat (n k)).toNat = n k :=
    fun k hk => UInt64.toNat_ofNat_of_lt (h k hk)
  refine ⟨_, if_pos h, fun k => ?_⟩
  cases k with
  | time => rfl
  | _ => exact hword _ (by simp [words])

/-- If the amounts of a tally are the given ones, it is the one they make. -/
theorem ofAmounts_of_amount {m : Tally} (h : ∀ k, m.amount k = n k)
    (hfits : ∀ k ∈ words, n k < counterBound) : ofAmounts n = .ok m := by
  obtain ⟨m', hm', hamount⟩ := exists_ofAmounts_of_fits hfits
  have hsame : m' = m := ext_amount fun k => (hamount k).trans (h k).symm
  rw [hm', hsame]

theorem exists_ofAmounts_eq_error_iff :
    (∃ o, ofAmounts n = .error o) ↔ ∃ k ∈ words, counterBound ≤ n k := by
  constructor
  · rintro ⟨o, ho⟩
    by_contra hfits
    simp only [not_exists, not_and, Nat.not_le] at hfits
    obtain ⟨m, hm, -⟩ := exists_ofAmounts_of_fits hfits
    rw [ho] at hm
    cases hm
  · rintro ⟨k, hk, hover⟩
    exact ⟨_, ofAmounts_of_over hk hover⟩

end

/-- What a word holds fits it. -/
theorem amount_lt_counterBound (m : Tally) {k : Counter} (hk : k ∈ words) :
    m.amount k < counterBound := by
  cases k with
  | time => simp [words] at hk
  | _ => exact UInt64.toNat_lt _

/-! ## One addition -/

variable {a b : Tally}

theorem addCounter_ne_duration (x y : UInt64) : addCounter x y ≠ .error .duration := by
  unfold addCounter
  split <;> simp

theorem addTime_ne_error {x y : Nat} (h : x + y < counterBound * second) (o : Overflow) :
    addTime x y ≠ .error o := by
  simp [addTime, h]

/-- If the time fits, it is not what keeps two tallies from having a sum. -/
theorem add_ne_duration (h : a.amount .time + b.amount .time < Counter.bound .time) :
    a.add b ≠ .error .duration := by
  have htime : ∀ o, addTime a.time b.time ≠ .error o := addTime_ne_error h
  intro hadd
  unfold add at hadd
  simp only [except_bind_eq_error_iff, addCounter_ne_duration, htime, false_or] at hadd
  obtain ⟨_, -, _, -, _, -, _, -, _, -, hadd⟩ := hadd
  cases hadd

/-- Adding two tallies is making one of the sums of their amounts, if the time fits. -/
theorem add_eq_ofAmounts (h : a.amount .time + b.amount .time < Counter.bound .time) :
    a.add b = ofAmounts fun k => a.amount k + b.amount k := by
  cases hadd : a.add b with
  | ok sum =>
    rw [add_eq_ok_iff] at hadd
    exact (ofAmounts_of_amount (fun k => (hadd k).2)
      fun k hk => bound_of_mem_words hk ▸ (hadd k).1).symm
  | error o =>
    cases o with
    | duration => exact absurd hadd (add_ne_duration h)
    | counter =>
      obtain ⟨k, hover⟩ := exists_bound_le_of_add hadd
      obtain hk | rfl := mem_words_or_eq_time k
      · rw [bound_of_mem_words hk] at hover
        exact (ofAmounts_of_over (n := fun k => a.amount k + b.amount k) hk hover).symm
      · exact absurd h (Nat.not_lt.mpr hover)

/-! ## Any number of additions -/

/-- How much of something there is in a tally and in those to be added to it. -/
def total (start : Tally) (ms : List Tally) (k : Counter) : Nat :=
  start.amount k + (ms.map (·.amount k)).sum

variable {start : Tally} {ms : List Tally}

theorem total_nil (start : Tally) : total start [] = start.amount :=
  funext fun _ => rfl

theorem total_cons (start m : Tally) (ms : List Tally) (k : Counter) :
    total start (m :: ms) k = start.amount k + m.amount k + (ms.map (·.amount k)).sum := by
  rw [total, List.map_cons, List.sum_cons, Nat.add_assoc]

theorem total_perm {ms' : List Tally} (h : ms.Perm ms') : total start ms' = total start ms :=
  funext fun k => congrArg (start.amount k + ·) (h.map (·.amount k)).sum_eq.symm

/-- Adding tallies one after the other is making one of the totals, if the time fits. -/
theorem foldlM_add_eq_ofAmounts (h : total start ms .time < Counter.bound .time) :
    ms.foldlM add start = ofAmounts (total start ms) := by
  induction ms generalizing start with
  | nil =>
    rw [total_nil]
    exact (ofAmounts_of_amount (fun _ => rfl) fun k hk => start.amount_lt_counterBound hk).symm
  | cons m ms ih =>
    have htime : start.amount .time + m.amount .time < Counter.bound .time := by
      rw [total_cons] at h
      exact Nat.lt_of_le_of_lt (Nat.le_add_right _ _) h
    rw [List.foldlM_cons, add_eq_ofAmounts htime]
    by_cases hfits : ∀ k ∈ words, start.amount k + m.amount k < counterBound
    · -- What has been added moves into the start, and the totals stay as they are.
      obtain ⟨sum, hsum, hamount⟩ := exists_ofAmounts_of_fits hfits
      have htotal : total sum ms = total start (m :: ms) :=
        funext fun k => by rw [total_cons, total, hamount]
      rw [hsum, ← htotal]
      rw [← htotal] at h
      exact ih h
    · -- What does not fit here is part of a total.
      simp only [not_forall, Nat.not_lt] at hfits
      obtain ⟨k, hk, hover⟩ := hfits
      have htotal : counterBound ≤ total start (m :: ms) k := by
        rw [total_cons]
        exact Nat.le_add_right_of_le hover
      rw [ofAmounts_of_over hk htotal, ofAmounts_of_over hk hover]
      rfl

/-- Tallies whose times have a sum that fits are added one after the other.  This fails if and only
if the total of some counter does not fit its word; otherwise it gives the totals.  Either way the
same comes of it in any order. -/
theorem foldlM_add_exact (h : total start ms .time < Counter.bound .time) :
    ((∃ o, ms.foldlM add start = .error o) ↔ ∃ k ∈ words, counterBound ≤ total start ms k)
      ∧ ((∀ k ∈ words, total start ms k < counterBound) →
        ∃ sum, ms.foldlM add start = .ok sum ∧ ∀ k, sum.amount k = total start ms k)
      ∧ ∀ ms', ms.Perm ms' → ms'.foldlM add start = ms.foldlM add start := by
  rw [foldlM_add_eq_ofAmounts h]
  refine ⟨exists_ofAmounts_eq_error_iff, exists_ofAmounts_of_fits, fun ms' hperm => ?_⟩
  have htotal : total start ms' = total start ms := total_perm hperm
  rw [← htotal] at h ⊢
  exact foldlM_add_eq_ofAmounts h

/-- Checks that leave no room for another artifact. -/
def brimful : List Tally :=
  [⟨1, 5, 10, 3, 10000000⟩, ⟨18446744073709551613, 0, 0, 0, 0⟩]

/-- Taken backwards they still fit, and with one artifact more they do not. -/
theorem foldlM_add_exact_brimful :
    total ⟨1, 10, 40, 2, 30000000⟩ brimful .time < Counter.bound .time
      ∧ brimful.reverse.foldlM add ⟨1, 10, 40, 2, 30000000⟩
        = .ok ⟨18446744073709551615, 15, 50, 5, 40000000⟩
      ∧ ∃ o, (⟨1, 0, 0, 0, 0⟩ :: brimful).foldlM add ⟨1, 10, 40, 2, 30000000⟩ = .error o := by
  have hbrimful : total ⟨1, 10, 40, 2, 30000000⟩ brimful .time < Counter.bound .time := by decide
  have hmore : total ⟨1, 10, 40, 2, 30000000⟩ (⟨1, 0, 0, 0, 0⟩ :: brimful) .time
      < Counter.bound .time := by decide
  obtain ⟨-, -, hperm⟩ := foldlM_add_exact hbrimful
  obtain ⟨hover, -⟩ := foldlM_add_exact hmore
  exact ⟨hbrimful, hperm _ brimful.reverse_perm.symm,
    hover.mpr ⟨.artifacts, List.mem_cons_self, by decide⟩⟩

-- Where the time does not fit either, what is met first is a matter of order.
example : [⟨1, 0, 0, 0, 0⟩, ⟨0, 0, 0, 0, 1⟩].foldlM add
      ⟨18446744073709551615, 0, 0, 0, 18446744073709551615999999999⟩ = .error .counter
    ∧ [⟨0, 0, 0, 0, 1⟩, ⟨1, 0, 0, 0, 0⟩].foldlM add
      ⟨18446744073709551615, 0, 0, 0, 18446744073709551615999999999⟩ = .error .duration :=
  ⟨rfl, rfl⟩

end Linkage.Tally
