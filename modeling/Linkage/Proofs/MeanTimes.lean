import Linkage.Audit.Tally

/-!
# The mean time of a check

The time of all checks is divided by the number of artifacts as a 32-bit word, while artifacts are
counted by a word of 64 bits.  So the mean is the exact one as long as the number fits the shorter
word.  Beyond that what is left of the number decides: nothing can be divided by zero, and by
anything else the mean comes out too large, unless there is so little time that both are zero.

* `meanTime_eq`: the mean by the remainder of the number of artifacts.
* `div_lt_div_of_two_mul_le`: dividing by half or less gives more.
* `meanTime_exact_iff`: when the mean is exact, when there is none, and when it is too large.
-/

namespace Linkage.Tally

/-- Time per artifact in nanoseconds, rounded down; zero without artifacts. -/
def exactMean (m : Tally) : Nat :=
  if m.artifacts = 0 then 0 else m.time / m.artifacts.toNat

/-- The number of artifacts as a divisor. -/
def divisor (m : Tally) : Nat :=
  m.artifacts.toNat % 4294967296

/-- Without artifacts the quotient of naturals is zero as well. -/
theorem exactMean_eq (m : Tally) : m.exactMean = m.time / m.artifacts.toNat := by
  unfold exactMean
  split
  · next hnone => simp [hnone]
  · rfl

theorem artifacts_eq_zero_iff (m : Tally) : m.artifacts = 0 ↔ m.artifacts.toNat = 0 :=
  UInt64.toNat_inj.symm

theorem meanTime_eq (m : Tally) : m.meanTime =
    if m.artifacts.toNat = 0 then .ok 0
    else if m.divisor = 0 then .error .zeroDivisor else .ok (m.time / m.divisor) := by
  have hword : m.artifacts.toUInt32.toNat = m.divisor := UInt64.toNat_toUInt32 m.artifacts
  unfold meanTime
  simp only [hword, artifacts_eq_zero_iff]

theorem divisor_of_lt {m : Tally} (h : m.artifacts.toNat < 4294967296) :
    m.divisor = m.artifacts.toNat :=
  Nat.mod_eq_of_lt h

/-- A number that does not fit the word is more than twice what is left of it. -/
theorem two_mul_divisor_le {m : Tally} (h : 4294967296 ≤ m.artifacts.toNat) :
    2 * m.divisor ≤ m.artifacts.toNat := by
  unfold divisor
  omega

/-- Dividing by half or less gives more, if it gives anything. -/
theorem div_lt_div_of_two_mul_le {t n d : Nat} (hd : 0 < d) (hn : 2 * d ≤ n) (ht : d ≤ t) :
    t / n < t / d := by
  have hone : 1 ≤ t / d := (Nat.one_le_div_iff hd).mpr ht
  have hhalf : t / n ≤ t / d / 2 := by
    rw [Nat.div_div_eq_div_mul, Nat.mul_comm]
    exact Nat.div_le_div_left hn (by omega)
  omega

/-! ## The three cases -/

variable {m : Tally}

theorem meanTime_of_fits (h : m.artifacts.toNat < 4294967296) : m.meanTime = .ok m.exactMean := by
  rw [meanTime_eq, exactMean_eq, divisor_of_lt h]
  by_cases hnone : m.artifacts.toNat = 0
  · simp [hnone]
  · rw [if_neg hnone, if_neg hnone]

theorem meanTime_of_multiple (h : 4294967296 ≤ m.artifacts.toNat) (hd : m.divisor = 0) :
    m.meanTime = .error .zeroDivisor := by
  rw [meanTime_eq, if_neg (by omega), if_pos hd]

theorem meanTime_of_remainder (h : 4294967296 ≤ m.artifacts.toNat) (hd : 0 < m.divisor) :
    m.meanTime = .ok (m.time / m.divisor) := by
  rw [meanTime_eq, if_neg (by omega), if_neg (by omega)]

/-- By what is left of a number that does not fit, less time than that is divided as it should be
and any other gives too much. -/
theorem exactMean_of_remainder (h : 4294967296 ≤ m.artifacts.toNat) (hd : 0 < m.divisor) :
    if m.time < m.divisor then m.exactMean = m.time / m.divisor
    else m.exactMean < m.time / m.divisor := by
  have htwice := two_mul_divisor_le h
  rw [exactMean_eq]
  split
  · next htime => rw [Nat.div_eq_of_lt htime, Nat.div_eq_of_lt (by omega)]
  · next htime => exact div_lt_div_of_two_mul_le hd htwice (Nat.le_of_not_lt htime)

/-- The mean is exact if the number of artifacts fits a 32-bit word, or the time is less than what
is left of that number.  There is none if nothing is left of a number that is not zero.  In all
other cases it is too large. -/
theorem meanTime_exact_iff (m : Tally) :
    (m.meanTime = .ok m.exactMean ↔ m.artifacts.toNat < 4294967296 ∨ m.time < m.divisor)
      ∧ (m.meanTime = .error .zeroDivisor ↔ m.artifacts ≠ 0 ∧ m.divisor = 0)
      ∧ ((∃ t, m.meanTime = .ok t ∧ m.exactMean < t) ↔
        4294967296 ≤ m.artifacts.toNat ∧ 0 < m.divisor ∧ m.divisor ≤ m.time) := by
  rw [ne_eq, artifacts_eq_zero_iff]
  by_cases hfits : m.artifacts.toNat < 4294967296
  · have hdivisor := divisor_of_lt hfits
    simp [meanTime_of_fits hfits, hfits, hdivisor, Nat.not_le.mpr hfits]
  have hlarge : 4294967296 ≤ m.artifacts.toNat := Nat.le_of_not_lt hfits
  by_cases hd : m.divisor = 0
  · have hsome : m.artifacts.toNat ≠ 0 := by omega
    simp [meanTime_of_multiple hlarge hd, hfits, hd, hsome]
  have hpos : 0 < m.divisor := Nat.pos_of_ne_zero hd
  have hmean := exactMean_of_remainder hlarge hpos
  rw [meanTime_of_remainder hlarge hpos]
  by_cases htime : m.time < m.divisor
  · rw [if_pos htime] at hmean
    simp [hmean, htime, hd]
  · rw [if_neg htime] at hmean
    simp [htime, hfits, hd, hmean, hlarge, hpos, Nat.le_of_not_lt htime, Nat.ne_of_gt hmean]

/-- After 4294967296 artifacts there is no mean, although no time has been spent.  After one more
all the time spent is taken for the mean. -/
theorem meanTime_narrowed :
    (⟨4294967296, 0, 0, 0, 0⟩ : Tally).exactMean = 0
      ∧ (⟨4294967296, 0, 0, 0, 0⟩ : Tally).meanTime = .error .zeroDivisor
      ∧ (⟨4294967297, 0, 0, 0, 8589934594⟩ : Tally).exactMean = 2
      ∧ (⟨4294967297, 0, 0, 0, 8589934594⟩ : Tally).meanTime = .ok 8589934594 :=
  ⟨rfl, rfl, rfl, rfl⟩

end Linkage.Tally
