import Mathlib.Data.List.Forall2
import Linkage.ClassFile.Encode

/-!
# What a reading step accepts

A reading step accepts a set of byte strings, those it can consume whole, and gives each a value.
This file says for every step of `Scan` which ones, as an equivalence between "the step succeeds
and leaves `rest`" and "the input is a written form followed by `rest`".

* `ofWord_toWord`, `toWord_ofWord` and their twins for four bytes: words and their bytes.
* `word_eq_ok_iff`, `slice_eq_ok_iff`, ...: the steps that look at bytes.
* `bind_eq_ok_iff`, `lift_eq_ok_iff`: steps in sequence, and checks that consume nothing.
* `Reads`: a step that accepts the written forms of a syntax, with `Reads.counted` for tables.
-/

namespace Linkage

/-! ## Words and their bytes -/

namespace Bytes

theorem ofWord_toWord (a b : UInt8) : ofWord (toWord a b) = [a, b] := by
  have high : ((a.toUInt16 <<< 8 ||| b.toUInt16) >>> 8).toUInt8 = a := by
    apply UInt8.eq_of_toBitVec_eq
    ext i hi
    simp
    grind
  have low : (a.toUInt16 <<< 8 ||| b.toUInt16).toUInt8 = b := by
    apply UInt8.eq_of_toBitVec_eq
    ext i hi
    simp
  unfold ofWord toWord
  rw [high, low]

theorem toWord_ofWord (w : UInt16) : toWord (w >>> 8).toUInt8 w.toUInt8 = w := by
  unfold toWord
  apply UInt16.eq_of_toBitVec_eq
  ext i hi
  simp [-UInt16.toUInt16_toUInt8]
  grind

theorem ofDoubleWord_toDoubleWord (a b c d : UInt8) :
    ofDoubleWord (toDoubleWord a b c d) = [a, b, c, d] := by
  unfold ofDoubleWord toDoubleWord
  simp only [List.cons.injEq, and_true]
  refine ⟨?_, ?_, ?_, ?_⟩ <;> apply UInt8.eq_of_toBitVec_eq <;> ext i hi
  · simp
    grind
  · simp
    grind
  · simp
    grind
  · simp

theorem toDoubleWord_ofDoubleWord (w : UInt32) :
    toDoubleWord (w >>> 24).toUInt8 (w >>> 16).toUInt8 (w >>> 8).toUInt8 w.toUInt8 = w := by
  unfold toDoubleWord
  apply UInt32.eq_of_toBitVec_eq
  ext i hi
  simp [-UInt32.toUInt32_toUInt8]
  grind

/-- Any two bytes are a word. -/
theorem exists_eq_ofWord {s : Bytes} (h : s.length = 2) : ∃ w, s = ofWord w := by
  match s, h with
  | [a, b], _ => exact ⟨toWord a b, (ofWord_toWord a b).symm⟩

/-- Any four bytes are a word of twice the size. -/
theorem exists_eq_ofDoubleWord {s : Bytes} (h : s.length = 4) : ∃ w, s = ofDoubleWord w := by
  match s, h with
  | [a, b, c, d], _ => exact ⟨toDoubleWord a b c d, (ofDoubleWord_toDoubleWord a b c d).symm⟩

/-- Any four bytes are two words. -/
theorem exists_eq_ofWord_append {s : Bytes} (h : s.length = 4) :
    ∃ v w, s = ofWord v ++ ofWord w := by
  match s, h with
  | [a, b, c, d], _ =>
    refine ⟨toWord a b, toWord c d, ?_⟩
    rw [ofWord_toWord, ofWord_toWord]
    rfl

theorem splitExactly_eq_some_iff {n : Nat} {s taken rest : Bytes} :
    splitExactly n s = some (taken, rest) ↔ s = taken ++ rest ∧ taken.length = n := by
  induction n generalizing s taken with
  | zero =>
    constructor
    · intro h
      obtain ⟨rfl, rfl⟩ : [] = taken ∧ s = rest := by simpa [splitExactly] using h
      exact ⟨rfl, rfl⟩
    · rintro ⟨rfl, h⟩
      rw [List.length_eq_zero_iff.mp h]
      rfl
  | succ n ih =>
    cases s with
    | nil =>
      refine ⟨fun h => by simp [splitExactly] at h, ?_⟩
      rintro ⟨h, hlength⟩
      obtain ⟨rfl, -⟩ := List.append_eq_nil_iff.mp h.symm
      simp at hlength
    | cons b s =>
      simp only [splitExactly, Option.map_eq_some_iff, Prod.exists, Prod.mk.injEq]
      constructor
      · rintro ⟨front, back, h, rfl, rfl⟩
        obtain ⟨rfl, hlength⟩ := ih.mp h
        exact ⟨rfl, by simp [hlength]⟩
      · rintro ⟨h, hlength⟩
        cases taken with
        | nil => simp at hlength
        | cons c front =>
          obtain ⟨rfl, hs⟩ := List.cons.inj h
          exact ⟨front, rest, ih.mpr ⟨hs, by simpa using hlength⟩, rfl, rfl⟩

theorem dropExactly_eq_map (n : Nat) (s : Bytes) :
    dropExactly n s = (splitExactly n s).map Prod.snd := by
  induction n generalizing s with
  | zero => rfl
  | succ n ih =>
    cases s with
    | nil => rfl
    | cons b s => simp [dropExactly, splitExactly, ih, Function.comp_def]

end Bytes

namespace ClassFile.Scan

variable {α β : Type} {s rest : Bytes}

/-! ## Steps that look at bytes -/

theorem byte_eq_ok_iff {b : UInt8} : byte s = .ok (b, rest) ↔ s = b :: rest := by
  cases s <;> simp [byte]

theorem word_eq_ok_iff {w : UInt16} : word s = .ok (w, rest) ↔ s = Bytes.ofWord w ++ rest := by
  match s with
  | [] => simp [word, Bytes.ofWord]
  | [a] => simp [word, Bytes.ofWord]
  | a :: b :: s =>
    simp only [word, Except.ok.injEq, Prod.mk.injEq]
    constructor
    · rintro ⟨rfl, rfl⟩
      rw [Bytes.ofWord_toWord]
      rfl
    · intro h
      obtain ⟨rfl, rfl, rfl⟩ : a = _ ∧ b = _ ∧ s = rest := by simpa [Bytes.ofWord] using h
      exact ⟨Bytes.toWord_ofWord w, rfl⟩

theorem doubleWord_eq_ok_iff {w : UInt32} :
    doubleWord s = .ok (w, rest) ↔ s = Bytes.ofDoubleWord w ++ rest := by
  match s with
  | [] => simp [doubleWord, Bytes.ofDoubleWord]
  | [a] => simp [doubleWord, Bytes.ofDoubleWord]
  | [a, b] => simp [doubleWord, Bytes.ofDoubleWord]
  | [a, b, c] => simp [doubleWord, Bytes.ofDoubleWord]
  | a :: b :: c :: d :: s =>
    simp only [doubleWord, Except.ok.injEq, Prod.mk.injEq]
    constructor
    · rintro ⟨rfl, rfl⟩
      rw [Bytes.ofDoubleWord_toDoubleWord]
      rfl
    · intro h
      obtain ⟨rfl, rfl, rfl, rfl, rfl⟩ : a = _ ∧ b = _ ∧ c = _ ∧ d = _ ∧ s = rest := by
        simpa [Bytes.ofDoubleWord] using h
      exact ⟨Bytes.toDoubleWord_ofDoubleWord w, rfl⟩

theorem slice_eq_ok_iff {n : Nat} {taken : Bytes} :
    slice n s = .ok (taken, rest) ↔ s = taken ++ rest ∧ taken.length = n := by
  rw [← Bytes.splitExactly_eq_some_iff]
  unfold slice
  split <;> simp_all

theorem skip_eq_ok_iff {n : Nat} {u : Unit} :
    skip n s = .ok (u, rest) ↔ ∃ taken, s = taken ++ rest ∧ taken.length = n := by
  have hsplit : (∃ taken, s = taken ++ rest ∧ taken.length = n)
      ↔ Bytes.dropExactly n s = some rest := by
    rw [Bytes.dropExactly_eq_map, Option.map_eq_some_iff]
    simp only [Prod.exists, exists_eq_right, Bytes.splitExactly_eq_some_iff]
  rw [hsplit]
  unfold skip
  split <;> simp_all

/-! ## Steps in sequence -/

theorem pure_eq_ok_iff {a b : α} : (pure a : Scan α) s = .ok (b, rest) ↔ a = b ∧ s = rest := by
  show Except.ok (a, s) = _ ↔ _
  simp

theorem bind_eq_ok_iff {x : Scan α} {f : α → Scan β} {b : β} :
    (x >>= f) s = .ok (b, rest) ↔ ∃ a mid, x s = .ok (a, mid) ∧ f a mid = .ok (b, rest) := by
  show (x s >>= fun p => f p.1 p.2) = _ ↔ _
  cases x s with
  | error fault => simp [bind, Except.bind]
  | ok p => obtain ⟨a, mid⟩ := p; simp [bind, Except.bind]

/-- A check that consumes nothing. -/
theorem lift_eq_ok_iff {x : Except Fault α} {a : α} :
    (liftM x : Scan α) s = .ok (a, rest) ↔ x = .ok a ∧ s = rest := by
  show (x >>= fun a => Except.ok (a, s)) = _ ↔ _
  cases x <;> simp [bind, Except.bind]

theorem throw_ne_ok {fault : Fault} {a : α} :
    (throw fault : Scan α) s ≠ .ok (a, rest) := by
  intro h
  cases h

theorem one_word_eq_ok_iff {f : UInt16 → α} {a : α} :
    (do return f (← word) : Scan α) s = .ok (a, rest) ↔
      ∃ w, s = Bytes.ofWord w ++ rest ∧ f w = a := by
  simp only [bind_eq_ok_iff, word_eq_ok_iff, pure_eq_ok_iff]
  constructor
  · rintro ⟨w, mid, rfl, rfl, rfl⟩
    exact ⟨w, rfl, rfl⟩
  · rintro ⟨w, rfl, rfl⟩
    exact ⟨w, rest, rfl, rfl, rfl⟩

theorem two_words_eq_ok_iff {f : UInt16 → UInt16 → α} {a : α} :
    (do return f (← word) (← word) : Scan α) s = .ok (a, rest) ↔
      ∃ v w, s = Bytes.ofWord v ++ Bytes.ofWord w ++ rest ∧ f v w = a := by
  simp only [bind_eq_ok_iff, word_eq_ok_iff, pure_eq_ok_iff]
  constructor
  · rintro ⟨v, _, rfl, w, _, rfl, rfl, rfl⟩
    exact ⟨v, w, by rw [List.append_assoc], rfl⟩
  · rintro ⟨v, w, rfl, rfl⟩
    exact ⟨v, _, List.append_assoc .., w, rest, rfl, rfl, rfl⟩

theorem skip_return_eq_ok_iff {n : Nat} {a b : α} :
    (do skip n; return a : Scan α) s = .ok (b, rest) ↔
      ∃ taken, taken.length = n ∧ s = taken ++ rest ∧ a = b := by
  simp only [bind_eq_ok_iff, skip_eq_ok_iff, pure_eq_ok_iff]
  constructor
  · rintro ⟨_, _, ⟨taken, rfl, hlength⟩, rfl, rfl⟩
    exact ⟨taken, hlength, rfl, rfl⟩
  · rintro ⟨taken, hlength, rfl, rfl⟩
    exact ⟨(), rest, ⟨taken, rfl, hlength⟩, rfl, rfl⟩

/-! ## Steps that read a syntax -/

/-- The step accepts exactly the written forms of `ρ`, and gives each form the values it means. -/
def Reads {ρ : Type} (step : Scan α) (written : ρ → Bytes) (means : ρ → α → Prop) : Prop :=
  ∀ s a rest, step s = .ok (a, rest) ↔ ∃ r, s = written r ++ rest ∧ means r a

variable {ρ : Type} {step : Scan α} {written : ρ → Bytes} {means : ρ → α → Prop}

/-- The induction is on the number of repetitions; the rest of the input stays open. -/
theorem Reads.times (h : Reads step written means) (n : Nat) {as : List α} :
    times step n s = .ok (as, rest) ↔
      ∃ rs : List ρ, rs.length = n ∧ s = rs.flatMap written ++ rest ∧ List.Forall₂ means rs as := by
  induction n generalizing s as rest with
  | zero =>
    simp only [Scan.times, pure_eq_ok_iff, List.length_eq_zero_iff, exists_eq_left,
      List.flatMap_nil, List.nil_append, List.forall₂_nil_left_iff]
    rw [and_comm, eq_comm (a := [])]
  | succ n ih =>
    simp only [Scan.times, bind_eq_ok_iff, pure_eq_ok_iff, h _ _ _, ih]
    constructor
    · rintro ⟨a, mid, ⟨r, rfl, hr⟩, as, end_, ⟨rs, rfl, rfl, hrs⟩, rfl, rfl⟩
      exact ⟨r :: rs, rfl, by simp, .cons hr hrs⟩
    · rintro ⟨rs, hlength, rfl, hrs⟩
      cases hrs with
      | nil => simp at hlength
      | @cons r a rs as hr hrs =>
        refine ⟨a, rs.flatMap written ++ rest, ⟨r, by simp, hr⟩, as, rest, ?_, rfl, rfl⟩
        exact ⟨rs, by simpa using hlength, rfl, hrs⟩

/-- A table is a count and as many rows. -/
theorem Reads.counted (h : Reads step written means) {as : List α} :
    counted step s = .ok (as, rest) ↔
      ∃ rs : List ρ, rs.length < 65536 ∧ s = countedBytes written rs ++ rest
        ∧ List.Forall₂ means rs as := by
  simp only [Scan.counted, bind_eq_ok_iff, word_eq_ok_iff, h.times]
  constructor
  · rintro ⟨w, mid, rfl, rs, hlength, rfl, hrs⟩
    refine ⟨rs, ?_, ?_, hrs⟩
    · rw [hlength]
      exact w.toNat_lt
    · rw [countedBytes, wordOf, hlength, UInt16.ofNat_toNat, List.append_assoc]
  · rintro ⟨rs, hlength, rfl, hrs⟩
    refine ⟨UInt16.ofNat rs.length, rs.flatMap written ++ rest, ?_, rs, ?_, rfl, hrs⟩
    · rw [countedBytes, wordOf, List.append_assoc]
    · exact (UInt16.toNat_ofNat_of_lt' hlength).symm

end ClassFile.Scan

end Linkage
