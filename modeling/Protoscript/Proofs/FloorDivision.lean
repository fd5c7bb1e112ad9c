import Mathlib.Data.Rat.Floor
import Protoscript.Operator

/-! # Division rounds down

The quotient of two integers is the greatest integer that is not above the exact quotient; only
that of the smallest integer and -1 is out of range, and wraps.  `toInt_corrected`: where one is
taken off the truncated quotient, that does not leave the range.  `toInt_floorRemainder`: what the
quotient leaves of the dividend, computed with wrapping products and differences, is the remainder
of the integers, so it lies between zero and the divisor. -/

set_option autoImplicit false

namespace Protoscript

/-- The quotient as a rational number. -/
def exactQuotient (a b : Int64) : ℚ := a.toInt / b.toInt

/-- What is left of `a` when the quotient times `b` is taken away. -/
def floorRemainder (a b : Int64) : Int64 := a - b * floorDiv a b

/-- The truncated quotient lies above the exact one: there is a remainder, and the signs differ. -/
def Overshoots (a b : Int64) : Prop := a % b ≠ 0 ∧ decide (a < 0) ≠ decide (b < 0)

/-! ## Quotients and remainders of integers -/

/-- The quotient rounded down lies below the truncated one where this is not exact and the signs
differ. -/
theorem fdiv_eq_tdiv_sub (a : Int) {b : Int} (nonzero : b ≠ 0) :
    a.fdiv b = a.tdiv b - if ¬ b ∣ a ∧ decide (a < 0) ≠ decide (b < 0) then 1 else 0 := by
  rw [Int.fdiv_eq_tdiv]
  congr 1
  by_cases dvd : b ∣ a
  · rw [if_pos dvd, if_neg fun both => both.1 dvd]
  rw [if_neg dvd]
  rcases Int.lt_or_gt_of_ne nonzero with negative | positive
  · rw [Int.sign_eq_neg_one_of_neg negative, if_neg (Int.not_le.mpr negative),
      if_neg (Int.not_le.mpr negative)]
    by_cases least : 0 ≤ a
    · simp [dvd, negative, least, Int.not_lt.mpr least]
    · simp [dvd, negative, least, Int.not_le.mp least]
  · have atLeast : 0 ≤ b := Int.le_of_lt positive
    rw [Int.sign_eq_one_of_pos positive, if_pos atLeast, if_pos atLeast]
    by_cases least : 0 ≤ a
    · simp [least, Int.not_lt.mpr least, Int.not_lt.mpr atLeast]
    · simp [dvd, least, Int.not_le.mp least, Int.not_lt.mpr atLeast]

theorem fdiv_eq_floor (a : Int) {b : Int} (nonzero : b ≠ 0) : a.fdiv b = ⌊(a : ℚ) / b⌋ := by
  have rounded : ∀ (a : Int) {b : Int}, 0 < b → a.fdiv b = ⌊(a : ℚ) / b⌋ := by
    intro a b positive
    lift b to Nat using Int.le_of_lt positive
    rw [Int.fdiv_eq_ediv_of_nonneg a (Int.natCast_nonneg b), Int.cast_natCast,
      Rat.floor_intCast_div_natCast]
  rcases Int.lt_or_gt_of_ne nonzero with negative | positive
  · have flipped := rounded (-a) (Int.neg_pos_of_neg negative)
    rwa [Int.neg_fdiv_neg, Int.cast_neg, Int.cast_neg, neg_div_neg_eq] at flipped
  · exact rounded a positive

/-- Only the smallest integer divided by -1 leaves the range. -/
theorem fdiv_inRange {a b : Int} (least : -2 ^ 63 ≤ a) (most : a < 2 ^ 63) (nonzero : b ≠ 0)
    (inRange : a ≠ -2 ^ 63 ∨ b ≠ -1) : -2 ^ 63 ≤ a.fdiv b ∧ a.fdiv b < 2 ^ 63 := by
  have bounds : ∀ {a b : Int}, 0 < b → -2 ^ 63 * b ≤ a → a < 2 ^ 63 * b →
      -2 ^ 63 ≤ a.fdiv b ∧ a.fdiv b < 2 ^ 63 := by
    intro a b positive low high
    rw [Int.fdiv_eq_ediv_of_nonneg a (Int.le_of_lt positive)]
    exact ⟨Int.le_ediv_of_mul_le positive low, Int.ediv_lt_of_lt_mul positive high⟩
  rcases Int.lt_or_gt_of_ne nonzero with negative | positive
  · rw [← Int.neg_fdiv_neg]
    exact bounds (by omega) (by omega) (by omega)
  · exact bounds positive (by omega) (by omega)

/-- A remainder that is not zero has the sign of the divisor and is smaller. -/
theorem fmod_between (a : Int) {b : Int} (nonzero : b ≠ 0) :
    a.fmod b = 0 ∨ (a.fmod b).sign = b.sign ∧ (a.fmod b).natAbs < b.natAbs := by
  have between : ∀ (a : Int) {b : Int}, 0 < b →
      a.fmod b = 0 ∨ (a.fmod b).sign = b.sign ∧ (a.fmod b).natAbs < b.natAbs := by
    intro a b positive
    have least := Int.fmod_nonneg_of_pos a positive
    have most := Int.fmod_lt_of_pos a positive
    rcases Int.lt_or_eq_of_le least with above | zero
    · rw [Int.sign_eq_one_of_pos above, Int.sign_eq_one_of_pos positive]
      exact .inr ⟨rfl, by omega⟩
    · exact .inl zero.symm
  rcases Int.lt_or_gt_of_ne nonzero with negative | positive
  · have flipped := between (-a) (Int.neg_pos_of_neg negative)
    rwa [Int.neg_fmod_neg, Int.neg_eq_zero, Int.sign_neg, Int.sign_neg, Int.neg_inj,
      Int.natAbs_neg, Int.natAbs_neg] at flipped
  · exact between a positive

/-! ## Quotients and remainders in 64 bits -/

section

variable {a b : Int64}

theorem toInt_ne_zero (nonzero : b ≠ 0) : b.toInt ≠ 0 :=
  fun zero => nonzero (Int64.toInt_inj.mp (zero.trans Int64.toInt_zero.symm))

theorem extreme_iff : a = Int64.minValue ∧ b = -1 ↔ a.toInt = -2 ^ 63 ∧ b.toInt = -1 := by
  rw [← Int64.toInt_inj, ← Int64.toInt_inj, Int64.toInt_minValue]
  exact Iff.rfl

theorem overshoots_iff :
    Overshoots a b ↔ ¬ b.toInt ∣ a.toInt ∧ decide (a.toInt < 0) ≠ decide (b.toInt < 0) := by
  have negative : ∀ c : Int64, decide (c < 0) = decide (c.toInt < 0) := by
    intro c
    rw [decide_eq_decide, Int64.lt_iff_toInt_lt, Int64.toInt_zero]
  rw [Overshoots, negative, negative, ne_eq, ← Int64.toInt_inj, Int64.toInt_mod, Int64.toInt_zero,
    Int.dvd_iff_tmod_eq_zero]

theorem floorDiv_of_overshoots (overshoots : Overshoots a b) : floorDiv a b = a / b - 1 :=
  if_pos overshoots

theorem floorDiv_of_not_overshoots (exact : ¬ Overshoots a b) : floorDiv a b = a / b :=
  if_neg exact

/-- The quotient is that of the integers rounded down. -/
theorem toInt_floorDiv (a : Int64) {b : Int64} (nonzero : b.toInt ≠ 0) :
    (floorDiv a b).toInt = (a.toInt.fdiv b.toInt).bmod (2 ^ 64) := by
  have one : (1 : Int64).toInt = 1 := by decide
  rw [fdiv_eq_tdiv_sub _ nonzero]
  by_cases overshoots : Overshoots a b
  · rw [floorDiv_of_overshoots overshoots, if_pos (overshoots_iff.mp overshoots),
      Int64.toInt_sub, Int64.toInt_div, one, Int.bmod_sub_bmod]
  · rw [floorDiv_of_not_overshoots overshoots, if_neg (mt overshoots_iff.mpr overshoots),
      Int64.toInt_div, Int.sub_zero]

example : floorDiv (-7) 2 = -4 := by decide

theorem toInt_floorDiv_of_inRange (nonzero : b ≠ 0)
    (inRange : ¬ (a = Int64.minValue ∧ b = -1)) :
    (floorDiv a b).toInt = a.toInt.fdiv b.toInt := by
  have divisor := toInt_ne_zero nonzero
  obtain ⟨least, most⟩ := fdiv_inRange a.le_toInt a.toInt_lt divisor
    (not_and_or.mp (mt extreme_iff.mpr inRange))
  rw [toInt_floorDiv a divisor, Int.bmod_eq_of_le (by omega) (by omega)]

/-- Where one is taken off the truncated quotient, that does not leave the range. -/
theorem toInt_corrected (nonzero : b ≠ 0) (overshoots : Overshoots a b) :
    (a / b - 1).toInt = (a / b).toInt - 1 := by
  obtain ⟨inexact, -⟩ := overshoots_iff.mp overshoots
  have divisor : b ≠ -1 := by
    rintro rfl
    exact inexact (Int.neg_dvd.mpr (one_dvd _))
  rw [← floorDiv_of_overshoots overshoots,
    toInt_floorDiv_of_inRange nonzero fun extreme => divisor extreme.2,
    fdiv_eq_tdiv_sub _ (toInt_ne_zero nonzero), if_pos (overshoots_iff.mp overshoots),
    Int64.toInt_div_of_ne_right a b divisor]

/-- The remainder is that of the integers, also where the quotient wraps. -/
theorem toInt_floorRemainder (nonzero : b ≠ 0) :
    (floorRemainder a b).toInt = a.toInt.fmod b.toInt := by
  have divisor := toInt_ne_zero nonzero
  have low := b.le_toInt
  have high := b.toInt_lt
  have between := fmod_between a.toInt divisor
  calc (floorRemainder a b).toInt
    _ = (a.toInt - b.toInt * (floorDiv a b).toInt).bmod (2 ^ 64) := by
      rw [floorRemainder, Int64.toInt_sub, Int64.toInt_mul, Int.sub_bmod_bmod]
    _ = (a.toInt - b.toInt * a.toInt.fdiv b.toInt).bmod (2 ^ 64) := by
      rw [toInt_floorDiv a divisor, ← Int.sub_bmod_bmod, Int.mul_bmod_bmod, Int.sub_bmod_bmod]
    _ = (a.toInt.fmod b.toInt).bmod (2 ^ 64) := by rw [Int.fmod_def]
    _ = a.toInt.fmod b.toInt := Int.bmod_eq_of_le (by omega) (by omega)

end

/-- Division by anything but zero gives the floor of the exact quotient.  The smallest integer
divided by -1 is the one case in which the floor is out of range, and gives the smallest integer
again.  Taking one off the truncated quotient never leaves the range, and what the quotient leaves
of the dividend is zero, or has the sign of the divisor and a smaller magnitude. -/
theorem floorDiv_exact {a b : Int64} (nonzero : b ≠ 0) :
    OperatorTable.standard.eval .div (.int a) (.int b) = .ok (.int (floorDiv a b)) ∧
    (floorDiv a b).toInt = ⌊exactQuotient a b⌋.bmod (2 ^ 64) ∧
    (¬ (a = Int64.minValue ∧ b = -1) → (floorDiv a b).toInt = ⌊exactQuotient a b⌋) ∧
    (a = Int64.minValue ∧ b = -1 → floorDiv a b = Int64.minValue) ∧
    (Overshoots a b → floorDiv a b = a / b - 1 ∧ (a / b - 1).toInt = (a / b).toInt - 1) ∧
    (¬ Overshoots a b → floorDiv a b = a / b) ∧
    (floorRemainder a b = 0 ∨
      (floorRemainder a b).toInt.sign = b.toInt.sign ∧
        (floorRemainder a b).toInt.natAbs < b.toInt.natAbs) := by
  have divisor := toInt_ne_zero nonzero
  have floor : a.toInt.fdiv b.toInt = ⌊exactQuotient a b⌋ := fdiv_eq_floor a.toInt divisor
  have between := fmod_between a.toInt divisor
  rw [← toInt_floorRemainder nonzero] at between
  refine ⟨if_neg nonzero, ?_, ?_, ?_, ?_, floorDiv_of_not_overshoots, ?_⟩
  · rw [toInt_floorDiv a divisor, floor]
  · exact fun inRange => (toInt_floorDiv_of_inRange nonzero inRange).trans floor
  · rintro ⟨rfl, rfl⟩
    decide
  · exact fun overshoots => ⟨floorDiv_of_overshoots overshoots, toInt_corrected nonzero overshoots⟩
  · refine between.imp_left fun zero => ?_
    exact Int64.toInt_inj.mp (zero.trans Int64.toInt_zero.symm)

/-- The smallest integer divided by 3 and by -1. -/
theorem floorDiv_exact_of_smallest :
    (3 : Int64) ≠ 0 ∧ Overshoots Int64.minValue 3 ∧
      ⌊exactQuotient Int64.minValue 3⌋ = -3074457345618258603 ∧
      floorRemainder Int64.minValue 3 = 1 ∧
    (-1 : Int64) ≠ 0 ∧ floorDiv Int64.minValue (-1) = Int64.minValue ∧
      ⌊exactQuotient Int64.minValue (-1)⌋.bmod (2 ^ 64) = -2 ^ 63 := by
  have divisor : (3 : Int64) ≠ 0 := by decide
  have other : (-1 : Int64) ≠ 0 := by decide
  obtain ⟨-, -, exact, -⟩ := floorDiv_exact (a := Int64.minValue) divisor
  obtain ⟨-, wraps, -, smallest, -⟩ := floorDiv_exact (a := Int64.minValue) other
  refine ⟨divisor, ⟨by decide, by decide⟩, ?_, by decide, other, smallest ⟨rfl, rfl⟩, ?_⟩
  · rw [← exact (by decide)]
    decide
  · rw [← wraps, smallest ⟨rfl, rfl⟩]
    decide

end Protoscript
