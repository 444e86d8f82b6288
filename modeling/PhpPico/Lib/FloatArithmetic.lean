import PhpPico.Lib.Rounding

/-!
# Correctly rounded operations

An operation is correctly rounded if its result is the number nearest to the exact value, with its sign. Whole numbers
up to the precision of a format are their own nearest numbers.
-/

namespace Ieee

section Format
variable (w fraction : ℕ)

/-- The number nearest to an exact value. A zero may have either sign. -/
structure RoundsTo (x : ℚ) (r : BitVec w) : Prop where
  nearest : Nearest w fraction |x| (magnitude r)
  sign : x ≠ 0 → r.msb = decide (x < 0)

/-- A number that is no infinity and no NaN. -/
def IsFinite (x : BitVec w) : Prop := magnitude x < infinity w fraction

/-- An exact value as a number. -/
def ofValue (x : ℚ) : BitVec w := ofParts w (decide (x < 0)) (roundMagnitude w fraction |x|)

end Format

section Format
variable {w fraction : ℕ}

theorem roundsTo_ofValue (format : Format w fraction) (x : ℚ) : RoundsTo w fraction x (ofValue w fraction x) := by
  have nearest := nearest_roundMagnitude format (abs_nonneg x)
  have small := nearest.within.trans_lt format.infinity_lt
  have positive : 0 < w := (Nat.zero_lt_succ fraction).trans format.room
  refine ⟨?_, fun _ => ofParts_msb positive _ small⟩
  unfold ofValue
  rw [ofParts_magnitude positive _ small]
  exact nearest

theorem RoundsTo.isFinite {x : ℚ} {r : BitVec w} (format : Format w fraction) (rounds : RoundsTo w fraction x r)
    (small : |x| ≤ absValue w fraction (infinity w fraction - 1)) : IsFinite w fraction r := by
  apply Nat.lt_of_le_of_ne rounds.nearest.within
  intro infinite
  have reached := rounds.nearest.overflow.mp infinite
  rw [format.threshold_eq] at reached
  have below := mul_lt_mul_of_pos_right (units_lt_tiePoint fraction (infinity w fraction - 1)) (least_pos w fraction)
  unfold absValue at small
  linarith

theorem RoundsTo.value_eq {x : ℚ} {r : BitVec w} {n : ℕ} (rounds : RoundsTo w fraction x r)
    (represented : absValue w fraction n = |x|) (finite : n < infinity w fraction) (isFinite : IsFinite w fraction r) :
    value w fraction r = x := by
  have closest := rounds.nearest.closest isFinite n finite
  rw [represented, sub_self, abs_zero] at closest
  have magnitude : absValue w fraction (magnitude r) = |x| :=
    (sub_eq_zero.mp (abs_eq_zero.mp (le_antisymm closest (abs_nonneg _)))).symm
  unfold value
  rw [magnitude]
  rcases lt_trichotomy x 0 with negative | rfl | positive
  · rw [rounds.sign negative.ne, decide_eq_true negative, if_pos rfl, abs_of_neg negative, neg_neg]
  · rw [abs_zero, neg_zero, ite_self]
  · rw [rounds.sign positive.ne', decide_eq_false positive.not_gt, if_neg Bool.false_ne_true, abs_of_pos positive]

/-! ## Whole numbers -/

/-- Whole numbers as wide as the fraction and one more bit are magnitudes. -/
theorem exists_units {k n : ℕ} (room : fraction ≤ k) (small : n ≤ 2 ^ (fraction + 1)) :
    ∃ m, units fraction m = n * 2 ^ k := by
  rcases Nat.eq_zero_or_pos n with rfl | positive
  · exact ⟨0, by simp [units]⟩
  · rcases Nat.lt_or_eq_of_le small with inside | rfl
    · have low := Nat.log2_self_le positive.ne'
      have high := Nat.lt_log2_self (n := n)
      have place : Nat.log2 n ≤ fraction := by
        have := (Nat.log2_lt positive.ne').mpr inside
        omega
      obtain ⟨j, split⟩ : ∃ j, fraction = Nat.log2 n + j := ⟨fraction - Nat.log2 n, by omega⟩
      refine ⟨(k - j) * 2 ^ fraction + n * 2 ^ j, ?_⟩
      rw [units_binade]
      · rw [mul_assoc, ← pow_add]
        congr 2
        omega
      · right
        rw [split, pow_add]
        exact Nat.mul_le_mul_right _ low
      · rw [split, add_right_comm, pow_add]
        exact Nat.mul_le_mul_right _ high.le
    · have normal : 2 ^ fraction ≤ 2 ^ (fraction + 1) := Nat.pow_le_pow_right two_pos (by omega)
      exact ⟨k * 2 ^ fraction + 2 ^ (fraction + 1), units_binade (.inr normal) le_rfl⟩

/-- A magnitude for a whole number: its midpoints are compared in integers. -/
theorem nearest_nat (format : Format w fraction) {k n m : ℕ} (unit : least w fraction = (2 ^ k : ℚ)⁻¹)
    (finite : m + 1 < infinity w fraction) (lower : units fraction m + units fraction (m + 1) ≤ 2 * (n * 2 ^ k))
    (lowerTie : units fraction m + units fraction (m + 1) = 2 * (n * 2 ^ k) → m % 2 = 1)
    (upper : 2 * (n * 2 ^ k) ≤ units fraction (m + 1) + units fraction (m + 2))
    (upperTie : 2 * (n * 2 ^ k) = units fraction (m + 1) + units fraction (m + 2) → m % 2 = 1) :
    Nearest w fraction n (m + 1) := by
  have scaled : ((n * 2 ^ k : ℕ) : ℚ) * least w fraction = n := by
    rw [unit]
    push_cast
    exact mul_inv_cancel_right₀ (by positivity) _
  have bracketed : Bracketed w fraction ((n * 2 ^ k : ℕ) : ℚ) (m + 1) := by
    refine ⟨finite.le, ?_, ?_⟩
    · intro j next
      obtain rfl : j = m := by omega
      have low : ((units fraction j + units fraction (j + 1) : ℕ) : ℚ) ≤ (2 * (n * 2 ^ k) : ℕ) := by
        exact_mod_cast lower
      unfold tiePoint
      rw [Nat.cast_add, Nat.cast_mul 2, Nat.cast_two] at low
      constructor
      · linarith
      · intro tie
        have same : ((units fraction j + units fraction (j + 1) : ℕ) : ℚ) = (2 * (n * 2 ^ k) : ℕ) := by
          rw [Nat.cast_add, Nat.cast_mul 2, Nat.cast_two]
          linarith
        have := lowerTie (by exact_mod_cast same)
        omega
    · intro _
      have high : ((2 * (n * 2 ^ k) : ℕ) : ℚ) ≤ (units fraction (m + 1) + units fraction (m + 2) : ℕ) := by
        exact_mod_cast upper
      unfold tiePoint
      rw [Nat.cast_add, Nat.cast_mul 2, Nat.cast_two] at high
      constructor
      · linarith
      · intro tie
        have same : ((2 * (n * 2 ^ k) : ℕ) : ℚ) = (units fraction (m + 1) + units fraction (m + 2) : ℕ) := by
          rw [Nat.cast_add, Nat.cast_mul 2, Nat.cast_two]
          linarith
        have := upperTie (by exact_mod_cast same)
        omega
  have nearest := bracketed.nearest format
  rw [scaled] at nearest
  exact nearest

end Format

/-! ## The range of a format -/

/-- A format whose numbers are multiples of `2 ^ -k`, and which has numbers beyond `2 ^ bits`. -/
structure Reaches (w fraction k bits : ℕ) : Prop where
  format : Format w fraction
  unit : least w fraction = (2 ^ k : ℚ)⁻¹
  room : fraction ≤ k
  reach : 2 ^ bits * 2 ^ k ≤ units fraction (infinity w fraction - 1)

section Range
variable {w fraction k bits : ℕ}

theorem Reaches.absValue_eq (range : Reaches w fraction k bits) {m n : ℕ} (counted : units fraction m = n * 2 ^ k) :
    absValue w fraction m = n := by
  unfold absValue
  rw [counted, range.unit]
  push_cast
  exact mul_inv_cancel_right₀ (by positivity) _

theorem Reaches.isFinite (range : Reaches w fraction k bits) {x : ℚ} {r : BitVec w} (rounds : RoundsTo w fraction x r)
    (small : |x| ≤ 2 ^ bits) : IsFinite w fraction r := by
  apply rounds.isFinite range.format
  refine small.trans ?_
  have reach : ((2 ^ bits * 2 ^ k : ℕ) : ℚ) ≤ units fraction (infinity w fraction - 1) := by exact_mod_cast range.reach
  unfold absValue
  rw [range.unit, le_mul_inv_iff₀ (by positivity)]
  push_cast at reach
  exact reach

/-- A whole number that is not too wide for the fraction is its own nearest number. -/
theorem Reaches.value_eq (range : Reaches w fraction k bits) {i : ℤ} {r : BitVec w} (rounds : RoundsTo w fraction i r)
    (wide : fraction + 1 ≤ bits) (small : i.natAbs ≤ 2 ^ (fraction + 1)) : value w fraction r = i := by
  have absolute : |(i : ℚ)| = i.natAbs := by
    rw [← Int.cast_abs, Int.abs_eq_natAbs]
    rfl
  obtain ⟨m, counted⟩ := exists_units range.room small
  have narrow : i.natAbs ≤ 2 ^ bits := small.trans (Nat.pow_le_pow_right two_pos wide)
  have finite : m < infinity w fraction := by
    have below : units fraction m ≤ units fraction (infinity w fraction - 1) := by
      rw [counted]
      exact (Nat.mul_le_mul_right _ narrow).trans range.reach
    have := (units_strictMono fraction).le_iff_le.mp below
    have := range.format.infinity_pos
    omega
  apply rounds.value_eq _ finite
  · apply range.isFinite rounds
    rw [absolute]
    exact_mod_cast narrow
  · rw [absolute]
    exact range.absValue_eq counted

end Range

/-! ## The two formats -/

theorem least_binary32 : least 32 23 = (2 ^ 149 : ℚ)⁻¹ := by
  unfold least
  rw [← zpow_natCast, ← zpow_neg]
  norm_num

theorem least_binary64 : least 64 52 = (2 ^ 1074 : ℚ)⁻¹ := by
  unfold least
  rw [← zpow_natCast, ← zpow_neg]
  norm_num

theorem binary32_reaches : Reaches 32 23 149 64 := ⟨binary32, least_binary32, by decide, by decide +kernel⟩

theorem binary64_reaches : Reaches 64 52 1074 64 := ⟨binary64, least_binary64, by decide, by decide +kernel⟩

end Ieee
