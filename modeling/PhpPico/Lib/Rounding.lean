import PhpPico.Lib.Ieee
import Mathlib.Algebra.Order.Floor.Semifield
import Mathlib.Data.Rat.Floor
import Mathlib.Tactic.Linarith
import Mathlib.Tactic.Ring
import Mathlib.Tactic.FieldSimp
import Mathlib.Tactic.Positivity

/-!
# Rounding to IEEE 754 numbers

A magnitude of a binary format counts the numbers from zero upwards, so the number nearest to a value is a magnitude
between two midpoints. **Rounding to as many binary digits as the format keeps finds it**: a carry out of these digits
is the next magnitude, also at the least normal number and at infinity.
-/

namespace Ieee

/-! ## Rounding to an integer -/

/-- The integer nearest to a number, the even one of two. -/
def halfEven (y : ℚ) : ℕ :=
  if 1 / 2 < y - ⌊y⌋₊ ∨ y - ⌊y⌋₊ = 1 / 2 ∧ ⌊y⌋₊ % 2 = 1 then ⌊y⌋₊ + 1 else ⌊y⌋₊

theorem halfEven_cases (y : ℚ) : halfEven y = ⌊y⌋₊ ∨ halfEven y = ⌊y⌋₊ + 1 := by
  unfold halfEven
  split
  · exact .inr rfl
  · exact .inl rfl

/-- A number is at most half away from the integer it is rounded to, and half away only from an even one. -/
theorem halfEven_near {y : ℚ} (nonneg : 0 ≤ y) :
    ((halfEven y : ℚ) - 1 / 2 ≤ y ∧ (y = halfEven y - 1 / 2 → halfEven y % 2 = 0)) ∧
      y ≤ halfEven y + 1 / 2 ∧ (y = halfEven y + 1 / 2 → halfEven y % 2 = 0) := by
  have below := Nat.floor_le nonneg
  have above := Nat.lt_floor_add_one y
  unfold halfEven
  split
  · rename_i up
    push_cast
    refine ⟨⟨?_, ?_⟩, ?_, ?_⟩
    · rcases up with up | ⟨up, -⟩ <;> linarith
    · intro tie
      rcases up with up | ⟨-, odd⟩
      · linarith
      · omega
    · linarith
    · intro tie
      linarith
  · rename_i down
    refine ⟨⟨?_, ?_⟩, ?_, ?_⟩
    · linarith
    · intro tie
      linarith
    · by_contra far
      exact down (.inl (by linarith))
    · intro tie
      by_contra odd
      exact down (.inr ⟨by linarith, by omega⟩)

/-- The quotient of two integers, rounded by its remainder. -/
theorem halfEven_div (a : ℕ) {b : ℕ} (positive : 0 < b) :
    halfEven (a / b) = if b < 2 * (a % b) ∨ 2 * (a % b) = b ∧ a / b % 2 = 1 then a / b + 1 else a / b := by
  have floor : ⌊(a / b : ℚ)⌋₊ = a / b := Nat.floor_div_eq_div a b
  have nonzero : (b : ℚ) ≠ 0 := by positivity
  have part : (a / b : ℚ) - (a / b : ℕ) = (a % b : ℕ) / b := by
    have split : (a : ℚ) = b * (a / b : ℕ) + (a % b : ℕ) := by exact_mod_cast (Nat.div_add_mod a b).symm
    field_simp
    linarith
  have less : (1 / 2 : ℚ) < (a % b : ℕ) / b ↔ b < 2 * (a % b) := by
    rw [lt_div_iff₀ (by positivity)]
    constructor
    · intro half
      have : (b : ℚ) < (2 * (a % b) : ℕ) := by
        push_cast
        linarith
      exact_mod_cast this
    · intro half
      have : (b : ℚ) < (2 * (a % b) : ℕ) := by exact_mod_cast half
      push_cast at this
      linarith
  have same : ((a % b : ℕ) / b : ℚ) = 1 / 2 ↔ 2 * (a % b) = b := by
    rw [div_eq_iff nonzero]
    constructor
    · intro half
      have : ((2 * (a % b) : ℕ) : ℚ) = b := by
        push_cast
        linarith
      exact_mod_cast this
    · intro half
      have : ((2 * (a % b) : ℕ) : ℚ) = b := by exact_mod_cast half
      push_cast at this
      linarith
  unfold halfEven
  simp only [floor, part, less, same]

/-! ## Values -/

section Format
variable (w fraction : ℕ)

/-- The value of a magnitude in units of the least positive number. The formula goes on behind the finite
magnitudes. -/
def units (m : ℕ) : ℕ := if m < 2 ^ fraction then m else (2 ^ fraction + m % 2 ^ fraction) * 2 ^ (m / 2 ^ fraction - 1)

/-- The least positive number. -/
def least : ℚ := 2 ^ (2 - 2 ^ (w - fraction - 2) - fraction : ℤ)

/-- The value of a finite magnitude. -/
def absValue (m : ℕ) : ℚ := units fraction m * least w fraction

/-- The value of a finite number. -/
def value (x : BitVec w) : ℚ := if x.msb then -absValue w fraction (magnitude x) else absValue w fraction (magnitude x)

/-- From here on numbers are infinite: half a unit in the last place above the greatest finite number. -/
def threshold : ℚ := (absValue w fraction (infinity w fraction - 1) + absValue w fraction (infinity w fraction)) / 2

/-- Round to nearest, ties to even: the magnitude of the number that stands for an exact value. -/
structure Nearest (x : ℚ) (m : ℕ) : Prop where
  within : m ≤ infinity w fraction
  overflow : m = infinity w fraction ↔ threshold w fraction ≤ x
  closest : m < infinity w fraction → ∀ n < infinity w fraction,
    |x - absValue w fraction m| ≤ |x - absValue w fraction n|
  even : m < infinity w fraction → ∀ n < infinity w fraction, n ≠ m →
    |x - absValue w fraction m| = |x - absValue w fraction n| → m % 2 = 0

/-- The number that stands for an exact value, with the sign that goes with it. -/
structure Rounds (negative : Bool) (x : ℚ) (r : BitVec w) : Prop where
  sign : r.msb = negative
  nearest : Nearest w fraction x (magnitude r)

end Format

/-! ## Binades -/

section Binades
variable {fraction : ℕ}

/-- In the binade of the exponent `e` magnitudes count steps of `2 ^ e`, up to the first number of the next one. -/
theorem units_binade {e q : ℕ} (binade : e = 0 ∨ 2 ^ fraction ≤ q) (small : q ≤ 2 ^ (fraction + 1)) :
    units fraction (e * 2 ^ fraction + q) = q * 2 ^ e := by
  have positive : 0 < 2 ^ fraction := by positivity
  unfold units
  rcases lt_or_ge q (2 ^ fraction) with below | above
  · obtain rfl : e = 0 := by omega
    rw [if_pos (by omega)]
    omega
  · have large : ¬ e * 2 ^ fraction + q < 2 ^ fraction := by
      omega
    rw [if_neg large]
    rcases Nat.lt_or_eq_of_le small with inside | next
    · have quotient : (e * 2 ^ fraction + q) / 2 ^ fraction = e + 1 := by
        rw [add_comm, Nat.add_mul_div_right _ _ positive, Nat.div_eq_of_lt_le (k := 1) (by omega) (by omega)]
        omega
      have remainder : (e * 2 ^ fraction + q) % 2 ^ fraction = q - 2 ^ fraction := by
        rw [add_comm, Nat.add_mul_mod_self_right, Nat.mod_eq_sub_mod above, Nat.mod_eq_of_lt (by omega)]
      rw [quotient, remainder, Nat.add_sub_cancel, Nat.add_sub_cancel' above]
    · subst next
      have sum : e * 2 ^ fraction + 2 ^ (fraction + 1) = (e + 2) * 2 ^ fraction := by ring
      rw [sum, Nat.mul_div_cancel _ positive, Nat.mul_mod_left, add_zero]
      have exponent : e + 2 - 1 = e + 1 := by omega
      rw [exponent, pow_succ, pow_succ]
      ring

/-- Every magnitude is in a binade, below the first number of the next one. -/
theorem exists_binade (fraction m : ℕ) :
    ∃ e q, (e = 0 ∨ 2 ^ fraction ≤ q) ∧ q < 2 ^ (fraction + 1) ∧ m = e * 2 ^ fraction + q := by
  have positive : 0 < 2 ^ fraction := by positivity
  rcases lt_or_ge m (2 ^ fraction) with below | above
  · exact ⟨0, m, .inl rfl, by omega, by omega⟩
  · have remainder := Nat.mod_lt m positive
    have quotient : 1 ≤ m / 2 ^ fraction := (Nat.le_div_iff_mul_le positive).mpr (by omega)
    refine ⟨m / 2 ^ fraction - 1, 2 ^ fraction + m % 2 ^ fraction, .inr (by omega), by omega, ?_⟩
    have split := Nat.div_add_mod' m (2 ^ fraction)
    rw [Nat.sub_mul]
    have whole : 1 * 2 ^ fraction ≤ m / 2 ^ fraction * 2 ^ fraction := Nat.mul_le_mul_right _ quotient
    omega

theorem units_lt_succ (fraction m : ℕ) : units fraction m < units fraction (m + 1) := by
  obtain ⟨e, q, binade, small, rfl⟩ := exists_binade fraction m
  rw [units_binade binade (by omega), add_assoc, units_binade (by omega) (by omega)]
  exact Nat.mul_lt_mul_of_pos_right (Nat.lt_succ_self q) (by positivity)

theorem units_strictMono (fraction : ℕ) : StrictMono (units fraction) :=
  strictMono_nat_of_lt_succ (units_lt_succ fraction)

/-- The middle between a magnitude and the next one, in units. -/
def tiePoint (fraction m : ℕ) : ℚ := (units fraction m + units fraction (m + 1)) / 2

theorem units_lt_tiePoint (fraction m : ℕ) : (units fraction m : ℚ) < tiePoint fraction m := by
  have step : (units fraction m : ℚ) < units fraction (m + 1) := by exact_mod_cast units_lt_succ fraction m
  unfold tiePoint
  linarith

theorem tiePoint_lt_units (fraction m : ℕ) : tiePoint fraction m < units fraction (m + 1) := by
  have step : (units fraction m : ℚ) < units fraction (m + 1) := by exact_mod_cast units_lt_succ fraction m
  unfold tiePoint
  linarith

theorem tiePoint_strictMono (fraction : ℕ) : StrictMono (tiePoint fraction) :=
  strictMono_nat_of_lt_succ fun m => (tiePoint_lt_units fraction m).trans (units_lt_tiePoint fraction (m + 1))

end Binades

/-! ## Between midpoints -/

section Format
variable {w fraction : ℕ} {x : ℚ} {m n : ℕ}

/-- An exact value in units is between the midpoints around a magnitude, at one of them only if the magnitude is
even. -/
structure Bracketed (w fraction : ℕ) (x : ℚ) (m : ℕ) : Prop where
  within : m ≤ infinity w fraction
  lower : ∀ k, k + 1 = m → tiePoint fraction k ≤ x ∧ (tiePoint fraction k = x → m % 2 = 0)
  upper : m < infinity w fraction → x ≤ tiePoint fraction m ∧ (x = tiePoint fraction m → m % 2 = 0)

theorem least_pos (w fraction : ℕ) : 0 < least w fraction := by
  unfold least
  exact zpow_pos two_pos _

/-- The infinity of a format is even, and not zero. -/
structure Format (w fraction : ℕ) : Prop where
  fraction_pos : 0 < fraction
  room : fraction + 1 < w

theorem Format.infinity_even (h : Format w fraction) : infinity w fraction % 2 = 0 := by
  obtain ⟨f, rfl⟩ : ∃ f, fraction = f + 1 := ⟨fraction - 1, by have := h.fraction_pos; omega⟩
  obtain ⟨v, rfl⟩ : ∃ v, w = v + 2 := ⟨w - 2, by have := h.room; omega⟩
  unfold infinity
  have width : v + 2 - 1 = v + 1 := rfl
  rw [width, pow_succ, pow_succ]
  omega

theorem Format.infinity_pos (h : Format w fraction) : 0 < infinity w fraction := by
  have grow : 2 ^ fraction < 2 ^ (w - 1) := Nat.pow_lt_pow_right (by omega) (by have := h.room; omega)
  unfold infinity
  omega

theorem Format.threshold_eq (h : Format w fraction) :
    threshold w fraction = tiePoint fraction (infinity w fraction - 1) * least w fraction := by
  have next : infinity w fraction - 1 + 1 = infinity w fraction := Nat.sub_add_cancel h.infinity_pos
  unfold threshold tiePoint absValue
  rw [next]
  ring

/-- Whatever is between the midpoints around a magnitude is rounded to it. -/
theorem Bracketed.nearest (format : Format w fraction) (h : Bracketed w fraction x m) :
    Nearest w fraction (x * least w fraction) m := by
  have unit := least_pos w fraction
  have scaled : ∀ n, |x * least w fraction - absValue w fraction n| = |x - units fraction n| * least w fraction := by
    intro n
    unfold absValue
    rw [← sub_mul, abs_mul, abs_of_pos unit]
  -- the distance to another magnitude, which is beyond one of the midpoints
  have apart : m < infinity w fraction → ∀ n, n ≠ m →
      |x - units fraction m| ≤ |x - units fraction n| ∧
        (|x - units fraction m| = |x - units fraction n| → m % 2 = 0) := by
    intro finite n other
    have inside := units_strictMono fraction
    rcases lt_or_gt_of_ne other with below | above
    · obtain ⟨k, rfl⟩ : ∃ k, k + 1 = m := ⟨m - 1, by omega⟩
      obtain ⟨lower, tie⟩ := h.lower k rfl
      have order : (units fraction n : ℚ) ≤ units fraction k := by
        exact_mod_cast inside.monotone (Nat.le_of_lt_succ below)
      have step : (units fraction k : ℚ) < units fraction (k + 1) := by exact_mod_cast inside (Nat.lt_succ_self k)
      unfold tiePoint at lower tie
      have right : |x - units fraction n| = x - units fraction n := abs_of_nonneg (by linarith)
      rw [right]
      refine ⟨abs_le.mpr ⟨by linarith, by linarith⟩, fun same => tie ?_⟩
      rcases abs_cases (x - units fraction (k + 1)) with ⟨value, -⟩ | ⟨value, -⟩ <;> linarith
    · obtain ⟨upper, tie⟩ := h.upper finite
      have order : (units fraction (m + 1) : ℚ) ≤ units fraction n := by exact_mod_cast inside.monotone above
      have step : (units fraction m : ℚ) < units fraction (m + 1) := by exact_mod_cast inside (Nat.lt_succ_self m)
      unfold tiePoint at upper tie
      have left : |x - units fraction n| = -(x - units fraction n) := abs_of_nonpos (by linarith)
      rw [left]
      refine ⟨abs_le.mpr ⟨by linarith, by linarith⟩, fun same => tie ?_⟩
      rcases abs_cases (x - units fraction m) with ⟨value, -⟩ | ⟨value, -⟩ <;> linarith
  refine ⟨h.within, ?_, ?_, ?_⟩
  · rw [format.threshold_eq, mul_le_mul_iff_left₀ unit]
    constructor
    · rintro rfl
      exact (h.lower _ (Nat.sub_add_cancel format.infinity_pos)).1
    · intro beyond
      by_contra other
      have finite : m < infinity w fraction := Nat.lt_of_le_of_ne h.within other
      obtain ⟨upper, tie⟩ := h.upper finite
      have order : tiePoint fraction m ≤ tiePoint fraction (infinity w fraction - 1) :=
        (tiePoint_strictMono fraction).monotone (by omega)
      have last : m = infinity w fraction - 1 :=
        (tiePoint_strictMono fraction).injective (le_antisymm order (beyond.trans upper))
      have even := tie (le_antisymm upper (last ▸ beyond))
      have := format.infinity_even
      omega
  · intro finite n _
    rcases eq_or_ne n m with rfl | other
    · exact le_rfl
    · rw [scaled, scaled]
      exact mul_le_mul_of_nonneg_right (apart finite n other).1 unit.le
  · intro finite n _ other same
    rw [scaled, scaled] at same
    exact (apart finite n other).2 (mul_right_cancel₀ unit.ne' same)

theorem Nearest.unique (h : Nearest w fraction x m) (h' : Nearest w fraction x n) : m = n := by
  rcases Nat.lt_or_eq_of_le h.within with finite | rfl
  · rcases Nat.lt_or_eq_of_le h'.within with finite' | rfl
    · by_contra other
      have same := le_antisymm (h.closest finite n finite') (h'.closest finite' m finite)
      have even := h.even finite n finite' (Ne.symm other) same
      have even' := h'.even finite' m finite other same.symm
      -- two even magnitudes have another one between them, which is nearer
      have between : ∀ a b : ℕ, a % 2 = 0 → b % 2 = 0 → a < b → b < infinity w fraction →
          |x - absValue w fraction a| = |x - absValue w fraction b| →
          ¬ |x - absValue w fraction a| ≤ |x - absValue w fraction (a + 1)| := by
        intro a b evenA evenB less _ equal nearer
        have unit := least_pos w fraction
        have first : absValue w fraction a < absValue w fraction (a + 1) :=
          mul_lt_mul_of_pos_right (by exact_mod_cast units_strictMono fraction (Nat.lt_succ_self a)) unit
        have second : absValue w fraction (a + 1) < absValue w fraction b :=
          mul_lt_mul_of_pos_right (by exact_mod_cast units_strictMono fraction (by omega : a + 1 < b)) unit
        rcases abs_cases (x - absValue w fraction a) with ⟨ea, _⟩ | ⟨ea, _⟩ <;>
          rcases abs_cases (x - absValue w fraction b) with ⟨eb, _⟩ | ⟨eb, _⟩ <;>
          rcases abs_cases (x - absValue w fraction (a + 1)) with ⟨em, _⟩ | ⟨em, _⟩ <;> linarith
      rcases lt_or_gt_of_ne other with less | less
      · exact between m n even even' less finite' same (h.closest finite _ (by omega))
      · exact between n m even' even less finite same.symm (h'.closest finite' _ (by omega))
    · exact absurd (h.overflow.mpr (h'.overflow.mp rfl)) finite.ne
  · exact (h'.overflow.mpr (h.overflow.mp rfl)).symm

theorem eq_of_magnitude {w : Nat} {r r' : BitVec w} (sign : r.msb = r'.msb) (same : magnitude r = magnitude r') :
    r = r' := by
  apply BitVec.eq_of_toNat_eq
  unfold magnitude at same
  rw [BitVec.msb_eq_decide, BitVec.msb_eq_decide, decide_eq_decide] at sign
  cases w with
  | zero => rw [BitVec.toNat_of_zero_length rfl, BitVec.toNat_of_zero_length rfl]
  | succ w =>
    rw [Nat.add_sub_cancel] at sign same
    have below := r.isLt
    have below' := r'.isLt
    rw [pow_succ] at below below'
    by_cases high : 2 ^ w ≤ r.toNat
    · have high' := sign.mp high
      rw [Nat.mod_eq_sub_mod high, Nat.mod_eq_sub_mod high', Nat.mod_eq_of_lt (by omega), Nat.mod_eq_of_lt (by omega)]
        at same
      omega
    · have low' : ¬ 2 ^ w ≤ r'.toNat := fun high' => high (sign.mpr high')
      rwa [Nat.mod_eq_of_lt (by omega), Nat.mod_eq_of_lt (by omega)] at same

theorem Rounds.unique {w fraction : Nat} {negative : Bool} {x : ℚ} {r r' : BitVec w}
    (h : Rounds w fraction negative x r) (h' : Rounds w fraction negative x r') : r = r' :=
  eq_of_magnitude (h.sign.trans h'.sign.symm) (h.nearest.unique h'.nearest)

/-! ## Rounding by digits -/

/-- An exact value in units is in the binade of the exponent `e`: this is the exponent of its last digit. -/
structure InBinade (fraction : ℕ) (x : ℚ) (e : ℕ) : Prop where
  nonneg : 0 ≤ x
  digits : e = 0 ∨ 2 ^ fraction ≤ ⌊x / 2 ^ e⌋₊
  small : ⌊x / 2 ^ e⌋₊ < 2 ^ (fraction + 1)

/-- The magnitude that rounding to the digits of a binade gives. -/
def digitsMagnitude (fraction e h : ℕ) : ℕ := e * 2 ^ fraction + h

theorem InBinade.bracketed (format : Format w fraction) {e : ℕ} (h : InBinade fraction x e) :
    Bracketed w fraction x (min (digitsMagnitude fraction e (halfEven (x / 2 ^ e))) (infinity w fraction)) := by
  have scale : (0 : ℚ) < 2 ^ e := by positivity
  have nonneg : 0 ≤ x / 2 ^ e := div_nonneg h.nonneg scale.le
  obtain ⟨⟨down, downTie⟩, up, upTie⟩ := halfEven_near nonneg
  have cases := halfEven_cases (x / 2 ^ e)
  have small := h.small
  have digits := h.digits
  have below : (⌊x / 2 ^ e⌋₊ : ℚ) ≤ x / 2 ^ e := Nat.floor_le nonneg
  have above : x / 2 ^ e < ⌊x / 2 ^ e⌋₊ + 1 := Nat.lt_floor_add_one _
  have whole : x = x / 2 ^ e * 2 ^ e := (div_mul_cancel₀ x scale.ne').symm
  generalize halfEven (x / 2 ^ e) = r at *
  generalize ⌊x / 2 ^ e⌋₊ = q at *
  generalize x / 2 ^ e = y at *
  subst whole
  have double : 2 ^ (fraction + 1) = 2 * 2 ^ fraction := by ring
  have evenFraction : e * 2 ^ fraction % 2 = 0 := by
    obtain ⟨f, rfl⟩ : ∃ f, fraction = f + 1 := ⟨fraction - 1, by have := format.fraction_pos; omega⟩
    rw [pow_succ, ← mul_assoc]
    exact Nat.mul_mod_left _ 2
  have parity : digitsMagnitude fraction e r % 2 = r % 2 := by
    unfold digitsMagnitude
    omega
  have value : units fraction (digitsMagnitude fraction e r) = r * 2 ^ e := units_binade (by omega) (by omega)
  have lower : ∀ k, k + 1 = digitsMagnitude fraction e r →
      tiePoint fraction k ≤ y * 2 ^ e ∧ (tiePoint fraction k = y * 2 ^ e → digitsMagnitude fraction e r % 2 = 0) := by
    intro k next
    have below_k : units fraction (k + 1) = r * 2 ^ e := next ▸ value
    unfold tiePoint
    rw [below_k]
    by_cases same : e = 0 ∨ 2 ^ fraction + 1 ≤ r
    · -- the number below is in the same binade
      obtain ⟨s, rfl⟩ : ∃ s, r = s + 1 := ⟨r - 1, by unfold digitsMagnitude at next; rcases same with rfl | _ <;> omega⟩
      obtain rfl : k = e * 2 ^ fraction + s := by
        unfold digitsMagnitude at next
        omega
      rw [units_binade (by omega) (by omega), parity]
      push_cast at down downTie ⊢
      constructor
      · nlinarith
      · intro tie
        apply downTie
        have : (y - (s + 1 / 2)) * 2 ^ e = 0 := by linarith
        rcases mul_eq_zero.mp this with zero | zero
        · linarith
        · exact absurd zero scale.ne'
    · -- it is the last one of the binade below
      obtain ⟨d, rfl⟩ : ∃ d, e = d + 1 := ⟨e - 1, by omega⟩
      have first : r = 2 ^ fraction := by omega
      have lowest : q = 2 ^ fraction := by omega
      obtain rfl : k = d * 2 ^ fraction + (2 ^ (fraction + 1) - 1) := by
        have positive : 0 < 2 ^ fraction := by positivity
        have split : (d + 1) * 2 ^ fraction = d * 2 ^ fraction + 2 ^ fraction := by ring
        unfold digitsMagnitude at next
        omega
      have positive : 0 < 2 ^ fraction := by positivity
      rw [units_binade (by omega) (by omega)]
      have less : (((2 ^ (fraction + 1) - 1) * 2 ^ d : ℕ) : ℚ) < 2 * 2 ^ fraction * 2 ^ d := by
        have : (2 ^ (fraction + 1) - 1) * 2 ^ d < 2 * 2 ^ fraction * 2 ^ d :=
          Nat.mul_lt_mul_of_pos_right (by omega) (by positivity)
        exact_mod_cast this
      have reached : (2 : ℚ) * 2 ^ fraction * 2 ^ d ≤ y * 2 ^ (d + 1) := by
        have : (2 : ℚ) ^ fraction ≤ y := by
          rw [lowest] at below
          exact_mod_cast below
        rw [pow_succ]
        nlinarith [pow_pos (two_pos : (0 : ℚ) < 2) d]
      have sum : ((r * 2 ^ (d + 1) : ℕ) : ℚ) = 2 * 2 ^ fraction * 2 ^ d := by
        rw [first]
        push_cast
        ring
      rw [sum]
      constructor
      · linarith
      · intro tie
        linarith
  have upper : y * 2 ^ e ≤ tiePoint fraction (digitsMagnitude fraction e r) ∧
      (y * 2 ^ e = tiePoint fraction (digitsMagnitude fraction e r) → digitsMagnitude fraction e r % 2 = 0) := by
    unfold tiePoint
    rw [value, parity]
    rcases lt_or_ge r (2 ^ (fraction + 1)) with inside | carry
    · have next : digitsMagnitude fraction e r + 1 = e * 2 ^ fraction + (r + 1) := add_assoc _ _ _
      rw [next, units_binade (by omega) (by omega)]
      push_cast
      constructor
      · nlinarith
      · intro tie
        apply upTie
        have : (y - (r + 1 / 2)) * 2 ^ e = 0 := by linarith
        rcases mul_eq_zero.mp this with zero | zero
        · linarith
        · exact absurd zero scale.ne'
    · -- the digits have carried into the next binade
      have full : r = 2 ^ (fraction + 1) := by omega
      have next : digitsMagnitude fraction e r + 1 = (e + 1) * 2 ^ fraction + (2 ^ fraction + 1) := by
        unfold digitsMagnitude
        rw [full, double]
        ring
      rw [next, units_binade (by omega) (by omega)]
      have less : y < r := by
        have : (q : ℚ) + 1 ≤ r := by exact_mod_cast (by omega : q + 1 ≤ r)
        linarith
      have reached : ((r * 2 ^ e : ℕ) : ℚ) ≤ (((2 ^ fraction + 1) * 2 ^ (e + 1) : ℕ) : ℚ) := by
        rw [full, pow_succ 2 e, pow_succ 2 fraction]
        have : 2 ^ fraction * 2 * 2 ^ e ≤ (2 ^ fraction + 1) * (2 ^ e * 2) := by nlinarith [Nat.zero_le (2 ^ e)]
        exact_mod_cast this
      have strict : y * 2 ^ e < ((r * 2 ^ e : ℕ) : ℚ) := by
        push_cast
        exact mul_lt_mul_of_pos_right less scale
      constructor
      · linarith
      · intro tie
        linarith
  rcases Nat.le_total (digitsMagnitude fraction e r) (infinity w fraction) with finite | infinite
  · rw [Nat.min_eq_left finite]
    exact ⟨finite, lower, fun _ => upper⟩
  · rw [Nat.min_eq_right infinite]
    refine ⟨le_rfl, ?_, fun impossible => absurd impossible (lt_irrefl _)⟩
    intro k next
    obtain ⟨j, last⟩ : ∃ j, j + 1 = digitsMagnitude fraction e r := ⟨digitsMagnitude fraction e r - 1, by omega⟩
    have order : tiePoint fraction k ≤ tiePoint fraction j := (tiePoint_strictMono fraction).monotone (by omega)
    exact ⟨order.trans (lower j last).1, fun _ => format.infinity_even⟩

/-! ## The rounded magnitude -/

/-- The exponent of the last digit that the format keeps of a value in units. -/
def lastExponent (fraction : ℕ) (x : ℚ) : ℕ := Nat.log2 ⌊x⌋₊ - fraction

theorem inBinade_lastExponent (fraction : ℕ) (nonneg : 0 ≤ x) : InBinade fraction x (lastExponent fraction x) := by
  have floor : ∀ e : ℕ, ⌊x / 2 ^ e⌋₊ = ⌊x⌋₊ / 2 ^ e := by
    intro e
    have := Nat.floor_div_natCast x (2 ^ e)
    push_cast at this
    exact this
  have above : ⌊x⌋₊ < 2 ^ (Nat.log2 ⌊x⌋₊ + 1) := Nat.lt_log2_self
  refine ⟨nonneg, ?_, ?_⟩
  · unfold lastExponent
    rcases Nat.le_total (Nat.log2 ⌊x⌋₊) fraction with short | long
    · exact .inl (Nat.sub_eq_zero_of_le short)
    · rcases Nat.eq_zero_or_pos ⌊x⌋₊ with zero | positive
      · left
        rw [zero]
        simp
      · right
        rw [floor, Nat.le_div_iff_mul_le (by positivity), ← pow_add, Nat.add_sub_cancel' long]
        exact Nat.log2_self_le positive.ne'
  · rw [floor, Nat.div_lt_iff_lt_mul (by positivity), ← pow_add]
    refine above.trans_le (Nat.pow_le_pow_right two_pos ?_)
    unfold lastExponent
    omega

/-- The magnitude of the number nearest to a value. -/
def roundMagnitude (w fraction : ℕ) (x : ℚ) : ℕ :=
  let scaled := x / least w fraction
  let e := lastExponent fraction scaled
  min (digitsMagnitude fraction e (halfEven (scaled / 2 ^ e))) (infinity w fraction)

/-- **Rounding the digits of a value finds the number nearest to it.** -/
theorem nearest_roundMagnitude (format : Format w fraction) (nonneg : 0 ≤ x) :
    Nearest w fraction x (roundMagnitude w fraction x) := by
  have unit := least_pos w fraction
  have scaled : 0 ≤ x / least w fraction := div_nonneg nonneg unit.le
  have nearest := ((inBinade_lastExponent fraction scaled).bracketed format).nearest format
  rw [div_mul_cancel₀ x unit.ne'] at nearest
  exact nearest

/-- What reaches the value behind the greatest finite number is rounded to infinity. -/
theorem bracketed_infinity (format : Format w fraction) (reached : (units fraction (infinity w fraction) : ℚ) ≤ x) :
    Bracketed w fraction x (infinity w fraction) := by
  refine ⟨le_rfl, ?_, fun impossible => absurd impossible (lt_irrefl _)⟩
  intro k next
  have below := tiePoint_lt_units fraction k
  rw [next] at below
  exact ⟨(below.le).trans reached, fun _ => format.infinity_even⟩

end Format

/-! ## Signs -/

/-- The number of a sign and a magnitude. -/
def ofParts (w : ℕ) (negative : Bool) (m : ℕ) : BitVec w := BitVec.ofNat w ((if negative then 2 ^ (w - 1) else 0) + m)

section Parts
variable {w m : ℕ} (positive : 0 < w) (negative : Bool) (small : m < 2 ^ (w - 1))
include positive small

theorem ofParts_toNat : (ofParts w negative m).toNat = (if negative then 2 ^ (w - 1) else 0) + m := by
  obtain ⟨v, rfl⟩ : ∃ v, w = v + 1 := ⟨w - 1, by omega⟩
  unfold ofParts
  rw [BitVec.toNat_ofNat]
  apply Nat.mod_eq_of_lt
  rw [Nat.add_sub_cancel] at *
  split <;> omega

theorem ofParts_msb : (ofParts w negative m).msb = negative := by
  rw [BitVec.msb_eq_decide, ofParts_toNat positive negative small]
  cases negative with
  | true => exact decide_eq_true (by simp)
  | false => exact decide_eq_false (by simpa using small)

theorem ofParts_magnitude : magnitude (ofParts w negative m) = m := by
  unfold magnitude
  rw [ofParts_toNat positive negative small]
  cases negative with
  | true => rw [if_pos rfl, Nat.add_mod_left, Nat.mod_eq_of_lt small]
  | false => rw [if_neg Bool.false_ne_true, zero_add, Nat.mod_eq_of_lt small]

end Parts

theorem Format.infinity_lt {w fraction : ℕ} (h : Format w fraction) : infinity w fraction < 2 ^ (w - 1) := by
  have positive : 0 < 2 ^ fraction := by positivity
  have := h.infinity_pos
  unfold infinity at *
  omega

theorem Bracketed.rounds {w fraction m : ℕ} {x : ℚ} (format : Format w fraction) (h : Bracketed w fraction x m)
    (negative : Bool) : Rounds w fraction negative (x * least w fraction) (ofParts w negative m) := by
  have small := h.within.trans_lt format.infinity_lt
  have positive : 0 < w := (Nat.zero_lt_succ fraction).trans format.room
  refine ⟨ofParts_msb positive negative small, ?_⟩
  rw [ofParts_magnitude positive negative small]
  exact h.nearest format

/-! ## The two formats -/

theorem binary32 : Format 32 23 := ⟨by decide, by decide⟩

theorem binary64 : Format 64 52 := ⟨by decide, by decide⟩

theorem infinity_binary32 : infinity 32 23 = 255 * 2 ^ 23 := by decide

theorem infinity_binary64 : infinity 64 52 = 2047 * 2 ^ 52 := by decide

end Ieee
