import PhpPico.Lib.FloatArithmetic
import PhpPico.Value.Checked
import PhpPico.Value.Floatless

/-!
# Integer arithmetic

The helpers for integers are exact or refuse, the shifts are those of two's complement, and **no expression overflows
on the way**. A negative exponent is refused even where the power is an integer, and what does not fit an integer is
computed from operands that have become floats, so that it is rounded twice.
-/

namespace PhpPico.Value
open Ieee

/-- The operations that promote their result. -/
inductive Promoted where
  | add | sub | mul
deriving DecidableEq

def Promoted.operation : Promoted → Operation
  | .add => .add
  | .sub => .sub
  | .mul => .mul

/-- The exact result. -/
def Promoted.exact {R : Type} [Ring R] : Promoted → R → R → R
  | .add => fun a b => a + b
  | .sub => fun a b => a - b
  | .mul => fun a b => a * b

/-- The float nearest to an exact value. -/
abbrev FloatOf (cfg : Config) (x : ℚ) (r : PFloat cfg) : Prop := RoundsTo cfg.floatWidth (fractionBits cfg) x r

/-- The value of a finite float. -/
abbrev floatValue (cfg : Config) (x : PFloat cfg) : ℚ := Ieee.value cfg.floatWidth (fractionBits cfg) x

/-- Integers are converted, and finite floats are added, subtracted and multiplied with the float nearest to the exact
result. -/
structure CorrectlyRounded {cfg : Config} (floats : FloatOperations cfg) : Prop where
  ofInt : ∀ i, Checked.Fits cfg i → FloatOf cfg i (floats.ofInt i)
  add : ∀ x y, IsFinite cfg.floatWidth (fractionBits cfg) x → IsFinite cfg.floatWidth (fractionBits cfg) y →
    FloatOf cfg (floatValue cfg x + floatValue cfg y) (floats.add x y)
  sub : ∀ x y, IsFinite cfg.floatWidth (fractionBits cfg) x → IsFinite cfg.floatWidth (fractionBits cfg) y →
    FloatOf cfg (floatValue cfg x - floatValue cfg y) (floats.sub x y)
  mul : ∀ x y, IsFinite cfg.floatWidth (fractionBits cfg) x → IsFinite cfg.floatWidth (fractionBits cfg) y →
    FloatOf cfg (floatValue cfg x * floatValue cfg y) (floats.mul x y)

/-- What integer arithmetic does. -/
structure IntegerArithmetic {cfg : Config} (floats : FloatOperations cfg) : Prop where
  add : ∀ left right, Checked.Fits cfg left → Checked.Fits cfg right →
    Checked.integerAdd cfg left right = some (Checked.exact cfg (left + right))
  subtract : ∀ left right, Checked.Fits cfg left → Checked.Fits cfg right →
    Checked.integerSubtract cfg left right = some (Checked.exact cfg (left - right))
  multiply : ∀ left right, Checked.Fits cfg left → Checked.Fits cfg right →
    Checked.integerMultiply cfg left right = some (Checked.exact cfg (left * right))
  negate : ∀ value, Checked.Fits cfg value → Checked.integerNegate cfg value = some (Checked.exact cfg (-value))
  power : ∀ base exponent, Checked.Fits cfg base → Checked.Fits cfg exponent → Checked.integerPower cfg base exponent =
      some (if exponent < 0 then none else Checked.exact cfg (base ^ exponent.toNat))
  /-- A result that fits is an integer. -/
  kept : cfg.enableFloat = true → ∀ (p : Promoted) memory left right, Checked.Fits cfg left → Checked.Fits cfg right →
    Checked.Fits cfg (p.exact left right) →
      pvBinaryOperation floats memory p.operation (.int left) (.int right) = ⟨.ok (.int (p.exact left right)), 0⟩
  /-- Another one is computed with the floats nearest to the operands. It is the float nearest to the exact result
  where both operands are floats themselves. -/
  promoted : cfg.enableFloat = true → ∀ (p : Promoted) memory left right, Checked.Fits cfg left →
    Checked.Fits cfg right → ¬ Checked.Fits cfg (p.exact left right) →
      ∃ r, pvBinaryOperation floats memory p.operation (.int left) (.int right) = ⟨.ok (.float r), 0⟩ ∧
        FloatOf cfg (p.exact (floatValue cfg (floats.ofInt left)) (floatValue cfg (floats.ofInt right))) r ∧
        (left.natAbs ≤ 2 ^ (fractionBits cfg + 1) → right.natAbs ≤ 2 ^ (fractionBits cfg + 1) →
          FloatOf cfg ((p.exact left right : Int) : ℚ) r)
  shiftLeft : ∀ (value : Int) (n : Nat), Checked.Fits cfg value → n < cfg.intWidth →
    Checked.integerShiftLeft cfg value n = some ((value * 2 ^ n).bmod (2 ^ cfg.intWidth))
  shiftRight : ∀ (value : Int) (n : Nat), Checked.Fits cfg value → n < cfg.intWidth →
    Checked.integerShiftRight cfg value n = some ⌊(value / 2 ^ n : ℚ)⌋
  /-- Whatever the operation and the operands, every expression has a value, in a build with floats and in one
  without. -/
  defined : ∀ operation left right, Checked.Fits cfg left → Checked.Fits cfg right →
    Checked.integerBinaryFloat floats operation left right = some (integerBinaryFloat floats operation left right) ∧
      Checked.integerBinary operation left right =
        some (integerBinary operation left right : Except (List UInt8) (PValue cfg))

section Arithmetic
variable {cfg : Config} {floats : FloatOperations cfg}

/-- Both formats reach beyond the integers. -/
theorem float_reaches (cfg : Config) : ∃ k, Reaches cfg.floatWidth (fractionBits cfg) k 64 := by
  unfold Config.floatWidth fractionBits
  cases cfg.useDouble with
  | true => exact ⟨1074, binary64_reaches⟩
  | false => exact ⟨149, binary32_reaches⟩

theorem fractionBits_le (cfg : Config) : fractionBits cfg + 1 ≤ 64 := by
  unfold fractionBits
  split <;> decide

theorem CorrectlyRounded.ofInt_isFinite (correct : CorrectlyRounded floats) {i : Int} (fits : Checked.Fits cfg i) :
    IsFinite cfg.floatWidth (fractionBits cfg) (floats.ofInt i) := by
  obtain ⟨k, range⟩ := float_reaches cfg
  apply range.isFinite (correct.ofInt i fits)
  have size : i.natAbs ≤ 2 ^ 64 := by
    unfold Checked.Fits Signed.Fits Config.intMin Config.intMax at fits
    split at fits <;> omega
  have absolute : |(i : ℚ)| = i.natAbs := by
    rw [← Int.cast_abs, Int.abs_eq_natAbs]
    rfl
  rw [absolute]
  exact_mod_cast size

theorem CorrectlyRounded.ofInt_value (correct : CorrectlyRounded floats) {i : Int} (fits : Checked.Fits cfg i)
    (small : i.natAbs ≤ 2 ^ (fractionBits cfg + 1)) : floatValue cfg (floats.ofInt i) = i := by
  obtain ⟨k, range⟩ := float_reaches cfg
  exact range.value_eq (correct.ofInt i fits) (fractionBits_le cfg) small

theorem pvBinaryOperation_int (enabled : cfg.enableFloat = true) (memory : ConcatMemory) (p : Promoted)
    (left right : Int) : pvBinaryOperation floats memory p.operation (.int left) (.int right) =
      ⟨integerBinaryFloat floats p.operation left right, 0⟩ := by
  unfold pvBinaryOperation
  cases p with
  | add =>
    rw [if_neg (by decide)]
    simp only [enabled, if_true]
    rfl
  | sub =>
    rw [if_neg (by decide)]
    simp only [enabled, if_true]
    rfl
  | mul =>
    rw [if_neg (by decide)]
    simp only [enabled, if_true]
    rfl

/-- The float operation behind a promoted one. -/
def Promoted.onFloats (floats : FloatOperations cfg) : Promoted → PFloat cfg → PFloat cfg → PFloat cfg
  | .add => floats.add
  | .sub => floats.sub
  | .mul => floats.mul

theorem integerBinaryFloat_promoted (p : Promoted) {left right : Int} (fits : Checked.Fits cfg left) :
    integerBinaryFloat floats p.operation left right =
      .ok (Checked.integerOr floats left right (Checked.exact cfg (p.exact left right)) (p.onFloats floats)) := by
  cases p with
  | add =>
    have code : integerBinaryFloat floats .add left right =
      .ok (Checked.integerOr floats left right (integerAdd cfg left right) floats.add) := rfl
    exact code.trans (by rw [Checked.integerAdd_value fits]; rfl)
  | sub =>
    have code : integerBinaryFloat floats .sub left right =
      .ok (Checked.integerOr floats left right (integerSubtract cfg left right) floats.sub) := rfl
    exact code.trans (by rw [Checked.integerSubtract_value fits]; rfl)
  | mul =>
    have code : integerBinaryFloat floats .mul left right =
      .ok (Checked.integerOr floats left right (integerMultiply cfg left right) floats.mul) := rfl
    exact code.trans (by rw [Checked.integerMultiply_value]; rfl)

theorem CorrectlyRounded.onFloats (correct : CorrectlyRounded floats) (p : Promoted) {x y : PFloat cfg}
    (finite : IsFinite cfg.floatWidth (fractionBits cfg) x) (finite' : IsFinite cfg.floatWidth (fractionBits cfg) y) :
    FloatOf cfg (p.exact (floatValue cfg x) (floatValue cfg y)) (p.onFloats floats x y) := by
  cases p with
  | add => exact correct.add x y finite finite'
  | sub => exact correct.sub x y finite finite'
  | mul => exact correct.mul x y finite finite'

theorem exact_cast (p : Promoted) (left right : Int) :
    ((p.exact left right : Int) : ℚ) = p.exact (left : ℚ) (right : ℚ) := by
  cases p with
  | add => exact Int.cast_add left right
  | sub => exact Int.cast_sub left right
  | mul => exact Int.cast_mul left right

theorem shiftDistance_nat {n : Nat} (small : n < cfg.intWidth) : shiftDistance cfg n = n := by
  unfold shiftDistance
  rw [Int.emod_eq_of_lt (by omega) (by omega)]
  rfl

/-- **Integer arithmetic is exact, or promoted.** -/
theorem integer_arithmetic (floats : FloatOperations cfg) (correct : CorrectlyRounded floats) :
    IntegerArithmetic floats where
  add _ _ fits fits' := Checked.integerAdd_exact fits fits'
  subtract _ _ fits fits' := Checked.integerSubtract_exact fits fits'
  multiply _ _ fits _ := Checked.integerMultiply_exact fits
  negate _ fits := Checked.integerNegate_exact fits
  power _ _ fits _ := Checked.integerPower_exact fits
  kept enabled p memory left right fits _ inside := by
    rw [pvBinaryOperation_int enabled, integerBinaryFloat_promoted p fits]
    unfold Checked.exact
    rw [Signed.exact_of_fits inside]
    rfl
  promoted enabled p memory left right fits fits' outside := by
    have rounded := correct.onFloats p (correct.ofInt_isFinite fits) (correct.ofInt_isFinite fits')
    refine ⟨p.onFloats floats (floats.ofInt left) (floats.ofInt right), ?_, rounded, ?_⟩
    · rw [pvBinaryOperation_int enabled, integerBinaryFloat_promoted p fits]
      unfold Checked.exact
      rw [Signed.exact_of_not_fits outside]
      rfl
    · intro small small'
      rw [correct.ofInt_value fits small, correct.ofInt_value fits' small'] at rounded
      rw [exact_cast]
      exact rounded
  shiftLeft value n _ small := by
    rw [Checked.integerShiftLeft_eq, Checked.integerShiftLeft_value, shiftDistance_nat small]
  shiftRight value n fits small := by
    have floor := Rat.floor_intCast_div_natCast value (2 ^ n)
    push_cast at floor
    rw [Checked.integerShiftRight_eq fits, Checked.integerShiftRight_value, shiftDistance_nat small, floor]
  defined operation _ _ fits fits' :=
    ⟨Checked.integerBinaryFloat_eq floats operation fits fits', Checked.integerBinary_eq operation fits fits'⟩

end Arithmetic

/-! ## Floats that are correctly rounded -/

/-- Floats that are computed exactly and then rounded, as far as integer arithmetic uses them. -/
def roundedFloats (cfg : Config) : FloatOperations cfg :=
  let rounded (x : ℚ) : PFloat cfg := ofValue cfg.floatWidth (fractionBits cfg) x
  ⟨⟨fun i => rounded i, fun _ => 0, fun _ => 0, id, fun _ _ => none⟩,
    fun x y => rounded (floatValue cfg x + floatValue cfg y), fun x y => rounded (floatValue cfg x - floatValue cfg y),
    fun x y => rounded (floatValue cfg x * floatValue cfg y), fun _ _ => 0, fun _ _ => 0, fun _ _ => 0, fun _ => none⟩

theorem roundedFloats_correct (cfg : Config) : CorrectlyRounded (roundedFloats cfg) := by
  obtain ⟨k, range⟩ := float_reaches cfg
  exact ⟨fun i _ => roundsTo_ofValue range.format i, fun _ _ _ _ => roundsTo_ofValue range.format _,
    fun _ _ _ _ => roundsTo_ofValue range.format _, fun _ _ _ _ => roundsTo_ofValue range.format _⟩

theorem integer_arithmetic_rounded : IntegerArithmetic (roundedFloats wideBuild) :=
  integer_arithmetic (roundedFloats wideBuild) (roundedFloats_correct wideBuild)

/-! ## Where it is not exact -/

/-- A whole number that is rounded to a magnitude; the one before it is `m`. -/
theorem rounded_magnitude {n : Nat} {m : Nat} {r : BitVec 64} (rounds : RoundsTo 64 52 n r)
    (finite : m + 1 < infinity 64 52) (lower : units 52 m + units 52 (m + 1) ≤ 2 * (n * 2 ^ 1074))
    (lowerTie : units 52 m + units 52 (m + 1) = 2 * (n * 2 ^ 1074) → m % 2 = 1)
    (upper : 2 * (n * 2 ^ 1074) ≤ units 52 (m + 1) + units 52 (m + 2))
    (upperTie : 2 * (n * 2 ^ 1074) = units 52 (m + 1) + units 52 (m + 2) → m % 2 = 1) : magnitude r = m + 1 := by
  have nearest := nearest_nat binary64 least_binary64 finite lower lowerTie upper upperTie
  have rounded := rounds.nearest
  rw [abs_of_nonneg (Nat.cast_nonneg n)] at rounded
  exact rounded.unique nearest

theorem rounded_value {n m : Nat} {r : BitVec 64} (rounds : RoundsTo 64 52 n r) (positive : n ≠ 0)
    (magnitude : magnitude r = m) {v : Nat} (counted : units 52 m = v * 2 ^ 1074) : Ieee.value 64 52 r = v := by
  have sign := rounds.sign (Nat.cast_ne_zero.mpr positive)
  rw [decide_eq_false (Nat.cast_nonneg n).not_gt] at sign
  unfold Ieee.value
  rw [sign, if_neg Bool.false_ne_true, magnitude, binary64_reaches.absValue_eq counted]

/-- An integer power with a negative exponent is refused, and a sum of two integers between floats is rounded to the
wrong float: 2^62 + 512 and 2^62 + 513 become 2^62 and 2^62 + 1024, so that the sum is a tie. -/
theorem negative_power_refused_sum_rounded_twice :
    (Checked.integerPower wideBuild 1 (-1) = some none ∧ (1 : ℚ) ^ (-1 : ℤ) = 1 ∧ Checked.Fits wideBuild 1) ∧
      ∃ r, pvBinaryOperation (roundedFloats wideBuild) enoughMemory .add (.int 4611686018427388416)
        (.int 4611686018427388417) = ⟨.ok (.float r), 0⟩ ∧
          ¬ FloatOf wideBuild ((4611686018427388416 + 4611686018427388417 : Int) : ℚ) r := by
  refine ⟨⟨by decide, one_zpow _, by decide⟩, ?_⟩
  have correct := roundedFloats_correct wideBuild
  have left : RoundsTo 64 52 ((4611686018427388416 : Nat) : ℚ) ((roundedFloats wideBuild).ofInt 4611686018427388416) :=
    correct.ofInt 4611686018427388416 (by decide)
  have right : RoundsTo 64 52 ((4611686018427388417 : Nat) : ℚ) ((roundedFloats wideBuild).ofInt 4611686018427388417) :=
    correct.ofInt 4611686018427388417 (by decide)
  have leftValue := rounded_value left (by decide)
    (rounded_magnitude left (m := 1085 * 2 ^ 52 - 1) (by decide +kernel) (by decide +kernel) (by decide +kernel)
      (by decide +kernel) (by decide +kernel)) (v := 2 ^ 62) (by decide +kernel)
  have rightValue := rounded_value right (by decide)
    (rounded_magnitude right (m := 1085 * 2 ^ 52) (by decide +kernel) (by decide +kernel) (by decide +kernel)
      (by decide +kernel) (by decide +kernel)) (v := 2 ^ 62 + 2 ^ 10) (by decide +kernel)
  have sum := correct.add _ _ (correct.ofInt_isFinite (i := 4611686018427388416) (by decide))
    (correct.ofInt_isFinite (i := 4611686018427388417) (by decide))
  have total : RoundsTo 64 52 ((2 ^ 63 + 2 ^ 10 : Nat) : ℚ) ((roundedFloats wideBuild).add
      ((roundedFloats wideBuild).ofInt 4611686018427388416) ((roundedFloats wideBuild).ofInt 4611686018427388417)) := by
    have exactly : Ieee.value 64 52 ((roundedFloats wideBuild).ofInt 4611686018427388416) +
        Ieee.value 64 52 ((roundedFloats wideBuild).ofInt 4611686018427388417) = ((2 ^ 63 + 2 ^ 10 : Nat) : ℚ) := by
      rw [leftValue, rightValue]
      norm_num
    rw [← exactly]
    exact sum
  have found := rounded_magnitude total (m := 1086 * 2 ^ 52 - 1) (by decide +kernel) (by decide +kernel)
    (by decide +kernel) (by decide +kernel) (by decide +kernel)
  have computed : integerBinaryFloat (roundedFloats wideBuild) .add 4611686018427388416 4611686018427388417 =
      .ok (.float ((roundedFloats wideBuild).add ((roundedFloats wideBuild).ofInt 4611686018427388416)
        ((roundedFloats wideBuild).ofInt 4611686018427388417))) := rfl
  refine ⟨_, (pvBinaryOperation_int rfl enoughMemory .add _ _).trans (by rw [← computed]; rfl), ?_⟩
  intro nearest
  have exactly : ((4611686018427388416 + 4611686018427388417 : Int) : ℚ) = ((2 ^ 63 + 2 ^ 10 + 1 : Nat) : ℚ) := by
    norm_num
  rw [exactly] at nearest
  have wanted := rounded_magnitude nearest (m := 1086 * 2 ^ 52) (by decide +kernel) (by decide +kernel)
    (by decide +kernel) (by decide +kernel) (by decide +kernel)
  have different : 1086 * 2 ^ 52 - 1 + 1 ≠ 1086 * 2 ^ 52 + 1 := by decide
  exact different (found.symm.trans wanted)

end PhpPico.Value
