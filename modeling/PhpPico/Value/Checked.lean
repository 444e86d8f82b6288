import PhpPico.Lib.SignedArithmetic
import PhpPico.Value.Binary

/-!
# Integer helpers as C evaluates them

The integer helpers of `value_ops.c` with expressions that have no value when they overflow, divide by zero or shift
too far. **On integers of the build every expression has a value, and the helpers are those on unbounded integers**,
exact or refused.
-/

namespace PhpPico.Value.Checked
open Signed

/-! ## The helpers -/

section Helpers
variable (cfg : Config)

/-- `pphp_integer_add`. -/
def integerAdd (left right : Int) : Option (Option Int) := do
  let overflow ← either
    (both (0 < right) ((Signed.sub cfg.intMin cfg.intMax cfg.intMax right).map fun limit => limit < left))
    (both (right < 0) ((Signed.sub cfg.intMin cfg.intMax cfg.intMin right).map fun limit => left < limit))
  if overflow then some none else (Signed.add cfg.intMin cfg.intMax left right).map some

/-- `pphp_integer_subtract`. -/
def integerSubtract (left right : Int) : Option (Option Int) := do
  let overflow ← either
    (both (0 < right) ((Signed.add cfg.intMin cfg.intMax cfg.intMin right).map fun limit => left < limit))
    (both (right < 0) ((Signed.add cfg.intMin cfg.intMax cfg.intMax right).map fun limit => limit < left))
  if overflow then some none else (Signed.sub cfg.intMin cfg.intMax left right).map some

/-- `pphp_integer_multiply`. -/
def integerMultiply (left right : Int) : Option (Option Int) := do
  let overflow ←
    if 0 < left then
      either
        (both (0 < right) ((Signed.div cfg.intMin cfg.intMax cfg.intMax right).map fun limit => limit < left))
        (both (right < 0) ((Signed.div cfg.intMin cfg.intMax cfg.intMin left).map fun limit => right < limit))
    else if left < 0 then
      either
        (both (0 < right) ((Signed.div cfg.intMin cfg.intMax cfg.intMin right).map fun limit => left < limit))
        (both (right < 0) ((Signed.div cfg.intMin cfg.intMax cfg.intMax right).map fun limit => left < limit))
    else some false
  if overflow then some none else (Signed.mul cfg.intMin cfg.intMax left right).map some

/-- `pphp_integer_negate`. -/
def integerNegate (value : Int) : Option (Option Int) :=
  if value = cfg.intMin then some none else (Signed.neg cfg.intMin cfg.intMax value).map some

/-- A step behind one that may be refused. -/
def behind (result : Option (Option Int)) (next : Int → Option (Option Int)) : Option (Option Int) :=
  result.bind fun result => result.elim (some none) next

/-- The loop of `pphp_integer_power`. -/
def integerPowerLoop (value base : Int) (exponent : Nat) : Option (Option Int) :=
  if exponent = 0 then some (some value)
  else
    behind (if exponent % 2 ≠ 0 then integerMultiply cfg value base else some (some value)) fun value =>
      behind (if exponent / 2 ≠ 0 then integerMultiply cfg base base else some (some base)) fun base =>
        integerPowerLoop value base (exponent / 2)
termination_by exponent

/-- `pphp_integer_power`. -/
def integerPower (base exponent : Int) : Option (Option Int) :=
  if exponent < 0 then some none else integerPowerLoop cfg 1 base exponent.toNat

/-- The distance of a shift: `(uint64_t)distance & (uint64_t)(width - 1U)`. -/
def shift (distance : Int) : Nat := (BitVec.ofInt 64 distance &&& BitVec.ofNat 64 (cfg.intWidth - 1)).toNat

/-- `integer_shift_left`. -/
def integerShiftLeft (value distance : Int) : Option Int :=
  (Signed.shiftLeft (BitVec.ofInt cfg.intWidth value) (shift cfg distance)).map BitVec.toInt

/-- `integer_shift_right`. -/
def integerShiftRight (value distance : Int) : Option Int :=
  let shift := shift cfg distance
  if shift = 0 then some value
  else if 0 ≤ value then do
    let quotient ← Signed.shiftRight (BitVec.ofInt 64 value) shift
    Signed.exact cfg.intMin cfg.intMax quotient.toNat
  else do
    let magnitude := 0#64 - BitVec.ofInt 64 value
    let quotient ← Signed.shiftRight magnitude shift
    let remainderMask ← (Signed.shiftLeft 1#64 shift).map fun power => power - 1#64
    let quotient := if magnitude &&& remainderMask ≠ 0#64 then quotient + 1#64 else quotient
    if quotient = BitVec.ofNat 64 cfg.intMax + 1#64 then some cfg.intMin
    else do
      let quotient ← Signed.exact cfg.intMin cfg.intMax quotient.toNat
      Signed.neg cfg.intMin cfg.intMax quotient

end Helpers

/-! ## Defined expressions -/

section Defined
variable {cfg : Config} {left right value base : Int}

/-- An integer of the build. -/
abbrev Fits (cfg : Config) (i : Int) : Prop := Signed.Fits cfg.intMin cfg.intMax i

/-- An integer, if the build has it. -/
abbrev exact (cfg : Config) (i : Int) : Option Int := Signed.exact cfg.intMin cfg.intMax i

theorem zero_in_range (cfg : Config) : cfg.intMin ≤ 0 ∧ (0 : Int) ≤ cfg.intMax := by
  unfold Config.intMin
  omega

theorem guarded {overflow : Bool} {guard : Option Bool} {i : Int} {result : Option Int}
    (defined : guard = some overflow) (decides : overflow = true ↔ ¬ Fits cfg i) (expression : result = exact cfg i) :
    (guard.bind fun overflow => if overflow then some none else result.map some) = some (exact cfg i) := by
  rw [defined, Option.bind_some, expression]
  by_cases fits : Fits cfg i
  · have passes : overflow = false := Bool.eq_false_iff.mpr fun stops => decides.mp stops fits
    rw [passes, if_neg Bool.false_ne_true]
    unfold exact
    rw [exact_of_fits fits]
    rfl
  · rw [decides.mpr fits, if_pos rfl]
    unfold exact
    rw [exact_of_not_fits fits]

theorem limit_apart (fits' : Fits cfg right) :
    (0 < right → Signed.sub cfg.intMin cfg.intMax cfg.intMax right = some (cfg.intMax - right) ∧
      Signed.add cfg.intMin cfg.intMax cfg.intMin right = some (cfg.intMin + right)) ∧
    (right < 0 → Signed.sub cfg.intMin cfg.intMax cfg.intMin right = some (cfg.intMin - right) ∧
      Signed.add cfg.intMin cfg.intMax cfg.intMax right = some (cfg.intMax + right)) := by
  have bounds := zero_in_range cfg
  refine ⟨fun above => ⟨?_, ?_⟩, fun below => ⟨?_, ?_⟩⟩ <;> apply exact_of_fits <;>
    unfold Fits Signed.Fits at * <;> omega

theorem integerAdd_exact (fits : Fits cfg left) (fits' : Fits cfg right) :
    integerAdd cfg left right = some (exact cfg (left + right)) := by
  have apart := limit_apart fits'
  refine guarded (either_eq (both_eq fun above => (apart.1 (of_decide_eq_true above)).1)
    (both_eq fun below => (apart.2 (of_decide_eq_true below)).1)) ?_ rfl
  simp only [Bool.or_eq_true, Bool.and_eq_true, decide_eq_true_eq]
  exact Signed.add_guard fits

theorem integerSubtract_exact (fits : Fits cfg left) (fits' : Fits cfg right) :
    integerSubtract cfg left right = some (exact cfg (left - right)) := by
  have apart := limit_apart fits'
  refine guarded (either_eq (both_eq fun above => (apart.1 (of_decide_eq_true above)).2)
    (both_eq fun below => (apart.2 (of_decide_eq_true below)).2)) ?_ rfl
  simp only [Bool.or_eq_true, Bool.and_eq_true, decide_eq_true_eq]
  exact Signed.sub_guard fits

theorem integerMultiply_exact (fits : Fits cfg left) :
    integerMultiply cfg left right = some (exact cfg (left * right)) := by
  have zero := zero_in_range cfg
  have least : Fits cfg cfg.intMin := ⟨le_rfl, zero.1.trans zero.2⟩
  have greatest : Fits cfg cfg.intMax := ⟨zero.1.trans zero.2, le_rfl⟩
  have opposite : Fits cfg (-cfg.intMax) := by
    unfold Fits Signed.Fits Config.intMin
    omega
  rcases Int.lt_trichotomy left 0 with negative | rfl | positive
  · unfold integerMultiply
    rw [if_neg negative.not_gt, if_pos negative]
    refine guarded (either_eq
      (both_eq fun above => Signed.div_pos zero least (of_decide_eq_true above))
      (both_eq fun below => Signed.div_neg zero greatest opposite (of_decide_eq_true below))) ?_ rfl
    simp only [Bool.or_eq_true, Bool.and_eq_true, decide_eq_true_eq]
    exact Signed.mul_guard_neg zero negative
  · unfold integerMultiply
    rw [if_neg (lt_irrefl 0), if_neg (lt_irrefl 0)]
    refine guarded rfl ?_ rfl
    rw [zero_mul]
    exact iff_of_false Bool.false_ne_true (not_not_intro zero)
  · unfold integerMultiply
    rw [if_pos positive]
    refine guarded (either_eq
      (both_eq fun above => Signed.div_pos zero greatest (of_decide_eq_true above))
      (both_eq fun _ => Signed.div_pos zero least positive)) ?_ rfl
    simp only [Bool.or_eq_true, Bool.and_eq_true, decide_eq_true_eq]
    exact Signed.mul_guard_pos zero positive

theorem integerNegate_exact (fits : Fits cfg value) : integerNegate cfg value = some (exact cfg (-value)) := by
  unfold integerNegate
  by_cases least : value = cfg.intMin
  · rw [if_pos least]
    unfold exact
    rw [exact_of_not_fits]
    unfold Fits Signed.Fits Config.intMin at *
    omega
  · have other : Fits cfg (-value) := by
      unfold Fits Signed.Fits Config.intMin at *
      omega
    rw [if_neg least]
    unfold exact Signed.neg
    rw [exact_of_fits other]
    rfl

/-! ## Powers -/

theorem behind_some (value : Int) (next : Int → Option (Option Int)) :
    behind (some (some value)) next = next value := rfl

theorem behind_exact {i : Int} {next : Int → Option (Option Int)} {j : Int}
    (inside : Fits cfg i → next i = some (exact cfg j)) (outside : ¬ Fits cfg i → ¬ Fits cfg j) :
    behind (some (exact cfg i)) next = some (exact cfg j) := by
  unfold exact at *
  by_cases fits : Fits cfg i
  · rw [exact_of_fits fits]
    exact inside fits
  · rw [exact_of_not_fits fits, exact_of_not_fits (outside fits)]
    rfl

/-- The widths are even, so that the bounds are odd powers of two. -/
theorem range_odd (cfg : Config) : ∃ k, cfg.intMin = -2 ^ (2 * k + 1) ∧ (cfg.intMax : Int) = 2 ^ (2 * k + 1) - 1 := by
  unfold Config.intMin Config.intMax
  cases cfg.int64 with
  | true => exact ⟨31, rfl, rfl⟩
  | false => exact ⟨15, rfl, rfl⟩

/-- **The loop computes the product of its value and the power that is left**, and is refused only if that is not
an integer of the build: the value is not zero unless the base is. -/
theorem integerPowerLoop_exact (exponent : Nat) : ∀ value base : Int, Fits cfg value → Fits cfg base →
    (value = 0 → base = 0) → integerPowerLoop cfg value base exponent = some (exact cfg (value * base ^ exponent)) := by
  induction exponent using Nat.strong_induction_on with
  | _ exponent ih =>
    intro value base fits fits' zero
    have range := zero_in_range cfg
    obtain ⟨k, least, greatest⟩ := range_odd cfg
    rw [integerPowerLoop]
    by_cases done : exponent = 0
    · rw [if_pos done, done, pow_zero, mul_one]
      unfold exact
      rw [exact_of_fits fits]
    · rw [if_neg done]
      -- the square of the base, and what is left of the loop behind it
      have rest : ∀ value : Int, Fits cfg value → (value = 0 → base = 0) →
          behind (if exponent / 2 ≠ 0 then integerMultiply cfg base base else some (some base))
            (fun base => integerPowerLoop cfg value base (exponent / 2)) =
              some (exact cfg (value * (base * base) ^ (exponent / 2))) := by
        intro value fits zero
        by_cases last : exponent / 2 = 0
        · rw [if_neg (not_not_intro last), behind_some, ih _ (by omega) value base fits fits' zero, last, pow_zero,
            pow_zero]
        · rw [if_pos last, integerMultiply_exact fits']
          apply behind_exact
          · intro square
            apply ih _ (by omega) value _ fits square
            intro none
            rw [zero none, mul_zero]
          · intro out
            obtain ⟨more, exponents⟩ : ∃ more, exponent / 2 = more + 1 := ⟨exponent / 2 - 1, by omega⟩
            have nonzero : base ≠ 0 := by
              rintro rfl
              exact out range
            rw [exponents, pow_succ, ← mul_assoc]
            apply Signed.not_fits_mul_square least greatest out
            apply mul_ne_zero (fun none => nonzero (zero none))
            exact pow_ne_zero _ (mul_ne_zero nonzero nonzero)
      have power : base ^ exponent = base ^ (exponent % 2) * (base * base) ^ (exponent / 2) := by
        rw [← pow_two, ← pow_mul, ← pow_add, Nat.mod_add_div]
      by_cases odd : exponent % 2 = 0
      · rw [if_neg (not_not_intro odd), behind_some, rest value fits zero, power, odd, pow_zero, one_mul]
      · have one : exponent % 2 = 1 := by omega
        rw [if_pos odd, integerMultiply_exact fits, power, one, pow_one, ← mul_assoc]
        apply behind_exact
        · intro product
          apply rest _ product
          intro none
          rcases mul_eq_zero.mp none with none | none
          · exact zero none
          · exact none
        · intro out
          have nonzero : base ≠ 0 := by
            rintro rfl
            rw [mul_zero] at out
            exact out range
          apply Signed.not_fits_mul_pos range out
          exact pow_pos (mul_self_pos.mpr nonzero) _

theorem integerPower_exact {exponent : Int} (fits : Fits cfg base) :
    integerPower cfg base exponent = some (if exponent < 0 then none else exact cfg (base ^ exponent.toNat)) := by
  unfold integerPower
  split
  · rfl
  · rw [integerPowerLoop_exact _ 1 base _ fits (fun impossible => absurd impossible one_ne_zero), one_mul]
    obtain ⟨k, least, greatest⟩ := range_odd cfg
    unfold Fits Signed.Fits
    omega

/-! ## Shifts -/

theorem shift_eq (cfg : Config) (distance : Int) : shift cfg distance = shiftDistance cfg distance := by
  have low : ∀ k : Nat, k ≤ 6 →
      (BitVec.ofInt 64 distance &&& BitVec.ofNat 64 (2 ^ k - 1)).toNat = (distance % (2 ^ k : Nat)).toNat := by
    intro k small
    have power : 2 ^ k ≤ 2 ^ 6 := Nat.pow_le_pow_right two_pos small
    have divides : ((2 ^ k : Nat) : Int) ∣ ((2 ^ 64 : Nat) : Int) := by exact_mod_cast pow_dvd_pow 2 (by omega)
    have whole : 0 ≤ distance % ((2 ^ 64 : Nat) : Int) := Int.emod_nonneg _ (by decide)
    have part : 0 ≤ distance % ((2 ^ k : Nat) : Int) := Int.emod_nonneg _ (by positivity)
    rw [BitVec.toNat_and, BitVec.toNat_ofNat, Nat.mod_eq_of_lt (by omega), Nat.and_two_pow_sub_one_eq_mod,
      BitVec.toNat_ofInt]
    apply Int.natCast_inj.mp
    rw [Int.natCast_mod, Int.toNat_of_nonneg whole, Int.toNat_of_nonneg part, Int.emod_emod_of_dvd _ divides]
  unfold shift shiftDistance Config.intWidth
  cases cfg.int64 with
  | true => exact low 6 le_rfl
  | false => exact low 5 (by omega)

theorem shift_lt (cfg : Config) (distance : Int) : shift cfg distance < cfg.intWidth := by
  rw [shift_eq]
  unfold shiftDistance
  have positive : 0 < cfg.intWidth := by
    unfold Config.intWidth
    split <;> decide
  have := Int.emod_lt_of_pos distance (Int.natCast_pos.mpr positive)
  omega

theorem intWidth_le (cfg : Config) : cfg.intWidth ≤ 64 := by
  unfold Config.intWidth
  split <;> decide

theorem integerShiftLeft_eq (value distance : Int) :
    integerShiftLeft cfg value distance = some (Value.integerShiftLeft cfg value distance) := by
  unfold integerShiftLeft Signed.shiftLeft
  rw [if_pos (shift_lt cfg distance), Option.map_some, shift_eq]
  rfl

theorem integerShiftLeft_value (value distance : Int) : Value.integerShiftLeft cfg value distance =
    (value * 2 ^ shiftDistance cfg distance).bmod (2 ^ cfg.intWidth) := by
  unfold Value.integerShiftLeft integerBits
  have nonneg : 0 ≤ value % ((2 ^ cfg.intWidth : Nat) : Int) := Int.emod_nonneg _ (by positivity)
  rw [BitVec.toInt_shiftLeft, BitVec.toNat_ofInt, Nat.shiftLeft_eq, Int.natCast_mul, Int.toNat_of_nonneg nonneg,
    Int.emod_mul_bmod]
  push_cast
  rfl

theorem magnitude_toNat (fits : Fits cfg value) (negative : value < 0) :
    (0#64 - BitVec.ofInt 64 value).toNat = value.natAbs ∧ value.natAbs ≤ cfg.intMax + 1 ∧ cfg.intMax + 1 ≤ 2 ^ 63 := by
  have greatest : cfg.intMax + 1 ≤ 2 ^ 63 := by
    unfold Config.intMax
    split <;> decide
  have size : value.natAbs ≤ cfg.intMax + 1 := by
    unfold Fits Signed.Fits Config.intMin at fits
    omega
  refine ⟨?_, size, greatest⟩
  rw [BitVec.toNat_sub, BitVec.toNat_ofInt, BitVec.toNat_ofNat]
  omega

/-- **A shift to the right divides and rounds down.** -/
theorem integerShiftRight_value (value distance : Int) :
    Value.integerShiftRight cfg value distance = value / 2 ^ shiftDistance cfg distance := by
  have power : ((2 ^ shiftDistance cfg distance : Nat) : Int) = 2 ^ shiftDistance cfg distance := by push_cast; rfl
  unfold Value.integerShiftRight
  dsimp only
  by_cases zero : shiftDistance cfg distance = 0
  · rw [if_pos zero, zero, pow_zero, Int.ediv_one]
  · rw [if_neg zero]
    by_cases nonneg : 0 ≤ value
    · rw [if_pos nonneg, Nat.shiftRight_eq_div_pow, Int.natCast_ediv, Int.toNat_of_nonneg nonneg, power]
    · have opposite : value = -(value.natAbs : Int) := by omega
      have rounded := Signed.neg_ediv_eq value.natAbs (Nat.two_pow_pos (shiftDistance cfg distance))
      rw [if_neg nonneg, Nat.shiftRight_eq_div_pow, ← power]
      conv_rhs => rw [opposite, rounded]
      generalize (value.natAbs / 2 ^ shiftDistance cfg distance +
        if value.natAbs % 2 ^ shiftDistance cfg distance ≠ 0 then 1 else 0) = quotient
      split
      · rename_i least
        rw [least]
        unfold Config.intMin
        push_cast
        ring
      · rfl

theorem integerShiftRight_eq (fits : Fits cfg value) (distance : Int) :
    integerShiftRight cfg value distance = some (Value.integerShiftRight cfg value distance) := by
  have range := zero_in_range cfg
  have narrow : shift cfg distance < 64 := (shift_lt cfg distance).trans_le (intWidth_le cfg)
  have same := shift_eq cfg distance
  unfold integerShiftRight Value.integerShiftRight
  dsimp only
  rw [← same]
  by_cases zero : shift cfg distance = 0
  · rw [if_pos zero, if_pos zero]
  · rw [if_neg zero, if_neg zero]
    unfold Signed.shiftRight Signed.shiftLeft
    rw [if_pos narrow, if_pos narrow]
    by_cases nonneg : 0 ≤ value
    · rw [if_pos nonneg, if_pos nonneg]
      have bits : (BitVec.ofInt 64 value >>> shift cfg distance).toNat = value.toNat >>> shift cfg distance := by
        have greatest : cfg.intMax < 2 ^ 63 := by
          unfold Config.intMax
          split <;> decide
        have small : value % ((2 ^ 64 : Nat) : Int) = value := by
          apply Int.emod_eq_of_lt nonneg
          unfold Fits Signed.Fits at fits
          omega
        rw [BitVec.toNat_ushiftRight, BitVec.toNat_ofInt, small]
      have inside : value.toNat >>> shift cfg distance ≤ value.toNat := by
        rw [Nat.shiftRight_eq_div_pow]
        exact Nat.div_le_self _ _
      show Signed.exact _ _ _ = _
      rw [bits]
      apply exact_of_fits
      unfold Fits Signed.Fits at *
      omega
    · rw [if_neg nonneg, if_neg nonneg]
      obtain ⟨bits, size, greatest⟩ := magnitude_toNat fits (by omega)
      have power : 2 ^ shift cfg distance ≤ 2 ^ 63 := Nat.pow_le_pow_right two_pos (by omega)
      have positive : 2 ≤ 2 ^ shift cfg distance := Nat.le_self_pow zero 2
      have mask : (1#64 <<< shift cfg distance - 1#64).toNat = 2 ^ shift cfg distance - 1 := by
        rw [BitVec.toNat_sub, BitVec.toNat_shiftLeft, Nat.shiftLeft_eq, BitVec.toNat_ofNat]
        omega
      have inexact : (0#64 - BitVec.ofInt 64 value) &&& (1#64 <<< shift cfg distance - 1#64) ≠ 0#64 ↔
          value.natAbs % 2 ^ shift cfg distance ≠ 0 := by
        rw [ne_eq, ← BitVec.toNat_inj, BitVec.toNat_and, bits, mask, Nat.and_two_pow_sub_one_eq_mod,
          BitVec.toNat_ofNat, Nat.zero_mod]
      have half : value.natAbs / 2 ^ shift cfg distance ≤ value.natAbs / 2 := Nat.div_le_div_left positive two_pos
      have shifted : ((0#64 - BitVec.ofInt 64 value) >>> shift cfg distance).toNat =
          value.natAbs >>> shift cfg distance := by
        rw [BitVec.toNat_ushiftRight, bits]
      rw [Nat.shiftRight_eq_div_pow] at shifted
      have quotient : (if (0#64 - BitVec.ofInt 64 value) &&& (1#64 <<< shift cfg distance - 1#64) ≠ 0#64 then
            (0#64 - BitVec.ofInt 64 value) >>> shift cfg distance + 1#64
          else (0#64 - BitVec.ofInt 64 value) >>> shift cfg distance).toNat =
            value.natAbs / 2 ^ shift cfg distance + if value.natAbs % 2 ^ shift cfg distance ≠ 0 then 1 else 0 := by
        by_cases rest : value.natAbs % 2 ^ shift cfg distance = 0
        · rw [if_neg (fun more => inexact.mp more rest), if_neg (not_not_intro rest), shifted]
          rfl
        · rw [if_pos (inexact.mpr rest), if_pos rest, BitVec.toNat_add, shifted, BitVec.toNat_ofNat]
          omega
      rw [Nat.shiftRight_eq_div_pow]
      rw [if_pos narrow, Option.map_some]
      dsimp only [bind, Option.bind]
      generalize (if (0#64 - BitVec.ofInt 64 value) &&& (1#64 <<< shift cfg distance - 1#64) ≠ 0#64 then
        (0#64 - BitVec.ofInt 64 value) >>> shift cfg distance + 1#64
          else (0#64 - BitVec.ofInt 64 value) >>> shift cfg distance) = bitsQuotient at *
      have ceiling : (value.natAbs / 2 ^ shift cfg distance +
          if value.natAbs % 2 ^ shift cfg distance ≠ 0 then 1 else 0) ≤ cfg.intMax + 1 := by
        split <;> omega
      generalize (value.natAbs / 2 ^ shift cfg distance +
        if value.natAbs % 2 ^ shift cfg distance ≠ 0 then 1 else 0) = ceilingQuotient at *
      have least : bitsQuotient = BitVec.ofNat 64 cfg.intMax + 1#64 ↔ ceilingQuotient = cfg.intMax + 1 := by
        rw [← BitVec.toNat_inj, quotient, BitVec.toNat_add, BitVec.toNat_ofNat, BitVec.toNat_ofNat]
        omega
      by_cases last : ceilingQuotient = cfg.intMax + 1
      · rw [if_pos (least.mpr last), if_pos last]
      · rw [if_neg (fun found => last (least.mp found)), if_neg last, quotient]
        have inside : Signed.Fits cfg.intMin cfg.intMax ceilingQuotient := by
          unfold Signed.Fits
          omega
        have negative : Signed.Fits cfg.intMin cfg.intMax (-(ceilingQuotient : Int)) := by
          unfold Signed.Fits Config.intMin
          omega
        rw [exact_of_fits inside]
        exact exact_of_fits negative

/-! ## Division -/

theorem div_defined (fits : Fits cfg left) (nonzero : right ≠ 0)
    (defined : Value.integerDivisionOverflows cfg left right = false) : Fits cfg (left.tdiv right) := by
  have size : (left.tdiv right).natAbs = left.natAbs / right.natAbs := Int.natAbs_tdiv left right
  unfold Value.integerDivisionOverflows at defined
  unfold Fits Signed.Fits Config.intMin at *
  rcases Int.lt_trichotomy right 0 with negative | none | positive
  · by_cases least : left = -(cfg.intMax : Int) - 1
    · -- the least integer is divided by -2 at most
      have two : 2 ≤ right.natAbs := by
        by_contra small
        have one : right = -1 := by omega
        rw [least, one] at defined
        simp at defined
      have half : left.natAbs / right.natAbs ≤ left.natAbs / 2 := Nat.div_le_div_left two two_pos
      omega
    · have cut := Nat.div_le_self left.natAbs right.natAbs
      omega
  · exact absurd none nonzero
  · have cut := Nat.div_le_self left.natAbs right.natAbs
    rcases Int.le_total 0 left with above | below
    · have := Int.tdiv_nonneg above positive.le
      omega
    · have := Int.tdiv_nonneg (Int.neg_nonneg_of_nonpos below) positive.le
      rw [Int.neg_tdiv] at this
      omega

theorem div_eq (fits : Fits cfg left) (nonzero : right ≠ 0)
    (defined : Value.integerDivisionOverflows cfg left right = false) :
    Signed.div cfg.intMin cfg.intMax left right = some (left.tdiv right) := by
  unfold Signed.div
  rw [if_neg nonzero]
  exact exact_of_fits (div_defined fits nonzero defined)

theorem mod_eq (fits : Fits cfg left) (nonzero : right ≠ 0)
    (defined : Value.integerDivisionOverflows cfg left right = false) :
    Signed.mod cfg.intMin cfg.intMax left right = some (left.tmod right) := by
  unfold Signed.mod
  rw [if_neg nonzero, exact_of_fits (div_defined fits nonzero defined)]
  rfl

end Defined

/-! ## The helpers of the model -/

section Model
variable {cfg : Config} {left right value base : Int}

theorem integerAdd_value (fits : Fits cfg left) : Value.integerAdd cfg left right = exact cfg (left + right) := by
  unfold Value.integerAdd exact Signed.exact
  by_cases inside : Fits cfg (left + right)
  · rw [if_pos inside, if_neg fun guard => (Signed.add_guard fits).mp guard inside]
  · rw [if_neg inside, if_pos ((Signed.add_guard fits).mpr inside)]

theorem integerSubtract_value (fits : Fits cfg left) :
    Value.integerSubtract cfg left right = exact cfg (left - right) := by
  unfold Value.integerSubtract exact Signed.exact
  by_cases inside : Fits cfg (left - right)
  · rw [if_pos inside, if_neg fun guard => (Signed.sub_guard fits).mp guard inside]
  · rw [if_neg inside, if_pos ((Signed.sub_guard fits).mpr inside)]

theorem integerMultiply_value (left right : Int) : Value.integerMultiply cfg left right = exact cfg (left * right) := by
  have zero := zero_in_range cfg
  unfold Value.integerMultiply exact Signed.exact
  rcases Int.lt_trichotomy left 0 with negative | rfl | positive
  · rw [if_neg (fun guard => absurd guard.1 negative.not_gt)]
    simp only [negative, true_and, Signed.mul_guard_neg zero negative, ite_not]
  · rw [if_neg (fun guard => absurd guard.1 (lt_irrefl 0)), if_neg (fun guard => absurd guard.1 (lt_irrefl 0)), if_pos]
    rw [zero_mul]
    exact zero
  · simp only [positive, positive.not_gt, true_and, false_and, if_false, Signed.mul_guard_pos zero positive, ite_not]

theorem integerPowerLoop_eq (exponent : Nat) : ∀ value base : Int, Fits cfg value → Fits cfg base →
    integerPowerLoop cfg value base exponent = some (Value.integerPowerLoop cfg value base exponent) := by
  induction exponent using Nat.strong_induction_on with
  | _ exponent ih =>
    intro value base fits fits'
    rw [integerPowerLoop, Value.integerPowerLoop]
    by_cases done : exponent = 0
    · rw [if_pos done, if_pos done]
    · rw [if_neg done, if_neg done]
      have rest : ∀ value : Int, Fits cfg value →
          behind (if exponent / 2 ≠ 0 then integerMultiply cfg base base else some (some base))
            (fun base => integerPowerLoop cfg value base (exponent / 2)) = some (if exponent / 2 = 0 then some value
                else (Value.integerMultiply cfg base base).bind fun base =>
                  Value.integerPowerLoop cfg value base (exponent / 2)) := by
        intro value fits
        by_cases last : exponent / 2 = 0
        · rw [if_neg (not_not_intro last), if_pos last, behind_some, last, integerPowerLoop, if_pos rfl]
        · rw [if_pos last, if_neg last, integerMultiply_exact fits', integerMultiply_value]
          unfold exact
          by_cases square : Fits cfg (base * base)
          · rw [exact_of_fits square]
            exact ih _ (by omega) value _ fits square
          · rw [exact_of_not_fits square]
            rfl
      by_cases odd : exponent % 2 = 1
      · rw [if_pos (by omega), if_pos odd, integerMultiply_exact fits, integerMultiply_value]
        unfold exact
        by_cases product : Fits cfg (value * base)
        · rw [exact_of_fits product]
          exact rest _ product
        · rw [exact_of_not_fits product]
          rfl
      · rw [if_neg (by omega), if_neg odd]
        exact rest value fits

theorem one_fits (cfg : Config) : Fits cfg 1 := by
  unfold Fits Signed.Fits Config.intMin Config.intMax
  split <;> decide

theorem integerPower_eq {exponent : Int} (fits : Fits cfg base) :
    integerPower cfg base exponent = some (Value.integerPower cfg base exponent) := by
  unfold integerPower Value.integerPower
  split
  · rfl
  · exact integerPowerLoop_eq _ 1 base (one_fits cfg) fits

end Model

/-! ## The operations -/

section Operations
variable {cfg : Config}

/-- An integer, or what the operation gives for floats. -/
def integerOr (floats : FloatOperations cfg) (left right : Int) (result : Option Int)
    (number : PFloat cfg → PFloat cfg → PFloat cfg) : PValue cfg :=
  match result with
  | some i => .int i
  | none => .float (number (floats.ofInt left) (floats.ofInt right))

/-- The operations on bits. -/
def integerBinaryBits (cfg : Config) (operation : Operation) (left right : Int) : Option (Option Int) :=
  match operation with
  | .shl => (integerShiftLeft cfg left right).map some
  | .shr => (integerShiftRight cfg left right).map some
  | bits => some (Value.integerBinaryBits cfg bits left right)

/-- `integer_binary_float`. -/
def integerBinaryFloat (floats : FloatOperations cfg) (operation : Operation) (left right : Int) :
    Option (Except (List UInt8) (PValue cfg)) :=
  match operation with
  | .add => (integerAdd cfg left right).map fun result => .ok (integerOr floats left right result floats.add)
  | .sub => (integerSubtract cfg left right).map fun result => .ok (integerOr floats left right result floats.sub)
  | .mul => (integerMultiply cfg left right).map fun result => .ok (integerOr floats left right result floats.mul)
  | .div =>
    if right = 0 then some (.error (ascii "Division by zero"))
    else do
      let whole ← both (!integerDivisionOverflows cfg left right)
        ((Signed.mod cfg.intMin cfg.intMax left right).map fun remainder => remainder = 0)
      let result ← if whole then (Signed.div cfg.intMin cfg.intMax left right).map some else some none
      some (.ok (integerOr floats left right result floats.div))
  | .mod =>
    if right = 0 then some (.error (ascii "Modulo by zero"))
    else if integerDivisionOverflows cfg left right then some (.ok (.int 0))
    else (Signed.mod cfg.intMin cfg.intMax left right).map fun remainder => .ok (.int remainder)
  | .pow =>
    (if 0 ≤ right then integerPower cfg left right else some none).map fun result =>
      .ok (integerOr floats left right result floats.power)
  | .concat => some (.error [])
  | bits =>
    (integerBinaryBits cfg bits left right).map fun result =>
      result.elim (.error []) fun i => .ok (.int i)

/-- The switch of `pv_binary_operation` in a build without floats. -/
def integerBinary (operation : Operation) (a b : Int) : Option (Except (List UInt8) (PValue cfg)) :=
  match operation with
  | .add => (integerAdd cfg a b).map integerResult
  | .sub => (integerSubtract cfg a b).map integerResult
  | .mul => (integerMultiply cfg a b).map integerResult
  | .div =>
    if b = 0 then some (.error (ascii "Division by zero"))
    else if integerDivisionOverflows cfg a b then some (integerResult none)
    else do
      let remainder ← Signed.mod cfg.intMin cfg.intMax a b
      if remainder ≠ 0 then some (.error (ascii "non-integral division requires float support"))
      else (Signed.div cfg.intMin cfg.intMax a b).map fun quotient => .ok (.int quotient)
  | .mod =>
    if b = 0 then some (.error (ascii "Modulo by zero"))
    else if integerDivisionOverflows cfg a b then some (integerResult none)
    else (Signed.mod cfg.intMin cfg.intMax a b).map fun remainder => .ok (.int remainder)
  | .pow =>
    if b < 0 then some (.error (ascii "negative exponent requires float support"))
    else (integerPower cfg a b).map integerResult
  | .concat => some (.error (ascii "invalid binary operation"))
  | bits =>
    (integerBinaryBits cfg bits a b).map fun result =>
      result.elim (.error (ascii "invalid binary operation")) fun i => .ok (.int i)

variable {left right : Int}

theorem integerBinaryBits_eq (operation : Operation) (fits : Fits cfg left) :
    integerBinaryBits cfg operation left right = some (Value.integerBinaryBits cfg operation left right) := by
  cases operation with
  | shl =>
    unfold integerBinaryBits
    rw [integerShiftLeft_eq]
    rfl
  | shr =>
    unfold integerBinaryBits
    rw [integerShiftRight_eq fits]
    rfl
  | _ => rfl

/-- **No expression of the operations on two integers overflows**, in a build with floats and in one without. -/
theorem integerBinaryFloat_eq (floats : FloatOperations cfg) (operation : Operation) (fits : Fits cfg left)
    (fits' : Fits cfg right) :
    integerBinaryFloat floats operation left right = some (Value.integerBinaryFloat floats operation left right) := by
  unfold integerBinaryFloat
  cases operation with
  | add =>
    simp only [integerAdd_exact fits fits', ← integerAdd_value fits]
    rfl
  | sub =>
    simp only [integerSubtract_exact fits fits', ← integerSubtract_value fits]
    rfl
  | mul =>
    simp only [integerMultiply_exact fits, ← integerMultiply_value]
    rfl
  | div =>
    by_cases zero : right = 0
    · simp [zero, Value.integerBinaryFloat]
    cases overflows : integerDivisionOverflows cfg left right with
    | true => simp [zero, overflows, both, integerOr, Value.integerBinaryFloat]
    | false =>
      by_cases whole : left.tmod right = 0 <;> simp [zero, overflows, mod_eq fits zero overflows,
        div_eq fits zero overflows, both, whole, integerOr, Value.integerBinaryFloat]
  | mod =>
    by_cases zero : right = 0
    · simp [zero, Value.integerBinaryFloat]
    cases overflows : integerDivisionOverflows cfg left right with
    | true => simp [zero, overflows, Value.integerBinaryFloat]
    | false => simp [zero, overflows, mod_eq fits zero overflows, Value.integerBinaryFloat]
  | pow =>
    unfold Value.integerBinaryFloat
    dsimp only
    split
    · rw [integerPower_eq fits]
      rfl
    · rfl
  | concat => rfl
  | _ =>
    dsimp only
    rw [integerBinaryBits_eq _ fits]
    rfl

theorem integerBinary_eq (operation : Operation) (fits : Fits cfg left) (fits' : Fits cfg right) :
    integerBinary operation left right = some (Value.integerBinary operation left right : Except _ (PValue cfg)) := by
  unfold integerBinary
  cases operation with
  | add => simp [integerAdd_exact fits fits', ← integerAdd_value fits, Value.integerBinary]
  | sub => simp [integerSubtract_exact fits fits', ← integerSubtract_value fits, Value.integerBinary]
  | mul => simp [integerMultiply_exact fits, ← integerMultiply_value, Value.integerBinary]
  | div =>
    by_cases zero : right = 0
    · simp [zero, Value.integerBinary]
    cases overflows : integerDivisionOverflows cfg left right with
    | true => simp [zero, overflows, Value.integerBinary]
    | false =>
      by_cases whole : left.tmod right = 0 <;> simp [zero, overflows, mod_eq fits zero overflows,
        div_eq fits zero overflows, whole, Value.integerBinary]
  | mod =>
    by_cases zero : right = 0
    · simp [zero, Value.integerBinary]
    cases overflows : integerDivisionOverflows cfg left right with
    | true => simp [zero, overflows, Value.integerBinary]
    | false => simp [zero, overflows, mod_eq fits zero overflows, Value.integerBinary]
  | pow =>
    unfold Value.integerBinary
    dsimp only
    split
    · rfl
    · rw [integerPower_eq fits]
      rfl
  | concat => rfl
  | _ =>
    dsimp only
    rw [integerBinaryBits_eq _ fits]
    rfl

end Operations

end PhpPico.Value.Checked
