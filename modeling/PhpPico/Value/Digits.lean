import PhpPico.Lib.Limbs
import PhpPico.Lib.Rounding
import PhpPico.Value.Numeric
import Mathlib.Data.List.GetD
import Mathlib.Data.Nat.Size

/-!
# Integer literals that do not fit

`pphp_integer_digits_to_float` reads the digits into limbs of 32 bits, more than a float can hold, and rounds them to
a significand. **The float is the one nearest to the integer**, and infinity when the limbs run out.
-/

namespace PhpPico.Value
open List Ieee Limbs

/-! ## Limbs -/

/-- `PPHP_INTEGER_FLOAT_LIMBS`. -/
def floatLimbs (cfg : Config) : Nat := if cfg.useDouble then 34 else 5

/-- `PPHP_INTEGER_FLOAT_PRECISION`. -/
def floatPrecision (cfg : Config) : Nat := if cfg.useDouble then 53 else 24

/-- `PPHP_INTEGER_FLOAT_MAX_EXPONENT`, which is the bias of the exponent, too. -/
def maxExponent (cfg : Config) : Nat := if cfg.useDouble then 1023 else 127

/-- `integer_float_digit`. -/
def integerFloatDigit (c : UInt8) : Nat :=
  if 48 ≤ c.toNat ∧ c.toNat ≤ 57 then c.toNat - 48
  else if 97 ≤ c.toNat ∧ c.toNat ≤ 102 then c.toNat - 97 + 10
  else c.toNat - 65 + 10

/-- `integer_float_append`. -/
def integerFloatAppend (cfg : Config) (base digit : Nat) (limbs : List Nat) : Option (List Nat) :=
  let (products, carry) := multiplyAdd (2 ^ 32) base digit limbs
  if carry ≠ 0 then if limbs.length = floatLimbs cfg then none else some (products ++ [carry]) else some products

/-- The loop over the digits, which may have `_` between them. -/
def appendDigits (cfg : Config) (base : Nat) : List UInt8 → List Nat → Option (List Nat)
  | [], limbs => some limbs
  | c :: rest, limbs =>
    if c ≠ 95 then (integerFloatAppend cfg base (integerFloatDigit c) limbs).bind (appendDigits cfg base rest)
    else appendDigits cfg base rest limbs

/-- The loop of `integer_float_bit_length` over a limb. -/
def limbBits : Nat → Nat → Nat
  | 0, _ => 0
  | room + 1, top => if top ≠ 0 then limbBits room (top >>> 1) + 1 else 0

/-- `integer_float_bit_length`. -/
def bitLength (limbs : List Nat) : Nat :=
  match limbs.getLast? with
  | none => 0
  | some top => (limbs.length - 1) * 32 + limbBits 32 top

/-- `integer_float_bit`. -/
def floatBit (limbs : List Nat) (position : Nat) : Bool := (limbs.getD (position / 32) 0).testBit (position % 32)

/-- `integer_float_any_bits_below`. -/
def anyBitsBelow (limbs : List Nat) (limit : Nat) : Bool :=
  (limbs.take (limit / 32)).any (· != 0) || (decide (limit / 32 < limbs.length) && limit % 32 != 0 &&
      limbs.getD (limit / 32) 0 &&& ((1 <<< (limit % 32)) - 1) != 0)

/-- `integer_float_top_bits`: `count` bits, from the top. -/
def topBits (limbs : List Nat) (bitLength : Nat) : Nat → Nat
  | 0 => 0
  | count + 1 => topBits limbs bitLength count <<< 1 ||| (floatBit limbs (bitLength - (count + 1))).toNat

/-- `integer_float_infinity`. -/
def floatInfinity (cfg : Config) : PFloat cfg :=
  .ofNat _ (if cfg.useDouble then 0x7ff0000000000000 else 0x7f800000)

/-- The significand of limbs, with `discarded` bits rounded off. -/
def roundedSignificand (cfg : Config) (limbs : List Nat) (bitLength : Nat) : Nat :=
  let retained := if bitLength < floatPrecision cfg then bitLength else floatPrecision cfg
  let discarded := bitLength - retained
  let significand := topBits limbs bitLength retained
  if retained < floatPrecision cfg then significand <<< (floatPrecision cfg - retained)
  else if discarded ≠ 0 ∧ floatBit limbs (discarded - 1) = true ∧
      (anyBitsBelow limbs (discarded - 1) = true ∨ significand % 2 ≠ 0) then
    significand + 1
  else significand

/-- `pphp_integer_digits_to_float`. -/
def pphpIntegerDigitsToFloat (cfg : Config) (digits : List UInt8) (base : Nat) : PFloat cfg :=
  match appendDigits cfg base digits [] with
  | none => floatInfinity cfg
  | some limbs =>
    let bitLength := bitLength limbs
    if bitLength = 0 then 0
    else
      let significand := roundedSignificand cfg limbs bitLength
      let carried := significand = 1 <<< floatPrecision cfg
      let exponent := if carried then bitLength - 1 + 1 else bitLength - 1
      let significand := if carried then significand >>> 1 else significand
      if maxExponent cfg < exponent then floatInfinity cfg
      else
        .ofNat _ (((exponent + maxExponent cfg) <<< fractionBits cfg) |||
          (significand &&& (if cfg.useDouble then 0x000fffffffffffff else 0x007fffff)))

/-! ## What digits denote -/

/-- The value of a digit. -/
def digitValue (c : UInt8) : Option Nat :=
  if 48 ≤ c.toNat ∧ c.toNat ≤ 57 then some (c.toNat - 48)
  else if 97 ≤ c.toNat ∧ c.toNat ≤ 102 then some (c.toNat - 87)
  else if 65 ≤ c.toNat ∧ c.toNat ≤ 70 then some (c.toNat - 55)
  else none

/-- The integer that digits denote behind others; an underscore stands for nothing. -/
def denoted (base : Nat) : List UInt8 → Nat → Option Nat
  | [], n => some n
  | c :: rest, n =>
    if c = 95 then denoted base rest n
    else
      ((digitValue c).filter fun digit => decide (digit < base)).bind fun digit => denoted base rest (n * base + digit)

theorem integerFloatDigit_eq {c : UInt8} {digit : Nat} (found : digitValue c = some digit) :
    integerFloatDigit c = digit := by
  unfold digitValue at found
  unfold integerFloatDigit
  split at found
  · rename_i decimal
    rw [if_pos decimal]
    exact Option.some.inj found
  · rename_i notDecimal
    rw [if_neg notDecimal]
    split at found
    · rename_i lower
      rw [if_pos lower]
      have := Option.some.inj found
      omega
    · rename_i notLower
      rw [if_neg notLower]
      split at found
      · have := Option.some.inj found
        omega
      · cases found

variable {base n length : Nat} {text : List UInt8} (cfg : Config)

/-- Digits only add to what stands in front of them. -/
theorem le_denoted (more : 0 < base) {m : Nat} (h : denoted base text n = some m) : n ≤ m := by
  induction text generalizing n with
  | nil => exact (Option.some.inj h).le
  | cons c rest ih =>
    unfold denoted at h
    split at h
    · exact ih h
    · obtain ⟨digit, -, next⟩ := Option.bind_eq_some_iff.mp h
      exact (Nat.le_mul_of_pos_right n more).trans ((Nat.le_add_right _ digit).trans (ih next))

/-- The limbs hold a number, or they have run out before it. -/
def Collected (cfg : Config) (n : Nat) : Option (List Nat) → Prop
  | some limbs => Normal (2 ^ 32) limbs ∧ Nat.ofDigits (2 ^ 32) limbs = n
  | none => (2 ^ 32) ^ floatLimbs cfg ≤ n

theorem integerFloatAppend_collected {digit : Nat} (two : 2 ≤ base) (sixteen : base ≤ 16) (small : digit < base)
    {limbs : List Nat} (normal : Normal (2 ^ 32) limbs) :
    Collected cfg (Nat.ofDigits (2 ^ 32) limbs * base + digit) (integerFloatAppend cfg base digit limbs) := by
  have value := pushCarry_value (2 ^ 32) base digit limbs
  have stays := normal.multiplyAdd small (sixteen.trans (by decide)) (by omega)
  have whole := multiplyAdd_value (2 ^ 32) base digit limbs
  unfold pushCarry at value stays
  unfold integerFloatAppend
  dsimp only
  by_cases carried : (multiplyAdd (2 ^ 32) base digit limbs).2 ≠ 0
  · rw [if_pos carried] at value stays
    rw [if_pos carried]
    split
    · rename_i full
      have filled := Nat.mul_le_mul_left ((2 ^ 32) ^ limbs.length) (Nat.one_le_iff_ne_zero.mpr carried)
      rw [full] at filled whole
      show (2 ^ 32) ^ floatLimbs cfg ≤ _
      omega
    · exact ⟨stays, value⟩
  · rw [if_neg carried] at value stays
    rw [if_neg carried]
    exact ⟨stays, value⟩

/-- The digits are in the limbs, or the limbs have run out and the digits denote more than they hold. -/
theorem appendDigits_collected (two : 2 ≤ base) (sixteen : base ≤ 16) {limbs : List Nat}
    (normal : Normal (2 ^ 32) limbs) (h : denoted base text (Nat.ofDigits (2 ^ 32) limbs) = some n) :
    Collected cfg n (appendDigits cfg base text limbs) := by
  induction text generalizing limbs with
  | nil => exact ⟨normal, Option.some.inj h⟩
  | cons c rest ih =>
    unfold denoted at h
    unfold appendDigits
    split at h
    · rename_i underscore
      rw [if_neg (not_not.mpr underscore)]
      exact ih normal h
    · rename_i other
      rw [if_pos other]
      obtain ⟨digit, found, next⟩ := Option.bind_eq_some_iff.mp h
      obtain ⟨known, below⟩ := Option.filter_eq_some_iff.mp found
      have small : digit < base := of_decide_eq_true below
      have step := integerFloatAppend_collected cfg two sixteen small normal
      rw [integerFloatDigit_eq known]
      cases result : integerFloatAppend cfg base digit limbs with
      | none =>
        rw [result] at step
        exact step.trans (le_denoted (by omega) next)
      | some all =>
        rw [result] at step
        rw [← step.2] at next
        exact ih step.1 next

/-! ## Bits of limbs -/

theorem limbBits_eq {room top : Nat} (fits : top < 2 ^ room) : limbBits room top = Nat.size top := by
  induction room generalizing top with
  | zero =>
    obtain rfl : top = 0 := by omega
    rfl
  | succ room ih =>
    unfold limbBits
    split
    · rename_i nonzero
      rw [pow_succ] at fits
      rw [ih (by rw [Nat.shiftRight_eq_div_pow]; omega)]
      apply eq_of_forall_ge_iff
      intro bits
      cases bits with
      | zero =>
        have := Nat.size_pos.mpr (pos_of_ne_zero nonzero)
        omega
      | succ bits =>
        rw [Nat.succ_le_succ_iff, Nat.size_le, Nat.size_le, Nat.shiftRight_eq_div_pow, pow_succ]
        omega
    · rename_i zero
      rw [not_not.mp zero]
      rfl

variable {limbs : List Nat}

theorem bitLength_eq (normal : Normal (2 ^ 32) limbs) : bitLength limbs = Nat.size (Nat.ofDigits (2 ^ 32) limbs) := by
  rcases eq_nil_or_concat limbs with rfl | ⟨init, top, rfl⟩
  · rfl
  · rw [concat_eq_append] at *
    have leading := normal.leading (by simp)
    have below : top < 2 ^ 32 := normal.limb top (by simp)
    have lower : Nat.ofDigits (2 ^ 32) init < (2 ^ 32) ^ init.length :=
      Nat.ofDigits_lt_base_pow_length (by decide) fun l listed => normal.limb l (mem_append_left _ listed)
    rw [length_append, length_singleton, Nat.add_sub_cancel, Nat.ofDigits_append, Nat.ofDigits_singleton] at leading
    have positive : 0 < top := by
      rcases Nat.eq_zero_or_pos top with rfl | positive
      · omega
      · exact positive
    unfold bitLength
    rw [getLast?_concat]
    dsimp only
    rw [length_append, length_singleton, Nat.add_sub_cancel, limbBits_eq below, Nat.ofDigits_append,
      Nat.ofDigits_singleton]
    rw [← pow_mul] at lower ⊢
    generalize Nat.ofDigits (2 ^ 32) init = rest at *
    have sum : init.length * 32 = 32 * init.length := mul_comm _ _
    rw [sum]
    generalize 32 * init.length = k at *
    apply eq_of_forall_ge_iff
    intro bits
    rw [Nat.size_le]
    rcases lt_or_ge bits k with short | long
    · have := Nat.pow_le_pow_right two_pos short.le
      have := Nat.le_mul_of_pos_right (2 ^ k) positive
      constructor <;> omega
    · obtain ⟨d, rfl⟩ : ∃ d, bits = k + d := ⟨bits - k, by omega⟩
      rw [Nat.add_le_add_iff_left, Nat.size_le, pow_add]
      constructor
      · intro inside
        have := Nat.mul_le_mul_left (2 ^ k) (Nat.succ_le_of_lt inside)
        rw [Nat.mul_succ] at this
        omega
      · intro inside
        by_contra outside
        have := Nat.mul_le_mul_left (2 ^ k) (not_lt.mp outside)
        omega

theorem floatBit_eq (normal : Normal (2 ^ 32) limbs) (position : Nat) :
    floatBit limbs position = (Nat.ofDigits (2 ^ 32) limbs).testBit position :=
  (testBit_ofDigits (by decide) normal.limb position).symm

theorem anyBitsBelow_iff (normal : Normal (2 ^ 32) limbs) (limit : Nat) :
    anyBitsBelow limbs limit = true ↔ Nat.ofDigits (2 ^ 32) limbs % 2 ^ limit ≠ 0 := by
  have split := ofDigits_mod normal.limb (limit / 32) (Nat.mod_lt limit (by decide))
  rw [Nat.div_add_mod] at split
  have mask : ∀ n r : Nat, n &&& ((1 <<< r) - 1) = n % 2 ^ r := by
    intro n r
    rw [Nat.one_shiftLeft, Nat.and_two_pow_sub_one_eq_mod]
  have zeros : ∀ l : List Nat, Nat.ofDigits (2 ^ 32) l ≠ 0 ↔ l.any (· != 0) = true := by
    intro l
    induction l with
    | nil => simp
    | cons first rest ih =>
      rw [Nat.ofDigits_cons, any_cons, Bool.or_eq_true, ← ih, bne_iff_ne]
      omega
  have sums : ∀ a b c : Nat, 0 < b → (a + b * c ≠ 0 ↔ a ≠ 0 ∨ c ≠ 0) := by
    intro a b c positive
    rw [Ne, Nat.add_eq_zero_iff, Nat.mul_eq_zero]
    omega
  rw [split, sums _ _ _ (by positivity), zeros]
  unfold anyBitsBelow
  simp only [Bool.or_eq_true, Bool.and_eq_true, decide_eq_true_eq, bne_iff_ne, mask]
  apply or_congr_right
  constructor
  · exact fun h => h.2
  · intro part
    refine ⟨⟨?_, ?_⟩, part⟩
    · by_contra outside
      apply part
      rw [getD_eq_default _ _ (not_lt.mp outside), Nat.zero_mod]
    · intro zero
      apply part
      rw [zero, pow_zero, Nat.mod_one]

theorem topBits_eq (normal : Normal (2 ^ 32) limbs) (size : Nat.ofDigits (2 ^ 32) limbs < 2 ^ length)
    {count : Nat} (inside : count ≤ length) :
    topBits limbs length count = Nat.ofDigits (2 ^ 32) limbs / 2 ^ (length - count) := by
  induction count with
  | zero => exact (Nat.div_eq_of_lt size).symm
  | succ count ih =>
    have next : length - count = length - (count + 1) + 1 := by omega
    unfold topBits
    rw [ih (by omega), floatBit_eq normal, next, Nat.toNat_testBit]
    generalize Nat.ofDigits (2 ^ 32) limbs = n
    generalize length - (count + 1) = k
    have halves : n / 2 ^ (k + 1) = n / 2 ^ k / 2 := by rw [pow_succ, Nat.div_div_eq_div_mul]
    have low : n / 2 ^ k % 2 < 2 ^ 1 := Nat.mod_lt _ two_pos
    rw [halves, ← Nat.shiftLeft_add_eq_or_of_lt low, Nat.shiftLeft_eq]
    omega

/-! ## Rounding -/

theorem roundedSignificand_eq (normal : Normal (2 ^ 32) limbs) (value : Nat.ofDigits (2 ^ 32) limbs = n)
    (size : n < 2 ^ length) :
    roundedSignificand cfg limbs length = halfEven (n * 2 ^ floatPrecision cfg / 2 ^ length : ℚ) := by
  subst value
  unfold roundedSignificand
  generalize floatPrecision cfg = p
  rcases lt_or_ge length p with short | long
  · rw [if_pos short, if_pos short, topBits_eq normal size le_rfl, Nat.sub_self, pow_zero, Nat.div_one,
      Nat.shiftLeft_eq]
    generalize Nat.ofDigits (2 ^ 32) limbs = n
    have whole : n * 2 ^ p = n * 2 ^ (p - length) * 2 ^ length := by
      rw [mul_assoc, ← pow_add, Nat.sub_add_cancel short.le]
    have cast : (n * 2 ^ p / 2 ^ length : ℚ) = ((n * 2 ^ p : ℕ) : ℚ) / ((2 ^ length : ℕ) : ℚ) := by push_cast; rfl
    have positive : 0 < 2 ^ length := by positivity
    rw [cast, halfEven_div _ positive, whole, Nat.mul_mod_left, Nat.mul_div_cancel _ positive, if_neg (by omega)]
  · rw [if_neg (not_lt.mpr long), if_neg (lt_irrefl p), topBits_eq normal size long, floatBit_eq normal]
    simp only [anyBitsBelow_iff normal]
    generalize Nat.ofDigits (2 ^ 32) limbs = n
    obtain ⟨d, rfl⟩ : ∃ d, length = p + d := ⟨length - p, by omega⟩
    have cast : (n * 2 ^ p / 2 ^ (p + d) : ℚ) = (n : ℚ) / ((2 ^ d : ℕ) : ℚ) := by
      rw [pow_add]
      push_cast
      rw [mul_comm (n : ℚ), mul_div_mul_left _ _ (by positivity)]
    rw [cast, halfEven_div n (by positivity), Nat.add_sub_cancel_left]
    congr 1
    apply propext
    cases d with
    | zero =>
      rw [pow_zero, Nat.mod_one]
      omega
    | succ d =>
      have bits : n % 2 ^ (d + 1) = n % 2 ^ d + 2 ^ d * (n.testBit d).toNat := by
        rw [Nat.mod_pow_succ, Nat.toNat_testBit]
      have double : 2 ^ (d + 1) = 2 * 2 ^ d := by ring
      rw [Nat.add_sub_cancel, bits]
      cases n.testBit d with
      | true =>
        simp only [Bool.toNat_true, mul_one, double, true_and, ne_eq]
        omega
      | false =>
        simp only [Bool.toNat_false, mul_zero, add_zero, double, Bool.false_eq_true, false_and, and_false,
          false_iff, not_or, not_and]
        omega

theorem floatFormat : Format cfg.floatWidth (fractionBits cfg) := by
  unfold Config.floatWidth fractionBits
  cases cfg.useDouble
  · exact binary32
  · exact binary64

/-- The parameters of a format go together. -/
structure FloatParameters (cfg : Config) : Prop where
  precision : floatPrecision cfg = fractionBits cfg + 1
  infinity : infinity cfg.floatWidth (fractionBits cfg) = (2 * maxExponent cfg + 1) * 2 ^ fractionBits cfg
  least : least cfg.floatWidth (fractionBits cfg) = 1 / 2 ^ (maxExponent cfg + fractionBits cfg - 1)
  limbs : (2 ^ (maxExponent cfg + 1) : ℕ) ≤ (2 ^ 32) ^ floatLimbs cfg
  bias : 2 ≤ maxExponent cfg
  mask : (if cfg.useDouble then 0x000fffffffffffff else 0x007fffff) = 2 ^ fractionBits cfg - 1
  infinite : floatInfinity cfg = ofParts cfg.floatWidth false ((2 * maxExponent cfg + 1) * 2 ^ fractionBits cfg)

theorem floatParameters : FloatParameters cfg := by
  have powers : ∀ k : ℕ, (1 : ℚ) / 2 ^ k = 2 ^ (-(k : ℤ)) := by
    intro k
    rw [zpow_neg, zpow_natCast, one_div]
  cases cfg with
  | mk int64 useDouble enableFloat lineInfo typecheck =>
    cases useDouble with
    | false =>
      have limbs : 2 ^ 128 ≤ (2 ^ 32) ^ 5 := by decide
      have mask : 0x007fffff = 2 ^ 23 - 1 := by decide
      have infinite : 0x7f800000 = 0 + (2 * 127 + 1) * 2 ^ 23 := by decide
      exact ⟨rfl, infinity_binary32, (powers 149).symm, limbs, (by decide : 2 ≤ 127), mask,
        congrArg (BitVec.ofNat 32) infinite⟩
    | true =>
      have limbs : ∀ k l, k ≤ 32 * l → 2 ^ k ≤ (2 ^ 32) ^ l := by
        intro k l inside
        rw [← pow_mul]
        exact Nat.pow_le_pow_right two_pos inside
      have mask : 0x000fffffffffffff = 2 ^ 52 - 1 := by decide
      have infinite : 0x7ff0000000000000 = 0 + (2 * 1023 + 1) * 2 ^ 52 := by decide
      have room : 1023 + 1 ≤ 32 * 34 := by decide
      exact ⟨rfl, infinity_binary64, (powers 1074).symm, limbs _ _ room, (by decide : 2 ≤ 1023), mask,
        congrArg (BitVec.ofNat 64) infinite⟩

theorem finite_parts {significand : Nat} (positive : 0 < length) (lower : 2 ^ fractionBits cfg ≤ significand)
    (upper : significand ≤ 2 ^ (fractionBits cfg + 1)) : (let carried := significand = 1 <<< floatPrecision cfg
      let exponent := if carried then length - 1 + 1 else length - 1
      let significand := if carried then significand >>> 1 else significand
      if maxExponent cfg < exponent then floatInfinity cfg
      else
        .ofNat _ (((exponent + maxExponent cfg) <<< fractionBits cfg) |||
          (significand &&& (if cfg.useDouble then 0x000fffffffffffff else 0x007fffff)))) =
      ofParts cfg.floatWidth false (min (digitsMagnitude (fractionBits cfg) (maxExponent cfg + length - 2) significand)
        (infinity cfg.floatWidth (fractionBits cfg))) := by
  obtain ⟨precision, top, -, -, bias, mask, infinite⟩ := floatParameters cfg
  have parts : ∀ m : Nat, (.ofNat _ m : PFloat cfg) = ofParts cfg.floatWidth false m := by
    intro m
    unfold ofParts
    rw [if_neg Bool.false_ne_true, zero_add]
  have fields : ∀ k r : Nat, (k <<< fractionBits cfg ||| r % 2 ^ fractionBits cfg) =
      k * 2 ^ fractionBits cfg + r % 2 ^ fractionBits cfg := by
    intro k r
    rw [← Nat.shiftLeft_add_eq_or_of_lt (Nat.mod_lt r (by positivity)), Nat.shiftLeft_eq]
  rw [mask, top, infinite, precision]
  simp only [parts, Nat.and_two_pow_sub_one_eq_mod, fields, Nat.one_shiftLeft]
  generalize fractionBits cfg = f at *
  generalize maxExponent cfg = b at *
  obtain ⟨l, rfl⟩ : ∃ l, length = l + 1 := ⟨length - 1, by omega⟩
  have double : 2 ^ (f + 1) = 2 * 2 ^ f := by ring
  rcases Nat.lt_or_eq_of_le upper with inside | rfl
  · have remainder : significand % 2 ^ f = significand - 2 ^ f := by
      rw [Nat.mod_eq_sub_mod lower, Nat.mod_eq_of_lt (by omega)]
    rw [if_neg inside.ne, if_neg inside.ne, Nat.add_sub_cancel, remainder]
    unfold digitsMagnitude
    split
    · rename_i beyond
      have more : (2 * b + 1) * 2 ^ f ≤ (b + (l + 1) - 2) * 2 ^ f + 2 ^ f := by
        rw [← Nat.succ_mul]
        exact Nat.mul_le_mul_right _ (by omega)
      rw [Nat.min_eq_right (by omega)]
    · rename_i finite
      have sum : (l + b) * 2 ^ f = (b + (l + 1) - 2) * 2 ^ f + 2 ^ f := by
        rw [← Nat.succ_mul]
        congr 1
        omega
      have below : (b + (l + 1) - 2) * 2 ^ f + 2 * 2 ^ f ≤ (2 * b + 1) * 2 ^ f := by
        rw [← Nat.add_mul]
        exact Nat.mul_le_mul_right _ (by omega)
      rw [Nat.min_eq_left (by omega), sum]
      congr 1
      omega
  · have half : 2 ^ (f + 1) >>> 1 = 2 ^ f := by
      rw [Nat.shiftRight_eq_div_pow]
      omega
    rw [if_pos rfl, if_pos rfl, Nat.add_sub_cancel, half, Nat.mod_self, add_zero]
    unfold digitsMagnitude
    have sum : (b + (l + 1) - 2) * 2 ^ f + 2 ^ (f + 1) = (l + 1 + b) * 2 ^ f := by
      rw [double, ← Nat.add_mul]
      congr 1
      omega
    rw [sum]
    split
    · rename_i beyond
      rw [Nat.min_eq_right (Nat.mul_le_mul_right _ (by omega))]
    · rename_i finite
      rw [Nat.add_zero, Nat.min_eq_left (Nat.mul_le_mul_right _ (by omega))]

theorem integerDigits_nearest (two : 2 ≤ base) (sixteen : base ≤ 16) (h : denoted base text 0 = some n) :
    Rounds cfg.floatWidth (fractionBits cfg) false n (pphpIntegerDigitsToFloat cfg text base) := by
  obtain ⟨precision, top, unit, room, bias, -, infinite⟩ := floatParameters cfg
  have format := floatFormat cfg
  have collected := appendDigits_collected cfg two sixteen normal_nil h
  -- in units of the least float
  have scaled :
      (n : ℚ) = n * 2 ^ (maxExponent cfg + fractionBits cfg - 1) * least cfg.floatWidth (fractionBits cfg) := by
    rw [unit]
    field_simp
  suffices ∃ m, pphpIntegerDigitsToFloat cfg text base = ofParts cfg.floatWidth false m ∧
      Bracketed cfg.floatWidth (fractionBits cfg) (n * 2 ^ (maxExponent cfg + fractionBits cfg - 1)) m by
    obtain ⟨m, code, bracketed⟩ := this
    rw [code, scaled]
    exact bracketed.rounds format false
  unfold pphpIntegerDigitsToFloat
  cases result : appendDigits cfg base text [] with
  | none =>
    rw [result] at collected
    refine ⟨_, infinite, ?_⟩
    rw [← top]
    apply bracketed_infinity format
    have binade : (2 * maxExponent cfg + 1) * 2 ^ fractionBits cfg =
        2 * maxExponent cfg * 2 ^ fractionBits cfg + 2 ^ fractionBits cfg := by ring
    have least : 2 ^ fractionBits cfg ≤ 2 ^ (fractionBits cfg + 1) := Nat.pow_le_pow_right two_pos (Nat.le_succ _)
    rw [top, binade, units_binade (.inr le_rfl) least, ← pow_add]
    have reached := Nat.mul_le_mul_right (2 ^ (maxExponent cfg + fractionBits cfg - 1)) (room.trans collected)
    rw [← pow_add] at reached
    have exponents : fractionBits cfg + 2 * maxExponent cfg =
        maxExponent cfg + 1 + (maxExponent cfg + fractionBits cfg - 1) := by omega
    rw [exponents]
    exact_mod_cast reached
  | some limbs =>
    rw [result] at collected
    obtain ⟨normal, value⟩ := collected
    have length := bitLength_eq normal
    rw [value] at length
    dsimp only
    rw [length]
    split
    · rename_i zero
      obtain rfl : n = 0 := Nat.size_eq_zero.mp zero
      refine ⟨0, ?_, Nat.zero_le _, fun k impossible => absurd impossible (Nat.succ_ne_zero k), fun _ => ?_⟩
      · unfold ofParts
        rfl
      · have above := units_lt_tiePoint (fractionBits cfg) 0
        have : (0 : ℚ) ≤ units (fractionBits cfg) 0 := Nat.cast_nonneg _
        rw [Nat.cast_zero, zero_mul]
        exact ⟨by linarith, fun _ => rfl⟩
    · rename_i nonzero
      have size := Nat.lt_size_self n
      have lower : 2 ^ (Nat.size n - 1) ≤ n := Nat.lt_size.mp (by omega)
      have significand := roundedSignificand_eq cfg normal value size
      -- the exponent of the last digit
      have digits : (n * 2 ^ (maxExponent cfg + fractionBits cfg - 1) / 2 ^ (maxExponent cfg + Nat.size n - 2) : ℚ) =
          n * 2 ^ floatPrecision cfg / 2 ^ Nat.size n := by
        rw [div_eq_div_iff (by positivity) (by positivity), mul_assoc, mul_assoc, ← pow_add, ← pow_add]
        congr 2
        omega
      have floor : ⌊(n * 2 ^ floatPrecision cfg / 2 ^ Nat.size n : ℚ)⌋₊ =
          n * 2 ^ floatPrecision cfg / 2 ^ Nat.size n := by
        have := Nat.floor_div_eq_div (K := ℚ) (n * 2 ^ floatPrecision cfg) (2 ^ Nat.size n)
        push_cast at this
        exact this
      have reached : 2 ^ fractionBits cfg ≤ n * 2 ^ floatPrecision cfg / 2 ^ Nat.size n := by
        rw [Nat.le_div_iff_mul_le (by positivity), ← pow_add, precision]
        have := Nat.mul_le_mul_right (2 ^ (fractionBits cfg + 1)) lower
        rw [← pow_add] at this
        have exponents : fractionBits cfg + Nat.size n = Nat.size n - 1 + (fractionBits cfg + 1) := by omega
        rw [exponents]
        exact this
      have small : n * 2 ^ floatPrecision cfg / 2 ^ Nat.size n < 2 ^ (fractionBits cfg + 1) := by
        rw [Nat.div_lt_iff_lt_mul (by positivity), precision, mul_comm]
        exact Nat.mul_lt_mul_of_pos_left size (by positivity)
      have binade : InBinade (fractionBits cfg) (n * 2 ^ (maxExponent cfg + fractionBits cfg - 1) : ℚ)
          (maxExponent cfg + Nat.size n - 2) := by
        refine ⟨by positivity, .inr ?_, ?_⟩
        · rw [digits, floor]
          exact reached
        · rw [digits, floor]
          exact small
      have bracketed := binade.bracketed format
      rw [digits, ← significand] at bracketed
      have cases := halfEven_cases (n * 2 ^ floatPrecision cfg / 2 ^ Nat.size n : ℚ)
      rw [floor, ← significand] at cases
      exact ⟨_, finite_parts cfg (by omega) (by omega) (by omega), bracketed⟩

/-- **`pphp_integer_digits_to_float` gives the float nearest to the integer that the digits denote.** -/
theorem integerDigits_rounds (cfg : Config) {base : Nat} (two : 2 ≤ base) (sixteen : base ≤ 16) {text : List UInt8}
    {n : Nat} (h : denoted base text 0 = some n) :
    Rounds cfg.floatWidth (fractionBits cfg) false n (pphpIntegerDigitsToFloat cfg text base) :=
  integerDigits_nearest cfg two sixteen h

/-- The least integer that is no 64-bit integer, as a literal. -/
theorem literal_rounds : denoted 10 (ascii "9_223_372_036_854_775_808") 0 = some 9223372036854775808 ∧
    Rounds 64 52 false (9223372036854775808 : Nat)
      (pphpIntegerDigitsToFloat ⟨true, true, true, false, false⟩ (ascii "9_223_372_036_854_775_808") 10) :=
  ⟨by decide +kernel, integerDigits_rounds ⟨true, true, true, false, false⟩ (by decide) (by decide) (by decide +kernel)⟩

end PhpPico.Value
