import PhpPico.Lib.Rounding
import PhpPico.Pbc.Load

/-!
# Narrowing constants

An image keeps constants as `double`s, and a build whose floats are single narrows them as it loads. **Every one
becomes the nearest single**: the digits behind the last one that fits are the remainder of a shift, by 29 or, for a
subnormal result, by more.
-/

namespace PhpPico
open Ieee

/-- A `double` becomes the nearest single; a NaN becomes quiet and keeps the upper part of its payload. -/
structure Narrows (bits : BitVec 64) (narrow : BitVec 32) : Prop where
  sign : narrow.msb = bits.msb
  nan : isNaN 52 bits = true → isNaN 23 narrow = true ∧ narrow.getLsbD 22 = true ∧
    magnitude narrow % 2 ^ 22 = magnitude bits / 2 ^ 29 % 2 ^ 22
  infinite : magnitude bits = infinity 64 52 → magnitude narrow = infinity 32 23
  finite : magnitude bits < infinity 64 52 → Nearest 32 23 (absValue 64 52 (magnitude bits)) (magnitude narrow)

/-! ## Fields -/

theorem signed_single (bits : BitVec 64) {m : ℕ} (small : m < 2 ^ 31) :
    let narrow := BitVec.ofNat 32 (bits.toNat / 2 ^ 63 * 2 ^ 31 ||| m)
    narrow.msb = bits.msb ∧ magnitude narrow = m := by
  have joined : bits.toNat / 2 ^ 63 * 2 ^ 31 ||| m = 2 ^ 31 * (bits.toNat / 2 ^ 63) + m := by
    rw [mul_comm, Nat.two_pow_add_eq_or_of_lt small]
  have value : (BitVec.ofNat 32 (bits.toNat / 2 ^ 63 * 2 ^ 31 ||| m)).toNat = 2 ^ 31 * (bits.toNat / 2 ^ 63) + m := by
    rw [BitVec.toNat_ofNat, joined]
    apply Nat.mod_eq_of_lt
    omega
  constructor
  · rw [BitVec.msb_eq_decide, BitVec.msb_eq_decide, value]
    apply decide_eq_decide.mpr
    omega
  · unfold magnitude
    rw [value]
    omega

theorem magnitude_double (bits : BitVec 64) :
    magnitude bits = bits.toNat / 2 ^ 52 % 2 ^ 11 * 2 ^ 52 + bits.toNat % 2 ^ 52 := by
  unfold magnitude
  omega

theorem least_double : least 64 52 = least 32 23 / 2 ^ 925 := by
  have scaled : ∀ k : ℕ, (2 : ℚ) ^ (-1074 : ℤ) = 2 ^ (-1074 + k : ℤ) / 2 ^ k := by
    intro k
    rw [zpow_add₀ two_ne_zero, zpow_natCast]
    exact (mul_div_cancel_right₀ _ (pow_ne_zero k two_ne_zero)).symm
  exact scaled 925

theorem absValue_double (m : ℕ) : absValue 64 52 m = units 52 m / 2 ^ 925 * least 32 23 := by
  unfold absValue
  rw [least_double, div_mul_eq_mul_div, mul_div_assoc]

theorem units_double {e f : ℕ} (normal : e ≠ 0) (small : f < 2 ^ 52) :
    units 52 (e * 2 ^ 52 + f) = (2 ^ 52 + f) * 2 ^ (e - 1) := by
  obtain ⟨d, rfl⟩ := Nat.exists_eq_succ_of_ne_zero normal
  have split : (d + 1) * 2 ^ 52 + f = d * 2 ^ 52 + (2 ^ 52 + f) := by omega
  rw [split, units_binade (by omega) (by omega)]
  rfl

/-! ## Rounding -/

/-- The digits of a single that rounding at a shift leaves. -/
def roundShifted (significand shift : ℕ) : ℕ :=
  if significand % 2 ^ shift > 2 ^ (shift - 1) ∨
      (significand % 2 ^ shift = 2 ^ (shift - 1) ∧ significand >>> shift % 2 = 1) then
    significand >>> shift + 1
  else significand >>> shift

theorem roundShifted_eq (significand : ℕ) {shift : ℕ} (positive : 0 < shift) :
    roundShifted significand shift = halfEven (significand / 2 ^ shift : ℚ) := by
  obtain ⟨s, rfl⟩ : ∃ s, shift = s + 1 := ⟨shift - 1, by omega⟩
  have cast : (significand / 2 ^ (s + 1) : ℚ) = (significand : ℚ) / ((2 ^ (s + 1) : ℕ) : ℚ) := by push_cast; rfl
  have above : significand % 2 ^ (s + 1) > 2 ^ s ↔ 2 ^ (s + 1) < 2 * (significand % 2 ^ (s + 1)) := by omega
  have middle : significand % 2 ^ (s + 1) = 2 ^ s ↔ 2 * (significand % 2 ^ (s + 1)) = 2 ^ (s + 1) := by omega
  rw [cast, halfEven_div significand (by positivity)]
  unfold roundShifted
  rw [Nat.shiftRight_eq_div_pow, Nat.add_sub_cancel]
  simp only [above, middle]

/-- The bits behind the sign that a normal `double` is narrowed to: the exponent field `e`, the fraction `f`. -/
def narrowedNormal (e f : ℕ) : ℕ :=
  let exponent : Int := (e : Int) - 1023
  let rounded :=
    if exponent < -150 then 0
    else roundShifted (2 ^ 52 + f) (if -126 ≤ exponent then 29 else (-exponent - 97).toNat)
  if -126 ≤ exponent then
    let overflowed := rounded = 0x01000000
    let rounded := if overflowed then rounded / 2 else rounded
    let exponent := if overflowed then exponent + 1 else exponent
    if 127 < exponent then 0x7f800000
    else ((exponent + 127).toNat <<< 23) ||| (rounded % 2 ^ 23)
  else rounded

theorem binary64ToFloat_normal {n : ℕ} (normal : n / 2 ^ 52 % 2 ^ 11 ≠ 0) (finite : n / 2 ^ 52 % 2 ^ 11 ≠ 0x7ff) :
    binary64ToFloat n = n / 2 ^ 63 * 2 ^ 31 ||| narrowedNormal (n / 2 ^ 52 % 2 ^ 11) (n % 2 ^ 52) := by
  have significand : n % 2 ^ 52 ||| 2 ^ 52 = 2 ^ 52 + n % 2 ^ 52 := by
    rw [Nat.or_comm]
    exact (Nat.two_pow_add_eq_or_of_lt (Nat.mod_lt n (Nat.two_pow_pos 52)) 1).symm
  unfold binary64ToFloat narrowedNormal roundShifted
  rw [if_neg finite, if_neg normal, significand]
  generalize n / 2 ^ 52 % 2 ^ 11 = e
  generalize 2 ^ 52 + n % 2 ^ 52 = g
  dsimp only
  by_cases exponent : (-126 : Int) ≤ (e : Int) - 1023
  · rw [if_pos exponent, if_pos exponent, if_pos exponent]
    generalize (if (e : Int) - 1023 < -150 then 0 else _) = r
    generalize (if r = 0x01000000 then (e : Int) - 1023 + 1 else _) = shifted
    split
    · rfl
    · rw [Nat.or_assoc]
  · rw [if_neg exponent, if_neg exponent, if_neg exponent]

theorem narrowedNormal_normal {e f : ℕ} (normal : 897 ≤ e) (finite : e < 2047) (small : f < 2 ^ 52) :
    narrowedNormal e f = min (digitsMagnitude 23 (e - 897) (roundShifted (2 ^ 52 + f) 29)) (infinity 32 23) := by
  have digits : (2 ^ 52 + f) >>> 29 = (2 ^ 52 + f) / 2 ^ 29 := Nat.shiftRight_eq_div_pow _ _
  have bounds : 2 ^ 23 ≤ roundShifted (2 ^ 52 + f) 29 ∧ roundShifted (2 ^ 52 + f) 29 ≤ 2 ^ 24 := by
    unfold roundShifted
    rw [digits]
    split <;> omega
  unfold narrowedNormal digitsMagnitude
  rw [infinity_binary32]
  have exponent : (-126 : Int) ≤ (e : Int) - 1023 := by omega
  have reached : ¬ (e : Int) - 1023 < -150 := by omega
  dsimp only
  rw [if_pos exponent, if_pos exponent, if_neg reached]
  generalize roundShifted (2 ^ 52 + f) 29 = r at *
  have fields : ∀ k : ℕ, k <<< 23 ||| r % 2 ^ 23 = k * 2 ^ 23 + r % 2 ^ 23 := by
    intro k
    rw [← Nat.shiftLeft_add_eq_or_of_lt (Nat.mod_lt r (by decide)), Nat.shiftLeft_eq]
  rcases lt_or_ge r (2 ^ 24) with inside | carry
  · have kept : ¬ r = 0x01000000 := by omega
    rw [if_neg kept, if_neg kept, fields]
    split <;> omega
  · obtain rfl : r = 0x01000000 := by omega
    rw [if_pos rfl, if_pos rfl]
    have zero : 0x01000000 / 2 % 2 ^ 23 = 0 := by decide
    rw [zero, Nat.or_zero, Nat.shiftLeft_eq]
    split <;> omega

theorem narrowedNormal_subnormal {e f : ℕ} (subnormal : e < 897) (reached : 873 ≤ e) :
    narrowedNormal e f = roundShifted (2 ^ 52 + f) (926 - e) := by
  have exponent : ¬ (-126 : Int) ≤ (e : Int) - 1023 := by omega
  have shift : (-((e : Int) - 1023) - 97).toNat = 926 - e := by omega
  unfold narrowedNormal
  rw [if_neg exponent, if_neg exponent, if_neg (by omega), shift]

theorem narrowedNormal_small {e f : ℕ} (small : e < 873) : narrowedNormal e f = 0 := by
  unfold narrowedNormal
  rw [if_neg (by omega), if_pos (by omega)]

/-- The value of a normal double in units of singles, in the binade of an exponent. -/
theorem scaled_normal (e f d : ℕ) (positive : 0 < e) (below : e ≤ 926 + d) :
    ((2 ^ 52 + f) * 2 ^ (e - 1) : ℕ) / 2 ^ 925 / 2 ^ d = ((2 ^ 52 + f : ℕ) : ℚ) / 2 ^ (926 + d - e) := by
  have powers : (2 : ℚ) ^ 925 * 2 ^ d = 2 ^ (e - 1) * 2 ^ (926 + d - e) := by
    rw [← pow_add, ← pow_add]
    congr 1
    omega
  rw [div_div, powers, Nat.cast_mul, Nat.cast_pow, Nat.cast_ofNat, mul_comm ((2 ^ 52 + f : ℕ) : ℚ),
    mul_div_mul_left _ _ (by positivity)]

theorem bracketed_normal {e f : ℕ} (positive : 0 < e) (finite : e < 2047) (small : f < 2 ^ 52) :
    Bracketed 32 23 (units 52 (e * 2 ^ 52 + f) / 2 ^ 925) (narrowedNormal e f) := by
  have floor : ∀ s : ℕ, ⌊((2 ^ 52 + f : ℕ) : ℚ) / 2 ^ s⌋₊ = (2 ^ 52 + f) / 2 ^ s := by
    intro s
    have := Nat.floor_div_eq_div (K := ℚ) (2 ^ 52 + f) (2 ^ s)
    push_cast at this ⊢
    exact this
  rw [units_double (by omega) small]
  rcases lt_or_ge e 897 with subnormal | normal
  · -- the last digit is the unit
    have scaled := scaled_normal e f 0 positive (by omega)
    rw [pow_zero, div_one] at scaled
    have binade : InBinade 23 (((2 ^ 52 + f) * 2 ^ (e - 1) : ℕ) / 2 ^ 925) 0 := by
      refine ⟨by positivity, .inl rfl, ?_⟩
      rw [pow_zero, div_one, scaled, floor]
      have shorter : 2 ^ 53 ≤ 2 ^ 23 * 2 ^ (926 + 0 - e) := by
        rw [← pow_add]
        exact Nat.pow_le_pow_right two_pos (by omega)
      rw [Nat.div_lt_iff_lt_mul (by positivity)]
      omega
    have rounded := binade.bracketed binary32
    rw [pow_zero, div_one, scaled] at rounded
    rw [scaled]
    rcases lt_or_ge e 873 with tiny | reached
    · rw [narrowedNormal_small tiny]
      refine ⟨by decide, fun k impossible => absurd impossible (Nat.succ_ne_zero k), fun _ => ?_⟩
      have below : ((2 ^ 52 + f : ℕ) : ℚ) / 2 ^ (926 + 0 - e) < tiePoint 23 0 := by
        have first : tiePoint 23 0 = 1 / 2 := by
          unfold tiePoint units
          norm_num
        rw [first, div_lt_iff₀ (by positivity)]
        have more : 2 ^ 54 ≤ 2 ^ (926 + 0 - e) := Nat.pow_le_pow_right two_pos (by omega)
        have : 2 * (2 ^ 52 + f) < 2 ^ (926 + 0 - e) := by omega
        have cast : ((2 * (2 ^ 52 + f) : ℕ) : ℚ) < ((2 ^ (926 + 0 - e) : ℕ) : ℚ) := by exact_mod_cast this
        push_cast at cast ⊢
        linarith
      exact ⟨below.le, fun tie => absurd tie below.ne⟩
    · rw [narrowedNormal_subnormal subnormal reached, roundShifted_eq _ (by omega)]
      have whole : digitsMagnitude 23 0 (halfEven (((2 ^ 52 + f : ℕ) : ℚ) / 2 ^ (926 + 0 - e))) =
          halfEven (((2 ^ 52 + f : ℕ) : ℚ) / 2 ^ (926 - e)) := by
        unfold digitsMagnitude
        rw [zero_mul, zero_add, add_zero]
      rw [whole, Nat.min_eq_left] at rounded
      · exact rounded
      · have cases := halfEven_cases (((2 ^ 52 + f : ℕ) : ℚ) / 2 ^ (926 - e))
        have digits : (2 ^ 52 + f) / 2 ^ (926 - e) < 2 ^ 24 := by
          rw [Nat.div_lt_iff_lt_mul (by positivity)]
          have shorter : 2 ^ 53 ≤ 2 ^ 24 * 2 ^ (926 - e) := by
            rw [← pow_add]
            exact Nat.pow_le_pow_right two_pos (by omega)
          omega
        rw [floor] at cases
        rw [infinity_binary32]
        omega
  · have scaled := scaled_normal e f (e - 897) positive (by omega)
    have shift : 926 + (e - 897) - e = 29 := by omega
    rw [shift] at scaled
    have binade : InBinade 23 (((2 ^ 52 + f) * 2 ^ (e - 1) : ℕ) / 2 ^ 925) (e - 897) := by
      refine ⟨by positivity, .inr ?_, ?_⟩
      · rw [scaled, floor]
        omega
      · rw [scaled, floor]
        omega
    have rounded := binade.bracketed binary32
    rw [scaled, ← roundShifted_eq _ (by decide)] at rounded
    rw [narrowedNormal_normal normal finite small]
    exact rounded

/-- A subnormal `double` is below half of the least single. -/
theorem bracketed_subnormal {f : ℕ} (small : f < 2 ^ 52) : Bracketed 32 23 (units 52 f / 2 ^ 925) 0 := by
  refine ⟨by decide, fun k impossible => absurd impossible (Nat.succ_ne_zero k), fun _ => ?_⟩
  have value : units 52 f = f := by
    unfold units
    rw [if_pos small]
  have below : (units 52 f / 2 ^ 925 : ℚ) < tiePoint 23 0 := by
    have first : tiePoint 23 0 = 1 / 2 := by
      unfold tiePoint units
      norm_num
    rw [value, first, div_lt_iff₀ (by positivity)]
    have cast : (2 * f : ℚ) < 2 ^ 53 := by exact_mod_cast (by omega : 2 * f < 2 ^ 53)
    have more : (2 : ℚ) ^ 53 ≤ 2 ^ 925 := pow_le_pow_right₀ one_le_two (by decide)
    generalize (2 : ℚ) ^ 925 = scale at more
    linarith
  exact ⟨below.le, fun tie => absurd tie below.ne⟩

theorem narrows_special (bits : BitVec 64) (special : bits.toNat / 2 ^ 52 % 2 ^ 11 = 0x7ff) :
    Narrows bits (BitVec.ofNat 32 (binary64ToFloat bits.toNat)) := by
  have fields := magnitude_double bits
  rw [special] at fields
  rcases Nat.eq_zero_or_pos (bits.toNat % 2 ^ 52) with zero | positive
  · have code : binary64ToFloat bits.toNat = bits.toNat / 2 ^ 63 * 2 ^ 31 ||| 0x7f800000 := by
      unfold binary64ToFloat
      rw [if_pos special, if_pos zero]
    obtain ⟨sign, value⟩ := signed_single bits (by decide : 0x7f800000 < 2 ^ 31)
    rw [← code] at sign value
    refine ⟨sign, fun nan => ?_, fun _ => value.trans infinity_binary32.symm, fun finite => ?_⟩
    · have := of_decide_eq_true nan
      rw [infinity_binary64] at this
      omega
    · rw [infinity_binary64] at finite
      omega
  · have payload : (bits.toNat % 2 ^ 52) >>> 29 < 2 ^ 23 := by
      rw [Nat.shiftRight_eq_div_pow]
      omega
    have joined : 0x7f800000 ||| (bits.toNat % 2 ^ 52) >>> 29 ||| 0x00400000 =
        2 ^ 23 * 255 + ((bits.toNat % 2 ^ 52) >>> 29 ||| 2 ^ 22) := by
      have inside : (bits.toNat % 2 ^ 52) >>> 29 ||| 2 ^ 22 < 2 ^ 23 := Nat.or_lt_two_pow payload (by decide)
      rw [Nat.or_assoc, Nat.two_pow_add_eq_or_of_lt inside]
      rfl
    have code : binary64ToFloat bits.toNat =
        bits.toNat / 2 ^ 63 * 2 ^ 31 ||| (2 ^ 23 * 255 + ((bits.toNat % 2 ^ 52) >>> 29 ||| 2 ^ 22)) := by
      unfold binary64ToFloat
      rw [if_pos special, if_neg positive.ne', ← joined, Nat.or_assoc, Nat.or_assoc, Nat.or_assoc]
    have inside : (bits.toNat % 2 ^ 52) >>> 29 ||| 2 ^ 22 < 2 ^ 23 := Nat.or_lt_two_pow payload (by decide)
    have quiet : ((bits.toNat % 2 ^ 52) >>> 29 ||| 2 ^ 22).testBit 22 = true := by
      rw [Nat.testBit_or, Nat.testBit_two_pow_self, Bool.or_true]
    have kept : ((bits.toNat % 2 ^ 52) >>> 29 ||| 2 ^ 22) % 2 ^ 22 = (bits.toNat % 2 ^ 52) >>> 29 % 2 ^ 22 := by
      rw [Nat.or_mod_two_pow, Nat.mod_self, Nat.or_zero]
    obtain ⟨sign, value⟩ := signed_single bits
      (by omega : 2 ^ 23 * 255 + ((bits.toNat % 2 ^ 52) >>> 29 ||| 2 ^ 22) < 2 ^ 31)
    rw [← code] at sign value
    have above : 2 ^ 22 ≤ (bits.toNat % 2 ^ 52) >>> 29 ||| 2 ^ 22 := Nat.right_le_or
    refine ⟨sign, fun _ => ⟨?_, ?_, ?_⟩, fun infinite => ?_, fun finite => ?_⟩
    · apply decide_eq_true
      rw [value, infinity_binary32]
      omega
    · rw [code, BitVec.getLsbD_ofNat, Nat.testBit_or, Nat.two_pow_add_eq_or_of_lt inside, Nat.testBit_or, quiet]
      simp
    · rw [value, fields]
      have drop : (2 ^ 23 * 255 + ((bits.toNat % 2 ^ 52) >>> 29 ||| 2 ^ 22)) % 2 ^ 22 =
          ((bits.toNat % 2 ^ 52) >>> 29 ||| 2 ^ 22) % 2 ^ 22 := by omega
      rw [drop, kept, Nat.shiftRight_eq_div_pow]
      omega
    · rw [infinity_binary64] at infinite
      omega
    · rw [infinity_binary64] at finite
      omega

/-- **`pbc_binary64_to_float` rounds every `double` to the nearest single, ties to even.** -/
theorem binary64ToFloat_narrows (bits : BitVec 64) : Narrows bits (BitVec.ofNat 32 (binary64ToFloat bits.toNat)) := by
  have fields := magnitude_double bits
  have exponent := Nat.mod_lt (bits.toNat / 2 ^ 52) (by decide : 0 < 2 ^ 11)
  have small := Nat.mod_lt bits.toNat (by decide : 0 < 2 ^ 52)
  rcases Nat.eq_or_lt_of_le (Nat.le_of_lt_succ exponent) with special | ordinary
  · exact narrows_special bits special
  · have finite : magnitude bits < infinity 64 52 := by
      rw [infinity_binary64]
      omega
    have parts : ∃ m, binary64ToFloat bits.toNat = bits.toNat / 2 ^ 63 * 2 ^ 31 ||| m ∧ m < 2 ^ 31 ∧
        Bracketed 32 23 (units 52 (magnitude bits) / 2 ^ 925) m := by
      rw [fields]
      rcases Nat.eq_zero_or_pos (bits.toNat / 2 ^ 52 % 2 ^ 11) with zero | positive
      · refine ⟨0, ?_, by decide, ?_⟩
        · unfold binary64ToFloat
          rw [if_neg (by omega), if_pos zero, Nat.or_zero]
        · rw [zero, zero_mul, zero_add]
          exact bracketed_subnormal small
      · have bracketed := bracketed_normal positive (by omega) small
        refine ⟨_, binary64ToFloat_normal (by omega) (by omega), ?_, bracketed⟩
        have := bracketed.within
        rw [infinity_binary32] at this
        omega
    obtain ⟨m, code, room, bracketed⟩ := parts
    obtain ⟨sign, value⟩ := signed_single bits room
    rw [← code] at sign value
    refine ⟨sign, fun nan => ?_, fun infinite => absurd infinite finite.ne, fun _ => ?_⟩
    · unfold isNaN at nan
      have := of_decide_eq_true nan
      omega
    · rw [value, absValue_double]
      exact bracketed.nearest binary32

end PhpPico
