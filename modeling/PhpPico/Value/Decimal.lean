import PhpPico.Lib.Expansion
import PhpPico.Lib.Limbs
import PhpPico.Lib.Rounding
import PhpPico.Value.Numeric
import Mathlib.Algebra.Order.Field.Power

/-!
# Decimal text as single floats

`pphp_decimal_to_float` of a build with single floats keeps 150 significant digits and looks for the float by
bisection: the digits are compared with the midpoints between floats, of which none has more than 113. **The bits
found are the float nearest to the digits.**
-/

namespace PhpPico.Value
open List Ieee Limbs

/-! ## Reading -/

/-- `saturated_decimal_add`. -/
def saturatedDecimalAdd (value addend : Int) : Int :=
  if 0 < addend ∧ 2147483647 - addend < value then 2147483647
  else if addend < 0 ∧ value < -2147483648 - addend then -2147483648
  else value + addend

/-- What the first loop of `pphp_decimal_to_float` has read. -/
structure Mantissa where
  afterDot : Bool
  significant : Bool
  sticky : Bool
  magnitude : Int
  digits : List Nat

/-- The magnitude when a digit is read: a place more before the point, a place less for each zero behind it. -/
def Mantissa.nextMagnitude (m : Mantissa) : Int :=
  if m.significant = false then if m.afterDot then saturatedDecimalAdd m.magnitude (-1) else m.magnitude
  else if m.afterDot = false then saturatedDecimalAdd m.magnitude 1 else m.magnitude

/-- A digit. Zeros in front are not significant, and digits behind the limit are kept as the sticky flag. -/
def Mantissa.figure (m : Mantissa) (digit : Nat) : Mantissa :=
  if m.significant = false ∧ digit = 0 then { m with magnitude := m.nextMagnitude }
  else if m.digits.length < 150 then
    { m with significant := true, magnitude := m.nextMagnitude, digits := m.digits ++ [digit] }
  else { m with significant := true, magnitude := m.nextMagnitude, sticky := m.sticky || digit != 0 }

/-- One round of the first loop. -/
def Mantissa.byte (m : Mantissa) (c : UInt8) : Mantissa :=
  if c = 95 then m else if c = 46 then { m with afterDot := true } else m.figure (c.toNat - 48)

/-- One round of the loop over the exponent. -/
def exponentByte (exponent : Nat) (c : UInt8) : Nat :=
  if c ≠ 95 ∧ exponent < 2147483647 then
    if (2147483647 - (c.toNat - 48)) / 10 < exponent then 2147483647 else exponent * 10 + (c.toNat - 48)
  else exponent

/-! ## Midpoints -/

/-- `decimal_midpoint_init`; `room` is what is left of the array. -/
def midpointInit : Nat → Nat → List Nat
  | 0, _ => []
  | room + 1, value => value % 10 :: if value / 10 ≠ 0 then midpointInit room (value / 10) else []

/-- The second loop of `decimal_midpoint_multiply`. -/
def carryDigits : Nat → Nat → List Nat
  | 0, _ => []
  | room + 1, carry => if carry ≠ 0 then carry % 10 :: carryDigits room (carry / 10) else []

/-- `decimal_midpoint_multiply`. -/
def midpointMultiply (factor : Nat) (digits : List Nat) : List Nat :=
  let (products, carry) := multiplyAdd 10 factor 0 digits
  products ++ carryDigits (120 - products.length) carry

/-- The digits of the midpoint behind a float, the last one first, and how many of them are behind the point. -/
def midpointDigits (lower : Nat) : List Nat × Nat :=
  let exponentField := lower >>> 23
  let significand := (lower &&& 0x007fffff) ||| (if exponentField ≠ 0 then 0x00800000 else 0)
  let binaryExponent : Int := (if exponentField ≠ 0 then (exponentField : Int) - 1 else 0) - 150
  let scale := if binaryExponent < 0 then (-binaryExponent).toNat else 0
  ((midpointMultiply 2)^[binaryExponent.toNat] ((midpointMultiply 5)^[scale] (midpointInit 120 (significand * 2 + 1))),
    scale)

/-- `decimal_compare_midpoint`. -/
def decimalCompareMidpoint (digits : List Nat) (magnitude : Int) (sticky : Bool) (lower : Nat) : Int :=
  let (midpoint, scale) := midpointDigits lower
  let midpointMagnitude : Int := (midpoint.length : Int) - scale - 1
  if magnitude ≠ midpointMagnitude then if midpointMagnitude < magnitude then 1 else -1
  else
    let compared := Expansion.compare digits midpoint.reverse
    if compared ≠ 0 then compared else if sticky then 1 else 0

/-- The bisection of `pphp_decimal_to_float`: the first number that is not below. -/
def bisect (above : Nat → Bool) (lower upper : Nat) : Nat :=
  if lower < upper then
    let middle := lower + (upper - lower) / 2
    if above middle then bisect above lower middle else bisect above (middle + 1) upper
  else lower
termination_by upper - lower

/-- The bits of the float of significant digits. -/
def decimalBits (digits : List Nat) (sticky : Bool) (magnitude : Int) : Nat :=
  if 38 < magnitude then 0x7f800000
  else if magnitude < -46 then 0
  else
    bisect (fun middle =>
      let comparison := decimalCompareMidpoint digits magnitude sticky middle
      decide (comparison < 0 ∨ comparison = 0 ∧ middle % 2 = 0)) 0 0x7f800000

def isExponentMark (c : UInt8) : Bool := c == 101 || c == 69

/-- `pphp_decimal_to_float`, with single floats. -/
def pphpDecimalToFloat (text : List UInt8) : BitVec 32 :=
  let (negative, unsigned) := readSign text
  let m := (unsigned.takeWhile fun c => !isExponentMark c).foldl Mantissa.byte ⟨false, false, false, 0, []⟩
  if m.significant = false then .ofNat 32 (if negative then 0x80000000 else 0)
  else
    let (minus, figures) := readSign (unsigned.dropWhile fun c => !isExponentMark c).tail
    let exponent := figures.foldl exponentByte 0
    let bits := decimalBits m.digits m.sticky
      (saturatedDecimalAdd m.magnitude (if minus then -(exponent : Int) else exponent))
    .ofNat 32 (if negative then bits ||| 0x80000000 else bits)

/-! ## The digits of a midpoint -/

theorem midpointInit_spec {room v : Nat} (positive : 0 < v) (fits : v < 10 ^ room) :
    Normal 10 (midpointInit room v) ∧ Nat.ofDigits 10 (midpointInit room v) = v := by
  induction room generalizing v with
  | zero => omega
  | succ room ih =>
    have digit := Nat.mod_lt v (by decide : 0 < 10)
    unfold midpointInit
    split
    · rename_i more
      rw [pow_succ] at fits
      obtain ⟨normal, value⟩ := ih (pos_of_ne_zero more) (by omega)
      have whole : Nat.ofDigits 10 (v % 10 :: midpointInit room (v / 10)) = v := by
        rw [Nat.ofDigits_cons, value]
        omega
      refine ⟨⟨?_, ?_⟩, whole⟩
      · intro l listed
        rcases mem_cons.mp listed with rfl | inside
        · exact digit
        · exact normal.limb l inside
      · intro _
        rw [whole, length_cons, Nat.add_sub_cancel]
        rcases eq_nil_or_concat (midpointInit room (v / 10)) with none | ⟨init, last, shape⟩
        · rw [none, length_nil, pow_zero]
          exact positive
        · have nonempty : midpointInit room (v / 10) ≠ [] := by
            rw [shape]
            simp
          have leading := normal.leading nonempty
          have length : (midpointInit room (v / 10)).length = (midpointInit room (v / 10)).length - 1 + 1 := by
            have := length_pos_of_ne_nil nonempty
            omega
          rw [length, pow_succ]
          rw [value] at leading
          omega
    · have small : v < 10 := by omega
      rw [Nat.mod_eq_of_lt small]
      refine ⟨⟨?_, ?_⟩, Nat.ofDigits_singleton⟩
      · intro l listed
        rw [mem_singleton.mp listed]
        exact small
      · intro _
        rw [length_singleton, Nat.ofDigits_singleton]
        exact positive

theorem midpointMultiply_spec {factor : Nat} (positive : 0 < factor) (digit : factor < 10) {ds : List Nat}
    (normal : Normal 10 ds) (room : ds.length < 120) : Normal 10 (midpointMultiply factor ds) ∧
      Nat.ofDigits 10 (midpointMultiply factor ds) = Nat.ofDigits 10 ds * factor := by
  have carry := multiplyAdd_carry positive normal.limb
  have length := multiplyAdd_length 10 factor 0 ds
  have pushed : midpointMultiply factor ds = pushCarry (multiplyAdd 10 factor 0 ds) := by
    obtain ⟨left, space⟩ : ∃ left, 120 - (multiplyAdd 10 factor 0 ds).1.length = left + 1 := ⟨119 - ds.length, by omega⟩
    unfold midpointMultiply pushCarry
    dsimp only
    rw [space]
    unfold carryDigits
    split
    · have small : (multiplyAdd 10 factor 0 ds).2 < 10 := by omega
      have none : carryDigits left ((multiplyAdd 10 factor 0 ds).2 / 10) = [] := by
        rw [Nat.div_eq_of_lt small]
        cases left <;> rfl
      rw [none, Nat.mod_eq_of_lt small]
    · exact append_nil _
  rw [pushed]
  exact ⟨normal.multiplyAdd positive digit.le positive, pushCarry_value 10 factor 0 ds⟩

theorem midpointMultiply_iterate {factor : Nat} (positive : 0 < factor) (digit : factor < 10) (n : Nat) {ds : List Nat}
    (normal : Normal 10 ds) (room : Nat.ofDigits 10 ds * factor ^ n < 10 ^ 119) :
    Normal 10 ((midpointMultiply factor)^[n] ds) ∧
      Nat.ofDigits 10 ((midpointMultiply factor)^[n] ds) = Nat.ofDigits 10 ds * factor ^ n := by
  induction n generalizing ds with
  | zero => exact ⟨normal, (mul_one _).symm⟩
  | succ n ih =>
    have small : Nat.ofDigits 10 ds < 10 ^ 119 := (Nat.le_mul_of_pos_right _ (by positivity)).trans_lt room
    have short : ds.length < 120 := by
      rcases eq_or_ne ds [] with rfl | nonempty
      · decide
      · have := (Nat.pow_lt_pow_iff_right (by decide)).mp ((normal.leading nonempty).trans_lt small)
        omega
    obtain ⟨next, value⟩ := midpointMultiply_spec positive digit normal short
    have product : Nat.ofDigits 10 (midpointMultiply factor ds) * factor ^ n =
        Nat.ofDigits 10 ds * factor ^ (n + 1) := by
      rw [value, pow_succ']
      ring
    rw [Function.iterate_succ_apply, ← product]
    exact ih next (product ▸ room)

theorem midpointDigits_spec {m : Nat} (finite : m < infinity 32 23) :
    Normal 10 (midpointDigits m).1 ∧ (midpointDigits m).1.length ≤ 119 ∧
      ((Nat.ofDigits 10 (midpointDigits m).1 : ℕ) : ℚ) / 10 ^ (midpointDigits m).2 = tiePoint 23 m * least 32 23 ∧
      0 < Nat.ofDigits 10 (midpointDigits m).1 := by
  obtain ⟨e, q, binade, small, rfl⟩ := exists_binade 23 m
  rw [infinity_binary32] at finite
  have field : (e * 2 ^ 23 + q) >>> 23 = if q < 2 ^ 23 then 0 else e + 1 := by
    rw [Nat.shiftRight_eq_div_pow]
    split <;> omega
  have significand :
      ((e * 2 ^ 23 + q) &&& 0x007fffff) ||| (if (e * 2 ^ 23 + q) >>> 23 ≠ 0 then 0x00800000 else 0) = q := by
    have mask : (e * 2 ^ 23 + q) &&& 0x007fffff = (e * 2 ^ 23 + q) % 2 ^ 23 := Nat.and_two_pow_sub_one_eq_mod _ 23
    rw [mask, field]
    split
    · rename_i below
      rw [if_neg (by simp), Nat.or_zero]
      omega
    · have high : (e * 2 ^ 23 + q) % 2 ^ 23 = q - 2 ^ 23 := by omega
      have join := Nat.two_pow_add_eq_or_of_lt (by omega : q - 2 ^ 23 < 2 ^ 23) 1
      rw [if_pos (by simp), high, Nat.or_comm]
      exact join.symm.trans (by omega)
  have exponent :
      ((if (e * 2 ^ 23 + q) >>> 23 ≠ 0 then (((e * 2 ^ 23 + q) >>> 23 : Nat) : Int) - 1 else 0) - 150 : Int) =
        (e : Int) - 150 := by
    rw [field]
    split
    · omega
    · rw [if_pos (by omega)]
      omega
  have fits : q * 2 + 1 < 10 ^ 120 := (by omega : q * 2 + 1 < 2 ^ 25).trans (by norm_num)
  obtain ⟨start, number⟩ := midpointInit_spec (by omega : 0 < q * 2 + 1) fits
  have middle : tiePoint 23 (e * 2 ^ 23 + q) * least 32 23 = (q * 2 + 1) * 2 ^ e / 2 ^ 150 := by
    have unit : least 32 23 = 1 / 2 ^ 149 := by
      rw [one_div, ← zpow_natCast, ← zpow_neg]
      rfl
    have next : e * 2 ^ 23 + q + 1 = e * 2 ^ 23 + (q + 1) := add_assoc _ _ _
    unfold tiePoint
    rw [next, units_binade binade (by omega), units_binade (by omega) (by omega), unit]
    push_cast
    ring
  unfold midpointDigits
  dsimp only
  rw [significand, exponent]
  rcases lt_or_ge e 150 with low | high
  · have scale : (if (e : Int) - 150 < 0 then (-((e : Int) - 150)).toNat else 0) = 150 - e := by
      rw [if_pos (by omega)]
      omega
    have noDoubling : ((e : Int) - 150).toNat = 0 := by omega
    have room : Nat.ofDigits 10 (midpointInit 120 (q * 2 + 1)) * 5 ^ (150 - e) < 10 ^ 119 := by
      rw [number]
      calc (q * 2 + 1) * 5 ^ (150 - e) ≤ 2 ^ 25 * 5 ^ 150 :=
            Nat.mul_le_mul (by omega) (Nat.pow_le_pow_right (by decide) (by omega))
        _ < 10 ^ 119 := by norm_num
    obtain ⟨normal, value⟩ := midpointMultiply_iterate (by decide) (by decide) (150 - e) start room
    rw [scale, noDoubling, Function.iterate_zero_apply]
    rw [number] at value room
    refine ⟨normal, ?_, ?_, ?_⟩
    · rcases eq_or_ne ((midpointMultiply 5)^[150 - e] (midpointInit 120 (q * 2 + 1))) [] with none | nonempty
      · rw [none]
        decide
      · have := (Nat.pow_lt_pow_iff_right (by decide)).mp ((normal.leading nonempty).trans_lt (value ▸ room))
        omega
    · rw [value, middle]
      have split : (150 : ℕ) = e + (150 - e) := by omega
      have ten : (10 : ℚ) ^ (150 - e) = 5 ^ (150 - e) * 2 ^ (150 - e) := by
        rw [← mul_pow]
        norm_num
      have power : (2 : ℚ) ^ 150 = 2 ^ e * 2 ^ (150 - e) := by rw [← pow_add, ← split]
      rw [ten, power]
      push_cast
      field_simp
    · rw [value]
      positivity
  · obtain ⟨k, rfl⟩ : ∃ k, e = 150 + k := ⟨e - 150, by omega⟩
    have scale : (if ((150 + k : Nat) : Int) - 150 < 0 then (-(((150 + k : Nat) : Int) - 150)).toNat else 0) = 0 :=
      if_neg (by omega)
    have doubling : (((150 + k : Nat) : Int) - 150).toNat = k := by omega
    have room : Nat.ofDigits 10 (midpointInit 120 (q * 2 + 1)) * 2 ^ k < 10 ^ 119 := by
      rw [number]
      calc (q * 2 + 1) * 2 ^ k ≤ 2 ^ 25 * 2 ^ 104 :=
            Nat.mul_le_mul (by omega) (Nat.pow_le_pow_right (by decide) (by omega))
        _ < 10 ^ 119 := by norm_num
    obtain ⟨normal, value⟩ := midpointMultiply_iterate (by decide) (by decide) k start room
    rw [scale, doubling, Function.iterate_zero_apply]
    rw [number] at value room
    refine ⟨normal, ?_, ?_, ?_⟩
    · rcases eq_or_ne ((midpointMultiply 2)^[k] (midpointInit 120 (q * 2 + 1))) [] with none | nonempty
      · rw [none]
        decide
      · have := (Nat.pow_lt_pow_iff_right (by decide)).mp ((normal.leading nonempty).trans_lt (value ▸ room))
        omega
    · have power : ((q : ℚ) * 2 + 1) * 2 ^ (150 + k) / 2 ^ 150 = (q * 2 + 1) * 2 ^ k := by
        rw [pow_add, mul_comm ((2 : ℚ) ^ 150), ← mul_assoc, mul_div_cancel_right₀ _ (pow_ne_zero 150 two_ne_zero)]
      rw [value, middle, power, pow_zero, div_one]
      push_cast
      rfl
    · rw [value]
      positivity

/-! ## Comparison and bisection -/

/-- Significant digits: the first one is not a zero. -/
structure Significant (ds : List Nat) : Prop where
  digits : ∀ d ∈ ds, d < 10
  first : ∃ d rest, ds = d :: rest ∧ d ≠ 0

theorem Significant.value_bounds {ds : List Nat} (h : Significant ds) :
    1 ≤ Expansion.value 10 ds ∧ Expansion.value 10 ds < 10 := by
  constructor
  · obtain ⟨d, rest, rfl, nonzero⟩ := h.first
    have first : (1 : ℚ) ≤ d := by exact_mod_cast Nat.one_le_iff_ne_zero.mpr nonzero
    have tail := Expansion.value_nonneg 10 rest
    rw [Expansion.value_cons]
    push_cast
    linarith
  · exact_mod_cast Expansion.value_lt (by decide) h.digits

/-- Numbers whose digits begin at different places are compared by these places. -/
theorem place_lt {a b : ℚ} {j k : ℤ} (a_lt : a < 10) (b_ge : 1 ≤ b) (less : j < k) : a * 10 ^ j < b * 10 ^ k := by
  have low : (0 : ℚ) < 10 ^ j := by positivity
  calc a * 10 ^ j < 10 * 10 ^ j := mul_lt_mul_of_pos_right a_lt low
    _ = 10 ^ (j + 1) := by rw [zpow_add_one₀ (by norm_num)]; ring
    _ ≤ 10 ^ k := zpow_le_zpow_right₀ (by norm_num) less
    _ ≤ b * 10 ^ k := le_mul_of_one_le_left (by positivity) b_ge

theorem decimalCompareMidpoint_spec {ds : List Nat} (h : Significant ds) (magnitude : Int) {m : Nat}
    (finite : m < infinity 32 23) :
    let compared := decimalCompareMidpoint (ds.take 150) magnitude ((ds.drop 150).any (· != 0)) m
    let x := Expansion.value 10 ds * 10 ^ magnitude
    let middle := tiePoint 23 m * least 32 23
    (0 < compared ∧ middle < x) ∨ (compared = 0 ∧ middle = x) ∨ (compared < 0 ∧ x < middle) := by
  obtain ⟨normal, short, value, positive⟩ := midpointDigits_spec finite
  obtain ⟨one, ten⟩ := h.value_bounds
  unfold decimalCompareMidpoint
  dsimp only
  generalize (midpointDigits m).1 = ms at *
  generalize (midpointDigits m).2 = scale at *
  have nonempty : ms ≠ [] := by
    rintro rfl
    exact absurd positive (lt_irrefl 0)
  have length : (ms.length : ℤ) - scale - 1 = (ms.length - 1 : ℕ) - (scale : ℤ) := by
    have := length_pos_of_ne_nil nonempty
    omega
  have reversed := Expansion.value_reverse (by decide : 0 < 10) ms nonempty
  have middle : tiePoint 23 m * least 32 23 = Expansion.value 10 ms.reverse * 10 ^ ((ms.length : ℤ) - scale - 1) := by
    rw [← value, ← reversed, length, zpow_sub₀ (by norm_num), zpow_natCast, zpow_natCast, mul_div_assoc]
    rfl
  have oneMiddle : 1 ≤ Expansion.value 10 ms.reverse := by
    have leading : ((10 ^ (ms.length - 1) : ℕ) : ℚ) ≤ (Nat.ofDigits 10 ms : ℕ) := by
      exact_mod_cast normal.leading nonempty
    rw [← reversed] at leading
    push_cast at leading
    exact le_of_mul_le_mul_right (by linarith) (by positivity : (0 : ℚ) < 10 ^ (ms.length - 1))
  have digitsMiddle : ∀ d ∈ ms.reverse, d < 10 := fun d listed => normal.limb d (mem_reverse.mp listed)
  have tenMiddle : Expansion.value 10 ms.reverse < 10 := by
    exact_mod_cast Expansion.value_lt (by decide) digitsMiddle
  rw [middle]
  rcases lt_trichotomy magnitude ((ms.length : ℤ) - scale - 1) with less | same | greater
  · rw [if_pos less.ne, if_neg less.not_gt]
    exact .inr (.inr ⟨by decide, place_lt ten oneMiddle less⟩)
  · have scaled : (0 : ℚ) < 10 ^ magnitude := by positivity
    have cut := Expansion.compare_take ds (by rw [length_reverse]; omega : ms.reverse.length ≤ 150)
    rw [if_neg (not_not.mpr same), ← cut, ← same]
    have compared := Expansion.compare_spec (by decide) h.digits digitsMiddle
    rcases compared with ⟨result, order⟩ | ⟨result, order⟩ | ⟨result, order⟩
    · rw [result]
      exact .inl ⟨by decide, mul_lt_mul_of_pos_right order scaled⟩
    · rw [result]
      exact .inr (.inl ⟨rfl, congrArg (· * 10 ^ magnitude) order⟩)
    · rw [result]
      exact .inr (.inr ⟨by decide, mul_lt_mul_of_pos_right order scaled⟩)
  · rw [if_pos greater.ne', if_pos greater]
    exact .inl ⟨by decide, place_lt tenMiddle one greater⟩

theorem bisect_spec (above : Nat → Bool) {lower upper : Nat} (order : lower ≤ upper) :
    lower ≤ bisect above lower upper ∧ bisect above lower upper ≤ upper ∧
      (∀ k, k + 1 = bisect above lower upper → lower ≤ k → above k = false) ∧
      (bisect above lower upper < upper → above (bisect above lower upper) = true) := by
  fun_induction bisect above lower upper with
  | case1 lower upper less middle found ih =>
    obtain ⟨from_, upto, before, here⟩ := ih (by omega)
    refine ⟨from_, by omega, before, fun _ => ?_⟩
    rcases Nat.lt_or_eq_of_le upto with inside | reached
    · exact here inside
    · rw [reached]
      exact found
  | case2 lower upper less middle missed ih =>
    obtain ⟨from_, upto, before, here⟩ := ih (by omega)
    refine ⟨by omega, upto, fun k next _ => ?_, here⟩
    rcases lt_or_ge middle k with behind | first
    · exact before k next behind
    · obtain rfl : k = middle := by omega
      exact Bool.eq_false_iff.mpr missed
  | case3 lower upper reached =>
    refine ⟨le_rfl, order, fun k next inside => ?_, fun less => absurd less reached⟩
    omega

/-- **The bits found for significant digits are the magnitude of the nearest float.** -/
theorem decimalBits_bracketed {ds : List Nat} (h : Significant ds) (magnitude : Int) :
    Bracketed 32 23 (Expansion.value 10 ds * 10 ^ magnitude / least 32 23)
      (decimalBits (ds.take 150) ((ds.drop 150).any (· != 0)) magnitude) := by
  obtain ⟨one, ten⟩ := h.value_bounds
  have unit := least_pos 32 23
  unfold decimalBits
  split
  · rename_i large
    have reached : (units 23 (infinity 32 23) : ℚ) ≤ Expansion.value 10 ds * 10 ^ magnitude / least 32 23 := by
      have top : (units 23 (infinity 32 23) : ℚ) * least 32 23 = 2 ^ 128 := by
        have shape : infinity 32 23 = 254 * 2 ^ 23 + 2 ^ 23 := infinity_binary32
        have exponents : (2 : ℚ) ^ 23 * 2 ^ 254 = 2 ^ 128 * 2 ^ 149 := by rw [← pow_add, ← pow_add]
        have small : least 32 23 = 1 / 2 ^ 149 := by
          rw [one_div, ← zpow_natCast, ← zpow_neg]
          rfl
        rw [shape, units_binade (.inr le_rfl) (by decide), small, Nat.cast_mul, Nat.cast_pow, Nat.cast_pow,
          Nat.cast_ofNat, exponents, mul_one_div, mul_div_cancel_right₀ _ (pow_ne_zero 149 two_ne_zero)]
      rw [le_div_iff₀ unit, top]
      have power : (2 : ℚ) ^ 128 ≤ 10 ^ (39 : ℤ) := by norm_num
      calc (2 : ℚ) ^ 128 ≤ 10 ^ (39 : ℤ) := power
        _ ≤ 10 ^ magnitude := zpow_le_zpow_right₀ (by norm_num) (by omega)
        _ ≤ Expansion.value 10 ds * 10 ^ magnitude := le_mul_of_one_le_left (by positivity) one
    exact bracketed_infinity binary32 reached
  · split
    · rename_i small
      refine ⟨Nat.zero_le _, fun k impossible => absurd impossible (Nat.succ_ne_zero k), fun _ => ?_⟩
      have first : tiePoint 23 0 = 1 / 2 := by
        unfold tiePoint units
        norm_num
      have below : Expansion.value 10 ds * 10 ^ magnitude / least 32 23 < tiePoint 23 0 := by
        rw [div_lt_iff₀ unit, first]
        have power : (10 : ℚ) ^ (-46 : ℤ) < 1 / 2 * 2 ^ (-149 : ℤ) := by norm_num
        calc Expansion.value 10 ds * 10 ^ magnitude < 1 * 10 ^ (-46 : ℤ) := place_lt ten le_rfl small
          _ = 10 ^ (-46 : ℤ) := one_mul _
          _ < 1 / 2 * 2 ^ (-149 : ℤ) := power
      exact ⟨below.le, fun tie => absurd tie below.ne⟩
    · obtain ⟨-, upto, before, here⟩ := bisect_spec (fun middle =>
        let comparison := decimalCompareMidpoint (ds.take 150) magnitude ((ds.drop 150).any (· != 0)) middle
        decide (comparison < 0 ∨ comparison = 0 ∧ middle % 2 = 0)) (Nat.zero_le 0x7f800000)
      refine ⟨upto, fun k next => ?_, fun finite => ?_⟩
      · have reached := of_decide_eq_false (before k next (Nat.zero_le k))
        have inside : k < infinity 32 23 := by
          rw [infinity_binary32]
          omega
        rw [le_div_iff₀ unit, eq_div_iff unit.ne']
        rcases decimalCompareMidpoint_spec h magnitude inside with ⟨_, order⟩ | ⟨equal, order⟩ | ⟨less, _⟩
        · exact ⟨order.le, fun tie => absurd tie order.ne⟩
        · refine ⟨order.le, fun _ => ?_⟩
          omega
        · exact absurd (.inl less) reached
      · have found := of_decide_eq_true (here finite)
        rw [div_le_iff₀ unit, div_eq_iff unit.ne']
        rcases decimalCompareMidpoint_spec h magnitude finite with ⟨greater, _⟩ | ⟨equal, order⟩ | ⟨_, order⟩
        · rcases found with less | ⟨equal, -⟩ <;> omega
        · refine ⟨order.ge, fun _ => ?_⟩
          rcases found with less | ⟨-, even⟩
          · omega
          · exact even
        · exact ⟨order.le, fun tie => absurd tie order.ne⟩

end PhpPico.Value
