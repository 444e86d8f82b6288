import PhpPico.Lib.FloatArithmetic
import PhpPico.Value.Decimal
import PhpPico.Value.Digits
import PhpPico.Value.Floatless
import PhpPico.Value.NumericPrefix

/-!
# `intval` and the cast

`intval` reads digits as far as they go and stays at the end of the range; `(int)` reads a number, with fraction and
exponent, and fails beyond the range. **They agree on integers of the range and on texts without a number**, and on
other numbers only if what is cut off is not noticed.
-/

namespace PhpPico.Value
open NumericPrefix

/-! ## Floats as integers -/

/-- The integer part. -/
def integerPart (y : ℚ) : Int := if 0 ≤ y then ⌊y⌋ else ⌈y⌉

/-- The float is a number in the range of `pphp_int`. -/
structure InIntegerRange (cfg : Config) (number : PFloat cfg) : Prop where
  finite : Ieee.IsFinite cfg.floatWidth (fractionBits cfg) number
  lower : (cfg.intMin : ℚ) ≤ Ieee.value cfg.floatWidth (fractionBits cfg) number
  upper : Ieee.value cfg.floatWidth (fractionBits cfg) number < -(cfg.intMin : ℚ)

theorem inIntegerRange_iff (cfg : Config) (number : PFloat cfg) : InIntegerRange cfg number ↔
    Ieee.magnitude number < Ieee.infinity cfg.floatWidth (fractionBits cfg) ∧
      (cfg.intMin : ℚ) ≤ Ieee.value cfg.floatWidth (fractionBits cfg) number ∧
      Ieee.value cfg.floatWidth (fractionBits cfg) number < -(cfg.intMin : ℚ) :=
  ⟨fun h => ⟨h.finite, h.lower, h.upper⟩, fun h => ⟨h.1, h.2.1, h.2.2⟩⟩

instance (cfg : Config) (number : PFloat cfg) : Decidable (InIntegerRange cfg number) :=
  decidable_of_iff _ (inIntegerRange_iff cfg number).symm

/-- `pphp_number_to_integer`. In a build without floats a number is an integer. -/
def pphpNumberToInteger (cfg : Config) (number : PFloat cfg) (exact : Bool) : Option Int :=
  if cfg.enableFloat then
    let value := Ieee.value cfg.floatWidth (fractionBits cfg) number
    if ¬ InIntegerRange cfg number then none
    else if exact = true ∧ value ≠ integerPart value then none
    else some (integerPart value)
  else some number.toInt

/-- Operations of floats with the conversion of the code to integers. -/
def FloatOperations.coded {cfg : Config} (floats : FloatOperations cfg) : FloatOperations cfg :=
  { floats with toInteger := pphpNumberToInteger cfg }

/-! ## `intval` -/

/-- A digit of a base up to 36. -/
def integerDigit (c : UInt8) : Option Nat :=
  if 48 ≤ c ∧ c ≤ 57 then some (c.toNat - 48)
  else if 97 ≤ c ∧ c ≤ 122 then some (c.toNat - 97 + 10)
  else if 65 ≤ c ∧ c ≤ 90 then some (c.toNat - 65 + 10)
  else none

/-- The digit loop of `integer_from_string`: the value and how many digits there are, or nothing where the value passes
the limit. -/
def integerDigits (base limit : Nat) : List UInt8 → Nat → Nat → Option (Nat × Nat)
  | [], value, digits => some (value, digits)
  | c :: rest, value, digits =>
    match (integerDigit c).filter fun digit => decide (digit < base) with
    | none => some (value, digits)
    | some digit =>
      if (limit - digit) / base < value then none
      else integerDigits base limit rest (value * base + digit) (digits + 1)

/-- `0x` and `0b` in front of digits of their base. -/
def skipBasePrefix (base : Nat) (text : List UInt8) : List UInt8 :=
  let second := text.tail.head?
  if text.head? = some 48 ∧ ((base = 16 ∧ (second = some 120 ∨ second = some 88)) ∨
      (base = 2 ∧ (second = some 98 ∨ second = some 66))) then text.drop 2
  else text

/-- `integer_from_string`, for a base from 2 to 36, which `intval` has checked: whether the range has ended, and the
integer. -/
def integerFromString (cfg : Config) (text : List UInt8) (base : Nat) : Bool × Int :=
  let (negative, unsigned) := readSign (text.dropWhile isSpace)
  let limit := if negative then cfg.intMax + 1 else cfg.intMax
  match integerDigits base limit (skipBasePrefix base unsigned) 0 0 with
  | none => (true, if negative then cfg.intMin else cfg.intMax)
  | some (value, digits) =>
    (false, if digits = 0 then 0
      else if negative ∧ value = cfg.intMax + 1 then cfg.intMin
      else if negative then -(value : Int)
      else value)

section Conversions
variable {cfg : Config} (floats : FloatOperations cfg)

/-- `intval` of a value, with a base. -/
def intvalOf (value : PValue cfg) (base : Nat) : Except (List UInt8) (PValue cfg) :=
  match value with
  | .string s =>
    let (overflow, converted) := integerFromString cfg s.bytes base
    if overflow = true ∧ cfg.enableFloat = false then .error (ascii "integer overflow requires float support")
    else .ok (.int converted)
  | value =>
    let (isNumber, numeric) := pvToNumeric floats.toFloatConversions value true
    if isNumber then
      match numericToInteger floats numeric false with
      | some converted => .ok (.int converted)
      | none => .error (ascii "integer conversion is out of range")
    else
      match value with
      | .array entries => .ok (.int (if entries.size ≠ 0 then 1 else 0))
      | _ => .ok (.int 0)

/-- `intval` in `call_conversion_builtin`. -/
def callIntval (arguments : List (PValue cfg)) : Except (List UInt8) (PValue cfg) :=
  match arguments with
  | [value] => intvalOf floats value 10
  | [value, .int base] =>
    if base < 2 ∨ 36 < base then .error (ascii "intval() base must be between 2 and 36")
    else intvalOf floats value base.toNat
  | [_, _] => .error (ascii "intval() base must be between 2 and 36")
  | _ => .error (ascii ("intval() expects 1 to 2 arguments, " ++ toString arguments.length ++ " given"))

/-! ## The cast -/

/-- `execute_cast`: what it pushes for the value it has popped. `memory` says whether an allocation succeeds. -/
def executeCast (memory : Bool) (target : Nat) (value : PValue cfg) : Except (List UInt8) (PValue cfg) :=
  if target = 2 then .ok (if pvIsTruthy value then .ptTrue else .ptFalse)
  else if target = 3 ∨ (target = 4 ∧ cfg.enableFloat = true) then
    let (isNumber, numeric) := pvToNumeric floats.toFloatConversions value (value.type != 5)
    if isNumber = false ∧ numeric.isInteger < 0 then .error (ascii "integer overflow requires float support")
    else if target = 3 then
      match numericToInteger floats numeric false with
      | some integer => .ok (.int integer)
      | none => .error (ascii "integer conversion is out of range")
    else .ok (.float numeric.number)
  else if target = 5 then
    match pvToString floats memory value with
    | some string => .ok (.string string)
    | none => .error (ascii "value cannot be converted to string")
  else if target = 6 then
    match value with
    | .array entries => .ok (.array entries)
    | .null => if memory then .ok (.array .nil) else .error (ascii "out of memory casting to array")
    | value =>
      if memory then .ok (.array (.cons (.int 0) value .nil)) else .error (ascii "out of memory casting to array")
  else .error (ascii "invalid cast target")

end Conversions

/-! ## Digits -/

/-- The bound of the integers of a sign. -/
def NumericPrefix.Pieces.limit (p : Pieces) (cfg : Config) : Nat :=
  if p.sign == [45] then cfg.intMax + 1 else cfg.intMax

/-- The digits before the point, cut off at the ends of the range. -/
def NumericPrefix.Pieces.clamped (p : Pieces) (cfg : Config) : Int :=
  let magnitude := min (decimal 0 p.whole) (p.limit cfg)
  if p.sign == [45] then -(magnitude : Int) else magnitude

theorem integerDigit_of_isDigit {c : UInt8} (digit : isDigit c = true) : integerDigit c = some (c.toNat - 48) := by
  have range : IsDigit c := of_decide_eq_true digit
  exact if_pos range

theorem integerDigit_filter (c : UInt8) : ((integerDigit c).filter fun digit => decide (digit < 10)) =
    if isDigit c then some (c.toNat - 48) else none := by
  by_cases digit : isDigit c = true
  · have range : IsDigit c := of_decide_eq_true digit
    have small : c.toNat - 48 < 10 := by
      have upper := UInt8.le_iff_toNat_le.mp range.2
      change c.toNat ≤ 57 at upper
      omega
    rw [integerDigit_of_isDigit digit, if_pos digit, Option.filter_some, decide_eq_true small, if_pos rfl]
  · have other : ¬ (48 ≤ c ∧ c ≤ 57) := fun range => digit (decide_eq_true range)
    rw [if_neg digit]
    unfold integerDigit
    rw [if_neg other]
    split
    · rw [Option.filter_some, decide_eq_false (by omega), if_neg Bool.false_ne_true]
    · split
      · rw [Option.filter_some, decide_eq_false (by omega), if_neg Bool.false_ne_true]
      · rfl

theorem integerDigits_eq {limit : Nat} (large : 9 ≤ limit) (text : List UInt8) {value : Nat} (within : value ≤ limit)
    (digits : Nat) : integerDigits 10 limit text value digits = if decimal value (text.takeWhile isDigit) ≤ limit then
        some (decimal value (text.takeWhile isDigit), digits + (text.takeWhile isDigit).length) else none := by
  induction text generalizing value digits with
  | nil => exact (if_pos within).symm
  | cons c rest ih =>
    rw [integerDigits, integerDigit_filter]
    by_cases digit : isDigit c = true
    · have range : IsDigit c := of_decide_eq_true digit
      have small : c.toNat - 48 ≤ 9 := by
        have upper := UInt8.le_iff_toNat_le.mp range.2
        change c.toNat ≤ 57 at upper
        omega
      rw [if_pos digit, List.takeWhile_cons_of_pos digit]
      dsimp only
      have grow := le_decimal (value * 10 + (c.toNat - 48)) (rest.takeWhile isDigit)
      have step : decimal value (c :: rest.takeWhile isDigit) =
          decimal (value * 10 + (c.toNat - 48)) (rest.takeWhile isDigit) := rfl
      rw [step]
      by_cases passes : (limit - (c.toNat - 48)) / 10 < value
      · rw [if_pos passes, if_neg (by omega)]
      · rw [if_neg passes, ih (by omega) (digits + 1), List.length_cons]
        simp only [add_assoc, add_comm 1]
    · rw [if_neg digit, List.takeWhile_cons_of_neg digit]
      exact (if_pos within).symm

theorem skipBasePrefix_ten (text : List UInt8) : skipBasePrefix 10 text = text := by
  unfold skipBasePrefix
  rw [if_neg]
  rintro ⟨-, ⟨other, -⟩ | ⟨other, -⟩⟩
  · cases other
  · cases other

theorem intMin_eq (cfg : Config) : cfg.intMin = -((cfg.intMax + 1 : Nat) : Int) := by
  unfold Config.intMin
  omega

/-- **`integer_from_string` in base ten**: the digits before the point, cut off at the ends of the range. -/
theorem integerFromString_ten (cfg : Config) (text : List UInt8) : integerFromString cfg text 10 =
    (decide ((pieces text).limit cfg < decimal 0 (pieces text).whole), (pieces text).clamped cfg) := by
  have large : 9 ≤ (pieces text).limit cfg := by
    unfold NumericPrefix.Pieces.limit Config.intMax
    split <;> split <;> omega
  have least := intMin_eq cfg
  have read := integerDigits_eq large (NumericPrefix.sign.rest (space.rest text)) (Nat.zero_le _) 0
  change integerDigits 10 ((pieces text).limit cfg) (NumericPrefix.sign.rest (space.rest text)) 0 0 =
    if decimal 0 (pieces text).whole ≤ _ then some (decimal 0 (pieces text).whole, 0 + (pieces text).whole.length)
    else none at read
  have code : integerFromString cfg text 10 =
      match integerDigits 10 (if (readSign (space.rest text)).1 then cfg.intMax + 1 else cfg.intMax)
        (skipBasePrefix 10 (readSign (space.rest text)).2) 0 0 with
      | none => (true, if (readSign (space.rest text)).1 then cfg.intMin else cfg.intMax)
      | some (value, digits) =>
        (false, if digits = 0 then 0
          else if (readSign (space.rest text)).1 ∧ value = cfg.intMax + 1 then cfg.intMin
          else if (readSign (space.rest text)).1 then -(value : Int)
          else value) := rfl
  have minus : (readSign (space.rest text)).1 = ((pieces text).sign == [45]) := by rw [readSign_eq]; rfl
  have unsigned : (readSign (space.rest text)).2 = NumericPrefix.sign.rest (space.rest text) := by rw [readSign_eq]
  rw [code, minus, unsigned, skipBasePrefix_ten]
  change (match integerDigits 10 ((pieces text).limit cfg) (NumericPrefix.sign.rest (space.rest text)) 0 0 with
    | none => _ | some (value, digits) => _) = _
  rw [read]
  unfold NumericPrefix.Pieces.clamped
  by_cases fits : decimal 0 (pieces text).whole ≤ (pieces text).limit cfg
  · rw [if_pos fits, decide_eq_false (by omega), Nat.min_eq_left fits]
    apply congrArg (Prod.mk false)
    rw [zero_add]
    by_cases none_there : (pieces text).whole = []
    · rw [none_there, if_pos List.length_nil]
      split
      · rfl
      · rfl
    · rw [if_neg (List.length_eq_zero_iff.not.mpr none_there)]
      cases (pieces text).sign == [45] with
      | true =>
        by_cases last : decimal 0 (pieces text).whole = cfg.intMax + 1
        · rw [if_pos ⟨rfl, last⟩, last, least]
          rfl
        · rw [if_neg fun h => last h.2]
      | false => rfl
  · rw [if_neg fits, decide_eq_true (by omega), Nat.min_eq_right (by omega)]
    unfold NumericPrefix.Pieces.limit
    cases (pieces text).sign == [45] with
    | true => exact congrArg _ least
    | false => rfl

/-! ## Numbers of strings -/

theorem limit_lt (p : Pieces) (cfg : Config) : p.limit cfg < 2 ^ 64 := by
  unfold NumericPrefix.Pieces.limit Config.intMax
  split <;> split <;> omega

theorem foldl_digit_value {limit : Nat} (small : limit < 2 ^ 64) (digits : List UInt8) {value : Nat}
    (within : decimal value digits ≤ limit) :
    (digits.foldl (Magnitude.digit limit) ⟨value, true, true⟩).value = decimal value digits := by
  induction digits generalizing value with
  | nil => rfl
  | cons c rest ih =>
    have grow := le_decimal (value * 10 + (c.toNat - 48)) rest
    have step : decimal value (c :: rest) = decimal (value * 10 + (c.toNat - 48)) rest := rfl
    rw [step] at within ⊢
    have fits : ¬ (2 ^ 64 - 1 - (c.toNat - 48)) / 10 < value := by omega
    have next : Magnitude.digit limit ⟨value, true, true⟩ c = ⟨value * 10 + (c.toNat - 48), true, true⟩ := by
      simp only [Magnitude.digit, if_true, if_neg fits, Bool.and_self, decide_eq_true (grow.trans within)]
    rw [List.foldl_cons, next]
    exact ih within

/-- In the range the integer is the one that is cut off nowhere. -/
theorem value_eq_clamped {p : Pieces} {cfg : Config} (fits : decimal 0 p.whole ≤ p.limit cfg) :
    p.value cfg = p.clamped cfg := by
  have magnitude : (p.magnitude cfg).value = decimal 0 p.whole := foldl_digit_value (limit_lt p cfg) p.whole fits
  unfold NumericPrefix.Pieces.value NumericPrefix.Pieces.clamped
  rw [magnitude, Nat.min_eq_left fits]

theorem clamped_eq_zero_iff {p : Pieces} (cfg : Config) (fits : decimal 0 p.whole ≤ p.limit cfg) :
    p.clamped cfg = 0 ↔ decimal 0 p.whole = 0 := by
  unfold NumericPrefix.Pieces.clamped
  rw [Nat.min_eq_left fits]
  dsimp only
  split
  · omega
  · omega

/-- The float is a number whose integer part is `i`, in the range. -/
structure CutsTo (cfg : Config) (number : PFloat cfg) (i : Int) : Prop where
  inRange : InIntegerRange cfg number
  cut : integerPart (Ieee.value cfg.floatWidth (fractionBits cfg) number) = i

theorem pphpNumberToInteger_iff {cfg : Config} (enabled : cfg.enableFloat = true) (number : PFloat cfg) (i : Int) :
    pphpNumberToInteger cfg number false = some i ↔ CutsTo cfg number i := by
  unfold pphpNumberToInteger
  rw [if_pos enabled]
  by_cases inRange : InIntegerRange cfg number
  · rw [if_neg (not_not.mpr inRange), if_neg fun h => Bool.false_ne_true h.1, Option.some.injEq]
    exact ⟨fun cut => ⟨inRange, cut⟩, fun h => h.cut⟩
  · rw [if_pos inRange]
    exact iff_of_false (fun none_there => by cases none_there) fun h => inRange h.inRange

theorem pphpNumberToInteger_zero (cfg : Config) : pphpNumberToInteger cfg 0 false = some 0 := by
  cases enabled : cfg.enableFloat with
  | false =>
    unfold pphpNumberToInteger
    rw [if_neg (by rw [enabled]; exact Bool.false_ne_true)]
    exact congrArg some BitVec.toInt_zero
  | true =>
    have magnitude : Ieee.magnitude (0 : PFloat cfg) = 0 := Nat.zero_mod _
    have value : Ieee.value cfg.floatWidth (fractionBits cfg) 0 = 0 := by
      have units : Ieee.units (fractionBits cfg) 0 = 0 := if_pos (Nat.two_pow_pos _)
      have sign : (0 : PFloat cfg).msb = false := BitVec.msb_zero
      unfold Ieee.value Ieee.absValue
      rw [sign, magnitude, units, Nat.cast_zero, zero_mul, if_neg Bool.false_ne_true]
    have positive : (0 : ℚ) < -(cfg.intMin : ℚ) := by
      have least : (cfg.intMin : ℚ) = -((cfg.intMax + 1 : ℕ) : ℚ) := by
        rw [intMin_eq]
        push_cast
        rfl
      rw [least, neg_neg]
      positivity
    rw [pphpNumberToInteger_iff enabled]
    refine ⟨⟨?_, ?_, ?_⟩, ?_⟩
    · unfold Ieee.IsFinite
      rw [magnitude]
      exact (floatFormat cfg).infinity_pos
    · rw [value]
      linarith
    · rwa [value]
    · rw [value]
      rfl

section Agreement
variable {cfg : Config} (floats : FloatOperations cfg)

theorem callIntval_string (s : PString) : callIntval floats [.string s] =
    if decimal 0 (pieces s.bytes).whole ≤ (pieces s.bytes).limit cfg ∨ cfg.enableFloat = true then
      .ok (.int ((pieces s.bytes).clamped cfg)) else .error (ascii "integer overflow requires float support") := by
  have code : callIntval floats [.string s] =
      if (integerFromString cfg s.bytes 10).1 = true ∧ cfg.enableFloat = false then
        .error (ascii "integer overflow requires float support")
      else .ok (.int (integerFromString cfg s.bytes 10).2) := rfl
  rw [code, integerFromString_ten]
  by_cases fits : decimal 0 (pieces s.bytes).whole ≤ (pieces s.bytes).limit cfg
  · have within : ¬ (decide ((pieces s.bytes).limit cfg < decimal 0 (pieces s.bytes).whole) = true ∧
        cfg.enableFloat = false) := fun passes => absurd fits (not_le.mpr (of_decide_eq_true passes.1))
    rw [if_neg within]
    exact (if_pos (.inl fits)).symm
  · rw [decide_eq_true (not_le.mp fits)]
    cases cfg.enableFloat with
    | true =>
      rw [if_neg fun h => Bool.noConfusion h.2]
      exact (if_pos (.inr rfl)).symm
    | false =>
      rw [if_pos ⟨rfl, rfl⟩]
      exact (if_neg (not_or.mpr ⟨fits, Bool.false_ne_true⟩)).symm

theorem executeCast_code (memory : Bool) (s : PString) : executeCast floats memory 3 (.string s) =
    let (isNumber, numeric) := stringNumeric floats.toFloatConversions s.bytes false
    if isNumber = false ∧ numeric.isInteger < 0 then .error (ascii "integer overflow requires float support")
    else match numericToInteger floats numeric false with
      | some integer => .ok (.int integer)
      | none => .error (ascii "integer conversion is out of range") := rfl

theorem executeCast_string {memory : Bool} {s : PString} {isNumber : Bool} {numeric : Numeric cfg}
    (read : stringNumeric floats.toFloatConversions s.bytes false = (isNumber, numeric))
    (small : ¬ (isNumber = false ∧ numeric.isInteger < 0)) :
    (executeCast floats memory 3 (.string s)).toOption = (numericToInteger floats numeric false).map .int := by
  rw [executeCast_code, read]
  dsimp only
  rw [if_neg small]
  cases numericToInteger floats numeric false with
  | none => rfl
  | some integer => rfl

theorem executeCast_large {memory : Bool} {s : PString} {numeric : Numeric cfg}
    (read : stringNumeric floats.toFloatConversions s.bytes false = (false, numeric)) (large : numeric.isInteger < 0) :
    executeCast floats memory 3 (.string s) = .error (ascii "integer overflow requires float support") := by
  rw [executeCast_code, read]
  exact if_pos ⟨rfl, large⟩

/-- The text begins with an integer, without a point or an exponent. -/
def BeginsWithInteger (text : List UInt8) : Prop := (pieces text).whole ≠ [] ∧ ¬ Stops (behindDigits text)

/-- The text of the number at the beginning, without the space around it. -/
def NumericPrefix.Pieces.number (p : Pieces) : List UInt8 := p.sign ++ (p.whole ++ (p.fraction ++ p.exponent))

/-- **Where `intval` and the cast agree.** With floats, an integer is in the range, and any other number is a float
whose integer part is the digits before the point. Without floats the text begins with an integer, or with zeros or no
digits before a point or exponent. -/
def ReadAlike (text : List UInt8) : Prop :=
  if cfg.enableFloat then
    (BeginsWithInteger text → decimal 0 (pieces text).whole ≤ (pieces text).limit cfg) ∧
      (¬ BeginsWithInteger text → (pieces text).HasDigits →
        CutsTo cfg (floats.ofDecimal (pieces text).number) ((pieces text).clamped cfg))
  else BeginsWithInteger text ∨ decimal 0 (pieces text).whole = 0

theorem cast_integer (enabled : cfg.enableFloat = true) (memory : Bool) {s : PString}
    (integer : BeginsWithInteger s.bytes) : (executeCast floats.coded memory 3 (.string s)).toOption =
      if decimal 0 (pieces s.bytes).whole ≤ (pieces s.bytes).limit cfg then some (.int ((pieces s.bytes).clamped cfg))
      else none := by
  have partly : (false : Bool) = true → (pieces s.bytes).rest = [] := fun h => absurd h Bool.false_ne_true
  have read := stringNumeric_of_integer floats.coded.toFloatConversions enabled integer.1 integer.2 partly
  by_cases fits : decimal 0 (pieces s.bytes).whole ≤ (pieces s.bytes).limit cfg
  · rw [if_pos (((pieces s.bytes).inRange_iff cfg).mpr fits)] at read
    rw [executeCast_string floats.coded read fun h => Bool.noConfusion h.1, if_pos fits, ← value_eq_clamped fits]
    rfl
  · rw [if_neg (((pieces s.bytes).inRange_iff cfg).not.mpr fits)] at read
    rw [executeCast_string floats.coded read fun h => Bool.noConfusion h.1, if_neg fits]
    rfl

theorem cast_float (enabled : cfg.enableFloat = true) (memory : Bool) {s : PString}
    (other : ¬ BeginsWithInteger s.bytes) :
    ((pieces s.bytes).HasDigits → (executeCast floats.coded memory 3 (.string s)).toOption =
      (pphpNumberToInteger cfg (floats.ofDecimal (pieces s.bytes).number) false).map .int) ∧
    (¬ (pieces s.bytes).HasDigits → (executeCast floats.coded memory 3 (.string s)).toOption = some (.int 0)) := by
  have gives_up : (pieces s.bytes).whole = [] ∨ Stops (behindDigits s.bytes) := by
    by_contra neither
    exact other ⟨fun none_there => neither (.inl none_there), fun stops => neither (.inr stops)⟩
  have read := stringNumeric_of_float floats.coded.toFloatConversions enabled false gives_up
  have partly : ¬ ((false : Bool) = true ∧ (pieces s.bytes).rest ≠ []) := fun h => Bool.false_ne_true h.1
  unfold NumericPrefix.Pieces.float at read
  constructor
  · intro some_digits
    rw [if_neg some_digits, if_neg partly] at read
    rw [executeCast_string floats.coded read fun h => Bool.noConfusion h.1]
    rfl
  · intro no_digits
    rw [if_pos (not_not.mp no_digits)] at read
    rw [executeCast_string floats.coded read fun h => absurd h.2 (lt_irrefl 0)]
    change (pphpNumberToInteger cfg 0 false).map PValue.int = _
    rw [pphpNumberToInteger_zero]
    rfl

theorem cast_without (without : cfg.enableFloat = false) (memory : Bool) (s : PString) :
    (BeginsWithInteger s.bytes → (executeCast floats.coded memory 3 (.string s)).toOption =
      if decimal 0 (pieces s.bytes).whole ≤ (pieces s.bytes).limit cfg then some (.int ((pieces s.bytes).clamped cfg))
      else none) ∧
    (¬ BeginsWithInteger s.bytes → (executeCast floats.coded memory 3 (.string s)).toOption = some (.int 0)) := by
  have disabled : ¬ cfg.enableFloat = true := by rw [without]; exact Bool.false_ne_true
  constructor
  · intro integer
    by_cases fits : decimal 0 (pieces s.bytes).whole ≤ (pieces s.bytes).limit cfg
    · have partly : (false : Bool) = true → (pieces s.bytes).rest = [] := fun h => absurd h Bool.false_ne_true
      have read := stringNumeric_inRange floats.coded.toFloatConversions ⟨integer.1, fits⟩ integer.2 partly
      rw [executeCast_string floats.coded read fun h => Bool.noConfusion h.1, if_pos fits, ← value_eq_clamped fits]
      rfl
    · have partly : ¬ ((false : Bool) = true ∧ (pieces s.bytes).rest ≠ []) := fun h => Bool.false_ne_true h.1
      have out : ((pieces s.bytes).magnitude cfg).inRange = false :=
        Bool.eq_false_iff.mpr (((pieces s.bytes).inRange_iff cfg).not.mpr fits)
      have read : stringNumeric floats.coded.toFloatConversions s.bytes false =
          (false, ⟨0, 0, -1, false, false, .behind ((pieces s.bytes).rest != [])⟩) := by
        unfold stringNumeric
        rw [stringIntegerExact_eq cfg false integer.1 integer.2, Pieces.integer, if_neg partly, out]
        exact if_neg disabled
      rw [if_neg fits, executeCast_large floats.coded read neg_one_lt_zero]
      rfl
  · intro other
    have gives_up : (pieces s.bytes).whole = [] ∨ Stops (behindDigits s.bytes) := by
      by_contra neither
      exact other ⟨fun none_there => neither (.inl none_there), fun stops => neither (.inr stops)⟩
    have read : stringNumeric floats.coded.toFloatConversions s.bytes false =
        (false, ⟨0, 0, 0, false, false, .invalid⟩) := by
      unfold stringNumeric
      rw [stringIntegerExact_of_stops cfg false gives_up, without]
      cases floatingStringNumber s.bytes false with
      | none => rfl
      | some found => rfl
    rw [executeCast_string floats.coded read fun h => absurd h.2 (lt_irrefl 0)]
    change (pphpNumberToInteger cfg 0 false).map PValue.int = _
    rw [pphpNumberToInteger_zero]
    rfl

end Agreement

/-- **`intval` and the cast of a string give the same integer, or both fail, exactly where it is read alike.** -/
theorem intval_eq_cast_iff {cfg : Config} (floats : FloatOperations cfg) (memory : Bool) (s : PString) :
    (callIntval floats.coded [.string s]).toOption = (executeCast floats.coded memory 3 (.string s)).toOption ↔
      ReadAlike floats s.bytes := by
  unfold ReadAlike
  rw [callIntval_string]
  cases enabled : cfg.enableFloat with
  | true =>
    rw [if_pos (.inr rfl), if_pos rfl]
    by_cases integer : BeginsWithInteger s.bytes
    · rw [cast_integer floats enabled memory integer]
      by_cases fits : decimal 0 (pieces s.bytes).whole ≤ (pieces s.bytes).limit cfg
      · rw [if_pos fits]
        exact iff_of_true rfl ⟨fun _ => fits, fun other => absurd integer other⟩
      · rw [if_neg fits]
        exact iff_of_false (fun same => by cases same) fun h => fits (h.1 integer)
    · obtain ⟨number, none_there⟩ := cast_float floats enabled memory integer
      by_cases some_digits : (pieces s.bytes).HasDigits
      · rw [number some_digits]
        change some _ = _ ↔ _
        rw [eq_comm, Option.map_eq_some_iff]
        constructor
        · rintro ⟨i, cut, same⟩
          obtain rfl := PValue.int.inj same
          exact ⟨fun yes => absurd yes integer, fun _ _ => (pphpNumberToInteger_iff enabled _ _).mp cut⟩
        · rintro ⟨-, cuts⟩
          exact ⟨_, (pphpNumberToInteger_iff enabled _ _).mpr (cuts integer some_digits), rfl⟩
      · rw [none_there some_digits]
        have no_whole : (pieces s.bytes).whole = [] := (not_not.mp some_digits).1
        refine iff_of_true ?_ ⟨fun yes => absurd yes integer, fun _ digits => absurd digits some_digits⟩
        have none_read : decimal 0 (pieces s.bytes).whole = 0 := by rw [no_whole]; rfl
        rw [(clamped_eq_zero_iff cfg (none_read.trans_le (Nat.zero_le _))).mpr none_read]
        rfl
  | false =>
    obtain ⟨whole, other⟩ := cast_without floats enabled memory s
    rw [if_neg Bool.false_ne_true]
    by_cases integer : BeginsWithInteger s.bytes
    · rw [whole integer]
      refine iff_of_true ?_ (.inl integer)
      by_cases fits : decimal 0 (pieces s.bytes).whole ≤ (pieces s.bytes).limit cfg
      · rw [if_pos fits, if_pos (.inl fits)]
        rfl
      · rw [if_neg fits, if_neg (not_or.mpr ⟨fits, Bool.false_ne_true⟩)]
        rfl
    · rw [other integer]
      by_cases fits : decimal 0 (pieces s.bytes).whole ≤ (pieces s.bytes).limit cfg
      · rw [if_pos (.inl fits), or_iff_right integer, ← clamped_eq_zero_iff cfg fits]
        constructor
        · intro same
          exact PValue.int.inj (Option.some.inj same)
        · intro zero
          rw [zero]
          rfl
      · rw [if_neg (not_or.mpr ⟨fits, Bool.false_ne_true⟩)]
        refine iff_of_false (fun same => by cases same) (not_or.mpr ⟨integer, fun zero => fits ?_⟩)
        rw [zero]
        exact Nat.zero_le _

/-- A build with 64-bit integers and single floats. -/
def singleBuild : Config := ⟨true, false, true, false, false⟩

/-- Floats that are read from texts as the code does it. -/
def readFloats : FloatOperations singleBuild :=
  { oneAsFloat singleBuild with
    ofDecimal := pphpDecimalToFloat
    ofDigits := fun digits => pphpIntegerDigitsToFloat singleBuild digits 10 }

/-- `intval("1e3")` is 1 and `(int) "1e3"` is 1000. -/
theorem exponent_is_not_read :
    (callIntval readFloats.coded [.string ⟨ascii "1e3", by decide⟩]).toOption = some (.int 1) ∧
      (executeCast readFloats.coded true 3 (.string ⟨ascii "1e3", by decide⟩)).toOption = some (.int 1000) := by
  have other : ¬ BeginsWithInteger (ascii "1e3") := fun integer => integer.2 (by decide)
  have some_digits : (pieces (ascii "1e3")).HasDigits := fun none_there => absurd none_there.1 (by decide)
  have number :
      pphpNumberToInteger singleBuild (pphpDecimalToFloat (pieces (ascii "1e3")).number) false = some 1000 := by
    decide +kernel
  refine ⟨rfl, ?_⟩
  rw [(cast_float readFloats rfl true other).1 some_digits]
  exact congrArg (Option.map PValue.int) number

end PhpPico.Value
